/-
  Toke.Tkir.Sections — **A FILE AS ITS SECTIONS.**

  `tkir_decode` reads the header of a section, then its body, then goes to the
  end the header gives.  Where the sections lie is therefore a matter of the
  headers alone (`leadingFrames`), and an accepted file is one whose headers are
  complete and whose bodies parse one after the other (`tkirDecode_ok_iff`).
  Every section with a table replaces that table by as many entries as its
  count field says (`parseFrames_tableSize`).
-/
import Toke.Tkir.Decode
import Toke.Library.Reading

namespace Toke.Tkir

open List Reading

/-! ## §1. Frames. -/

/-- A section whose header is complete and whose end is in the file. -/
structure Frame where
  tag : Nat
  start : Nat
  stop : Nat

/-- The nine bytes in front of `count` sections. -/
def fileHeader (count : Nat) : List UInt8 := u32 tkirMagic ++ [1, 0, 0] ++ u16 count

section

variable (data : List UInt8)

/-- The sections up to the first broken header, and whether there is none. -/
def leadingFrames : Nat → Nat → Nat → List Frame × Bool
  | 0, _, _ => ([], true)
  | n + 1, si, pos =>
    match (readFrame data si).run pos with
    | .error _ => ([], false)
    | .ok ((tag, stop), start) =>
      let rest := leadingFrames n (si + 1) stop
      (⟨tag, start, stop⟩ :: rest.1, rest.2)

/-- The sections of a file. -/
def fileFrames : List Frame × Bool :=
  match (readHeader data).run 0 with
  | .error _ => ([], false)
  | .ok ((_, count), pos) => leadingFrames data count 0 pos

/-- The tables of well-formed sections. -/
def parseFrames : List Frame → TkirModule → Option TkirModule
  | [], mod => some mod
  | f :: fs, mod =>
    match (parseBody data f.tag f.stop mod).run f.start with
    | .error _ => none
    | .ok (mod', _) => parseFrames fs mod'

/-! ## §2. Accepted files. -/

variable {data} {mod mod' : TkirModule}

theorem run'_ok {f : Reader TkirModule} {pos : Nat} (h : f.run' pos = .ok mod) :
    ∃ pos', f.run pos = .ok (mod, pos') := by
  rw [StateT.run'_eq] at h
  cases hf : f.run pos with
  | error e => rw [hf] at h; cases h
  | ok r => rw [hf] at h; cases h; exact ⟨r.2, rfl⟩

/-- The loop over the sections from number `si` on. -/
theorem foldSections_ok_iff : ∀ (n si pos : Nat) (mod : TkirModule),
    ((range' si n).foldlM (fun mod si => parseSection data si mod) mod).run' pos = .ok mod' ↔
      (leadingFrames data n si pos).2 = true ∧
        parseFrames data (leadingFrames data n si pos).1 mod = some mod' := by
  intro n
  induction n with
  | zero =>
    intro si pos mod
    show Except.ok mod = .ok mod' ↔ _ ∧ some mod = some mod'
    simp [leadingFrames]
  | succ n ih =>
    intro si pos mod
    show (((readFrame data si >>= fun frame => parseBody data frame.1 frame.2 mod >>= fun mod =>
      set frame.2 >>= fun _ => pure mod).run pos >>= fun r =>
        ((range' (si + 1) n).foldlM (fun mod si => parseSection data si mod) r.1).run r.2)
          |>.map Prod.fst) = _ ↔ _
    rw [StateT.run_bind]
    unfold leadingFrames
    cases (readFrame data si).run pos with
    | error msg => exact iff_of_false nofun nofun
    | ok frame =>
      obtain ⟨⟨tag, stop⟩, start⟩ := frame
      unfold parseFrames
      dsimp only
      show (((parseBody data tag stop mod).run start >>= _) >>= _ |>.map Prod.fst) = _ ↔ _
      cases (parseBody data tag stop mod).run start with
      | error msg => exact iff_of_false nofun nofun
      | ok r => exact ih (si + 1) stop r.1

/-- **An accepted file** has complete section headers and bodies that parse. -/
theorem tkirDecode_ok_iff : tkirDecode data = .ok mod ↔ ∃ empty count pos,
    (readHeader data).run 0 = .ok ((empty, count), pos) ∧ (fileFrames data).2 = true ∧
      parseFrames data (fileFrames data).1 empty = some mod := by
  unfold fileFrames
  show ((readHeader data).run 0 >>= fun r => (parseSections data r.1.2 r.1.1).run r.2).map Prod.fst
    = _ ↔ _
  cases (readHeader data).run 0 with
  | error msg => exact iff_of_false nofun nofun
  | ok header =>
    obtain ⟨⟨empty, count⟩, pos⟩ := header
    show (parseSections data count empty).run' pos = _ ↔ _
    unfold parseSections
    rw [range_eq_range', foldSections_ok_iff]
    constructor
    · exact fun h => ⟨empty, count, pos, rfl, h⟩
    · rintro ⟨_, _, _, hsame, h⟩
      cases hsame
      exact h

/-- What every section keeps holds of the module. -/
theorem parseFrames_keeps (Inv : TkirModule → Prop)
    (hbody : ∀ tag stop mod, Inv mod → Yields (parseBody data tag stop mod) Inv) :
    ∀ {fs : List Frame} {mod : TkirModule}, Inv mod → parseFrames data fs mod = some mod' → Inv mod'
  | [], _, h, hparse => by
    cases hparse
    exact h
  | f :: fs, mod, h, hparse => by
    unfold parseFrames at hparse
    cases hrun : (parseBody data f.tag f.stop mod).run f.start with
    | error msg =>
      rw [hrun] at hparse
      cases hparse
    | ok r =>
      rw [hrun] at hparse
      exact parseFrames_keeps Inv hbody (hbody f.tag f.stop mod h hrun) hparse

/-- The last section is parsed last. -/
theorem parseFrames_concat (fs : List Frame) (f : Frame) (mod : TkirModule)
    (h : parseFrames data (fs ++ [f]) mod = some mod') : ∃ m pos,
      parseFrames data fs mod = some m ∧
        (parseBody data f.tag f.stop m).run f.start = .ok (mod', pos) := by
  induction fs generalizing mod with
  | nil =>
    rw [nil_append] at h
    unfold parseFrames at h
    cases hrun : (parseBody data f.tag f.stop mod).run f.start with
    | error msg =>
      rw [hrun] at h
      cases h
    | ok r =>
      rw [hrun] at h
      cases h
      exact ⟨mod, r.2, rfl, hrun⟩
  | cons g fs ih =>
    rw [cons_append] at h
    unfold parseFrames at h ⊢
    cases hrun : (parseBody data g.tag g.stop mod).run g.start with
    | error msg =>
      rw [hrun] at h
      cases h
    | ok r =>
      rw [hrun] at h
      exact ih r.1 h

/-! ## §3. The sizes of the tables. -/

/-- The sections that fill a table. -/
def tableTags : List Nat := [secType, secFunc, secData, secImport, secExport]

/-- The number of entries of the table a section fills. -/
def TkirModule.tableSize (mod : TkirModule) (tag : Nat) : Nat :=
  if tag = secType then mod.types.length
  else if tag = secFunc then mod.funcs.length
  else if tag = secData then mod.data.length
  else if tag = secImport then mod.imports.length
  else if tag = secExport then mod.exports.length
  else 0

variable (data) in
/-- The count field a section with a table begins with. -/
def Frame.count (f : Frame) : Nat := littleEndian ((data.drop f.start).take 2)

variable (data) in
/-- The count field of the last section of a tag, 0 where there is none. -/
def lastCount (fs : List Frame) (tag : Nat) : Nat :=
  ((fs.filter (·.tag = tag)).getLast?.map (Frame.count data)).getD 0

theorem lastCount_concat (fs : List Frame) (f : Frame) (tag : Nat) :
    lastCount data (fs ++ [f]) tag = if f.tag = tag then f.count data else lastCount data fs tag := by
  unfold lastCount
  split
  · next h => simp [filter_append, h]
  · next h => simp [filter_append, h]

/-- A table is a count and as many entries. -/
theorem table_run {α : Type} {entry : Nat → Reader α} {msg : String} {put : List α → TkirModule}
    {start pos : Nat} (h : (curReadU16 data msg >>= fun n => readMany n entry >>= fun es =>
      pure (put es)).run start = .ok (mod', pos)) :
    ∃ es, mod' = put es ∧ es.length = littleEndian ((data.drop start).take 2) ∧
      ∀ {Φ : α → Prop}, (∀ i, Yields (entry i) Φ) → ∀ e ∈ es, Φ e := by
  obtain ⟨count, p, hcount, h⟩ := run_bind_ok h
  obtain ⟨es, p', hes, h⟩ := run_bind_ok h
  cases h
  refine ⟨es, rfl, ?_, fun hentry => Yields.mapM hentry hes⟩
  have hlen : es.length = count := (Yields.mapM_length _ hes).trans length_range
  rw [hlen]
  obtain ⟨bytes, q, hbytes, hvalue⟩ := run_bind_ok hcount
  cases hvalue
  unfold curReadBytes at hbytes
  simp only [StateT.run_bind, StateT.run_get, pure_bind] at hbytes
  split at hbytes
  · cases hbytes
  · cases hbytes
    rfl

/-- The code only goes to functions that are there. -/
theorem parseCodeLoop_length (stop fuel : Nat) (funcs : List TkirFuncDef) :
    Yields (parseCodeLoop data stop fuel funcs) fun fs => fs.length = funcs.length := by
  induction fuel generalizing funcs with
  | zero => exact Yields.pure rfl
  | succ fuel ih =>
    refine Yields.seq fun pos => Yields.ite (fun _ => Yields.pure rfl) fun _ => ?_
    refine Yields.seq fun idx => Yields.seq fun n => ?_
    cases funcs[idx]? with
    | none => exact Yields.throw _
    | some fn => exact Yields.seq fun instrs => (ih _).mono fun fs h => h.trans length_set

/-- **A section replaces its own table** by as many entries as it counts. -/
theorem parseBody_tableSize {f : Frame} {pos : Nat}
    (h : (parseBody data f.tag f.stop mod).run f.start = .ok (mod', pos)) :
    ∀ tag ∈ tableTags, mod'.tableSize tag = if f.tag = tag then f.count data else mod.tableSize tag := by
  have hsizes : ∀ m : TkirModule, tableTags.map m.tableSize =
      [m.types.length, m.funcs.length, m.data.length, m.imports.length, m.exports.length] :=
    fun _ => rfl
  suffices hmap : tableTags.map mod'.tableSize = tableTags.map fun tag =>
      if f.tag = tag then f.count data else mod.tableSize tag from map_inj_left.mp hmap
  rw [hsizes]
  unfold parseBody at h
  split at h
  · next hf =>
      obtain ⟨es, rfl, hlen, -⟩ := table_run h
      rw [hf]
      exact congrArg (· :: _) hlen
  split at h
  · next hf =>
      obtain ⟨es, rfl, hlen, -⟩ := table_run h
      rw [hf]
      exact congrArg (_ :: · :: _) hlen
  split at h
  · next hf =>
      obtain ⟨fs, p, hfs, hrest⟩ := run_bind_ok h
      cases hrest
      rw [hf]
      exact congrArg (_ :: · :: _) (parseCodeLoop_length _ _ _ hfs)
  split at h
  · next hf =>
      obtain ⟨es, rfl, hlen, -⟩ := table_run h
      rw [hf]
      exact congrArg (_ :: _ :: · :: _) hlen
  split at h
  · next hf =>
      obtain ⟨es, rfl, hlen, -⟩ := table_run h
      rw [hf]
      exact congrArg (_ :: _ :: _ :: · :: _) hlen
  split at h
  · next hf =>
      obtain ⟨es, rfl, hlen, -⟩ := table_run h
      rw [hf]
      exact congrArg (_ :: _ :: _ :: _ :: · :: _) hlen
  · next htype hfunc hcode hdata himport hexport =>
      cases h
      simp only [tableTags, map_cons, map_nil, htype, hfunc, hdata, himport, hexport, if_false]
      rfl

/-- **The tables of a file have the sizes that the last sections of their tags
count.** -/
theorem parseFrames_tableSize {fs : List Frame} {empty : TkirModule}
    (hempty : ∀ tag ∈ tableTags, empty.tableSize tag = 0)
    (h : parseFrames data fs empty = some mod) :
    ∀ tag ∈ tableTags, mod.tableSize tag = lastCount data fs tag := by
  induction fs using reverseRecOn generalizing mod with
  | nil =>
    cases h
    exact hempty
  | append_singleton fs f ih =>
    obtain ⟨m, pos, hm, hlast⟩ := parseFrames_concat fs f empty h
    intro tag htag
    rw [parseBody_tableSize hlast tag htag, lastCount_concat, ih hm tag htag]

/-- The header leaves every table empty. -/
theorem readHeader_empty {count pos : Nat} {empty : TkirModule}
    (h : (readHeader data).run 0 = .ok ((empty, count), pos)) :
    ∃ vmaj vmin flags, empty = ⟨[], [], [], [], [], vmaj, vmin, flags⟩ := by
  have hyields : Yields (readHeader data) fun r =>
      ∃ vmaj vmin flags, r.1 = ⟨[], [], [], [], [], vmaj, vmin, flags⟩ := by
    refine Yields.ite (fun _ => Yields.failed _) fun _ => Yields.seq fun magic => ?_
    refine Yields.ite (fun _ => Yields.failed _) fun _ => ?_
    refine Yields.seq fun vmaj => Yields.seq fun vmin => ?_
    refine Yields.ite (fun _ => Yields.failed _) fun _ => ?_
    exact Yields.seq fun flags => Yields.seq fun count => Yields.pure ⟨vmaj, vmin, flags, rfl⟩
  exact hyields h

theorem readHeader_tableSize {count pos : Nat} {empty : TkirModule}
    (h : (readHeader data).run 0 = .ok ((empty, count), pos)) :
    ∀ tag ∈ tableTags, empty.tableSize tag = 0 := by
  obtain ⟨vmaj, vmin, flags, rfl⟩ := readHeader_empty h
  intro tag _
  unfold TkirModule.tableSize
  split_ifs <;> rfl

end

end Toke.Tkir
