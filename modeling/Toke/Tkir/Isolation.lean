/-
  Toke.Tkir.Isolation — **WHICH BYTES A SECTION IS READ FROM.**

  The section parsers stop at the end of the file, not at the end of their
  section: a section that promises more entries than it holds takes them from
  the bytes behind it (`section_reads_past_end`).  A file whose first sections
  still decode when it is cut off behind them is read from these bytes alone
  (`sections_isolated`).
-/
import Toke.Tkir.Validate

namespace Toke.Tkir

open Reading

/-! ## §1. Longer files. -/

section Longer

variable {data rest : List UInt8}

theorem curReadBytes_below {n : Nat} {msg : String} :
    Below (curReadBytes data n msg) (curReadBytes (data ++ rest) n msg) := by
  intro pos r hrun
  unfold curReadBytes at hrun ⊢
  simp only [StateT.run_bind, StateT.run_get, pure_bind, List.length_append] at hrun ⊢
  by_cases hlen : pos + n > data.length
  · rw [if_pos hlen] at hrun
    cases hrun
  · rw [if_neg hlen] at hrun
    rw [if_neg (by omega), ← hrun]
    have hslice : ((data ++ rest).drop pos).take n = (data.drop pos).take n := by
      rw [List.drop_append_of_le_length (by omega), List.take_append_of_le_length]
      rw [List.length_drop]
      omega
    show Except.ok _ = Except.ok _
    rw [hslice]

theorem curReadNat_below {n : Nat} {msg : String} :
    Below (curReadNat data n msg) (curReadNat (data ++ rest) n msg) :=
  Below.bind curReadBytes_below fun _ => Below.refl _

theorem bindNat_below {α : Type} {n : Nat} {msg : String} {k k' : Nat → Reader α}
    (h : ∀ a, Below (k a) (k' a)) :
    Below (curReadNat data n msg >>= k) (curReadNat (data ++ rest) n msg >>= k') :=
  Below.bind curReadNat_below h

theorem curReadStr_below {size : Nat} {msg : String} :
    Below (curReadStr data size msg) (curReadStr (data ++ rest) size msg) := by
  refine bindNat_below fun len => ?_
  exact Below.bind curReadBytes_below fun _ => Below.refl _

theorem parseTypeName_below {kind : Nat} :
    Below (parseTypeName data kind) (parseTypeName (data ++ rest) kind) :=
  Below.ite (curReadStr_below) (Below.refl _)

theorem parseElemType_below {kind : Nat} :
    Below (parseElemType data kind) (parseElemType (data ++ rest) kind) :=
  Below.ite (curReadNat_below) (Below.refl _)

theorem parseFieldTypes_below {kind : Nat} :
    Below (parseFieldTypes data kind) (parseFieldTypes (data ++ rest) kind) := by
  refine Below.ite ?_ (Below.ite ?_ (Below.refl _))
  · exact bindNat_below fun n =>
      Below.mapM fun _ => curReadNat_below
  · exact bindNat_below fun n =>
      Below.mapM fun _ => curReadNat_below

theorem parseTypeEntry_below (i : Nat) :
    Below (parseTypeEntry data i) (parseTypeEntry (data ++ rest) i) := by
  refine bindNat_below fun kind => Below.guard id ?_
  refine Below.bind parseTypeName_below fun name => ?_
  refine Below.bind parseElemType_below fun elem => ?_
  exact Below.bind parseFieldTypes_below fun fields => Below.refl _

theorem parseFuncEntry_below (typeCount i : Nat) :
    Below (parseFuncEntry data typeCount i) (parseFuncEntry (data ++ rest) typeCount i) := by
  refine Below.bind curReadStr_below fun name => ?_
  refine bindNat_below fun flags => ?_
  refine bindNat_below fun typeIdx => ?_
  refine bindNat_below fun regCount => ?_
  refine bindNat_below fun paramCount => ?_
  exact Below.guard id (Below.refl _)

theorem parseImmediate_below {op : Nat} :
    Below (parseImmediate data op) (parseImmediate (data ++ rest) op) := by
  -- every immediate is one number, but for the call with its argument list
  have hone : ∀ n msg, Below (do return (← curReadNat data n msg, ([] : List Nat)))
      (do return (← curReadNat (data ++ rest) n msg, [])) :=
    fun n msg => bindNat_below fun _ => Below.refl _
  refine Below.ite (hone _ _) (Below.ite (hone _ _) (Below.ite (hone _ _) (Below.ite ?_
    (Below.ite (hone _ _) (Below.ite (hone _ _) (Below.refl _))))))
  refine bindNat_below fun callee => ?_
  refine bindNat_below fun n => ?_
  exact (Below.mapM fun _ => curReadNat_below).bind fun args => Below.refl _

theorem parseInstr_below (fn : TkirFuncDef) (i : Nat) :
    Below (parseInstr data fn i) (parseInstr (data ++ rest) fn i) := by
  refine bindNat_below fun op => Below.guard id ?_
  refine bindNat_below fun dst => ?_
  refine bindNat_below fun src => ?_
  refine bindNat_below fun rhs => Below.guard id ?_
  exact Below.bind parseImmediate_below fun imm => Below.refl _

theorem parseDataEntry_below (secEnd i : Nat) :
    Below (parseDataEntry data secEnd i) (parseDataEntry (data ++ rest) secEnd i) := by
  refine bindNat_below fun kind => ?_
  refine bindNat_below fun size => ?_
  refine (Below.refl _).bind fun pos => Below.guard id ?_
  exact Below.bind curReadBytes_below fun bytes => Below.refl _

theorem parseImportEntry_below (i : Nat) :
    Below (parseImportEntry data i) (parseImportEntry (data ++ rest) i) := by
  refine Below.bind curReadStr_below fun name => ?_
  refine Below.bind curReadStr_below fun module => ?_
  refine bindNat_below fun kind => ?_
  exact bindNat_below fun typeIdx => Below.refl _

theorem parseExportEntry_below (i : Nat) :
    Below (parseExportEntry data i) (parseExportEntry (data ++ rest) i) := by
  refine Below.bind curReadStr_below fun name => ?_
  refine bindNat_below fun kind => ?_
  exact bindNat_below fun index => Below.refl _

/-- A table: a count and as many entries. -/
theorem table_below {α : Type} {entry entry' : Nat → Reader α} {msg : String}
    {put : List α → TkirModule} (h : ∀ i, Below (entry i) (entry' i)) :
    Below (curReadU16 data msg >>= fun n => readMany n entry >>= fun es => pure (put es))
      (curReadU16 (data ++ rest) msg >>= fun n => readMany n entry' >>= fun es => pure (put es)) :=
  bindNat_below fun _ => (Below.mapM h).bind fun _ => Below.refl _

/-- The code section. -/
theorem parseCodeLoop_below (secEnd fuel : Nat) (funcs : List TkirFuncDef) :
    Below (parseCodeLoop data secEnd fuel funcs) (parseCodeLoop (data ++ rest) secEnd fuel funcs) := by
  induction fuel generalizing funcs with
  | zero => exact Below.refl _
  | succ fuel ih =>
    refine (Below.refl _).bind fun pos => Below.ite (Below.refl _) ?_
    refine bindNat_below fun idx => bindNat_below fun n => ?_
    cases funcs[idx]? with
    | none => exact Below.refl _
    | some fn => exact (Below.mapM (parseInstr_below fn)).bind fun instrs => ih _

theorem parseBody_below {tag secEnd : Nat} (mod : TkirModule) :
    Below (parseBody data tag secEnd mod) (parseBody (data ++ rest) tag secEnd mod) := by
  refine Below.ite (table_below parseTypeEntry_below) ?_
  refine Below.ite (table_below (parseFuncEntry_below _)) ?_
  refine Below.ite ?_ ?_
  · exact (parseCodeLoop_below secEnd secEnd mod.funcs).bind fun _ => Below.refl _
  refine Below.ite (table_below (parseDataEntry_below secEnd)) ?_
  refine Below.ite (table_below parseImportEntry_below) ?_
  exact Below.ite (table_below parseExportEntry_below) (Below.refl _)

theorem readFrame_below (si : Nat) : Below (readFrame data si) (readFrame (data ++ rest) si) := by
  refine bindNat_below fun tag => ?_
  refine bindNat_below fun len => ?_
  refine (Below.refl _).bind fun pos => Below.guard ?_ (Below.refl _)
  rw [List.length_append]
  omega

theorem parseSection_below (si : Nat) (mod : TkirModule) :
    Below (parseSection data si mod) (parseSection (data ++ rest) si mod) :=
  (readFrame_below si).bind fun _ => (parseBody_below mod).bind fun _ => Below.refl _

theorem readHeader_below : Below (readHeader data) (readHeader (data ++ rest)) := by
  refine Below.guard ?_ (bindNat_below fun magic => ?_)
  · rw [List.length_append]
    omega
  refine Below.guard id ?_
  refine bindNat_below fun vmaj => ?_
  refine bindNat_below fun vmin => Below.guard id ?_
  exact bindNat_below fun flags => bindNat_below fun count => Below.refl _

/-! ## §2. Stopping behind a section. -/

variable (data rest)

/-- The body of `tkir_decode`, left behind its first `n` sections. -/
def fileUpTo (n : Nat) : Reader TkirModule := do
  let header ← readHeader data
  parseSections data (min n header.2) header.1

/-- The tables as they are behind the first `n` sections. -/
def tablesAfter (n : Nat) : Except String TkirModule := (fileUpTo data n).run' 0

theorem fileUpTo_below (n : Nat) : Below (fileUpTo data n) (fileUpTo (data ++ rest) n) :=
  readHeader_below.bind fun _ => Below.foldlM (fun mod si => parseSection_below si mod) _

/-- Behind all sections the tables are those of the module. -/
theorem tablesAfter_all {n count pos : Nat} {mod : TkirModule}
    (h : (readHeader data).run 0 = .ok ((mod, count), pos)) (hn : count ≤ n) :
    tablesAfter data n = tkirDecode data := by
  unfold tablesAfter tkirDecode fileUpTo decodeFile
  rw [StateT.run'_eq, StateT.run'_eq, run_bind_of_ok h, run_bind_of_ok h, Nat.min_eq_right hn]

/-- What the first sections of a file decode to, they decode to in every
longer file. -/
theorem tablesAfter_append {n : Nat} {mod : TkirModule} (h : tablesAfter data n = .ok mod) :
    tablesAfter (data ++ rest) n = .ok mod := by
  obtain ⟨pos, hrun⟩ := run'_ok h
  unfold tablesAfter
  rw [StateT.run'_eq, fileUpTo_below data rest n hrun]
  rfl

/-- Where the first `n` sections end, by the lengths in their headers. -/
def sectionsEnd : Nat → Nat
  | 0 => 9
  | n + 1 => sectionsEnd n + 5 + littleEndian ((data.drop (sectionsEnd n + 1)).take 4)

end Longer

/-! ## §3. Isolation. -/

/-- **A section is isolated in every file that can be cut off behind it**: two
files that agree up to the end of section `k` have the same tables there,
whatever follows. -/
theorem sections_isolated (data data' : List UInt8) (k : Nat)
    (hagree : data.take (sectionsEnd data (k + 1)) = data'.take (sectionsEnd data (k + 1)))
    (hcut : (tablesAfter (data.take (sectionsEnd data (k + 1))) (k + 1)).isOk = true) :
    tablesAfter data (k + 1) = tablesAfter data' (k + 1) := by
  cases hmod : tablesAfter (data.take (sectionsEnd data (k + 1))) (k + 1) with
  | error e => rw [hmod] at hcut; cases hcut
  | ok m =>
    have hdata := tablesAfter_append _ (data.drop (sectionsEnd data (k + 1))) hmod
    rw [hagree] at hmod
    have hdata' := tablesAfter_append _ (data'.drop (sectionsEnd data (k + 1))) hmod
    rw [List.take_append_drop] at hdata hdata'
    rw [hdata, hdata']

theorem soundFile_isolated : tablesAfter (soundFile ++ [1]) 1 = tablesAfter (soundFile ++ [2]) 1 :=
  sections_isolated (soundFile ++ [1]) (soundFile ++ [2]) 0 (by decide +kernel) (by decide +kernel)

/-- A type section of two bytes that promises one type. -/
def overreadingFile (kind : Nat) : List UInt8 :=
  fileHeader 1 ++ sectionBytes secType (u16 1) ++ u8 kind

/-- The type is the byte behind the section. -/
theorem section_reads_past_end :
    (overreadingFile tyI64).take (sectionsEnd (overreadingFile tyI64) 1) =
        (overreadingFile tyStr).take (sectionsEnd (overreadingFile tyI64) 1) ∧
      tkirDecode (overreadingFile tyI64) = .ok ⟨[⟨tyI64, [], 0, []⟩], [], [], [], [], 1, 0, 0⟩ ∧
      tkirDecode (overreadingFile tyStr) = .ok ⟨[⟨tyStr, [], 0, []⟩], [], [], [], [], 1, 0, 0⟩ := by
  decide +kernel

end Toke.Tkir
