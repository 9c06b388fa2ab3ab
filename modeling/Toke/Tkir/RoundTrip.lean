/-
  Toke.Tkir.RoundTrip — **WHAT THE READER MAKES OF A WRITTEN FILE.**

  The writer puts the magic down as text, the reader takes it as a number
  stored least significant byte first: no written file gets past the header
  (`decode_emit`).  Behind the header the two agree on all tables, as long as
  no array or function type is used and no function has code (`sections_read`).
-/
import Toke.Tkir.Decode
import Toke.Names.FrontEnd

namespace Toke.Tkir

open List

variable {p v : Nat} {a b : List UInt8} {t : EncTypeEntry}

/-! ## §1. Reading. -/

/-- The reader run from `p` yields `x` and stops at `q`. -/
def Reads {α : Type} (f : Reader α) (p : Nat) (x : α) (q : Nat) : Prop := f.run p = .ok (x, q)

theorem Reads.bind {α β : Type} {f : Reader α} {g : α → Reader β} {q r : Nat} {x : α} {y : β}
    (hf : Reads f p x q) (hg : Reads (g x) q y r) : Reads (f >>= g) p y r := by
  unfold Reads at *
  rw [StateT.run_bind, hf]
  exact hg

section Bytes

variable {α β : Type} {data : List UInt8} {limit : Nat}

/-- The bytes stand at position `p`. -/
def At (data : List UInt8) (p : Nat) (bytes : List UInt8) : Prop :=
  ∃ before after, data = before ++ (bytes ++ after) ∧ before.length = p

theorem At.left (h : At data p (a ++ b)) : At data p a := by
  obtain ⟨before, after, hdata, hp⟩ := h
  exact ⟨before, b ++ after, by rw [hdata, append_assoc], hp⟩

theorem At.right (h : At data p (a ++ b)) :
    At data (p + a.length) b := by
  obtain ⟨before, after, hdata, hp⟩ := h
  refine ⟨before ++ a, after, ?_, ?_⟩
  · rw [hdata, append_assoc, append_assoc]
  · rw [length_append, hp]

/-- Wherever the bytes stand in the file before `limit`, the reader takes
exactly them and yields `x`. -/
def Parses (data : List UInt8) (limit : Nat) (f : Reader α) (bytes : List UInt8) (x : α) : Prop :=
  ∀ p, At data p bytes → p + bytes.length ≤ limit → Reads f p x (p + bytes.length)

theorem Parses.pure (x : α) : Parses data limit (pure x) [] x := fun _ _ _ => rfl

theorem Parses.bind {f : Reader α} {g : α → Reader β} {x : α} {y : β}
    (hf : Parses data limit f a x) (hg : Parses data limit (g x) b y) : Parses data limit (f >>= g) (a ++ b) y := by
  intro p h hlimit
  rw [length_append, ← Nat.add_assoc] at hlimit ⊢
  exact (hf p h.left (by omega)).bind (hg (p + a.length) h.right hlimit)

/-- The last read of a block. -/
theorem Parses.map {f : Reader α} {x : α} (g : α → β) (hf : Parses data limit f a x) :
    Parses data limit (f >>= fun x => Pure.pure (g x)) a (g x) := by
  have h := hf.bind (g := fun y => Pure.pure (g y)) (Parses.pure (g x))
  rwa [append_nil] at h

theorem parses_bytes (bytes : List UInt8) (msg : String) :
    Parses data limit (curReadBytes data bytes.length msg) bytes bytes := by
  intro p h _
  obtain ⟨before, after, rfl, rfl⟩ := h
  unfold Reads curReadBytes
  simp only [StateT.run_bind, StateT.run_get, pure_bind, length_append]
  rw [if_neg (by omega)]
  show Except.ok _ = Except.ok _
  rw [drop_left, take_left]

theorem parses_nat (bytes : List UInt8) (msg : String) :
    Parses data limit (curReadNat data bytes.length msg) bytes (littleEndian bytes) :=
  (parses_bytes bytes msg).map littleEndian

/-- A table is read entry by entry when each entry is; the entry's number only
reaches the messages. -/
theorem parses_many {f : Nat → Reader β} {bytes : α → List UInt8} {value : α → β} {xs : List α}
    (hentry : ∀ x ∈ xs, ∀ i, Parses data limit (f i) (bytes x) (value x)) :
    Parses data limit (readMany xs.length f) (xs.flatMap bytes) (xs.map value) := by
  unfold readMany
  rw [range_eq_range']
  generalize 0 = start
  induction xs generalizing start with
  | nil => exact Parses.pure []
  | cons x xs ih =>
    rw [length_cons, range'_succ, mapM_cons]
    have hx := hentry x mem_cons_self start
    have hxs := ih (forall_mem_cons.mp hentry).2 (start + 1)
    exact hx.bind (hxs.map _)

/-! ## §2. The header. -/

theorem decode_wrong_magic {magic : Nat} (hlen : 9 ≤ data.length)
    (hread : Reads (curReadU32 data "invalid magic bytes (expected 'TKIR')") 0 magic 4)
    (hne : magic ≠ tkirMagic) :
    tkirDecode data = .error "invalid magic bytes (expected 'TKIR')" := by
  have hheader : (readHeader data).run 0 = .error "invalid magic bytes (expected 'TKIR')" := by
    unfold readHeader
    rw [if_neg (by omega), StateT.run_bind, hread]
    show (ite _ _ _ : Reader (TkirModule × Nat)).run 4 = _
    rw [if_pos hne]
    rfl
  unfold tkirDecode decodeFile
  rw [StateT.run'_eq, StateT.run_bind, hheader]
  rfl

theorem emit_header (src : Source) (truncate : List Char → Int64) (ast : Node) :
    ∃ rest, emitTkir src truncate ast = encWriteHeader ++ rest := by
  unfold emitTkir encWrite
  exact ⟨_, rfl⟩

/-- Every written file is refused for its magic: the text `TKIR` read as a
number is not the number whose digits spell it. -/
theorem decode_emit (src : Source) (truncate : List Char → Int64) (ast : Node) :
    tkirDecode (emitTkir src truncate ast) = .error "invalid magic bytes (expected 'TKIR')" := by
  obtain ⟨rest, hfile⟩ := emit_header src truncate ast
  rw [hfile]
  have hat : At (encWriteHeader ++ rest) 0 (textBytes "TKIR".toList) :=
    ⟨[], u8 1 ++ u8 0 ++ u8 0x02 ++ u16 6 ++ rest, rfl, rfl⟩
  have hlen : 9 ≤ (encWriteHeader ++ rest).length := by
    have h9 : encWriteHeader.length = 9 := by decide
    rw [length_append]
    omega
  exact decode_wrong_magic hlen (parses_nat _ _ 0 hat (Nat.le_refl _)) (by decide)

/-- A program of one function that returns zero. -/
theorem written_main_refused : (parseSource "m=a;f=main():i64{<0};".toList).map
        (fun ast => tkirDecode (emitTkir "m=a;f=main():i64{<0};".toList (fun _ => 0) ast)) =
      some (.error "invalid magic bytes (expected 'TKIR')") := by decide +kernel

/-! ## §3. Numbers and texts. -/

theorem parses_number {bytes : List UInt8} (h : littleEndian bytes = v) (msg : String) :
    Parses data limit (curReadNat data bytes.length msg) bytes v := h ▸ parses_nat bytes msg

theorem parses_u8 (hv : v < 2 ^ 8) (msg : String) :
    Parses data limit (curReadU8 data msg) (u8 v) v :=
  parses_number (by simp only [u8, littleEndian, UInt8.toNat_ofNat']; omega) msg

theorem parses_u16 (hv : v < 2 ^ 16) (msg : String) :
    Parses data limit (curReadU16 data msg) (u16 v) v :=
  parses_number (by simp only [u16, littleEndian, UInt8.toNat_ofNat']; omega) msg

theorem parses_u32 (hv : v < 2 ^ 32) (msg : String) :
    Parses data limit (curReadU32 data msg) (u32 v) v :=
  parses_number (by simp only [u32, littleEndian, UInt8.toNat_ofNat']; omega) msg

@[simp] theorem length_textBytes (s : List Char) : (textBytes s).length = s.length := length_map _

/-- A text that fits both the length field and the reader's buffer comes back whole. -/
theorem parses_str {size : Nat} {s : List Char} (hs : s.length < size) (hsize : size ≤ 2 ^ 16)
    (msg : String) : Parses data limit (curReadStr data size msg) (str s) (textBytes s) := by
  have hlen : Parses data limit (curReadU16 data msg) (u16 s.length) s.length :=
    parses_u16 (by omega) msg
  have htext := @parses_bytes data limit (textBytes s) msg
  rw [length_textBytes] at htext
  have htake : (textBytes s).take (size - 1) = textBytes s :=
    take_of_length_le (by rw [length_textBytes]; omega)
  have hcut := htext.map (take (size - 1))
  rw [htake] at hcut
  exact hlen.bind hcut

/-! ## §4. The tables. -/

/-- The entries as the reader holds them. -/
def EncImportEntry.read (imp : EncImportEntry) : TkirImportEntry :=
  ⟨textBytes imp.symbol, textBytes imp.module, 0, imp.typeIdx⟩

/-- The constant as it is read. -/
def EncDataEntry.read : EncDataEntry → TkirDataEntry
  | .str s => ⟨dataStr, textBytes s⟩
  | .i64 v => ⟨dataI64, Tkir.i64 v⟩

/-- The export as it is read. -/
def readExport (p : EncFunc × Nat) : TkirExportEntry := ⟨textBytes p.1.name, 0, p.2⟩

/-- The function as it is read. -/
def EncFunc.read (reg : Nat) (fn : EncFunc) : TkirFuncDef :=
  ⟨textBytes fn.name, fn.flags, fn.retType, reg, fn.paramTypes.length, []⟩

theorem parses_import {imp : EncImportEntry} (hsymbol : imp.symbol.length < 128)
    (hmodule : imp.module.length < 256) (htype : imp.typeIdx < 2 ^ 16) (i : Nat) :
    Parses data limit (parseImportEntry data i) (encImportBytes imp) imp.read := by
  unfold encImportBytes
  simp only [append_assoc]
  apply (parses_str hsymbol (by decide) _).bind
  apply (parses_str hmodule (by decide) _).bind
  apply (parses_u8 (by decide) _).bind
  exact (parses_u16 htype _).map _

theorem parses_export {p : EncFunc × Nat} (hname : p.1.name.length < 128) (hidx : p.2 < 2 ^ 16)
    (i : Nat) : Parses data limit (parseExportEntry data i) (encExportBytes p) (readExport p) := by
  unfold encExportBytes
  simp only [append_assoc]
  apply (parses_str hname (by decide) _).bind
  apply (parses_u8 (by decide) _).bind
  exact (parses_u16 hidx _).map _

theorem parses_func {fn : EncFunc} {reg typeCount : Nat} (hname : fn.name.length < 128)
    (hflags : fn.flags < 2 ^ 8) (hret : fn.retType < typeCount) (htypes : typeCount < 2 ^ 16)
    (hreg : reg < 2 ^ 16) (hparams : fn.paramTypes.length < 2 ^ 16) (i : Nat) :
    Parses data limit (parseFuncEntry data typeCount i) (encFuncBytes reg fn) (fn.read reg) := by
  unfold encFuncBytes
  simp only [append_assoc]
  apply (parses_str hname (by decide) _).bind
  apply (parses_u8 hflags _).bind
  apply (parses_u16 (hret.trans htypes) _).bind
  apply (parses_u16 hreg _).bind
  apply (parses_u16 hparams _).bind
  rw [if_neg (by omega)]
  exact Parses.pure _

theorem encDataBytes_eq (d : EncDataEntry) :
    encDataBytes d = u8 d.read.kind ++ (u32 d.read.bytes.length ++ d.read.bytes) := by
  cases d with
  | str s => simp [encDataBytes, EncDataEntry.read]
  | i64 v => rfl

/-- The reader checks the size of an entry against the end of its section. -/
theorem parses_data {d : EncDataEntry} (hsize : d.read.bytes.length < 2 ^ 32) (i : Nat) :
    Parses data limit (parseDataEntry data limit i) (encDataBytes d) d.read := by
  rw [encDataBytes_eq]
  have hkind : d.read.kind < 2 ^ 8 := by
    cases d with
    | str s => show dataStr < 2 ^ 8; decide
    | i64 v => show dataI64 < 2 ^ 8; decide
  apply (parses_u8 hkind _).bind
  apply (parses_u32 hsize _).bind
  intro p h hlimit
  have hbytes := (parses_bytes d.read.bytes "data section: truncated payload").map
    (TkirDataEntry.mk d.read.kind) p h hlimit
  unfold Reads at hbytes ⊢
  simp only [StateT.run_bind, StateT.run_get, pure_bind] at hbytes ⊢
  rw [if_neg (by omega)]
  exact hbytes

/-- A type entry both sides lay out alike: a scalar, or a structure that fits.
The writer gives arrays and function pointers no payload, the reader expects one. -/
inductive Shared (t : EncTypeEntry) : Prop
  | scalar (h : 0x01 ≤ t.kind ∧ t.kind ≤ 0x05)
  | struct (hkind : t.kind = tyStruct) (hname : t.name.length < 128)
      (hcount : t.fieldTypes.length < 2 ^ 16) (hfields : ∀ i ∈ t.fieldTypes, i < 2 ^ 16)

/-- The type as it is read. -/
def EncTypeEntry.read (t : EncTypeEntry) : TkirTypeEntry :=
  if t.kind = tyStruct then ⟨t.kind, textBytes t.name, 0, t.fieldTypes⟩ else ⟨t.kind, [], 0, []⟩

/-- A type entry is its kind and what the three readers take. -/
theorem parses_type_entry {kind elem : Nat} {name : List UInt8} {fields : List Nat}
    {c : List UInt8} (hkind : 0x01 ≤ kind ∧ kind ≤ 0x09)
    (hname : Parses data limit (parseTypeName data kind) a name)
    (helem : Parses data limit (parseElemType data kind) b elem)
    (hfields : Parses data limit (parseFieldTypes data kind) c fields) (i : Nat) :
    Parses data limit (parseTypeEntry data i) (u8 kind ++ (a ++ (b ++ c)))
      ⟨kind, name, elem, fields⟩ := by
  apply (parses_u8 (by omega) _).bind
  rw [if_neg (by omega)]
  exact hname.bind (helem.bind (hfields.map _))

theorem parses_scalar (h : 0x01 ≤ t.kind ∧ t.kind ≤ 0x05) (i : Nat) :
    Parses data limit (parseTypeEntry data i) (encTypeBytes t) t.read := by
  have hne : t.kind ≠ tyStruct := by unfold tyStruct; omega
  have hfn : t.kind ≠ tyFnPtr := by unfold tyFnPtr; omega
  have hcompound : ¬ (t.kind = tyArray ∨ t.kind = tyErrUnion ∨ t.kind = tyFnPtr) := by
    unfold tyArray tyErrUnion tyFnPtr
    omega
  have hname : Parses data limit (parseTypeName data t.kind) [] [] := by
    unfold parseTypeName
    rw [if_neg (by simp [hne, hfn])]
    exact Parses.pure []
  have helem : Parses data limit (parseElemType data t.kind) [] 0 := by
    unfold parseElemType
    rw [if_neg hcompound]
    exact Parses.pure 0
  have hfields : Parses data limit (parseFieldTypes data t.kind) [] [] := by
    unfold parseFieldTypes
    rw [if_neg hne, if_neg hfn]
    exact Parses.pure []
  unfold encTypeBytes EncTypeEntry.read
  rw [if_neg hne, if_neg hne]
  exact parses_type_entry (by omega) hname helem hfields i

theorem parses_type (h : Shared t) (i : Nat) :
    Parses data limit (parseTypeEntry data i) (encTypeBytes t) t.read := by
  cases h with
  | scalar h => exact parses_scalar h i
  | struct hkind hname hcount hfields =>
    have hmany : Parses data limit (readMany t.fieldTypes.length fun _ =>
          curReadU16 data "type section: truncated field type")
        (t.fieldTypes.flatMap u16) (t.fieldTypes.map id) :=
      parses_many fun x hx _ => parses_u16 (hfields x hx) _
    rw [map_id] at hmany
    have hall : Parses data limit (parseFieldTypes data tyStruct)
        (u16 t.fieldTypes.length ++ t.fieldTypes.flatMap u16) t.fieldTypes :=
      (parses_u16 hcount _).bind hmany
    unfold encTypeBytes EncTypeEntry.read
    rw [hkind]
    simp only [append_assoc]
    exact parses_type_entry (by decide) (parses_str hname (by decide) _) (Parses.pure 0) hall i

/-! ## §5. The sections. -/

/-- A section is read when its body is. -/
theorem parses_section {tag : Nat} {body : List UInt8} {mod mod' : TkirModule}
    (hdata : data.length < 2 ^ 32) (htag : tag < 2 ^ 8) (hbody : ∀ p, At data p body →
      Reads (parseBody data tag (p + body.length) mod) p mod' (p + body.length)) (si : Nat) :
    Parses data limit (parseSection data si mod) (sectionBytes tag body) mod' := by
  have hfits : ∀ {p}, At data p body → p + body.length ≤ data.length := by
    intro p h
    obtain ⟨before, after, rfl, rfl⟩ := h
    simp only [length_append]
    omega
  intro p h hlimit
  have hlen : body.length < 2 ^ 32 := by
    have hend := hfits h.right
    omega
  unfold parseSection readFrame
  simp only [bind_assoc]
  refine (parses_u8 htag _).bind ((parses_u32 hlen _).bind ?_) p h hlimit
  intro p h _
  have hread := hbody p h
  have hfile := hfits h
  unfold Reads at hread ⊢
  simp only [StateT.run_bind, StateT.run_get, pure_bind]
  rw [if_neg (by omega), StateT.run_pure, pure_bind]
  dsimp only
  rw [hread]
  rfl

/-- Every table is a count and its entries. -/
theorem parses_table {γ : Type} {f : Nat → Reader β} {bytes : α → List UInt8} {value : α → β}
    {xs : List α} (msg : String) (g : List β → γ) (hcount : xs.length < 2 ^ 16)
    (hentry : ∀ x ∈ xs, ∀ i, Parses data limit (f i) (bytes x) (value x)) :
    Parses data limit (curReadU16 data msg >>= fun n => readMany n f >>= fun ys => pure (g ys))
      (u16 xs.length ++ xs.flatMap bytes) (g (xs.map value)) :=
  (parses_u16 hcount msg).bind ((parses_many hentry).map g)

end Bytes

/-- Tables within the limits of the format, in a program without code. -/
structure Enc.Plain (e : Enc) : Prop where
  counted : e.liveTypes.length = e.typeCount
  types : ∀ t ∈ e.liveTypes, Shared t
  fewTypes : e.typeCount < 2 ^ 16
  funcs : ∀ fn ∈ e.funcs, fn.name.length < 128 ∧ fn.flags < 2 ^ 8 ∧ fn.retType < e.typeCount ∧
    fn.paramTypes.length < 2 ^ 16
  fewFuncs : e.funcs.length < 2 ^ 16
  reg : e.reg < 2 ^ 16
  data : ∀ d ∈ e.data, d.read.bytes.length < 2 ^ 32
  fewData : e.data.length < 2 ^ 16
  imports : ∀ imp ∈ e.imports, imp.symbol.length < 128 ∧ imp.module.length < 256 ∧
    imp.typeIdx < 2 ^ 16
  fewImports : e.imports.length < 2 ^ 16
  code : e.code = []
  size : (encWrite e).length < 2 ^ 32

/-- The tables as the reader holds them. -/
def Enc.read (e : Enc) : TkirModule :=
  ⟨e.liveTypes.map EncTypeEntry.read, e.funcs.map (EncFunc.read e.reg),
    e.data.map EncDataEntry.read, e.imports.map EncImportEntry.read, e.exports.map readExport,
    1, 0, 0x02⟩

theorem mem_exports {e : Enc} {p : EncFunc × Nat} (hp : p ∈ e.exports) :
    p.1 ∈ e.funcs ∧ p.2 < e.funcs.length := by
  obtain ⟨hmem, _⟩ := mem_filter.mp hp
  have h := mem_zipIdx hmem
  obtain ⟨_, hlt, heq⟩ := h
  simp only [Nat.zero_add] at hlt heq
  exact ⟨by rw [heq]; exact getElem_mem _, hlt⟩

section Sections

variable {data : List UInt8} {limit : Nat} {mod : TkirModule} {e : Enc}
  (hdata : data.length < 2 ^ 32)

include hdata

theorem parses_type_section (h : e.Plain) (si : Nat) :
    Parses data limit (parseSection data si mod) (encWriteTypeSection e)
      { mod with types := e.liveTypes.map EncTypeEntry.read } := by
  apply parses_section hdata (by decide)
  intro p hp
  have hfew := h.fewTypes
  rw [← h.counted] at hp hfew ⊢
  exact parses_table _ _ hfew (fun t ht i => parses_type (h.types t ht) i) p hp (Nat.le_refl _)

theorem parses_func_section (h : e.Plain) (si : Nat) (htypes : mod.types.length = e.typeCount) :
    Parses data limit (parseSection data si mod) (encWriteFuncSection e)
      { mod with funcs := e.funcs.map (EncFunc.read e.reg) } := by
  apply parses_section hdata (by decide)
  intro p hp
  refine parses_table _ _ h.fewFuncs ?_ p hp (Nat.le_refl _)
  intro fn hfn i
  obtain ⟨hname, hflags, hret, hparams⟩ := h.funcs fn hfn
  rw [htypes]
  exact parses_func hname hflags hret h.fewTypes h.reg hparams i

omit hdata in
/-- At its end the loop over the code stops. -/
theorem parseCodeLoop_end (p fuel : Nat) (funcs : List TkirFuncDef) :
    Reads (parseCodeLoop data p fuel funcs) p funcs p := by
  cases fuel with
  | zero => rfl
  | succ fuel =>
    unfold Reads parseCodeLoop
    simp only [StateT.run_bind, StateT.run_get, pure_bind]
    rw [if_pos (Nat.le_refl p)]
    rfl

theorem parses_code_section (h : e.Plain) (si : Nat) :
    Parses data limit (parseSection data si mod) (encWriteCodeSection e) mod := by
  unfold encWriteCodeSection
  rw [h.code]
  apply parses_section hdata (by decide)
  intro p _
  exact (parseCodeLoop_end p p mod.funcs).bind rfl

theorem parses_data_section (h : e.Plain) (si : Nat) :
    Parses data limit (parseSection data si mod) (encWriteDataSection e)
      { mod with data := e.data.map EncDataEntry.read } := by
  apply parses_section hdata (by decide)
  intro p hp
  exact parses_table _ _ h.fewData (fun d hd i => parses_data (h.data d hd) i) p hp (Nat.le_refl _)

theorem parses_import_section (h : e.Plain) (si : Nat) :
    Parses data limit (parseSection data si mod) (encWriteImportSection e)
      { mod with imports := e.imports.map EncImportEntry.read } := by
  apply parses_section hdata (by decide)
  intro p hp
  refine parses_table _ _ h.fewImports ?_ p hp (Nat.le_refl _)
  intro imp himp i
  obtain ⟨hsymbol, hmodule, htype⟩ := h.imports imp himp
  exact parses_import hsymbol hmodule htype i

theorem parses_export_section (h : e.Plain) (si : Nat) :
    Parses data limit (parseSection data si mod) (encWriteExportSection e)
      { mod with exports := e.exports.map readExport } := by
  apply parses_section hdata (by decide)
  intro q hq
  have hfew : e.exports.length < 2 ^ 16 := by
    have hle := length_filter_le (fun p => p.1.flags % 2 = fnExported) e.funcs.zipIdx
    rw [length_zipIdx] at hle
    exact Nat.lt_of_le_of_lt hle h.fewFuncs
  refine parses_table _ _ hfew ?_ q hq (Nat.le_refl _)
  intro p hp i
  obtain ⟨hmem, hidx⟩ := mem_exports hp
  exact parses_export (h.funcs p.1 hmem).1 (hidx.trans h.fewFuncs) i

end Sections

/-- Behind the header the reader finds the writer's tables, in the order in
which they were written. -/
theorem sections_read {e : Enc} (h : e.Plain) :
    Reads (parseSections (encWrite e) 6 ⟨[], [], [], [], [], 1, 0, 0x02⟩) 9 e.read
      (encWrite e).length := by
  obtain ⟨body, hfile, hbody⟩ : ∃ body, encWrite e = encWriteHeader ++ body ∧
      Parses (encWrite e) (encWrite e).length
        (parseSections (encWrite e) 6 ⟨[], [], [], [], [], 1, 0, 0x02⟩) body e.read := by
    refine ⟨encWriteTypeSection e ++ (encWriteFuncSection e ++ (encWriteCodeSection e ++
      (encWriteDataSection e ++ (encWriteImportSection e ++ (encWriteExportSection e ++ []))))),
      by simp only [encWrite, append_assoc, append_nil], ?_⟩
    apply (parses_type_section h.size h 0).bind
    apply (parses_func_section h.size h 1 (by rw [← h.counted, length_map])).bind
    apply (parses_code_section h.size h 2).bind
    apply (parses_data_section h.size h 3).bind
    apply (parses_import_section h.size h 4).bind
    apply (parses_export_section h.size h 5).bind
    exact Parses.pure _
  have hlen := congrArg length hfile
  rw [length_append] at hlen
  rw [hlen]
  exact hbody 9 ⟨encWriteHeader, [], by rw [append_nil, hfile], by decide⟩ (Nat.le_of_eq hlen.symm)

/-- An integer type, an exported function without a body, a text. -/
def declaredMain : Enc :=
  ⟨[⟨0x01, [], []⟩], 1, [⟨['f'], [], 0, 1, none⟩], [.str ['a']], [], 0, []⟩

/-- Its sections are read back. -/
theorem declaredMain_read : Reads (parseSections (encWrite declaredMain) 6
    ⟨[], [], [], [], [], 1, 0, 0x02⟩) 9 declaredMain.read (encWrite declaredMain).length :=
  sections_read ⟨rfl, fun _ ht => mem_singleton.mp ht ▸ .scalar (by decide), by decide, by decide,
    by decide, by decide, by decide, by decide, by decide, by decide, rfl, by decide⟩

end Toke.Tkir
