/-
  Toke.Tkir.Validate — **WHAT AN ACCEPTED FILE IS GOOD FOR.**

  `tkir_decode` promises opcodes and register references that were checked.
  Every opcode is.  The three operands of an instruction are checked while
  `reg_count` is not zero, an argument of a call never, and a type index only
  against the types that were read before it.  `decode_valid` says what is
  left to ask of an accepted file.
-/
import Toke.Tkir.Sections

namespace Toke.Tkir

open Reading

/-! ## §1. Valid modules. -/

/-- `TKIR_OP_*` of `tkir.h`. -/
def definedOpcodes : List Nat :=
  [0x01, 0x02, 0x03, 0x04, 0x05, 0x06, 0x10, 0x11, 0x12, 0x13, 0x14, 0x15, 0x20, 0x21, 0x22, 0x23,
    0x30, 0x31, 0x32, 0x33, 0x40, 0x41, 0x42]

/-- The registers an instruction names. -/
def TkirInstr.regs (i : TkirInstr) : List Nat := i.dst :: i.src :: i.rhs :: i.args

/-- Every register is below the count of its function. -/
def TkirFuncDef.regsOk (fn : TkirFuncDef) : Bool :=
  fn.instrs.all fun i => i.regs.all (· < fn.regCount)

/-- Every opcode is a defined one. -/
def TkirFuncDef.opcodesOk (fn : TkirFuncDef) : Bool :=
  fn.instrs.all fun i => i.opcode ∈ definedOpcodes

/-- What the rest of the pipeline takes for granted of a decoded module. -/
structure TkirModule.Valid (mod : TkirModule) : Prop where
  regs : ∀ fn ∈ mod.funcs, fn.regsOk = true
  opcodes : ∀ fn ∈ mod.funcs, fn.opcodesOk = true
  types : ∀ fn ∈ mod.funcs, fn.typeIdx < mod.types.length

/-! ## §2. Instructions. -/

section

variable {data : List UInt8} {fn : TkirFuncDef} {mod : TkirModule}

/-- A frame of instructions replaces those of one function. -/
theorem forall_set {p : TkirFuncDef → Prop} {funcs : List TkirFuncDef} {idx : Nat}
    (hfuncs : ∀ f ∈ funcs, p f) (hfn : p fn) : ∀ f ∈ funcs.set idx fn, p f := by
  intro f hf
  rcases List.mem_or_eq_of_mem_set hf with hf | rfl
  · exact hfuncs f hf
  · exact hfn

/-- What every frame of instructions gives its function, all functions keep. -/
theorem parseCodeLoop_yields {p : TkirFuncDef → Prop} {q : TkirFuncDef → TkirInstr → Prop}
    (hinstr : ∀ fn i, Yields (parseInstr data fn i) (q fn))
    (hframe : ∀ fn instrs, p fn → (∀ i ∈ instrs, q fn i) → p { fn with instrs })
    (secEnd fuel : Nat) {funcs : List TkirFuncDef} (hfuncs : ∀ f ∈ funcs, p f) :
    Yields (parseCodeLoop data secEnd fuel funcs) fun fs => ∀ f ∈ fs, p f := by
  induction fuel generalizing funcs with
  | zero => exact Yields.pure hfuncs
  | succ fuel ih =>
    refine Yields.seq fun pos => Yields.ite (fun _ => Yields.pure hfuncs) fun _ => ?_
    refine Yields.seq fun idx => Yields.seq fun n => ?_
    cases hidx : funcs[idx]? with
    | none => exact Yields.throw _
    | some fn =>
      have hfn := hfuncs fn (List.mem_of_getElem? hidx)
      refine (Yields.mapM (hinstr fn)).bind fun instrs hinstrs => ih ?_
      exact forall_set hfuncs (hframe fn instrs hfn hinstrs)

/-- The tests of the code are those of `tkir.h`. -/
theorem mem_definedOpcodes_of_valid {op : Nat} (h : opcodeValid op) : op ∈ definedOpcodes := by
  have hlt : op < 0x43 := by
    simp only [opcodeValid, Bool.or_eq_true, Bool.and_eq_true, decide_eq_true_eq] at h
    omega
  have hall : ∀ n < 0x43, opcodeValid n → n ∈ definedOpcodes := by decide
  exact hall op hlt h

/-- What an instruction was checked for when it was read. -/
structure Checked (regCount : Nat) (i : TkirInstr) : Prop where
  opcode : i.opcode ∈ definedOpcodes
  operands : 0 < regCount → i.dst < regCount ∧ i.src < regCount ∧ i.rhs < regCount

theorem parseInstr_checked (fn : TkirFuncDef) (i : Nat) :
    Yields (parseInstr data fn i) (Checked fn.regCount) := by
  refine Yields.seq fun op => ?_
  refine Yields.ite (fun _ => Yields.failed _) fun hop => ?_
  have hdef : op ∈ definedOpcodes := mem_definedOpcodes_of_valid (by simpa using hop)
  refine Yields.seq fun dst => Yields.seq fun src => Yields.seq fun rhs => ?_
  refine Yields.ite (fun _ => Yields.failed _) fun hregs => ?_
  refine Yields.seq fun imm => Yields.pure ⟨hdef, fun hpos => ?_⟩
  dsimp only
  omega

/-- A function that was just read has no instructions yet, and its type index
was compared with the number of types, if there are any. -/
theorem parseFuncEntry_checked (typeCount i : Nat) :
    Yields (parseFuncEntry data typeCount i) fun fn =>
      fn.instrs = [] ∧ (0 < typeCount → fn.typeIdx < typeCount) := by
  refine Yields.seq fun name => Yields.seq fun flags => Yields.seq fun typeIdx => ?_
  refine Yields.seq fun regCount => Yields.seq fun paramCount => ?_
  refine Yields.ite (fun _ => Yields.failed _) fun htype => Yields.pure ⟨rfl, fun hpos => ?_⟩
  dsimp only
  omega

/-- The functions of a module, and what each section does to them. -/
theorem parseBody_funcs {tag secEnd start pos : Nat} {mod' : TkirModule}
    (h : (parseBody data tag secEnd mod).run start = .ok (mod', pos)) :
    (tag = secFunc ∧ ∀ fn ∈ mod'.funcs,
        fn.instrs = [] ∧ (0 < mod.types.length → fn.typeIdx < mod.types.length)) ∨
      tag ≠ secFunc ∧ ∀ p : TkirFuncDef → Prop, (∀ fn instrs, p fn →
        (∀ i ∈ instrs, Checked fn.regCount i) → p { fn with instrs }) →
          (∀ fn ∈ mod.funcs, p fn) → ∀ fn ∈ mod'.funcs, p fn := by
  by_cases hfunc : tag = secFunc
  · left
    refine ⟨hfunc, ?_⟩
    unfold parseBody at h
    rw [hfunc, if_neg (by decide), if_pos rfl] at h
    obtain ⟨es, rfl, -, hentries⟩ := table_run h
    exact hentries (parseFuncEntry_checked _)
  · right
    refine ⟨hfunc, fun p hframe hp => ?_⟩
    unfold parseBody at h
    split at h
    · obtain ⟨es, rfl, -⟩ := table_run h
      exact hp
    split at h
    · obtain ⟨fs, q, hfs, hrest⟩ := run_bind_ok h
      cases hrest
      exact parseCodeLoop_yields parseInstr_checked hframe _ _ hp hfs
    split at h
    · obtain ⟨es, rfl, -⟩ := table_run h
      exact hp
    split at h
    · obtain ⟨es, rfl, -⟩ := table_run h
      exact hp
    split at h
    · obtain ⟨es, rfl, -⟩ := table_run h
      exact hp
    · cases h
      exact hp

/-- Every instruction of an accepted file was checked. -/
theorem parseFrames_checked {fs : List Frame} {empty : TkirModule} (hempty : empty.funcs = [])
    (h : parseFrames data fs empty = some mod) :
    ∀ fn ∈ mod.funcs, ∀ i ∈ fn.instrs, Checked fn.regCount i := by
  refine parseFrames_keeps (fun m => ∀ fn ∈ m.funcs, ∀ i ∈ fn.instrs, Checked fn.regCount i)
    (fun tag stop m hm => ?_) (by rw [hempty]; exact nofun) h
  intro start m' pos hrun
  rcases parseBody_funcs hrun with ⟨-, hnew⟩ | ⟨-, hkeep⟩
  · intro fn hfn i hi
    rw [(hnew fn hfn).1] at hi
    cases hi
  · exact hkeep _ (fun _ _ _ hinstrs => hinstrs) hm

/-! ## §3. Types. -/

variable (data) in
/-- The number of types a file has read when it reads its last function section. -/
def typesAtFuncs : Nat :=
  lastCount data ((fileFrames data).1.rdropWhile (·.tag ≠ secFunc)) secType

variable (data) in
/-- Types are read in front of the functions, and not fewer are there at the
end: the type indices are compared with a number of types that stays. -/
def TypesChecked : Prop :=
  0 < typesAtFuncs data ∧ typesAtFuncs data ≤ lastCount data (fileFrames data).1 secType

variable (data) in
instance : Decidable (TypesChecked data) := inferInstanceAs (Decidable (_ ∧ _))

/-- The type indices are below the number of types at the last function section. -/
theorem parseFrames_types {fs : List Frame} {empty : TkirModule}
    (hempty : ∀ tag ∈ tableTags, empty.tableSize tag = 0)
    (h : parseFrames data fs empty = some mod) :
    0 < lastCount data (fs.rdropWhile (·.tag ≠ secFunc)) secType →
      ∀ fn ∈ mod.funcs, fn.typeIdx < lastCount data (fs.rdropWhile (·.tag ≠ secFunc)) secType := by
  induction fs using List.reverseRecOn generalizing mod with
  | nil => exact fun hpos => absurd hpos (Nat.lt_irrefl 0)
  | append_singleton fs f ih =>
    obtain ⟨m, pos, hm, hlast⟩ := parseFrames_concat fs f empty h
    have htypes : m.types.length = lastCount data fs secType :=
      parseFrames_tableSize hempty hm secType (by decide)
    rw [List.rdropWhile_concat]
    rcases parseBody_funcs hlast with ⟨hfunc, hnew⟩ | ⟨hfunc, hkeep⟩
    · rw [if_neg (by simp [hfunc]), lastCount_concat, if_neg (by rw [hfunc]; decide), ← htypes]
      exact fun hpos fn hfn => (hnew fn hfn).2 hpos
    · rw [if_pos (by simp [hfunc])]
      intro hpos
      exact hkeep (fun fn => fn.typeIdx < _) (fun _ _ hfn _ => hfn) (ih hm hpos)

end

/-! ## §4. Accepted files. -/

/-- One type, one function of one register, whose code is a `RET`. -/
def soundFile : List UInt8 :=
  fileHeader 3 ++ sectionBytes secType (u16 1 ++ u8 tyI64) ++
    sectionBytes secFunc (u16 1 ++ str ['f'] ++ u8 0 ++ u16 0 ++ u16 1 ++ u16 0) ++
    sectionBytes secCode (u16 0 ++ u16 1 ++ u8 opRet ++ u16 0 ++ u16 0 ++ u16 0)

/-- No types, and two functions: one of no registers that adds register 9 to
itself, and one of one register that passes register 9 to a call. -/
def uncheckedFile : List UInt8 :=
  fileHeader 2 ++ sectionBytes secFunc (u16 2 ++ str ['f'] ++ u8 0 ++ u16 5 ++ u16 0 ++ u16 0 ++
      str ['g'] ++ u8 0 ++ u16 5 ++ u16 1 ++ u16 0) ++
    sectionBytes secCode (u16 0 ++ u16 1 ++ u8 opAdd ++ u16 9 ++ u16 9 ++ u16 9 ++
      u16 1 ++ u16 1 ++ u8 opCall ++ u16 0 ++ u16 0 ++ u16 0 ++ u16 0 ++ u16 1 ++ u16 9)

end Toke.Tkir
