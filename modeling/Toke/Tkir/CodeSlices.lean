/-
  Toke.Tkir.CodeSlices — **THE CODE OF EACH FUNCTION** (`enc_emit_func_body`, `emit_tkir`).

  A return at the end of a body is recognised by one byte.  In an instruction
  of two operands or more that byte belongs to the last operand but one, so a
  register from `0x2300` to `0x23ff` there passes for a return
  (`Instr.looksReturn`).  The register count is read from the encoder once,
  behind the last body, and written for every function: it covers a function
  exactly when the last body takes at least as many registers (`slices_iff`).
-/
import Toke.Tkir.EmitShape
import Toke.Names.FrontEnd

namespace Toke.Tkir

open List

variable {e : Enc} {fn : EncFunc} {body : Node}

/-! ## §1. The last instruction. -/

/-- The byte three places from the end of a stream is the one of its last
instruction. -/
theorem getD_append_third (xs : List UInt8) {ys : List UInt8} (h : 3 ≤ ys.length) :
    (xs ++ ys).getD ((xs ++ ys).length - 3) 0 = ys.getD (ys.length - 3) 0 := by
  rw [length_append, show xs.length + ys.length - 3 = xs.length + (ys.length - 3) by omega,
    getD_append_right _ _ _ _ (by omega), Nat.add_sub_cancel_left]

/-- An instruction that is no return, with the opcode of one in the high byte of
its last operand but one. -/
def Instr.looksReturn (i : Instr) : Bool :=
  i.op ≠ opRet && 2 ≤ i.operands.length &&
    i.operands.getD (i.operands.length - 2) 0 / 2 ^ 8 = opRet

/-- The third byte from the end is `RET` in a return and in what looks like one. -/
theorem third_byte_ret {i : Instr} (h : i.Complete) :
    i.bytes.getD (i.bytes.length - 3) 0 = UInt8.ofNat opRet ↔
      i.op = opRet ∨ i.looksReturn = true := by
  obtain ⟨n, hn, hlen⟩ := h.length
  have hfits := h.fits
  have hop := fixedOperands_lt hn
  have hret : opRet = 0x23 := rfl
  obtain ⟨op, os⟩ := i
  simp only at hn hlen hfits hop ⊢
  rcases eq_nil_or_concat os with rfl | ⟨os, b, rfl⟩
  · have hpos := fixedOperands_pos hn
    simp only [length_nil] at hlen
    omega
  rcases eq_nil_or_concat os with rfl | ⟨os, a, rfl⟩
  · -- one operand: the byte is the opcode
    have hplain : Instr.looksReturn ⟨op, [b]⟩ = false := by simp [Instr.looksReturn]
    show UInt8.ofNat op = UInt8.ofNat opRet ↔ op = opRet ∨ Instr.looksReturn ⟨op, [b]⟩ = true
    rw [hplain]
    refine ⟨fun heq => .inl ?_, ?_⟩
    · have hval := congrArg UInt8.toNat heq
      rw [UInt8.toNat_ofNat', UInt8.toNat_ofNat', Nat.mod_eq_of_lt (by omega)] at hval
      exact hval
    · rintro (heq | hf)
      · rw [heq]
      · cases hf
  · -- two or more: it is the high byte of the last operand but one
    simp only [concat_eq_append] at hlen hn hfits ⊢
    have ha := hfits a (by simp)
    have hbytes : Instr.bytes ⟨op, os ++ [a] ++ [b]⟩ = (u8 op ++ os.flatMap u16) ++ (u16 a ++ u16 b) := by
      unfold Instr.bytes
      rw [flatMap_append, flatMap_append, flatMap_singleton, flatMap_singleton]
      simp only [append_assoc]
    have hthird : (Instr.bytes ⟨op, os ++ [a] ++ [b]⟩).getD
        ((Instr.bytes ⟨op, os ++ [a] ++ [b]⟩).length - 3) 0 = UInt8.ofNat (a / 2 ^ 8) := by
      have hlast : 3 ≤ (u16 a ++ u16 b).length := Nat.le_succ 3
      rw [hbytes, getD_append_third _ hlast]
      rfl
    have hne : op ≠ opRet := by
      rintro rfl
      have h1 : fixedOperands opRet = some 1 := by decide
      rw [h1] at hn
      cases hn
      have h0 : ∀ os, extraOperands opRet os = 0 := fun _ => rfl
      simp only [h0, length_append, length_singleton] at hlen
      omega
    have hlooks : Instr.looksReturn ⟨op, os ++ [a] ++ [b]⟩ = true ↔ a / 2 ^ 8 = opRet := by
      simp [Instr.looksReturn, hne]
    rw [hthird, hlooks, or_iff_right hne]
    refine ⟨fun heq => ?_, fun heq => by rw [heq]⟩
    have hval := congrArg UInt8.toNat heq
    rw [UInt8.toNat_ofNat', UInt8.toNat_ofNat', hret] at hval
    omega

/-! ## §2. Function bodies. -/

section Program

variable (src : Source) (truncate : List Char → Int64)

/-- The last instruction of a body, as the test for a return finds it. -/
def lastInstr (e : Enc) (fn : EncFunc) : Option Instr :=
  fn.body.bind fun body => (disassemble ((encEmitStmt src truncate body
    { e with reg := fn.paramTypes.length }).code.drop e.code.length)).bind (·.getLast?)

/-- The test takes the end of the body for a return. -/
def misread (e : Enc) (fn : EncFunc) : Bool := (lastInstr src truncate e fn).any Instr.looksReturn

/-- What a body appends: complete instructions over register 0 and those it
takes, behind the parameters.  They end in a return, unless the test was
misled. -/
structure BodyEmits (e e' : Enc) (params regs : Nat) (misled : Bool) (is : List Instr) : Prop where
  code : e'.code = e.code ++ Instr.allBytes is
  funcs : e'.funcs = e.funcs
  bounded : e'.Bounded
  reg : e'.reg = params + regs
  within : ∀ i ∈ is, i.Within e'.reg
  used : 0 < regs → ∃ i ∈ is, e'.reg - 1 ∈ i.regs
  idle : regs = 0 → ∀ i ∈ is, ∀ r ∈ i.regs, r = 0
  ret : (∃ js r, is = js ++ [⟨opRet, [r]⟩]) ∨ misled = true
  noRet : misled = true → is.getLast?.map (·.op) ≠ some opRet

/-- The return that is missing. -/
theorem emits_ret_void (h : e.Bounded) (hreg : e.reg < 2 ^ 16) :
    Emits e (e.put opRet [0]) 0 [⟨opRet, [0]⟩] := by
  refine (Emits.refl h).snoc (within_regs (n := 1) (by decide) (by decide) rfl hreg rfl ?_) ?_
  · intro r hr
    rw [mem_singleton.mp hr]
    omega
  · intro _ r hr
    exact mem_singleton.mp hr

/-- A complete `RET` has one operand. -/
theorem eq_ret {i : Instr} (h : i.Complete) (hop : i.op = opRet) : ∃ r, i = ⟨opRet, [r]⟩ := by
  obtain ⟨n, hn, hlen⟩ := h.length
  obtain ⟨op, os⟩ := i
  simp only at hop hn hlen
  subst hop
  have h1 : fixedOperands opRet = some 1 := by decide
  rw [h1] at hn
  cases hn
  have hone : os.length = 1 := hlen
  obtain ⟨r, rfl⟩ := length_eq_one_iff.mp hone
  exact ⟨r, rfl⟩

theorem funcBody_emits (h : e.Bounded) (hbody : fn.body = some body) (hcalls : callsFit body = true)
    (hroom : fn.paramTypes.length + stmtRegs body < 2 ^ 16) :
    ∃ is, BodyEmits e (encEmitFuncBody src truncate e fn) fn.paramTypes.length (stmtRegs body)
      (misread src truncate e fn) is := by
  obtain ⟨is, hemits⟩ := encEmitStmt_emits src truncate body hcalls
    { e with reg := fn.paramTypes.length } ⟨h.types, h.data, h.funcs⟩ hroom
  have hlast : lastInstr src truncate e fn = is.getLast? := by
    unfold lastInstr
    rw [hbody, Option.bind_some, hemits.code, drop_left,
      disassemble_allBytes fun i hi => (hemits.within i hi).complete, Option.bind_some]
  have hmis : misread src truncate e fn = is.getLast?.any Instr.looksReturn := by
    rw [misread, hlast]
  rw [hmis]
  unfold encEmitFuncBody
  rw [hbody]
  simp only
  have hreg : (encEmitStmt src truncate body { e with reg := fn.paramTypes.length }).reg =
      fn.paramTypes.length + stmtRegs body := hemits.reg
  generalize encEmitStmt src truncate body { e with reg := fn.paramTypes.length } = e' at hemits hreg ⊢
  have hcode : e'.code = e.code ++ Instr.allBytes is := hemits.code
  have hvoid := hemits.trans (emits_ret_void hemits.bounded (by omega))
  rcases eq_nil_or_concat is with rfl | ⟨js, i, rfl⟩
  · have hempty : e'.code.length = e.code.length := by
      rw [hcode]
      simp [Instr.allBytes]
    rw [if_pos (.inl hempty)]
    exact ⟨_, hvoid.code, hvoid.funcs, hvoid.bounded, hvoid.reg, hvoid.within, hvoid.used,
      hvoid.idle, .inl ⟨[], 0, rfl⟩, fun hf => by cases hf⟩
  · rw [concat_eq_append] at hemits hcode hvoid ⊢
    have hi := (hemits.within i (by simp)).complete
    have hend : e'.code = (e.code ++ Instr.allBytes js) ++ i.bytes := by
      rw [hcode, allBytes_append, append_assoc]
      simp [Instr.allBytes]
    have hthird := third_byte_ret hi
    rw [← getD_append_third (e.code ++ Instr.allBytes js) hi.three_le, ← hend] at hthird
    have hlen : e'.code.length ≠ e.code.length := by
      have := hi.three_le
      rw [hend, length_append, length_append]
      omega
    rw [getLast?_concat, Option.any_some]
    by_cases hop : i.op = opRet
    · have hplain : i.looksReturn = false := by simp [Instr.looksReturn, hop]
      rw [if_neg (by rw [not_or, not_not]; exact ⟨hlen, hthird.mpr (.inl hop)⟩), hplain]
      obtain ⟨r, rfl⟩ := eq_ret hi hop
      exact ⟨_, hcode, hemits.funcs, hemits.bounded, hreg, hemits.within, hemits.used, hemits.idle,
        .inl ⟨js, r, rfl⟩, fun hf => by cases hf⟩
    · cases hlooks : i.looksReturn with
      | true =>
        -- nothing is appended
        rw [if_neg (by rw [not_or, not_not]; exact ⟨hlen, hthird.mpr (.inr hlooks)⟩)]
        refine ⟨_, hcode, hemits.funcs, hemits.bounded, hreg, hemits.within, hemits.used,
          hemits.idle, .inr rfl, fun _ => ?_⟩
        rw [getLast?_concat]
        exact fun heq => hop (Option.some.inj heq)
      | false =>
        have hother : e'.code.getD (e'.code.length - 3) 0 ≠ UInt8.ofNat opRet := by
          rw [Ne, hthird, hlooks]
          simpa using hop
        rw [if_pos (.inr hother)]
        exact ⟨_, hvoid.code, hvoid.funcs, hvoid.bounded, hvoid.reg, hvoid.within, hvoid.used,
          hvoid.idle, .inl ⟨js ++ [i], 0, rfl⟩, fun hf => by cases hf⟩

/-! ## §3. The prepasses. -/

theorem Grown.refl (h : e.Bounded) : Grown e e := ⟨rfl, rfl, rfl, h⟩

theorem Grown.trans {e₁ e₂ : Enc} (h : Grown e e₁) (h' : Grown e₁ e₂) : Grown e e₂ :=
  ⟨h'.code.trans h.code, h'.funcs.trans h.funcs, h'.reg.trans h.reg, h'.bounded⟩

theorem grown_foldl {α : Type} {f : Enc → α → Enc} (h : ∀ e a, e.Bounded → Grown e (f e a))
    (l : List α) (he : e.Bounded) : Grown e (l.foldl f e) := by
  induction l generalizing e with
  | nil => exact Grown.refl he
  | cons a l ih => exact (h e a he).trans (ih (h e a he).bounded)

theorem memberType_grown (h : e.Bounded) (n : Node) : Grown e (encMemberType src e n).2 := by
  unfold encMemberType
  split
  · exact (typeIdxFromNode_spec src h _).2
  · exact (ensureScalar_spec h _).2

/-- A slot of the type table is overwritten. -/
theorem grown_set {e' : Enc} (h : Grown e e') (slot : Nat) (t : EncTypeEntry) :
    Grown e { e' with types := e'.types.set slot t } := by
  refine ⟨h.code, h.funcs, h.reg, ?_, h.bounded.data, h.bounded.funcs⟩
  show (e'.types.set slot t).length ≤ maxTypes
  rw [length_set]
  exact h.bounded.types

theorem field_grown (slot : Nat) (e : Enc) (n : Node) (h : e.Bounded) :
    Grown e (encField src slot e n) := by
  unfold encField
  split
  · exact grown_set (memberType_grown src h n) slot _
  · exact Grown.refl h

theorem typeDecl_grown (e : Enc) (decl : Node) (h : e.Bounded) : Grown e (encTypeDecl src e decl) := by
  unfold encTypeDecl
  split
  · next id rest _ _ =>
    simp only
    split
    · exact Grown.refl h
    · have hset := grown_set (Grown.refl h) e.typeCount ⟨tyStruct, tokCopy src 128 id, []⟩
      have hfields := hset.trans (grown_foldl (f := encFields src e.typeCount) ?_ rest hset.bounded)
      · exact ⟨hfields.code, hfields.funcs, hfields.reg, hfields.bounded.types, hfields.bounded.data,
          hfields.bounded.funcs⟩
      · intro e c he
        unfold encFields
        split
        · exact grown_foldl (field_grown src _) _ he
        · exact field_grown src _ e c he
  · exact Grown.refl h

theorem prepassTypes_grown (ast : Node) (h : e.Bounded) :
    Grown e (encPrepassTypes src ast e) := by
  have hscalars := grown_foldl (fun e k he => (ensureScalar_spec (e := e) he k).2)
    [tyI64, tyF64, tyBool, tyStr, tyVoid] h
  exact hscalars.trans (grown_foldl (typeDecl_grown src) _ hscalars.bounded)

theorem prepassImports_grown (ast : Node) (h : e.Bounded) :
    Grown e (encPrepassImports src ast e) := by
  refine grown_foldl (fun e decl he => ?_) _ h
  unfold encImport
  split
  · exact ⟨rfl, rfl, rfl, he.types, he.data, he.funcs⟩
  · exact Grown.refl he

/-- What `enc_prepass_funcs` keeps of a declaration: the number of its
parameters up to the limit, and its body. -/
def declaration (decl : Node) : Option (Nat × Option Node) :=
  match decl.kind, decl.children with
  | .funcDecl, _ :: rest =>
    some (min (rest.countP (·.kind = .param)) maxParams, rest.reverse.find? (·.kind = .stmtList))
  | _, _ => none

/-- The functions of a program. -/
def declared (ast : Node) : List (Nat × Option Node) :=
  (ast.children.filterMap declaration).take maxFuncs

/-- The part of a table entry the code depends on. -/
def EncFunc.shape (fn : EncFunc) : Nat × Option Node := (fn.paramTypes.length, fn.body)

/-- One more parameter, as long as there is room. -/
theorem param_spec {ps : List Nat} (h : e.Bounded) (hps : ps.length ≤ maxParams) (c : Node) :
    (encParams src (ps, e) c).1.length =
        min (ps.length + if c.kind = .param then 1 else 0) maxParams ∧
      Grown e (encParams src (ps, e) c).2 := by
  unfold encParams
  by_cases hparam : c.kind = .param
  · rw [if_pos hparam]
    by_cases hroom : ps.length < maxParams
    · rw [if_pos ⟨hparam, hroom⟩]
      refine ⟨?_, memberType_grown src h c⟩
      show (ps ++ [(encMemberType src e c).1]).length = _
      rw [length_append, length_singleton]
      omega
    · rw [if_neg fun hc => hroom hc.2]
      exact ⟨by show ps.length = _; omega, Grown.refl h⟩
  · rw [if_neg hparam, if_neg fun hc => hparam hc.1]
    exact ⟨by show ps.length = _; omega, Grown.refl h⟩

theorem params_spec (rest : List Node) (ps : List Nat) (h : e.Bounded)
    (hps : ps.length ≤ maxParams) :
    (rest.foldl (encParams src) (ps, e)).1.length =
        min (ps.length + rest.countP (·.kind = .param)) maxParams ∧
      Grown e (rest.foldl (encParams src) (ps, e)).2 := by
  induction rest generalizing ps e with
  | nil =>
    refine ⟨?_, Grown.refl h⟩
    show ps.length = min (ps.length + 0) maxParams
    omega
  | cons c rest ih =>
    obtain ⟨hlen, hgrown⟩ := param_spec src h hps c
    rw [foldl_cons, countP_cons]
    generalize encParams src (ps, e) c = p at hlen hgrown ⊢
    obtain ⟨ps', e'⟩ := p
    simp only at hlen hgrown
    obtain ⟨hcount, htail⟩ := ih ps' hgrown.bounded (by omega)
    refine ⟨?_, hgrown.trans htail⟩
    rw [hcount, hlen]
    simp only [decide_eq_true_eq]
    omega

/-- The return type of a declaration, from the node of its return spec. -/
def returnType (e : Enc) : Option Node → Nat × Enc
  | some t => encTypeIdxFromNode src e t
  | none => encEnsureScalar e tyVoid

theorem returnType_grown (h : e.Bounded) (t : Option Node) :
    Grown e (returnType src e t).2 := by
  cases t with
  | none => exact (ensureScalar_spec h _).2
  | some t => exact (typeIdxFromNode_spec src h t).2

theorem funcDecl_spec (h : e.Bounded) (decl : Node) :
    (encFuncDecl src e decl).code = e.code ∧ (encFuncDecl src e decl).reg = e.reg ∧
      (encFuncDecl src e decl).Bounded ∧
      (encFuncDecl src e decl).funcs.map EncFunc.shape =
        (e.funcs.map EncFunc.shape ++ (declaration decl).toList).take maxFuncs := by
  have hkeep : (e.funcs.map EncFunc.shape).take maxFuncs = e.funcs.map EncFunc.shape :=
    take_of_length_le (by rw [length_map]; exact h.funcs)
  have hskip : encFuncDecl src e decl = e → declaration decl = none →
      (encFuncDecl src e decl).code = e.code ∧ (encFuncDecl src e decl).reg = e.reg ∧
      (encFuncDecl src e decl).Bounded ∧
      (encFuncDecl src e decl).funcs.map EncFunc.shape =
        (e.funcs.map EncFunc.shape ++ (declaration decl).toList).take maxFuncs := by
    intro henc hnone
    rw [henc, hnone, Option.toList_none, append_nil, hkeep]
    exact ⟨rfl, rfl, h, rfl⟩
  obtain ⟨kind, s, l, co, ts, tl, o, cs⟩ := decl
  by_cases hkind : kind = .funcDecl
  · subst hkind
    cases cs with
    | nil => exact hskip rfl rfl
    | cons id rest =>
      by_cases hfull : e.funcs.length ≥ maxFuncs
      · have henc : encFuncDecl src e ⟨.funcDecl, s, l, co, ts, tl, o, id :: rest⟩ = e := if_pos hfull
        rw [henc]
        refine ⟨rfl, rfl, h, ?_⟩
        rw [take_append_of_le_length (by rw [length_map]; exact hfull), hkeep]
      · obtain ⟨hcount, hparams⟩ := params_spec src rest [] h (Nat.zero_le _)
        have hgrown := hparams.trans (returnType_grown src hparams.bounded
          ((rest.reverse.find? (·.kind = .returnSpec)).bind (·.children.head?)))
        have henc : encFuncDecl src e ⟨.funcDecl, s, l, co, ts, tl, o, id :: rest⟩ = _ := if_neg hfull
        rw [henc]
        refine ⟨hgrown.code, hgrown.reg, ⟨hgrown.bounded.types, hgrown.bounded.data, ?_⟩, ?_⟩
        · show (_ ++ [_]).length ≤ maxFuncs
          rw [length_append, length_singleton]
          exact Nat.le_trans (Nat.le_of_eq (congrArg (·.length + 1) hgrown.funcs)) (by omega)
        · have hroom : (e.funcs.map EncFunc.shape ++ (declaration
              ⟨.funcDecl, s, l, co, ts, tl, o, id :: rest⟩).toList).length ≤ maxFuncs := by
            rw [length_append, length_map]
            show e.funcs.length + 1 ≤ maxFuncs
            omega
          rw [take_of_length_le hroom]
          show (_ ++ [_]).map EncFunc.shape = _ ++ [_]
          rw [map_append]
          refine congrArg₂ (· ++ ·) (congrArg (map EncFunc.shape) hgrown.funcs) ?_
          show [(_, _)] = [(_, _)]
          rw [hcount, length_nil, Nat.zero_add]
  · refine hskip ?_ ?_
    · unfold encFuncDecl
      split
      · next hk _ => exact absurd hk hkind
      · rfl
    · unfold declaration
      split
      · next hk _ => exact absurd hk hkind
      · rfl

theorem prepassFuncs_spec (decls : List Node) (h : e.Bounded) :
    (decls.foldl (encFuncDecl src) e).code = e.code ∧ (decls.foldl (encFuncDecl src) e).reg = e.reg ∧
      (decls.foldl (encFuncDecl src) e).Bounded ∧
      (decls.foldl (encFuncDecl src) e).funcs.map EncFunc.shape =
        (e.funcs.map EncFunc.shape ++ decls.filterMap declaration).take maxFuncs := by
  induction decls generalizing e with
  | nil =>
    refine ⟨rfl, rfl, h, ?_⟩
    rw [filterMap_nil, append_nil, take_of_length_le]
    · rfl
    · rw [length_map]
      exact h.funcs
  | cons d decls ih =>
    obtain ⟨hcode, hreg, hb, hfuncs⟩ := funcDecl_spec src h d
    obtain ⟨hcode', hreg', hb', hfuncs'⟩ := ih hb
    refine ⟨hcode'.trans hcode, hreg'.trans hreg, hb', ?_⟩
    rw [foldl_cons, hfuncs', hfuncs, Items.take_take_append, append_assoc]
    congr 2
    cases hd : declaration d with
    | none => rw [filterMap_cons_none hd]; rfl
    | some p => rw [filterMap_cons_some hd]; rfl

/-- The encoder before the first body. -/
def prepared (ast : Node) : Enc :=
  encPrepassImports src ast (encPrepassFuncs src ast (encPrepassTypes src ast .start))

theorem prepared_spec (ast : Node) :
    (prepared src ast).code = [] ∧ (prepared src ast).reg = 0 ∧ (prepared src ast).Bounded ∧
      (prepared src ast).funcs.map EncFunc.shape = declared ast := by
  have htypes := prepassTypes_grown src ast Enc.start_bounded
  obtain ⟨hcode, hreg, hb, hfuncs⟩ := prepassFuncs_spec src ast.children htypes.bounded
  have himports := prepassImports_grown src ast hb
  refine ⟨?_, ?_, himports.bounded, ?_⟩
  · exact (himports.code.trans hcode).trans htypes.code
  · exact (himports.reg.trans hreg).trans htypes.reg
  · have hnone : (encPrepassTypes src ast .start).funcs = [] := htypes.funcs
    rw [hnone] at hfuncs
    exact (congrArg (map EncFunc.shape) himports.funcs).trans hfuncs

/-! ## §4. One function after the other. -/

/-- The registers a function takes with its parameters, if it has a body. -/
def bodyRegs (p : Nat × Option Node) : Option Nat := p.2.map (p.1 + stmtRegs ·)

/-- A body whose registers the 16-bit counter can count, without calls of more
arguments than there is room for. -/
def sized (p : Nat × Option Node) : Bool :=
  p.2.all fun body => callsFit body && p.1 + stmtRegs body < 2 ^ 16

theorem funcBody_spec (h : e.Bounded)
    (hbody : fn.body = some body) (hsized : sized fn.shape = true) :
    ∃ is, BodyEmits e (encEmitFuncBody src truncate e fn) fn.paramTypes.length (stmtRegs body)
      (misread src truncate e fn) is := by
  have hs : callsFit body = true ∧ fn.paramTypes.length + stmtRegs body < 2 ^ 16 := by
    simpa [sized, EncFunc.shape, hbody] using hsized
  exact funcBody_emits src truncate h hbody hs.1 hs.2

/-- A run of bodies: the code only grows, and the register counter is left by
the last of them. -/
theorem bodies_spec (fs : List EncFunc) (hsized : ∀ fn ∈ fs, sized fn.shape = true)
    (h : e.Bounded) :
    (fs.foldl (encEmitFuncBody src truncate) e).Bounded ∧
      (fs.foldl (encEmitFuncBody src truncate) e).reg =
        ((fs.map EncFunc.shape).filterMap bodyRegs).getLastD e.reg ∧
      ∃ code, (fs.foldl (encEmitFuncBody src truncate) e).code = e.code ++ code := by
  induction fs generalizing e with
  | nil => exact ⟨h, rfl, [], (append_nil _).symm⟩
  | cons fn fs ih =>
    have hrest := (forall_mem_cons.mp hsized).2
    rw [foldl_cons, map_cons]
    cases hbody : fn.body with
    | none =>
      have hskip : encEmitFuncBody src truncate e fn = e := by
        unfold encEmitFuncBody
        rw [hbody]
      have hnone : bodyRegs fn.shape = none := by
        unfold bodyRegs EncFunc.shape
        rw [hbody]
        rfl
      rw [hskip, filterMap_cons_none hnone]
      exact ih hrest h
    | some body =>
      obtain ⟨is, hemits⟩ := funcBody_spec src truncate h hbody (hsized fn mem_cons_self)
      obtain ⟨hb, hreg, code, hcode⟩ := ih hrest hemits.bounded
      have hsome : bodyRegs fn.shape = some (fn.paramTypes.length + stmtRegs body) := by
        unfold bodyRegs EncFunc.shape
        rw [hbody]
        rfl
      refine ⟨hb, ?_, Instr.allBytes is ++ code, ?_⟩
      · rw [hreg, hemits.reg, filterMap_cons_some hsome, getLastD_cons]
      · rw [hcode, hemits.code, append_assoc]

/-- The encoder behind the first `k` functions. -/
def encodeUpTo (ast : Node) (k : Nat) : Enc :=
  ((prepared src ast).funcs.take k).foldl (encEmitFuncBody src truncate) (prepared src ast)

/-- The code of function `k`, from its offset to the next one's. -/
def funcSlice (ast : Node) (k : Nat) : List UInt8 :=
  (encodeUpTo src truncate ast (k + 1)).code.drop (encodeUpTo src truncate ast k).code.length

/-- The end of function `k` is taken for a return. -/
def misreadEnd (ast : Node) (k : Nat) : Bool :=
  (prepared src ast).funcs[k]?.any (misread src truncate (encodeUpTo src truncate ast k))

/-- The registers the last function with a body takes, with its parameters. -/
def lastRegs (ast : Node) : Nat := ((declared ast).filterMap bodyRegs).getLastD 0

/-- The `reg_count` that `enc_write_func_section` writes for every function. -/
def regCount (ast : Node) : Nat := (encode src truncate ast).reg

/-- The slice is taken apart into instructions, the last of them is a return,
and every register is below the count written for the function. -/
def sliceOk (ast : Node) (k : Nat) : Bool :=
  match disassemble (funcSlice src truncate ast k) with
  | none => false
  | some is =>
    is.getLast?.map (·.op) = some opRet &&
      is.all fun i => i.regs.all (· < regCount src truncate ast)

/-! ## §5. Every function. -/

section Sized

variable {ast : Node} (hsized : (declared ast).all sized = true)
include hsized

theorem prepared_sized : ∀ fn ∈ (prepared src ast).funcs, sized fn.shape = true := by
  intro fn hfn
  have hmem : fn.shape ∈ declared ast := by
    rw [← (prepared_spec src ast).2.2.2]
    exact mem_map_of_mem hfn
  exact all_eq_true.mp hsized _ hmem

/-- The count is the one of the last function with a body. -/
theorem regCount_eq : regCount src truncate ast = lastRegs ast := by
  obtain ⟨-, hreg, hb, hfuncs⟩ := prepared_spec src ast
  have hrun := (bodies_spec src truncate _ (prepared_sized src hsized) hb).2.1
  show ((prepared src ast).funcs.foldl (encEmitFuncBody src truncate) (prepared src ast)).reg = _
  rw [hrun, hreg, hfuncs]
  rfl

theorem encodeUpTo_bounded (k : Nat) : (encodeUpTo src truncate ast k).Bounded :=
  (bodies_spec src truncate _ (fun fn hfn => prepared_sized src hsized fn (mem_of_mem_take hfn))
    (prepared_spec src ast).2.2.1).1

omit hsized in
theorem encodeUpTo_succ (k : Nat) : encodeUpTo src truncate ast (k + 1) =
      (prepared src ast).funcs[k]?.toList.foldl (encEmitFuncBody src truncate)
        (encodeUpTo src truncate ast k) := by
  unfold encodeUpTo
  rw [List.take_add_one, List.foldl_append]

/-- The instructions of a function. -/
theorem slice_emits {k : Nat}
    (hfn : (prepared src ast).funcs[k]? = some fn) (hbody : fn.body = some body) :
    ∃ is, disassemble (funcSlice src truncate ast k) = some is ∧
      BodyEmits (encodeUpTo src truncate ast k) (encodeUpTo src truncate ast (k + 1))
        fn.paramTypes.length (stmtRegs body) (misreadEnd src truncate ast k) is := by
  obtain ⟨is, hemits⟩ := funcBody_spec src truncate (encodeUpTo_bounded src truncate hsized k) hbody
    (prepared_sized src hsized fn (mem_of_getElem? hfn))
  have hnext := @encodeUpTo_succ src truncate ast k
  rw [hfn] at hnext
  replace hnext : _ = encEmitFuncBody src truncate (encodeUpTo src truncate ast k) fn := hnext
  have hmis : misreadEnd src truncate ast k =
      misread src truncate (encodeUpTo src truncate ast k) fn := by
    rw [misreadEnd, hfn, Option.any_some]
  rw [← hnext, ← hmis] at hemits
  refine ⟨is, ?_, hemits⟩
  unfold funcSlice
  rw [hemits.code, drop_left]
  exact disassemble_allBytes fun i hi => (hemits.within i hi).complete

/-- A function's slice is right when its end is not misread and the count covers
its registers. -/
theorem sliceOk_iff {k : Nat} {p : Nat × Option Node} (hp : (declared ast)[k]? = some p)
    (hbody : p.2 = some body) :
    sliceOk src truncate ast k = true ↔ misreadEnd src truncate ast k = false ∧
      0 < regCount src truncate ast ∧
        (0 < stmtRegs body → p.1 + stmtRegs body ≤ regCount src truncate ast) := by
  rw [← (prepared_spec src ast).2.2.2, getElem?_map, Option.map_eq_some_iff] at hp
  obtain ⟨fn, hfn, rfl⟩ := hp
  obtain ⟨is, hdis, hemits⟩ := slice_emits src truncate hsized hfn hbody
  have hreg := hemits.reg
  unfold sliceOk
  rw [hdis]
  cases hmis : misreadEnd src truncate ast k with
  | true => simp [hemits.noRet hmis]
  | false =>
    obtain ⟨js, r, his⟩ := hemits.ret.resolve_right (by rw [hmis]; exact Bool.false_ne_true)
    have hlast : is.getLast?.map (·.op) = some opRet := by rw [his]; simp
    simp only [hlast, decide_true, Bool.true_and, all_eq_true, decide_eq_true_eq, true_and]
    constructor
    · intro hall
      refine ⟨?_, fun hpos => ?_⟩
      · have hret := hall ⟨opRet, [r]⟩ (by rw [his]; simp) r mem_cons_self
        omega
      · obtain ⟨i, hi, hlastReg⟩ := hemits.used hpos
        have := hall i hi _ hlastReg
        show fn.paramTypes.length + stmtRegs body ≤ _
        omega
    · rintro ⟨hcount, hcover⟩ i hi q hq
      have hlt := (hemits.within i hi).regs q hq
      by_cases hpos : 0 < stmtRegs body
      · have : fn.paramTypes.length + stmtRegs body ≤ regCount src truncate ast := hcover hpos
        omega
      · rw [hemits.idle (by omega) i hi q hq]
        exact hcount

theorem code_eq_slices_upTo (k : Nat) :
    (encodeUpTo src truncate ast k).code = (List.range k).flatMap (funcSlice src truncate ast) := by
  induction k with
  | zero => exact (prepared_spec src ast).1
  | succ k ih =>
    have hgrows : (encodeUpTo src truncate ast k).code <+: (encodeUpTo src truncate ast (k + 1)).code := by
      rw [encodeUpTo_succ]
      obtain ⟨-, -, code, hcode⟩ := bodies_spec src truncate (prepared src ast).funcs[k]?.toList
        (fun fn hfn => prepared_sized src hsized fn (mem_of_getElem? (Option.mem_toList.mp hfn)))
        (encodeUpTo_bounded src truncate hsized k)
      exact ⟨code, hcode.symm⟩
    rw [range_succ, flatMap_append, flatMap_singleton, ← ih]
    exact (prefix_iff_eq_append.mp hgrows).symm

/-- The code is the functions' slices, one behind the other. -/
theorem code_eq_slices : (encode src truncate ast).code =
      (List.range (declared ast).length).flatMap (funcSlice src truncate ast) := by
  have hlen : (declared ast).length = (prepared src ast).funcs.length := by
    rw [← (prepared_spec src ast).2.2.2, length_map]
  have hall : encodeUpTo src truncate ast (declared ast).length = encode src truncate ast := by
    unfold encodeUpTo
    rw [hlen, take_length]
    rfl
  rw [← code_eq_slices_upTo src truncate hsized, hall]

end Sized

end Program

/-- A function of one register before one of three. -/
def risingProgram : Source := "m=a;f=g():i64\x7b<0\x7d;f=main():i64\x7b<1+2\x7d;".toList

theorem risingProgram_parsed : (parseSource risingProgram).isSome = true := by
  decide +kernel

/-- Its tree. -/
def risingRoot : Node := (parseSource risingProgram).get risingProgram_parsed

/-- A function of three registers before one of one. -/
def fallingProgram : Source := "m=a;f=g():i64\x7b<1+2\x7d;f=main():i64\x7b<0\x7d;".toList

end Toke.Tkir
