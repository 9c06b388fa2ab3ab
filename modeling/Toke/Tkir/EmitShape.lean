/-
  Toke.Tkir.EmitShape — **WHAT THE ENCODER APPENDS TO THE CODE** (`enc_emit_expr`, `enc_emit_stmt`).

  Every emitter appends complete instructions.  The registers they use are
  those it took from the counter, so the tree alone says how many
  (`exprRegs`, `stmtRegs`).
-/
import Toke.Tkir.Machine

namespace Toke.Tkir

open List

variable {reg k op ka : Nat} {e e₁ e₂ : Enc} {is : List Instr} {os ks : List Nat} {n : Node}
    {a emit : Emit}

/-! ## §1. Emitted instructions. -/

/-- The tables are within their limits. -/
structure Enc.Bounded (e : Enc) : Prop where
  types : e.types.length ≤ maxTypes
  data : e.data.length ≤ maxData
  funcs : e.funcs.length ≤ maxFuncs

theorem Enc.start_bounded : Enc.start.Bounded := by
  refine ⟨?_, Nat.zero_le _, Nat.zero_le _⟩
  show (replicate maxTypes _).length ≤ maxTypes
  rw [length_replicate]

/-- A complete instruction over the first `reg` registers; register 0 is used
even when there is none. -/
structure Instr.Within (reg : Nat) (i : Instr) : Prop where
  complete : i.Complete
  regs : ∀ r ∈ i.regs, r < max reg 1

theorem Instr.Within.mono {reg' : Nat} {i : Instr} (h : i.Within reg) (hle : reg ≤ reg') :
    i.Within reg' where
  complete := h.complete
  regs r hr := by have := h.regs r hr; omega

/-- `e'` continues `e` by the instructions `is`, which take `k` registers; they
use the last of them, and only register 0 when they take none. -/
structure Emits (e e' : Enc) (k : Nat) (is : List Instr) : Prop where
  code : e'.code = e.code ++ Instr.allBytes is
  funcs : e'.funcs = e.funcs
  bounded : e'.Bounded
  reg : e'.reg = e.reg + k
  within : ∀ i ∈ is, i.Within e'.reg
  used : 0 < k → ∃ i ∈ is, e'.reg - 1 ∈ i.regs
  idle : k = 0 → ∀ i ∈ is, ∀ r ∈ i.regs, r = 0

theorem allBytes_append (is js : List Instr) :
    Instr.allBytes (is ++ js) = Instr.allBytes is ++ Instr.allBytes js := flatMap_append

theorem Emits.refl (h : e.Bounded) : Emits e e 0 [] where
  code := (append_nil _).symm
  funcs := rfl
  bounded := h
  reg := rfl
  within := by simp
  used h := absurd h (Nat.lt_irrefl 0)
  idle _ := by simp

theorem Emits.trans {k' : Nat} {js : List Instr} (h : Emits e e₁ k is)
    (h' : Emits e₁ e₂ k' js) : Emits e e₂ (k + k') (is ++ js) where
  code := by rw [h'.code, h.code, allBytes_append, append_assoc]
  funcs := h'.funcs.trans h.funcs
  bounded := h'.bounded
  reg := by rw [h'.reg, h.reg, Nat.add_assoc]
  within i hi := by
    rcases mem_append.mp hi with hi | hi
    · refine (h.within i hi).mono ?_
      rw [h'.reg]
      omega
    · exact h'.within i hi
  used hk := by
    by_cases hk' : 0 < k'
    · obtain ⟨i, hi, hr⟩ := h'.used hk'
      exact ⟨i, mem_append_right is hi, hr⟩
    · obtain ⟨i, hi, hr⟩ := h.used (by omega)
      refine ⟨i, mem_append_left js hi, ?_⟩
      rw [h'.reg, show k' = 0 by omega]
      exact hr
  idle hk i hi := by
    rcases mem_append.mp hi with hi | hi
    · exact h.idle (by omega) i hi
    · exact h'.idle (by omega) i hi

/-- One more instruction, over the registers there are. -/
theorem Emits.snoc (h : Emits e e₁ k is)
    (hi : Instr.Within e₁.reg ⟨op, os⟩) (hidle : k = 0 → ∀ r ∈ Instr.regs ⟨op, os⟩, r = 0) :
    Emits e (e₁.put op os) k (is ++ [⟨op, os⟩]) where
  code := by
    show e₁.code ++ u8 op ++ os.flatMap u16 = _
    rw [h.code]
    simp [Instr.allBytes, Instr.bytes]
  funcs := h.funcs
  bounded := ⟨h.bounded.types, h.bounded.data, h.bounded.funcs⟩
  reg := h.reg
  within i hmem := by
    rcases mem_append.mp hmem with hmem | hmem
    · exact h.within i hmem
    · rw [mem_singleton.mp hmem]
      exact hi
  used hk := by
    obtain ⟨i, hmem, hr⟩ := h.used hk
    exact ⟨i, mem_append_left _ hmem, hr⟩
  idle hk i hmem := by
    rcases mem_append.mp hmem with hmem | hmem
    · exact h.idle hk i hmem
    · rw [mem_singleton.mp hmem]
      exact hidle hk

theorem encNextReg_eq (hreg : e.reg + 1 < 2 ^ 16) :
    encNextReg e = (e.reg, { e with reg := e.reg + 1 }) := by
  unfold encNextReg
  rw [Nat.mod_eq_of_lt hreg]

/-- An instruction into the next register. -/
theorem emits_dest (h : e.Bounded)
    (hreg : e.reg + 1 < 2 ^ 16) (hi : Instr.Within (e.reg + 1) ⟨op, e.reg :: os⟩)
    (hdest : e.reg ∈ Instr.regs ⟨op, e.reg :: os⟩) :
    Emits e ((encNextReg e).2.put op (e.reg :: os)) 1 [⟨op, e.reg :: os⟩] := by
  rw [encNextReg_eq hreg]
  refine ⟨?_, rfl, ⟨h.types, h.data, h.funcs⟩, rfl, ?_, fun _ => ⟨_, mem_cons_self, hdest⟩, (by simp)⟩
  · show e.code ++ u8 op ++ (e.reg :: os).flatMap u16 = _
    simp [Instr.allBytes, Instr.bytes]
  · intro i hmem
    rw [mem_singleton.mp hmem]
    exact hi

/-! ## §2. Registers taken. -/

/-- The registers one case of `enc_emit_expr` takes, over those of the children. -/
def exprRegsNode (kind : NodeKind) (kids : List Nat) : Nat :=
  match kind, kids with
  | .intLit, _ | .strLit, _ | .boolLit, _ | .floatLit, _ | .ident, _ => 1
  | .binaryExpr, a :: b :: _ => a + b + 1
  | .unaryExpr, a :: _ => a + 1
  | .callExpr, _ :: args => (args.take maxParams).sum + 1
  | .fieldExpr, a :: _ :: _ => a + 1
  | .castExpr, a :: _ :: _ => a + 1
  | _, _ => 0

/-- The registers an expression takes. -/
def exprRegs : Node → Nat
  | ⟨kind, _, _, _, _, _, _, children⟩ => exprRegsNode kind (go children)
where
  go : List Node → List Nat
    | [] => []
    | c :: cs => exprRegs c :: go cs

/-- The registers one case of `enc_emit_stmt` takes. -/
def stmtRegsNode (n : Node) (kids : List Nat) : Nat :=
  match n.kind, n.children with
  | .stmtList, _ => kids.sum
  | .returnStmt, c :: _ => exprRegs c
  | .bindStmt, _ :: c :: cs => exprRegs ((c :: cs).getLast (List.cons_ne_nil c cs)) + 1
  | .mutBindStmt, _ :: c :: cs => exprRegs ((c :: cs).getLast (List.cons_ne_nil c cs)) + 1
  | .assignStmt, _ :: c :: _ => exprRegs c
  | .ifStmt, c :: _ :: _ => exprRegs c + ((kids.drop 1).take 2).sum
  | .loopStmt, _ => kids.sum
  | .exprStmt, c :: _ => exprRegs c
  | _, _ => 0

/-- The registers a statement takes. -/
def stmtRegs : Node → Nat
  | n@⟨_, _, _, _, _, _, _, children⟩ => stmtRegsNode n (go children)
where
  go : List Node → List Nat
    | [] => []
    | c :: cs => stmtRegs c :: go cs

/-- No call has more than the sixteen arguments `enc_emit_expr` has room for;
the operands of further ones are not initialised. -/
def callsFit (n : Node) : Bool :=
  n.subnodes.all fun m => m.kind ≠ .callExpr || m.children.length ≤ maxParams + 1

theorem callsFit_child {c : Node} (h : callsFit n) (hc : c ∈ n.children) :
    callsFit c := by
  unfold callsFit at h ⊢
  rw [all_eq_true] at h ⊢
  intro m hm
  refine h m ?_
  rw [Node.subnodes_eq, mem_cons, Node.mem_subnodes_go]
  exact .inr ⟨c, hc, hm⟩

theorem exprRegs_go (cs : List Node) : exprRegs.go cs = cs.map exprRegs := by
  induction cs with
  | nil => rfl
  | cons c cs ih => rw [exprRegs.go, ih, map_cons]

theorem exprRegs_eq (n : Node) : exprRegs n = exprRegsNode n.kind (n.children.map exprRegs) := by
  obtain ⟨k, s, l, co, ts, tl, o, cs⟩ := n
  rw [exprRegs, exprRegs_go]

theorem stmtRegs_go (cs : List Node) : stmtRegs.go cs = cs.map stmtRegs := by
  induction cs with
  | nil => rfl
  | cons c cs ih => rw [stmtRegs.go, ih, map_cons]

theorem stmtRegs_eq (n : Node) : stmtRegs n = stmtRegsNode n (n.children.map stmtRegs) := by
  obtain ⟨k, s, l, co, ts, tl, o, cs⟩ := n
  rw [stmtRegs, stmtRegs_go]

/-! ## §3. Expressions. -/

/-- Only the tables grew. -/
structure Grown (e e' : Enc) : Prop where
  code : e'.code = e.code
  funcs : e'.funcs = e.funcs
  reg : e'.reg = e.reg
  bounded : e'.Bounded

theorem Grown.emits (h : Grown e e₁) (h' : Emits e₁ e₂ k is) : Emits e e₂ k is where
  code := by rw [h'.code, h.code]
  funcs := h'.funcs.trans h.funcs
  bounded := h'.bounded
  reg := by rw [h'.reg, h.reg]
  within := h'.within
  used := h'.used
  idle := h'.idle

theorem addData_spec (h : e.Bounded) (d : EncDataEntry) :
    (encAddData e d).1 < maxData ∧ Grown e (encAddData e d).2 := by
  unfold encAddData
  cases hfind : e.data.findIdx? (· = d) with
  | some i =>
    have hlt := (findIdx?_eq_some_iff_findIdx_eq.mp hfind).1
    have := h.data
    exact ⟨by show i < maxData; omega, rfl, rfl, rfl, h⟩
  | none =>
    by_cases hfull : e.data.length ≥ maxData
    · simp only [if_pos hfull]
      exact ⟨by decide, rfl, rfl, rfl, h⟩
    · simp only [if_neg hfull]
      refine ⟨by omega, rfl, rfl, rfl, h.types, ?_, h.funcs⟩
      show (e.data ++ [d]).length ≤ maxData
      rw [length_append, length_singleton]
      omega

theorem addType_spec (h : e.Bounded) (t : EncTypeEntry) :
    (e.addType t).1 < maxTypes ∧ Grown e (e.addType t).2 := by
  unfold Enc.addType
  by_cases hfull : e.typeCount ≥ maxTypes
  · rw [if_pos hfull]
    exact ⟨Nat.zero_lt_succ 255, rfl, rfl, rfl, h⟩
  · rw [if_neg hfull]
    refine ⟨by show e.typeCount < maxTypes; omega, rfl, rfl, rfl, ?_, h.data, h.funcs⟩
    show (e.types.set e.typeCount t).length ≤ maxTypes
    rw [length_set]
    exact h.types

theorem findIdx_live_lt (h : e.Bounded) {p : EncTypeEntry → Bool} {i : Nat}
    (hfind : e.liveTypes.findIdx? p = some i) : i < maxTypes := by
  have hlt := (findIdx?_eq_some_iff_findIdx_eq.mp hfind).1
  have := h.types
  unfold Enc.liveTypes at hlt
  rw [length_take] at hlt
  omega

theorem ensureScalar_spec (h : e.Bounded) (kind : Nat) :
    (encEnsureScalar e kind).1 < maxTypes ∧ Grown e (encEnsureScalar e kind).2 := by
  unfold encEnsureScalar
  cases hfind : e.liveTypes.findIdx? fun t => t.kind = kind && t.name = [] with
  | some i => exact ⟨findIdx_live_lt h hfind, rfl, rfl, rfl, h⟩
  | none => exact addType_spec h _

theorem typeIdxFromNode_spec (src : Source) (h : e.Bounded) (n : Node) :
    (encTypeIdxFromNode src e n).1 < maxTypes ∧ Grown e (encTypeIdxFromNode src e n).2 := by
  have hname : ∀ name, (encTypeIdxFromName e name).1 < maxTypes ∧
      Grown e (encTypeIdxFromName e name).2 := by
    intro name
    unfold encTypeIdxFromName
    cases encResolveTypeKind name with
    | some kind => exact ensureScalar_spec h kind
    | none =>
      cases hfind : encFindStruct e name with
      | some i => exact ⟨findIdx_live_lt h hfind, rfl, rfl, rfl, h⟩
      | none => exact addType_spec h _
  unfold encTypeIdxFromNode
  split
  · exact hname _
  · exact hname _
  · exact ensureScalar_spec h _
  · exact ensureScalar_spec h _
  · exact ensureScalar_spec h _

/-- An instruction is within bounds when its opcode has that many operands,
its registers are registers and its other operands are small. -/
theorem within_of {n : Nat} (hn : fixedOperands op = some n)
    (hlen : os.length = n + extraOperands op os) (hreg : reg < 2 ^ 16)
    (hregs : ∀ r ∈ Instr.regs ⟨op, os⟩, r < max reg 1) (hos : ∀ o ∈ os, o < max reg maxData) :
    Instr.Within reg ⟨op, os⟩ where
  complete := by
    refine ⟨⟨n, hn, hlen⟩, fun o ho => ?_⟩
    have hlt := hos o ho
    have hmax : maxData = 1024 := rfl
    omega
  regs := hregs

theorem emits_const (h : e.Bounded) (hreg : e.reg + 1 < 2 ^ 16) (d : EncDataEntry) :
    Emits e (encConst e d).2 1 [⟨opConstData, [e.reg, (encAddData e d).1]⟩] ∧
      (encConst e d).1 = e.reg := by
  obtain ⟨hidx, hgrown⟩ := addData_spec h d
  unfold encConst encEmitConstData
  generalize encAddData e d = p at hidx hgrown
  obtain ⟨idx, e₁⟩ := p
  simp only at hidx hgrown
  have hreg₁ : e₁.reg = e.reg := hgrown.reg
  refine ⟨?_, hreg₁⟩
  have hwithin : Instr.Within (e₁.reg + 1) ⟨opConstData, [e₁.reg, idx]⟩ := by
    refine within_of (n := 2) (by decide) rfl (by omega) ?_ ?_
    · intro r hr
      have hr' : r = e₁.reg := by simpa [Instr.regs, opConstData, opBr] using hr
      omega
    · intro o ho
      rcases mem_cons.mp ho with rfl | ho
      · omega
      · rw [mem_singleton.mp ho]
        omega
  have hdest : e₁.reg ∈ Instr.regs ⟨opConstData, [e₁.reg, idx]⟩ := by
    simp [Instr.regs, opConstData, opBr]
  rw [← hreg₁]
  exact hgrown.emits (emits_dest hgrown.bounded (by omega) hwithin hdest)

/-- An emitter of an expression that takes `k` registers: its value is in one of
the registers taken so far, or in register 0 when it takes none. -/
def ExprEmits (emit : Emit) (k : Nat) : Prop :=
  ∀ e : Enc, e.Bounded → e.reg + k < 2 ^ 16 →
    ∃ is, Emits e (emit e).2 k is ∧ (emit e).1 < max (emit e).2.reg 1 ∧ (k = 0 → (emit e).1 = 0)

theorem exprEmits_const (d : EncDataEntry) : ExprEmits (fun e => encConst e d) 1 := by
  intro e h hreg
  obtain ⟨hemits, hdest⟩ := emits_const h hreg d
  refine ⟨_, hemits, ?_, (by simp)⟩
  rw [hdest, hemits.reg]
  omega

/-- An instruction into the next register whose last operand, a type, is written
behind the others. -/
theorem emits_typed {ty : Enc → Nat × Enc} (h : e.Bounded) (hreg : e.reg + 1 < 2 ^ 16)
    (hty : ∀ e : Enc, e.Bounded → (ty e).1 < maxTypes ∧ Grown e (ty e).2)
    (hi : ∀ t < maxTypes, Instr.Within (e.reg + 1) ⟨op, e.reg :: (os ++ [t])⟩)
    (hdest : ∀ t, e.reg ∈ Instr.regs ⟨op, e.reg :: (os ++ [t])⟩) :
    let p := ty ((encNextReg e).2.put op (e.reg :: os))
    Emits e { p.2 with code := p.2.code ++ u16 p.1 } 1 [⟨op, e.reg :: (os ++ [p.1])⟩] := by
  rw [encNextReg_eq hreg]
  obtain ⟨ht, hgrown⟩ := hty (Enc.put { e with reg := e.reg + 1 } op (e.reg :: os))
    ⟨h.types, h.data, h.funcs⟩
  have hnext := hgrown.reg
  refine ⟨?_, hgrown.funcs, ⟨hgrown.bounded.types, hgrown.bounded.data, hgrown.bounded.funcs⟩,
    hnext, fun i hmem => ?_, fun _ => ⟨_, mem_singleton_self _, ?_⟩, (by simp)⟩
  · rw [hgrown.code]
    simp [Enc.put, Instr.allBytes, Instr.bytes]
  · rw [mem_singleton.mp hmem]
    rw [hnext]
    exact hi _ ht
  · rw [hnext]
    exact hdest _

/-- The value of an expression that ends with an instruction into the next
register. -/
theorem Emits.value {js : List Instr} (h : Emits e e₁ k is)
    (hput : Emits e₁ e₂ 1 js) : ∃ js, Emits e e₂ (k + 1) js ∧
      e₁.reg < max e₂.reg 1 ∧ (k + 1 = 0 → e₁.reg = 0) := by
  refine ⟨_, h.trans hput, ?_, (by simp)⟩
  rw [hput.reg]
  omega

/-- An instruction into the next register, behind its operands. -/
theorem exprEmits_dest (h : Emits e e₁ k is) (hreg : e₁.reg + 1 < 2 ^ 16)
    (hi : Instr.Within (e₁.reg + 1) ⟨op, e₁.reg :: os⟩)
    (hdest : e₁.reg ∈ Instr.regs ⟨op, e₁.reg :: os⟩) :
    ∃ js, Emits e ((encNextReg e₁).2.put op (e₁.reg :: os)) (k + 1) js ∧
      e₁.reg < max ((encNextReg e₁).2.put op (e₁.reg :: os)).reg 1 ∧ (k + 1 = 0 → e₁.reg = 0) :=
  h.value (emits_dest h.bounded hreg hi hdest)

/-- All operands are registers. -/
theorem within_regs {n : Nat} (hn : fixedOperands op = some n)
    (hcall : op ≠ opCall) (hlen : os.length = n) (hreg : reg < 2 ^ 16)
    (hregs : Instr.regs ⟨op, os⟩ = os) (hos : ∀ r ∈ os, r < max reg 1) :
    Instr.Within reg ⟨op, os⟩ := by
  refine within_of hn ?_ hreg ?_ ?_
  · unfold extraOperands
    rw [if_neg hcall, hlen, Nat.add_zero]
  · rw [hregs]
    exact hos
  · intro o ho
    have hlt := hos o ho
    have hmax : maxData = 1024 := rfl
    omega

theorem exprEmits_load : ExprEmits (fun e => ((encNextReg e).1,
    (encNextReg e).2.put opLoad [(encNextReg e).1, 0])) 1 := by
  intro e h hreg
  have hwithin : Instr.Within (e.reg + 1) ⟨opLoad, [e.reg, 0]⟩ := by
    refine within_regs (n := 2) (by decide) (by decide) rfl hreg rfl ?_
    intro r hr
    rcases mem_cons.mp hr with rfl | hr
    · omega
    · rw [mem_singleton.mp hr]
      omega
  exact exprEmits_dest (.refl h) hreg hwithin mem_cons_self

theorem tripleOps_spec : ∀ op ∈ tripleOps, fixedOperands op = some 3 ∧ op ≠ opCall ∧
    ∀ os, Instr.regs ⟨op, os⟩ = os := by
  have hall : ∀ op ∈ tripleOps, fixedOperands op = some 3 ∧ op ≠ opCall ∧ op ≠ opBr ∧
      op ∉ [opConstData, opAlloca, opBrIf] ∧ op ∉ [opFieldGet, opCast] := by decide
  intro op hop
  obtain ⟨h3, hcall, hbr, hone, htwo⟩ := hall op hop
  refine ⟨h3, hcall, fun os => ?_⟩
  unfold Instr.regs
  rw [if_neg hbr, if_neg hone, if_neg htwo, if_neg hcall]

theorem exprEmits_binary {b : Emit} {kb : Nat} (ha : ExprEmits a ka) (hb : ExprEmits b kb)
    (hop : op ∈ tripleOps) :
    ExprEmits (fun e =>
      let (lhs, e) := a e
      let (rhs, e) := b e
      let (dest, e) := encNextReg e
      (dest, e.put op [dest, lhs, rhs])) (ka + kb + 1) := by
  intro e h hreg
  obtain ⟨is, hemits, hlhs, -⟩ := ha e h (by omega)
  have hreg₁ := hemits.reg
  obtain ⟨js, hemits', hrhs, -⟩ := hb (a e).2 hemits.bounded (by omega)
  have hreg₂ := hemits'.reg
  obtain ⟨h3, hcall, hregs⟩ := tripleOps_spec op hop
  refine exprEmits_dest (hemits.trans hemits') (by omega) ?_ ?_
  · refine within_regs h3 hcall rfl (by omega) (hregs _) ?_
    intro r hr
    fin_cases hr <;> omega
  · rw [hregs]
    exact mem_cons_self

theorem exprEmits_unary (ha : ExprEmits a ka) : ExprEmits (fun e =>
      let (r, e) := a e
      let (dest, e) := encNextReg e
      (dest, e.put opNeg [dest, r])) (ka + 1) := by
  intro e h hreg
  obtain ⟨is, hemits, hr, -⟩ := ha e h (by omega)
  have hreg₁ := hemits.reg
  refine exprEmits_dest hemits (by omega) ?_ mem_cons_self
  refine within_regs (n := 2) (by decide) (by decide) rfl (by omega) rfl ?_
  intro q hq
  fin_cases hq <;> omega

theorem exprEmits_field (ha : ExprEmits a ka) : ExprEmits (fun e =>
      let (base, e) := a e
      let (dest, e) := encNextReg e
      (dest, e.put opFieldGet [dest, base, 0])) (ka + 1) := by
  intro e h hreg
  obtain ⟨is, hemits, hr, -⟩ := ha e h (by omega)
  have hreg₁ := hemits.reg
  refine exprEmits_dest hemits (by omega) ?_ mem_cons_self
  refine within_of (n := 3) (by decide) rfl (by omega) ?_ ?_
  · intro q hq
    have hq' : q = (a e).2.reg ∨ q = (a e).1 := by
      simpa [Instr.regs, opFieldGet, opBr, opConstData, opAlloca, opBrIf] using hq
    rcases hq' with rfl | rfl <;> omega
  · intro q hq
    fin_cases hq <;> omega

/-- The operand of a cast is written behind the instruction's first two. -/
theorem exprEmits_cast (ha : ExprEmits a ka) {ty : Enc → Nat × Enc}
    (hty : ∀ e : Enc, e.Bounded → (ty e).1 < maxTypes ∧ Grown e (ty e).2) :
    ExprEmits (fun e =>
      let (r, e) := a e
      let (dest, e) := encNextReg e
      let e := e.put opCast [dest, r]
      let (t, e) := ty e
      (dest, { e with code := e.code ++ u16 t })) (ka + 1) := by
  intro e h hreg
  obtain ⟨is, hemits, hr, -⟩ := ha e h (by omega)
  have hreg₁ := hemits.reg
  have hmax : maxData = 1024 := rfl
  have hmaxTypes : maxTypes = 256 := rfl
  refine hemits.value (@emits_typed opCast _ [(a e).1] _ hemits.bounded (by omega) hty (fun t ht => ?_)
    fun _ => mem_cons_self)
  refine within_of (n := 3) (by decide) rfl (by omega) ?_ ?_
  · intro q hq
    have hq' : q = (a e).2.reg ∨ q = (a e).1 := by
      simpa [Instr.regs, opCast, opFieldGet, opBr, opConstData, opAlloca, opBrIf] using hq
    rcases hq' with rfl | rfl <;> omega
  · intro q hq
    fin_cases hq <;> omega

/-- The arguments of a call. -/
theorem emitAll_emits {fs : List Emit} (h : List.Forall₂ ExprEmits fs ks) :
    ∀ e : Enc, e.Bounded → e.reg + ks.sum < 2 ^ 16 →
      ∃ is, Emits e (emitAll fs e).2 ks.sum is ∧ (emitAll fs e).1.length = fs.length ∧
        ∀ r ∈ (emitAll fs e).1, r < max (emitAll fs e).2.reg 1 := by
  induction h with
  | nil => exact fun e hb _ => ⟨[], .refl hb, rfl, by simp [emitAll]⟩
  | @cons f k fs ks hf _ ih =>
    intro e hb hreg
    rw [sum_cons] at hreg ⊢
    obtain ⟨is, hemits, hr, -⟩ := hf e hb (by omega)
    have hreg₁ := hemits.reg
    obtain ⟨js, hemits', hlen, hrs⟩ := ih (f e).2 hemits.bounded (by omega)
    have hreg₂ := hemits'.reg
    refine ⟨is ++ js, hemits.trans hemits', ?_, ?_⟩
    · show (emitAll fs (f e).2).1.length + 1 = fs.length + 1
      rw [hlen]
    · intro r hmem
      rcases mem_cons.mp hmem with rfl | hmem
      · show (f e).1 < max (emitAll fs (f e).2).2.reg 1
        omega
      · exact hrs r hmem

theorem exprEmits_call {fs : List Emit} (h : List.Forall₂ ExprEmits fs ks)
    (hfit : fs.length ≤ maxParams) (callee : List Char) :
    ExprEmits (fun e =>
      let fidx := (e.funcs.findIdx? (·.name = callee)).getD 0
      let (regs, e) := emitAll fs e
      let (dest, e) := encNextReg e
      (dest, e.put opCall ([dest, fidx, fs.length] ++ regs))) (ks.sum + 1) := by
  intro e hb hreg
  have hmax : maxData = 1024 := rfl
  have hmaxParams : maxParams = 16 := rfl
  have hmaxFuncs : maxFuncs = 128 := rfl
  obtain ⟨is, hemits, hlen, hrs⟩ := emitAll_emits h e hb (by omega)
  have hreg₁ := hemits.reg
  have hfidx : (e.funcs.findIdx? (·.name = callee)).getD 0 < 128 := by
    cases hfind : e.funcs.findIdx? (·.name = callee) with
    | none => exact Nat.zero_lt_succ 127
    | some i =>
      have hlt := (findIdx?_eq_some_iff_findIdx_eq.mp hfind).1
      have := hb.funcs
      show i < 128
      omega
  refine @exprEmits_dest _ _ _ _ _ (_ :: _ :: (emitAll fs e).1) hemits (by omega) ?_ ?_
  · refine within_of (n := 3) (by decide) ?_ (by omega) ?_ ?_
    · show (emitAll fs e).1.length + 3 = 3 + fs.length
      omega
    · intro r hr
      have hr' : r = (emitAll fs e).2.reg ∨ r ∈ (emitAll fs e).1 := by
        simpa [Instr.regs, opCall, opBr, opConstData, opAlloca, opBrIf, opFieldGet, opCast] using hr
      rcases hr' with rfl | hr'
      · omega
      · have := hrs r hr'
        omega
    · intro o ho
      simp only [mem_cons] at ho
      rcases ho with rfl | rfl | rfl | ho
      · omega
      · omega
      · omega
      · have := hrs o ho
        omega
  · simp [Instr.regs, opCall, opBr, opConstData, opAlloca, opBrIf, opFieldGet, opCast]

section Program

variable (src : Source) (truncate : List Char → Int64)

theorem encEmitExpr_emitters (cs : List Node) :
    encEmitExpr.emitters src truncate cs = cs.map (encEmitExpr src truncate) := by
  induction cs with
  | nil => rfl
  | cons c cs ih => rw [encEmitExpr.emitters, ih, map_cons]

theorem encEmitExpr_eq (n : Node) : encEmitExpr src truncate n =
      encExprNode src truncate n (n.children.map (encEmitExpr src truncate)) := by
  obtain ⟨k, s, l, co, ts, tl, o, cs⟩ := n
  rw [encEmitExpr, encEmitExpr_emitters]

theorem binaryOp_mem (op : TokenKind) : binaryOp op ∈ tripleOps := by
  cases op <;> decide

/-- An expression that emits nothing. -/
theorem exprEmits_none : ExprEmits (fun e => (0, e)) 0 :=
  fun e h _ => ⟨[], .refl h, by show 0 < max e.reg 1; omega, fun _ => rfl⟩

theorem encExprNode_emits (hcalls : callsFit n)
    (ih : ∀ c ∈ n.children, ExprEmits (encEmitExpr src truncate c) (exprRegs c)) :
    ExprEmits (encExprNode src truncate n (n.children.map (encEmitExpr src truncate)))
      (exprRegsNode n.kind (n.children.map exprRegs)) := by
  have hself : n.kind = .callExpr → n.children.length ≤ maxParams + 1 := by
    intro hk
    have := all_eq_true.mp hcalls n (Node.mem_subnodes_self n)
    simpa [hk] using this
  obtain ⟨kind, s, l, co, ts, tl, o, cs⟩ := n
  cases kind
  case intLit => exact exprEmits_const _
  case strLit => exact exprEmits_const _
  case boolLit => exact exprEmits_const _
  case floatLit => exact exprEmits_const _
  case ident => exact exprEmits_load
  case binaryExpr =>
    match cs, ih with
    | [], _ => exact exprEmits_none
    | [_], _ => exact exprEmits_none
    | a :: b :: _, ih => exact exprEmits_binary (ih a (by simp)) (ih b (by simp)) (binaryOp_mem _)
  case unaryExpr =>
    match cs, ih with
    | [], _ => exact exprEmits_none
    | a :: _, ih => exact exprEmits_unary (ih a (by simp))
  case callExpr =>
    match cs, ih, hself with
    | [], _, _ => exact exprEmits_none
    | c :: args, ih, hself =>
      have hlen : args.length ≤ maxParams := by
        have := hself rfl
        rw [length_cons] at this
        omega
      have hargs : List.Forall₂ ExprEmits (args.map (encEmitExpr src truncate)) (args.map exprRegs) := by
        rw [forall₂_map_left_iff, forall₂_map_right_iff, forall₂_same]
        exact (forall_mem_cons.mp ih).2
      have hcall := exprEmits_call hargs (by rw [length_map]; exact hlen) (tokCopy src 128 c)
      have htake : (args.map (encEmitExpr src truncate)).take maxParams =
          args.map (encEmitExpr src truncate) := take_of_length_le (by rw [length_map]; exact hlen)
      have htake' : (args.map exprRegs).take maxParams = args.map exprRegs :=
        take_of_length_le (by rw [length_map]; exact hlen)
      intro e hb hreg
      simp only [map_cons, exprRegsNode, htake'] at hreg ⊢
      obtain ⟨is, hemits, hr⟩ := hcall e hb hreg
      refine ⟨is, ?_⟩
      simp only [encExprNode, htake]
      have hnone : (args.map (encEmitExpr src truncate)).length - maxParams = 0 := by
        rw [length_map]
        omega
      rw [hnone, replicate_zero, append_nil]
      exact ⟨hemits, hr⟩
  case fieldExpr =>
    match cs, ih with
    | [], _ => exact exprEmits_none
    | [_], _ => exact exprEmits_none
    | a :: _ :: _, ih => exact exprEmits_field (ih a (by simp))
  case castExpr =>
    match cs, ih with
    | [], _ => exact exprEmits_none
    | [_], _ => exact exprEmits_none
    | a :: t :: _, ih =>
      exact exprEmits_cast (ih a (by simp)) fun e he => typeIdxFromNode_spec src he t
  all_goals exact exprEmits_none

/-- Every expression appends complete instructions over the registers it takes. -/
theorem encEmitExpr_emits (n : Node) (hcalls : callsFit n) :
    ExprEmits (encEmitExpr src truncate n) (exprRegs n) := by
  induction n using Node.induction with
  | step n ih =>
    rw [encEmitExpr_eq, exprRegs_eq]
    exact encExprNode_emits src truncate hcalls fun c hc => ih c hc (callsFit_child hcalls hc)

/-! ## §4. Statements. -/

/-- An emitter of a statement that takes `k` registers. -/
def StmtEmits (emit : Enc → Enc) (k : Nat) : Prop :=
  ∀ e : Enc, e.Bounded → e.reg + k < 2 ^ 16 → ∃ is, Emits e (emit e) k is

theorem stmtEmits_none : StmtEmits id 0 := fun _ h _ => ⟨[], Emits.refl h⟩

/-- One statement after the other. -/
theorem stmtEmits_foldl {fs : List (Enc → Enc)} (h : List.Forall₂ StmtEmits fs ks) :
    StmtEmits (fs.foldl fun e f => f e) ks.sum := by
  induction h with
  | nil => exact stmtEmits_none
  | @cons f k fs ks hf _ ih =>
    intro e hb hreg
    rw [sum_cons] at hreg ⊢
    obtain ⟨is, hemits⟩ := hf e hb (by omega)
    have hreg₁ := hemits.reg
    obtain ⟨js, hemits'⟩ := ih (f e) hemits.bounded (by omega)
    exact ⟨is ++ js, hemits.trans hemits'⟩

/-- An instruction behind an expression, over its register and register 0. -/
theorem stmtEmits_behind {n : Nat} (os : Nat → List Nat) (h : ExprEmits emit k)
    (hn : fixedOperands op = some n) (hcall : op ≠ opCall) (hlen : ∀ r, (os r).length = n)
    (hos : ∀ r, ∀ o ∈ os r, o = r ∨ o = 0) :
    StmtEmits (fun e => (emit e).2.put op (os (emit e).1)) k := by
  intro e hb hreg
  obtain ⟨is, hemits, hr, hzero⟩ := h e hb hreg
  have hreg₁ := hemits.reg
  -- whichever operands are registers, they are operands
  have hmem : ∀ r ∈ Instr.regs ⟨op, os (emit e).1⟩, r ∈ os (emit e).1 := by
    intro r hr
    unfold Instr.regs at hr
    split at hr
    · cases hr
    split at hr
    · exact mem_of_mem_take hr
    split at hr
    · exact mem_of_mem_take hr
    · exact hr
  have hlt : ∀ o ∈ os (emit e).1, o < max (emit e).2.reg 1 := by
    intro o ho
    rcases hos _ o ho with rfl | rfl <;> omega
  have hwithin : Instr.Within (emit e).2.reg ⟨op, os (emit e).1⟩ := by
    refine within_of hn ?_ (by omega) (fun r hr => hlt r (hmem r hr)) ?_
    · unfold extraOperands
      rw [if_neg hcall, hlen, Nat.add_zero]
    · intro o ho
      have := hlt o ho
      have hmax : maxData = 1024 := rfl
      omega
  refine ⟨_, hemits.snoc hwithin fun hk r hr => ?_⟩
  rcases hos _ r (hmem r hr) with rfl | rfl
  · exact hzero hk
  · rfl

theorem stmtEmits_ret (h : ExprEmits emit k) :
    StmtEmits (fun e => (emit e).2.put opRet [(emit e).1]) k :=
  stmtEmits_behind (fun r => [r]) h (n := 1) (by decide) (by decide) (fun _ => rfl)
    fun r o ho => .inl (mem_singleton.mp ho)

theorem stmtEmits_assign (h : ExprEmits emit k) :
    StmtEmits (fun e => (emit e).2.put opStore [0, (emit e).1]) k :=
  stmtEmits_behind (fun r => [0, r]) h (n := 2) (by decide) (by decide) (fun _ => rfl)
    fun r o ho => by simpa [or_comm] using ho

theorem stmtEmits_brIf (h : ExprEmits emit k) :
    StmtEmits (fun e => (emit e).2.put opBrIf [(emit e).1, 0, 0]) k :=
  stmtEmits_behind (fun r => [r, 0, 0]) h (n := 3) (by decide) (by decide) (fun _ => rfl)
    fun r o ho => by simpa using ho

/-- A binding: its value, a slot and the store into it. -/
theorem stmtEmits_bind (h : ExprEmits emit k) : StmtEmits (fun e =>
      let (val, e) := emit e
      let (slot, e) := encNextReg e
      let e := e.put opAlloca [slot]
      let (ty, e) := encEnsureScalar e tyI64
      { e with code := e.code ++ u16 ty }.put opStore [slot, val]) (k + 1) := by
  intro e hb hreg
  obtain ⟨is, hemits, hr, -⟩ := h e hb (by omega)
  have hreg₁ := hemits.reg
  have hmax : maxData = 1024 := rfl
  have hmaxTypes : maxTypes = 256 := rfl
  have halloca : ∀ t < maxTypes,
      Instr.Within ((emit e).2.reg + 1) ⟨opAlloca, [(emit e).2.reg, t]⟩ := by
    intro t ht
    refine within_of (n := 2) (by decide) rfl (by omega) ?_ ?_
    · intro q hq
      have hq' : q = (emit e).2.reg := by
        simpa [Instr.regs, opAlloca, opBr, opConstData] using hq
      omega
    · intro q hq
      fin_cases hq <;> omega
  have hslot := @emits_typed opAlloca _ [] _ hemits.bounded (by omega)
    (fun e he => ensureScalar_spec he tyI64) halloca fun _ => mem_cons_self
  have hreg₂ := hslot.reg
  refine ⟨_, (hemits.trans hslot).snoc ?_ (by simp)⟩
  refine within_regs (n := 2) (by decide) (by decide) rfl (by omega) rfl ?_
  intro q hq
  fin_cases hq <;> omega

theorem stmtEmits_br : StmtEmits (fun e => e.put opBr [0]) 0 := by
  intro e hb hreg
  have hregs : Instr.regs ⟨opBr, [0]⟩ = [] := rfl
  refine ⟨_, (Emits.refl hb).snoc (within_of (n := 1) (by decide) rfl hreg (by simp [hregs]) ?_)
    fun _ => by simp [hregs]⟩
  intro o ho
  have hmax : maxData = 1024 := rfl
  rw [mem_singleton.mp ho]
  omega

theorem StmtEmits.seq {f g : Enc → Enc} {k' : Nat} (hf : StmtEmits f k) (hg : StmtEmits g k') :
    StmtEmits (fun e => g (f e)) (k + k') := by
  intro e hb hreg
  obtain ⟨is, hemits⟩ := hf e hb (by omega)
  have hreg₁ := hemits.reg
  obtain ⟨js, hemits'⟩ := hg (f e) hemits.bounded (by omega)
  exact ⟨is ++ js, hemits.trans hemits'⟩

theorem encEmitStmt_emitters (cs : List Node) :
    encEmitStmt.emitters src truncate cs = cs.map (encEmitStmt src truncate) := by
  induction cs with
  | nil => rfl
  | cons c cs ih => rw [encEmitStmt.emitters, ih, map_cons]

theorem encEmitStmt_eq (n : Node) : encEmitStmt src truncate n =
      encStmtNode src truncate n (n.children.map (encEmitStmt src truncate)) := by
  obtain ⟨k, s, l, co, ts, tl, o, cs⟩ := n
  rw [encEmitStmt, encEmitStmt_emitters]

theorem encStmtNode_emits (hcalls : callsFit n)
    (ih : ∀ c ∈ n.children, StmtEmits (encEmitStmt src truncate c) (stmtRegs c)) :
    StmtEmits (encStmtNode src truncate n (n.children.map (encEmitStmt src truncate)))
      (stmtRegsNode n (n.children.map stmtRegs)) := by
  have hexpr : ∀ c ∈ n.children, ExprEmits (encEmitExpr src truncate c) (exprRegs c) :=
    fun c hc => encEmitExpr_emits src truncate c (callsFit_child hcalls hc)
  have hkids : List.Forall₂ StmtEmits (n.children.map (encEmitStmt src truncate))
      (n.children.map stmtRegs) := by
    rw [forall₂_map_left_iff, forall₂_map_right_iff, forall₂_same]
    exact ih
  obtain ⟨kind, s, l, co, ts, tl, o, cs⟩ := n
  cases kind
  case stmtList => exact stmtEmits_foldl hkids
  case returnStmt =>
    match cs, hexpr with
    | [], _ =>
      have hret : StmtEmits (fun e => e.put opRet [0]) 0 := stmtEmits_ret exprEmits_none
      exact hret
    | c :: _, hexpr => exact stmtEmits_ret (hexpr c mem_cons_self)
  case bindStmt =>
    match cs, hexpr with
    | [], _ => exact stmtEmits_none
    | [_], _ => exact stmtEmits_none
    | i :: c :: cs, hexpr => exact stmtEmits_bind (hexpr _ (mem_cons_of_mem i (getLast_mem _)))
  case mutBindStmt =>
    match cs, hexpr with
    | [], _ => exact stmtEmits_none
    | [_], _ => exact stmtEmits_none
    | i :: c :: cs, hexpr => exact stmtEmits_bind (hexpr _ (mem_cons_of_mem i (getLast_mem _)))
  case assignStmt =>
    match cs, hexpr with
    | [], _ => exact stmtEmits_none
    | [_], _ => exact stmtEmits_none
    | i :: c :: _, hexpr => exact stmtEmits_assign (hexpr c (by simp))
  case ifStmt =>
    match cs, hexpr, hkids with
    | [], _, _ => exact stmtEmits_none
    | [_], _, _ => exact stmtEmits_none
    | c :: d :: ds, hexpr, hkids =>
      have hbranches : List.Forall₂ StmtEmits
          ((((c :: d :: ds).map (encEmitStmt src truncate)).drop 1).take 2)
          ((((c :: d :: ds).map stmtRegs).drop 1).take 2) := forall₂_take 2 (forall₂_drop 1 hkids)
      exact (stmtEmits_brIf (hexpr c mem_cons_self)).seq (stmtEmits_foldl hbranches)
  case loopStmt =>
    have hloop := stmtEmits_br.seq (stmtEmits_foldl hkids)
    rw [Nat.zero_add] at hloop
    exact hloop
  case exprStmt =>
    match cs, hexpr with
    | [], _ => exact stmtEmits_none
    | c :: _, hexpr =>
      intro e hb hreg
      obtain ⟨is, hemits, -⟩ := hexpr c mem_cons_self e hb hreg
      exact ⟨is, hemits⟩
  all_goals exact stmtEmits_none

/-- Every statement appends complete instructions over the registers it takes. -/
theorem encEmitStmt_emits (n : Node) (hcalls : callsFit n) :
    StmtEmits (encEmitStmt src truncate n) (stmtRegs n) := by
  induction n using Node.induction with
  | step n ih =>
    rw [encEmitStmt_eq, stmtRegs_eq]
    exact encStmtNode_emits src truncate hcalls fun c hc => ih c hc (callsFit_child hcalls hc)

end Program

end Toke.Tkir
