/-
  Toke.Tkir.Expressions — **INTEGER EXPRESSIONS KEEP THEIR VALUE** (`enc_emit_expr`).

  `exprValue` is what an expression of integer and boolean literals means in
  the language.  The encoder has opcodes for seven of the binary operators and
  one unary one, and reads every literal in base ten; `direct` says that
  nothing else occurs.  Then the emitted code leaves the value in the register
  the encoder returns, or traps where the language does (`emitted_value`).
-/
import Toke.Tkir.EmitShape
import Toke.Names.FrontEnd
import Mathlib.Data.Finset.Card

namespace Toke.Tkir

open List

variable {as bs : List EncDataEntry} {e e₁ : Enc} {n : Node} {is : List Instr} {ds : List Char}

/-! ## §1. The language. -/

/-- The value of a digit. -/
def digitValue (c : Char) : Nat :=
  if isDigit c then c.toNat - 48 else if 'a' ≤ c then c.toNat - 87 else c.toNat - 55

/-- The value of some digits. -/
def numeral (base : Nat) (ds : List Char) : Nat := ds.foldl (fun n d => n * base + digitValue d) 0

/-- The value of a literal in a base. -/
def literalIn (base : Nat) (p : Char → Bool) (ds : List Char) : Option Int64 :=
  if ds ≠ [] ∧ ds.all p then checked (numeral base ds) else none

/-- The number an integer literal stands for. -/
def literalValue : List Char → Option Int64
  | '0' :: 'x' :: ds | '0' :: 'X' :: ds => literalIn 16 isHex ds
  | '0' :: 'b' :: ds | '0' :: 'B' :: ds => literalIn 2 isBin ds
  | ds => literalIn 10 isDigit ds

/-- A unary operator on a value. -/
def unaryValue : TokenKind → Int64 → Option Int64
  | .minus, a => some (-a)
  | .bang, a => some (ofBool (a = 0))
  | .tilde, a => some (~~~a)
  | _, _ => none

/-- The operators that evaluate both sides.  Shifts by the width or more leave
only the sign. -/
def binaryValue : TokenKind → Int64 → Int64 → Option Int64
  | .plus, a, b => checked (a.toInt + b.toInt)
  | .minus, a, b => checked (a.toInt - b.toInt)
  | .star, a, b => checked (a.toInt * b.toInt)
  | .slash, a, b => divided Int.tdiv a b
  | .percent, a, b => divided Int.tmod a b
  | .lt, a, b => some (ofBool (a < b))
  | .gt, a, b => some (ofBool (b < a))
  | .le, a, b => some (ofBool (a ≤ b))
  | .ge, a, b => some (ofBool (b ≤ a))
  | .eq, a, b => some (ofBool (a = b))
  | .ne, a, b => some (ofBool (a ≠ b))
  | .amp, a, b => some (a &&& b)
  | .pipe, a, b => some (a ||| b)
  | .caret, a, b => some (a ^^^ b)
  | .shl, a, b => some (if b.toUInt64 < 64 then a <<< b else 0)
  | .shr, a, b => some (a >>> (if b.toUInt64 < 64 then b else 63))
  | _, _, _ => none

section Program

variable (src : Source)

/-- The value of a node from those of its parts. -/
def exprValueNode (n : Node) (kids : List (Option Int64)) : Option Int64 :=
  match n.kind, kids with
  | .intLit, [] => literalValue (n.text src)
  | .boolLit, [] =>
    if n.text src = "true".toList then some 1
    else if n.text src = "false".toList then some 0
    else none
  | .unaryExpr, [a] => a.bind (unaryValue n.op)
  | .binaryExpr, [a, b] =>
    match n.op with
    | .and => a.bind fun v => if v = 0 then some 0 else b.map fun w => ofBool (w ≠ 0)
    | .or => a.bind fun v => if v = 0 then b.map fun w => ofBool (w ≠ 0) else some 1
    | op => a.bind fun v => b.bind (binaryValue op v)
  | _, _ => none

/-- The value of an expression in the language; `none` is a trap. -/
def exprValue : Node → Option Int64 := Node.fold (exprValueNode src)

/-- The binary operators that have an opcode. -/
def directOps : List TokenKind := [.plus, .minus, .star, .slash, .percent, .lt, .gt]

/-- A node that is emitted as it stands. -/
def directNode (n : Node) (kids : List Bool) : Bool :=
  match n.kind, kids with
  | .intLit, [] =>
    n.text src ≠ [] && (n.text src).all isDigit && (n.text src).length < 128 &&
      numeral 10 (n.text src) < 2 ^ 63
  | .boolLit, [] => n.text src ∈ ["true".toList, "false".toList]
  | .unaryExpr, [a] => n.op = .minus && a
  | .binaryExpr, [a, b] => n.op ∈ directOps && a && b
  | _, _ => false

/-- Decimal literals in range, boolean literals, and operators with an opcode. -/
def direct : Node → Bool := Node.fold (directNode src)

/-- The constants of a node and its parts. -/
def constantsNode (n : Node) (kids : List (List EncDataEntry)) : List EncDataEntry :=
  match n.kind with
  | .intLit | .boolLit => ((exprValueNode src n []).map EncDataEntry.i64).toList
  | _ => kids.flatten

/-- The literals of an expression, as entries of the pool. -/
def constants : Node → List EncDataEntry := Node.fold (constantsNode src)

/-! ## §2. The pool. -/

/-- What a run of literals leaves of the pool: its entries stay where they are,
and every literal that was missing has been put behind them. -/
structure Pooled (data data' : List EncDataEntry) (cs : List EncDataEntry) : Prop where
  kept : data <+: data'
  entries : data'.toFinset = data.toFinset ∪ cs.toFinset
  length : data'.length = data.length + (cs.toFinset \ data.toFinset).card

/-- The entries a pool of `data` takes for the literals. -/
def poolNeed (data cs : List EncDataEntry) : Nat := data.length + (cs.toFinset \ data.toFinset).card

theorem Pooled.need_append {data data' : List EncDataEntry} (h : Pooled data data' as) :
    poolNeed data' bs = poolNeed data (as ++ bs) := by
  have hdisj : Disjoint (as.toFinset \ data.toFinset) (bs.toFinset \ data'.toFinset) := by
    rw [h.entries, Finset.disjoint_left]
    intro d hd hd'
    simp only [Finset.mem_sdiff, Finset.mem_union, not_or] at hd hd'
    exact hd'.2.2 hd.1
  have hunion : (as ++ bs).toFinset \ data.toFinset =
      (as.toFinset \ data.toFinset) ∪ (bs.toFinset \ data'.toFinset) := by
    rw [h.entries]
    ext d
    simp only [toFinset_append, Finset.mem_sdiff, Finset.mem_union]
    tauto
  unfold poolNeed
  rw [hunion, Finset.card_union_of_disjoint hdisj, h.length, Nat.add_assoc]

theorem Pooled.trans {d d₁ d₂ : List EncDataEntry} (h : Pooled d d₁ as) (h' : Pooled d₁ d₂ bs) :
    Pooled d d₂ (as ++ bs) where
  kept := h.kept.trans h'.kept
  entries := by rw [h'.entries, h.entries, toFinset_append, Finset.union_assoc]
  length := h'.length.trans h.need_append

/-- A literal is found, or put at the end while there is room. -/
theorem addData_pooled {d : EncDataEntry} (hroom : poolNeed e.data [d] ≤ maxData) :
    Pooled e.data (encAddData e d).2.data [d] ∧
      (encAddData e d).2.data[(encAddData e d).1]? = some d := by
  unfold encAddData
  cases hfind : e.data.findIdx? (· = d) with
  | some i =>
    obtain ⟨hlt, hval⟩ := findIdx?_eq_some_iff_getElem.mp hfind
    have hd : e.data[i] = d := by simpa using hval.1
    have hmem : d ∈ e.data := hd ▸ getElem_mem hlt
    refine ⟨⟨prefix_refl _, ?_, ?_⟩, ?_⟩
    · rw [eq_comm]
      simpa using hmem
    · simpa using hmem
    · show e.data[i]? = some d
      rw [getElem?_eq_getElem hlt, hd]
  | none =>
    have hnot : d ∉ e.data := by
      intro hmem
      have := findIdx?_eq_none_iff.mp hfind d hmem
      simp at this
    have hcard : (([d] : List EncDataEntry).toFinset \ e.data.toFinset).card = 1 := by
      have hsingle : ([d] : List EncDataEntry).toFinset \ e.data.toFinset = {d} := by
        ext x
        simp only [toFinset_cons, toFinset_nil, insert_empty_eq, Finset.mem_sdiff,
          Finset.mem_singleton, mem_toFinset, and_iff_left_iff_imp]
        rintro rfl
        exact hnot
      rw [hsingle, Finset.card_singleton]
    have hlt : ¬ e.data.length ≥ maxData := by
      unfold poolNeed at hroom
      omega
    rw [if_neg hlt]
    refine ⟨⟨prefix_append _ _, toFinset_append, ?_⟩, ?_⟩
    · rw [hcard, length_append, length_singleton]
    · exact getElem?_concat_length

/-! ## §3. One instruction more. -/

/-- A run that ends with the value in register `r`, the registers below `base`
as they were; or a trap, where there is no value. -/
inductive Leaves (s : Registers) (base r : Nat) : Option Registers → Option Int64 → Prop
  | trap : Leaves s base r none none
  | value {s' : Registers} (hframe : ∀ q < base, s' q = s q) : Leaves s base r (some s') (some (s' r))

theorem Leaves.update {s s₁ : Registers} {base r : Nat} (v : Int64) (hr : base ≤ r)
    (hframe : ∀ q < base, s₁ q = s q) :
    Leaves s base r (some (Function.update s₁ r v)) (some v) := by
  have hleaves : Leaves s base r (some (Function.update s₁ r v))
      (some (Function.update s₁ r v r)) :=
    .value fun q hq => (Function.update_of_ne (by omega) v s₁).trans (hframe q hq)
  rwa [Function.update_self] at hleaves

/-- The code from `e` to `e'` takes `k` registers, the counter back at 0 behind
the last one there is, and computes `v` into register `r`, also over a larger
pool than the one it was emitted with. -/
structure Computes (e e' : Enc) (r k : Nat) (is : List Instr) (cs : List EncDataEntry)
    (v : Option Int64) : Prop where
  code : e'.code = e.code ++ Instr.allBytes is
  complete : ∀ i ∈ is, i.Complete
  bounded : e'.Bounded
  next : e'.reg = (e.reg + k) % 2 ^ 16
  reg : e.reg ≤ r ∧ r < e.reg + k
  pooled : Pooled e.data e'.data cs
  runs : ∀ data, e'.data <+: data → ∀ s, Leaves s e.reg r (runInstrs data is s) v

theorem code_put {code : List UInt8} {op : Nat} (is : List Instr) (os : List Nat)
    (h : e.code = code ++ Instr.allBytes is) :
    ((encNextReg e).2.put op os).code = code ++ Instr.allBytes (is ++ [⟨op, os⟩]) := by
  show e.code ++ u8 op ++ os.flatMap u16 = _
  rw [h]
  simp [Instr.allBytes, Instr.bytes]

theorem runInstrs_singleton (data : List EncDataEntry) (i : Instr) (s : Registers) :
    runInstrs data [i] s = stepInstr data i s := by
  show (stepInstr data i s).bind some = _
  exact Option.bind_fun_some _

theorem computes_const {v : Int64} (hb : e.Bounded) (hreg : e.reg + 1 ≤ 2 ^ 16)
    (hroom : poolNeed e.data [.i64 v] ≤ maxData) :
    Computes e (encConst e (.i64 v)).2 (encConst e (.i64 v)).1 1
      [⟨opConstData, [e.reg, (encAddData e (.i64 v)).1]⟩] [.i64 v] (some v) := by
  obtain ⟨hidx, hgrown⟩ := addData_spec hb (.i64 v)
  obtain ⟨hpooled, hentry⟩ := addData_pooled hroom
  have hnext := hgrown.reg
  have hmax : maxData = 1024 := rfl
  have hconst : encConst e (.i64 v) = (e.reg, (encNextReg (encAddData e (.i64 v)).2).2.put
      opConstData [e.reg, (encAddData e (.i64 v)).1]) := by
    rw [← hnext]
    rfl
  rw [hconst]
  refine ⟨code_put [] _ (by rw [hgrown.code]; exact (append_nil _).symm),
    forall_mem_singleton.mpr ⟨⟨2, rfl, rfl⟩, fun o ho => ?_⟩,
    ⟨hgrown.bounded.types, hgrown.bounded.data, hgrown.bounded.funcs⟩,
    congrArg (fun r => (r + 1) % 2 ^ 16) hnext, ⟨Nat.le_refl _, Nat.lt_succ_self _⟩, hpooled,
    fun data hkept s => ?_⟩
  · fin_cases ho <;> omega
  · have hload : data[(encAddData e (.i64 v)).1]? = some (.i64 v) := by
      obtain ⟨rest, rfl⟩ := hkept
      exact (List.getElem?_append_left (List.getElem?_eq_some_iff.mp hentry).1).trans hentry
    rw [runInstrs_singleton]
    have hstep : stepInstr data ⟨opConstData, [e.reg, (encAddData e (.i64 v)).1]⟩ s =
        some (Function.update s e.reg v) := by simp only [stepInstr, hload, if_true]
    rw [hstep]
    exact .update v (Nat.le_refl _) fun _ _ => rfl

/-- An instruction over registers, behind code that computes its operands. -/
theorem complete_snoc {op n : Nat} {os : List Nat} (h : ∀ i ∈ is, i.Complete)
    (hn : fixedOperands op = some n) (hcall : op ≠ opCall) (hlen : os.length = n)
    (hos : ∀ r ∈ os, r < 2 ^ 16) : ∀ i ∈ is ++ [⟨op, os⟩], i.Complete := by
  refine forall_mem_append.mpr ⟨h, forall_mem_singleton.mpr ⟨⟨n, hn, ?_⟩, hos⟩⟩
  unfold extraOperands
  rw [if_neg hcall, Nat.add_zero]
  exact hlen

theorem computes_binary {e₂ : Enc} {lhs rhs ka kb op : Nat} {js : List Instr}
    {va vb : Option Int64} (ha : Computes e e₁ lhs ka is as va)
    (hb : Computes e₁ e₂ rhs kb js bs vb) (hop : op ∈ tripleOps)
    (hreg : e.reg + (ka + kb + 1) ≤ 2 ^ 16) :
    Computes e ((encNextReg e₂).2.put op [e₂.reg, lhs, rhs]) e₂.reg (ka + kb + 1)
      (is ++ js ++ [⟨op, [e₂.reg, lhs, rhs]⟩]) (as ++ bs)
      (va.bind fun a => vb.bind (opMeaning op a)) := by
  obtain ⟨h3, hcall, -⟩ := tripleOps_spec op hop
  have hlhs := ha.reg
  have hrhs := hb.reg
  have hreg₁ : e₁.reg = e.reg + ka := ha.next.trans (Nat.mod_eq_of_lt (by omega))
  have hreg₂ : e₂.reg = e.reg + (ka + kb) := by
    rw [hb.next, hreg₁, Nat.add_assoc, Nat.mod_eq_of_lt (by omega)]
  refine ⟨code_put _ _ (by rw [hb.code, ha.code, allBytes_append, append_assoc]),
    complete_snoc (forall_mem_append.mpr ⟨ha.complete, hb.complete⟩) h3 hcall rfl ?_,
    ⟨hb.bounded.types, hb.bounded.data, hb.bounded.funcs⟩,
    congrArg (fun r => (r + 1) % 2 ^ 16) hreg₂, by omega, ha.pooled.trans hb.pooled,
    fun data hkept s => ?_⟩
  · intro r hr
    simp only [mem_cons, not_mem_nil, or_false] at hr
    omega
  rw [runInstrs_append, runInstrs_append]
  -- the left side, the right side over the registers it left, and the operation
  have hleft := ha.runs data (hb.pooled.kept.trans hkept) s
  generalize runInstrs data is s = run at hleft ⊢
  cases hleft with
  | trap => exact .trap
  | @value s₁ hframe₁ =>
    have hright := hb.runs data hkept s₁
    rw [Option.bind_some, Option.bind_some]
    generalize runInstrs data js s₁ = run at hright ⊢
    cases hright with
    | trap => exact .trap
    | @value s₂ hframe₂ =>
      rw [Option.bind_some, Option.bind_some, runInstrs_singleton]
      show Leaves s e.reg e₂.reg ((opMeaning op (s₂ lhs) (s₂ rhs)).map _) _
      rw [hframe₂ lhs (by omega)]
      cases opMeaning op (s₁ lhs) (s₂ rhs) with
      | none => exact .trap
      | some v =>
        exact .update v (by omega) fun q hq => (hframe₂ q (by omega)).trans (hframe₁ q hq)

theorem computes_unary {r k : Nat} {cs : List EncDataEntry}
    {v : Option Int64} (h : Computes e e₁ r k is cs v) (hreg : e.reg + (k + 1) ≤ 2 ^ 16) :
    Computes e ((encNextReg e₁).2.put opNeg [e₁.reg, r]) e₁.reg (k + 1) (is ++ [⟨opNeg, [e₁.reg, r]⟩])
      cs (v.map (- ·)) := by
  have hr := h.reg
  have hreg₁ : e₁.reg = e.reg + k := h.next.trans (Nat.mod_eq_of_lt (by omega))
  refine ⟨code_put _ _ h.code, complete_snoc h.complete (n := 2) (by decide) (by decide) rfl ?_,
    ⟨h.bounded.types, h.bounded.data, h.bounded.funcs⟩, congrArg (fun r => (r + 1) % 2 ^ 16) hreg₁,
    by omega, h.pooled, fun data hkept s => ?_⟩
  · intro q hq
    simp only [mem_cons, not_mem_nil, or_false] at hq
    omega
  rw [runInstrs_append]
  have hrun := h.runs data hkept s
  generalize runInstrs data is s = run at hrun ⊢
  cases hrun with
  | trap => exact .trap
  | @value s₁ hframe => exact .update (-(s₁ r)) (by omega) hframe

/-! ## §4. Expressions. -/

theorem isDigit_bounds {c : Char} (h : isDigit c) : 48 ≤ c.toNat ∧ c.toNat ≤ 57 := by
  simp only [isDigit, Bool.and_eq_true, decide_eq_true_eq] at h
  exact h

theorem digit_byte {c : Char} (h : isDigit c) :
    c.toUInt8.toNat = c.toNat ∧ Stdlib.isDecimal c.toUInt8 := by
  obtain ⟨hlo, hhi⟩ := isDigit_bounds h
  have hnat : c.toUInt8.toNat = c.toNat := by
    show (UInt8.ofNat c.toNat).toNat = _
    rw [UInt8.toNat_ofNat']
    omega
  refine ⟨hnat, ?_⟩
  simp only [Stdlib.isDecimal, Bool.and_eq_true, decide_eq_true_eq, UInt8.le_iff_toNat_le, hnat]
  exact ⟨hlo, hhi⟩

theorem digitsValue_textBytes (h : ∀ d ∈ ds, isDigit d) :
    Stdlib.digitsValue (textBytes ds) = numeral 10 ds := by
  unfold Stdlib.digitsValue textBytes numeral
  rw [foldl_map]
  generalize (0 : Nat) = n
  induction ds generalizing n with
  | nil => rfl
  | cons d ds ih =>
    have hd := h d mem_cons_self
    rw [foldl_cons, foldl_cons, (digit_byte hd).1]
    unfold digitValue
    rw [if_pos hd]
    exact ih (forall_mem_cons.mp h).2 _

/-- A decimal literal is no literal of another base. -/
theorem literalValue_decimal (hne : ds ≠ []) (hds : ds.all isDigit) :
    literalValue ds = checked (numeral 10 ds) := by
  have hmarker : ∀ m rest, ds = '0' :: m :: rest → isDigit m := by
    rintro m rest rfl
    exact all_eq_true.mp hds m (by simp)
  unfold literalValue
  split
  · exact absurd (hmarker 'x' _ rfl) (by decide)
  · exact absurd (hmarker 'X' _ rfl) (by decide)
  · exact absurd (hmarker 'b' _ rfl) (by decide)
  · exact absurd (hmarker 'B' _ rfl) (by decide)
  · unfold literalIn
    rw [if_pos ⟨hne, hds⟩]

/-- `strtoll` reads a short decimal literal that is in range as it stands. -/
theorem strtoll_literal (hne : ds ≠ []) (hds : ds.all isDigit)
    (hval : numeral 10 ds < 2 ^ 63) :
    Stdlib.strtoll (textBytes ds) = some (Int64.ofInt (numeral 10 ds)) := by
  have hdigits : ∀ c ∈ textBytes ds, Stdlib.isDecimal c := by
    intro c hc
    obtain ⟨d, hd, rfl⟩ := mem_map.mp hc
    exact (digit_byte (all_eq_true.mp hds d hd)).2
  have hvalue := digitsValue_textBytes (all_eq_true.mp hds)
  have hbytes : textBytes ds ≠ [] := fun h => hne (map_eq_nil_iff.mp h)
  generalize textBytes ds = bs at hdigits hvalue hbytes
  obtain ⟨c, cs, rfl⟩ := exists_cons_of_ne_nil hbytes
  obtain ⟨hspace, hminus, hplus⟩ := Stdlib.decimal_cases (hdigits c mem_cons_self)
  have hall : (c :: cs).takeWhile Stdlib.isDecimal = c :: cs := takeWhile_eq_self_iff.mpr hdigits
  unfold Stdlib.strtoll
  rw [dropWhile_cons_of_neg (by rw [hspace]; decide), Stdlib.readSigned_plain hminus hplus]
  unfold Stdlib.signedValue
  simp only [hall, if_neg hbytes, Bool.false_eq_true, if_false]
  congr 2
  unfold Stdlib.clamp
  omega

theorem direct_cases (h : direct src n) :
    (n.kind = .intLit ∧ n.children = [] ∧ n.text src ≠ [] ∧ (n.text src).all isDigit ∧
        (n.text src).length < 128 ∧ numeral 10 (n.text src) < 2 ^ 63) ∨
      (n.kind = .boolLit ∧ n.children = [] ∧ n.text src ∈ ["true".toList, "false".toList]) ∨
      (∃ a, n.kind = .unaryExpr ∧ n.children = [a] ∧ n.op = .minus ∧ direct src a) ∨
      ∃ a b, n.kind = .binaryExpr ∧ n.children = [a, b] ∧ n.op ∈ directOps ∧ direct src a ∧
        direct src b := by
  unfold direct at h
  rw [Node.fold_eq] at h
  unfold directNode at h
  split at h
  · next hkind hkids =>
    simp only [Bool.and_eq_true, decide_eq_true_eq] at h
    exact .inl ⟨hkind, map_eq_nil_iff.mp hkids, h.1.1.1, h.1.1.2, h.1.2, h.2⟩
  · next hkind hkids => exact .inr (.inl ⟨hkind, map_eq_nil_iff.mp hkids, of_decide_eq_true h⟩)
  · next a hkind hkids =>
    obtain ⟨c, hc, rfl⟩ := map_eq_singleton_iff.mp hkids
    simp only [Bool.and_eq_true, decide_eq_true_eq] at h
    exact .inr (.inr (.inl ⟨c, hkind, hc, h.1, h.2⟩))
  · next a b hkind hkids =>
    obtain ⟨c, cs, hc, rfl, hcs⟩ := map_eq_cons_iff.mp hkids
    obtain ⟨d, rfl, rfl⟩ := map_eq_singleton_iff.mp hcs
    simp only [Bool.and_eq_true, decide_eq_true_eq] at h
    exact .inr (.inr (.inr ⟨c, d, hkind, hc, h.1.1, h.1.2, h.2⟩))
  · cases h

variable (truncate : List Char → Int64)

/-- What the code of an expression does, for every encoder with room for it. -/
def ExprComputes (n : Node) : Prop :=
  ∀ e : Enc, e.Bounded → e.reg + exprRegs n ≤ 2 ^ 16 → poolNeed e.data (constants src n) ≤ maxData →
    ∃ is, Computes e (encEmitExpr src truncate n e).2 (encEmitExpr src truncate n e).1 (exprRegs n) is
      (constants src n) (exprValue src n)

/-- A literal whose constant is its value. -/
theorem exprComputes_literal {v : Int64} (hkind : n.kind = .intLit ∨ n.kind = .boolLit)
    (hkids : n.children = []) (hnode : exprValueNode src n [] = some v)
    (hemit : ∀ e, encEmitExpr src truncate n e = encConst e (.i64 v)) : ExprComputes src truncate n := by
  have hvalue : exprValue src n = some v := by
    unfold exprValue
    rw [Node.fold_eq, hkids]
    exact hnode
  have hregs : exprRegs n = 1 := by
    rw [exprRegs_eq]
    rcases hkind with hkind | hkind <;> rw [hkind] <;> rfl
  have hconst : constants src n = [.i64 v] := by
    unfold constants
    rw [Node.fold_eq]
    unfold constantsNode
    rcases hkind with hkind | hkind <;>
      simp only [hkind, hnode, Option.map_some, Option.toList_some]
  intro e hb hreg hroom
  rw [hemit, hvalue, hregs, hconst]
  rw [hregs] at hreg
  rw [hconst] at hroom
  exact ⟨_, computes_const hb hreg hroom⟩

theorem exprComputes_int (hkind : n.kind = .intLit) (hkids : n.children = [])
    (hne : n.text src ≠ []) (hds : (n.text src).all isDigit) (hlen : (n.text src).length < 128)
    (hval : numeral 10 (n.text src) < 2 ^ 63) : ExprComputes src truncate n := by
  have hnode : exprValueNode src n [] = some (Int64.ofInt (numeral 10 (n.text src))) := by
    unfold exprValueNode
    rw [hkind]
    show literalValue (n.text src) = _
    rw [literalValue_decimal hne hds]
    unfold checked
    rw [if_pos (by omega)]
  have hcopy : tokCopy src 128 n = n.text src := by
    unfold tokCopy buffer
    rw [take_of_length_le (by omega), takeWhile_eq_self_iff]
    intro c hc
    have := isDigit_bounds (all_eq_true.mp hds c hc)
    rw [bne_iff_ne]
    rintro rfl
    exact absurd this.1 (by decide)
  refine exprComputes_literal src truncate (.inl hkind) hkids hnode fun e => ?_
  rw [encEmitExpr_eq]
  unfold encExprNode
  rw [hkind]
  show encConst e (.i64 ((Stdlib.strtoll (textBytes (tokCopy src 128 n))).getD 0)) = _
  rw [hcopy, strtoll_literal hne hds hval]
  rfl

theorem exprComputes_bool (hkind : n.kind = .boolLit) (hkids : n.children = [])
    (htext : n.text src ∈ ["true".toList, "false".toList]) : ExprComputes src truncate n := by
  have hboth : ∃ v, exprValueNode src n [] = some v ∧
      (if tokCopy src 128 n ∈ ["true".toList, "TRUE".toList] then (1 : Int64) else 0) = v := by
    unfold exprValueNode tokCopy
    rw [hkind]
    simp only [mem_cons, not_mem_nil, or_false] at htext
    rcases htext with htext | htext
    · exact ⟨1, by rw [htext]; rfl, by rw [htext]; decide⟩
    · exact ⟨0, by rw [htext]; rfl, by rw [htext]; decide⟩
  obtain ⟨v, hnode, hv⟩ := hboth
  refine exprComputes_literal src truncate (.inr hkind) hkids hnode fun e => ?_
  rw [encEmitExpr_eq]
  unfold encExprNode
  rw [hkind]
  show encConst e (.i64 (if tokCopy src 128 n ∈ ["true".toList, "TRUE".toList] then 1 else 0)) = _
  rw [hv]

theorem poolNeed_left (data as bs : List EncDataEntry) : poolNeed data as ≤ poolNeed data (as ++ bs) := by
  refine Nat.add_le_add_left (Finset.card_le_card (Finset.sdiff_subset_sdiff ?_ (Finset.Subset.refl _))) _
  rw [toFinset_append]
  exact Finset.subset_union_left

/-- An operator with an opcode means what the opcode is named for. -/
theorem opMeaning_direct : ∀ op ∈ directOps, opMeaning (binaryOp op) = binaryValue op ∧ op ≠ .and ∧ op ≠ .or := by
  intro op hop
  simp only [directOps, mem_cons, not_mem_nil, or_false] at hop
  rcases hop with rfl | rfl | rfl | rfl | rfl | rfl | rfl <;> exact ⟨rfl, by decide, by decide⟩

theorem exprComputes_binary {a b : Node} (hkind : n.kind = .binaryExpr) (hkids : n.children = [a, b])
    (hop : n.op ∈ directOps) (ha : ExprComputes src truncate a) (hb : ExprComputes src truncate b) :
    ExprComputes src truncate n := by
  obtain ⟨hmeaning, hand, hor⟩ := opMeaning_direct n.op hop
  have hregs : exprRegs n = exprRegs a + exprRegs b + 1 := by
    rw [exprRegs_eq, hkind, hkids]
    rfl
  have hconst : constants src n = constants src a ++ constants src b := by
    unfold constants
    rw [Node.fold_eq]
    unfold constantsNode
    rw [hkind, hkids]
    simp
  have hvalue : exprValue src n =
      (exprValue src a).bind fun v => (exprValue src b).bind (opMeaning (binaryOp n.op) v) := by
    unfold exprValue
    rw [Node.fold_eq]
    unfold exprValueNode
    rw [hkind, hkids, hmeaning]
    simp only [map_cons, map_nil]
  intro e hbounded hreg hroom
  rw [hregs] at hreg ⊢
  rw [hconst] at hroom ⊢
  obtain ⟨is, hleft⟩ := ha e hbounded (by omega) (Nat.le_trans (poolNeed_left _ _ _) hroom)
  have hreg₁ := hleft.next
  obtain ⟨js, hright⟩ := hb _ hleft.bounded (by omega) (by rwa [hleft.pooled.need_append])
  rw [hvalue, encEmitExpr_eq]
  unfold encExprNode
  rw [hkind, hkids]
  exact ⟨_, computes_binary hleft hright (binaryOp_mem n.op) hreg⟩

theorem exprComputes_unary {a : Node} (hkind : n.kind = .unaryExpr) (hkids : n.children = [a])
    (hop : n.op = .minus) (ha : ExprComputes src truncate a) : ExprComputes src truncate n := by
  have hregs : exprRegs n = exprRegs a + 1 := by
    rw [exprRegs_eq, hkind, hkids]
    rfl
  have hconst : constants src n = constants src a := by
    unfold constants
    rw [Node.fold_eq]
    unfold constantsNode
    rw [hkind, hkids]
    simp
  have hvalue : exprValue src n = (exprValue src a).map (- ·) := by
    unfold exprValue
    rw [Node.fold_eq]
    unfold exprValueNode
    rw [hkind, hkids, hop]
    exact (Option.map_eq_bind).symm
  intro e hbounded hreg hroom
  rw [hregs] at hreg ⊢
  rw [hconst] at hroom ⊢
  obtain ⟨is, hoperand⟩ := ha e hbounded (by omega) hroom
  rw [hvalue, encEmitExpr_eq]
  unfold encExprNode
  rw [hkind, hkids]
  exact ⟨_, computes_unary hoperand hreg⟩

theorem exprComputes_of_direct (n : Node) (h : direct src n) : ExprComputes src truncate n := by
  induction n using Node.induction with
  | step n ih =>
    rcases direct_cases src h with ⟨hkind, hkids, hne, hds, hlen, hval⟩ | ⟨hkind, hkids, htext⟩ |
      ⟨a, hkind, hkids, hop, ha⟩ | ⟨a, b, hkind, hkids, hop, ha, hb⟩
    · exact exprComputes_int src truncate hkind hkids hne hds hlen hval
    · exact exprComputes_bool src truncate hkind hkids htext
    · exact exprComputes_unary src truncate hkind hkids hop (ih a (by simp [hkids]) ha)
    · exact exprComputes_binary src truncate hkind hkids hop (ih a (by simp [hkids]) ha)
        (ih b (by simp [hkids]) hb)

/-- The emitted code, taken apart and run on the registers `s`: what it leaves in
the register `enc_emit_expr` returns. -/
def runEmitted (n : Node) (e : Enc) (s : Registers) : Option Int64 := do
  let (r, e') := encEmitExpr src truncate n e
  let is ← disassemble (e'.code.drop e.code.length)
  let s' ← runInstrs e'.data is s
  return s' r

/-- **Code of direct expressions computes their value**, whatever the registers
held before; it traps where the language does. -/
theorem emitted_value (n : Node) (e : Enc) (s : Registers) (hbounded : e.Bounded)
    (hreg : e.reg + exprRegs n ≤ 2 ^ 16) (hpool : poolNeed e.data (constants src n) ≤ maxData)
    (hdirect : direct src n = true) : runEmitted src truncate n e s = exprValue src n := by
  obtain ⟨is, hcomputes⟩ := exprComputes_of_direct src truncate n hdirect e hbounded hreg hpool
  have hcode : (encEmitExpr src truncate n e).2.code.drop e.code.length = Instr.allBytes is := by
    rw [hcomputes.code, drop_left]
  have hrun := hcomputes.runs _ (prefix_refl _) s
  unfold runEmitted
  simp only [hcode, disassemble_allBytes hcomputes.complete,
    Option.bind_eq_bind, Option.bind_some]
  generalize runInstrs (encEmitExpr src truncate n e).2.data is s = run at hrun
  generalize exprValue src n = v at hrun
  cases hrun with
  | trap => rfl
  | value => rfl

end Program

/-- The first expression a program returns. -/
def returnedExpr (src : Source) : Option Node := do
  let root ← parseSource src
  let ret ← root.subnodes.find? (·.kind = .returnStmt)
  ret.children.head?

/-- A program that returns such an expression. -/
def directProgram : Source := "m=a;f=main():i64\x7b<-7%4*10-2/(3<5)\x7d;".toList

theorem directProgram_returns : (returnedExpr directProgram).isSome := by
  decide +kernel

/-- Remainders, products, quotients and comparisons are kept. -/
theorem directProgram_value :
    runEmitted directProgram (fun _ => 0) ((returnedExpr directProgram).get directProgram_returns) .start
      (fun _ => 0) = some (-32) := by
  rw [emitted_value _ _ _ _ _ Enc.start_bounded (by decide +kernel) (by decide +kernel)
    (by decide +kernel)]
  decide +kernel

/-- A conjunction of bits is emitted as a sum: 5 & 3 is 1, its code leaves 8. -/
theorem bitAnd_emitted_as_sum : (returnedExpr "m=a;f=main():i64\x7b<5&3\x7d;".toList).map (fun n =>
      (exprValue "m=a;f=main():i64\x7b<5&3\x7d;".toList n,
        runEmitted "m=a;f=main():i64\x7b<5&3\x7d;".toList (fun _ => 0) n .start fun _ => 0)) =
      some (some 1, some 8) := by decide +kernel

end Toke.Tkir
