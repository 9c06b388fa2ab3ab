/-
  Toke.Tkir.Machine — **INSTRUCTIONS AS THE ENCODER LAYS THEM OUT.**

  `tkir.c` writes an instruction as an opcode byte and its 16-bit operands, as
  many as the opcode has; a call says itself how many arguments follow.
  `disassemble` takes such a stream apart again, and the register machine runs
  the instructions of integer expressions by their names.
-/
import Toke.Tkir.Encode

namespace Toke.Tkir

open List

/-! ## §1. Layout. -/

/-- An opcode and its operands. -/
structure Instr where
  op : Nat
  operands : List Nat
  deriving DecidableEq

/-- The bytes `tkir_buf_u8` and `tkir_buf_u16` write for it. -/
def Instr.bytes (i : Instr) : List UInt8 := u8 i.op ++ i.operands.flatMap u16

/-- The bytes of some instructions. -/
def Instr.allBytes (is : List Instr) : List UInt8 := is.flatMap Instr.bytes

/-- `enc_emit_rrr`. -/
def tripleOps : List Nat := [opAdd, opSub, opMul, opDiv, opMod, opLt, opGt]

/-- The operands every instruction of the opcode has; `none` for an opcode the
encoder never writes. -/
def fixedOperands (op : Nat) : Option Nat :=
  if op ∈ [opRet, opBr] then some 1
  else if op ∈ [opNeg, opConstData, opLoad, opStore, opAlloca] then some 2
  else if op ∈ tripleOps ∨ op ∈ [opBrIf, opCall, opFieldGet, opCast] then some 3
  else none

/-- The arguments of a call, by the third operand. -/
def extraOperands (op : Nat) (operands : List Nat) : Nat :=
  if op = opCall then operands.getD 2 0 else 0

/-- All operands are there, and each fits its two bytes. -/
structure Instr.Complete (i : Instr) : Prop where
  length : ∃ n, fixedOperands i.op = some n ∧ i.operands.length = n + extraOperands i.op i.operands
  fits : ∀ o ∈ i.operands, o < 2 ^ 16

/-- The operands that are registers; the others are constants, types, labels,
fields and functions. -/
def Instr.regs (i : Instr) : List Nat :=
  if i.op = opBr then []
  else if i.op ∈ [opConstData, opAlloca, opBrIf] then i.operands.take 1
  else if i.op ∈ [opFieldGet, opCast] then i.operands.take 2
  else if i.op = opCall then i.operands.take 1 ++ i.operands.drop 3
  else i.operands

/-! ## §2. Taking apart. -/

/-- So many 16-bit operands. -/
def readOperands : Nat → List UInt8 → Option (List Nat × List UInt8)
  | 0, bs => some ([], bs)
  | n + 1, a :: b :: bs => (readOperands n bs).map fun r => ((a.toNat + 256 * b.toNat) :: r.1, r.2)
  | _ + 1, _ => none

/-- One instruction off the front. -/
def readInstr : List UInt8 → Option (Instr × List UInt8)
  | [] => none
  | b :: bs => do
      let n ← fixedOperands b.toNat
      let (fixed, bs) ← readOperands n bs
      let (extra, bs) ← readOperands (extraOperands b.toNat fixed) bs
      return (⟨b.toNat, fixed ++ extra⟩, bs)

/-- The instructions of a stream; `none` when it ends inside one. -/
def disassembleLoop : Nat → List UInt8 → Option (List Instr)
  | _, [] => some []
  | 0, _ :: _ => none
  | fuel + 1, bs => do
      let (i, bs) ← readInstr bs
      return i :: (← disassembleLoop fuel bs)

/-- Code as instructions. -/
def disassemble (bs : List UInt8) : Option (List Instr) := disassembleLoop bs.length bs

theorem readOperands_flatMap (os : List Nat) (h : ∀ o ∈ os, o < 2 ^ 16) (rest : List UInt8) :
    readOperands os.length (os.flatMap u16 ++ rest) = some (os, rest) := by
  induction os with
  | nil => rfl
  | cons o os ih =>
    have ho := h o mem_cons_self
    have hrest := ih (forall_mem_cons.mp h).2
    have hval : (UInt8.ofNat o).toNat + 256 * (UInt8.ofNat (o / 2 ^ 8)).toNat = o := by
      simp only [UInt8.toNat_ofNat']
      omega
    show Option.map _ (readOperands os.length (os.flatMap u16 ++ rest)) = _
    rw [hrest, Option.map_some, hval]

theorem fixedOperands_lt {op n : Nat} (h : fixedOperands op = some n) : op < 2 ^ 8 := by
  have hone : ∀ o ∈ [opRet, opBr], o < 2 ^ 8 := by decide
  have htwo : ∀ o ∈ [opNeg, opConstData, opLoad, opStore, opAlloca], o < 2 ^ 8 := by decide
  have htriple : ∀ o ∈ tripleOps, o < 2 ^ 8 := by decide
  have hthree : ∀ o ∈ [opBrIf, opCall, opFieldGet, opCast], o < 2 ^ 8 := by decide
  unfold fixedOperands at h
  split at h
  · next hop => exact hone op hop
  split at h
  · next hop => exact htwo op hop
  split at h
  · next hop => exact hop.elim (htriple op) (hthree op)
  · cases h

/-- No instruction is without operands. -/
theorem fixedOperands_pos {op n : Nat} (h : fixedOperands op = some n) : 0 < n := by
  unfold fixedOperands at h
  split at h
  · cases h; decide
  split at h
  · cases h; decide
  split at h
  · cases h; decide
  · cases h

theorem Instr.bytes_length (i : Instr) : i.bytes.length = 1 + 2 * i.operands.length := by
  unfold Instr.bytes
  simp [length_flatMap, u8, u16, Nat.mul_comm, Nat.add_comm]

theorem Instr.Complete.three_le {i : Instr} (h : i.Complete) : 3 ≤ i.bytes.length := by
  obtain ⟨n, hn, hlen⟩ := h.length
  have hpos := fixedOperands_pos hn
  rw [i.bytes_length]
  omega

theorem extraOperands_take (op : Nat) (os : List Nat) :
    extraOperands op (os.take 3) = extraOperands op os := by
  match os with
  | [] => rfl
  | [_] => rfl
  | [_, _] => rfl
  | _ :: _ :: _ :: _ => rfl

/-- Only a call has operands behind its fixed ones, and it has three. -/
theorem fixedOperands_eq_three {op n : Nat} (h : fixedOperands op = some n) {os : List Nat}
    (hextra : extraOperands op os ≠ 0) : n = 3 := by
  have hcall : op = opCall := by
    by_contra hne
    unfold extraOperands at hextra
    rw [if_neg hne] at hextra
    exact hextra rfl
  rw [hcall] at h
  have h3 : fixedOperands opCall = some 3 := by decide
  cases h
  rfl

theorem readInstr_bytes {i : Instr} (h : i.Complete) (rest : List UInt8) :
    readInstr (i.bytes ++ rest) = some (i, rest) := by
  obtain ⟨n, hn, hlen⟩ := h.length
  obtain ⟨op, os⟩ := i
  simp only at hn hlen
  have hop : (UInt8.ofNat op).toNat = op := by
    have := fixedOperands_lt hn
    rw [UInt8.toNat_ofNat']
    omega
  -- the fixed operands, then the ones the call counts
  have hsplit : os.flatMap u16 ++ rest = (os.take n).flatMap u16 ++ ((os.drop n).flatMap u16 ++ rest) := by
    rw [← append_assoc, ← flatMap_append, take_append_drop]
  have hextra : extraOperands op (os.take n) = (os.drop n).length := by
    rw [length_drop, hlen]
    by_cases h0 : extraOperands op os = 0
    · have hall : os.take n = os := take_of_length_le (by omega)
      rw [hall]
      omega
    · rw [fixedOperands_eq_three hn h0, extraOperands_take]
      omega
  have hfix := readOperands_flatMap (os.take n)
    (fun o ho => h.fits o (mem_of_mem_take ho)) ((os.drop n).flatMap u16 ++ rest)
  have hmore := readOperands_flatMap (os.drop n)
    (fun o ho => h.fits o (mem_of_mem_drop ho)) rest
  have htake : (os.take n).length = n := by
    rw [length_take]
    omega
  rw [htake] at hfix
  show (do
    let n ← fixedOperands (UInt8.ofNat op).toNat
    let (fixed, bs) ← readOperands n (os.flatMap u16 ++ rest)
    let (extra, bs) ← readOperands (extraOperands (UInt8.ofNat op).toNat fixed) bs
    return (⟨(UInt8.ofNat op).toNat, fixed ++ extra⟩, bs)) = some ((⟨op, os⟩ : Instr), rest)
  rw [hop, hn, hsplit]
  simp only [Option.bind_eq_bind, Option.bind_some, hfix, hextra, hmore, take_append_drop]
  rfl

/-- A stream of complete instructions is taken apart into them. -/
theorem disassemble_allBytes {is : List Instr} (h : ∀ i ∈ is, i.Complete) :
    disassemble (Instr.allBytes is) = some is := by
  have hloop : ∀ fuel, is.length ≤ fuel → disassembleLoop fuel (Instr.allBytes is) = some is := by
    induction is with
    | nil => intro fuel _; cases fuel <;> rfl
    | cons i is ih =>
      intro fuel hfuel
      obtain ⟨fuel, rfl⟩ : ∃ k, fuel = k + 1 := ⟨fuel - 1, by rw [length_cons] at hfuel; omega⟩
      have hi := readInstr_bytes (h i mem_cons_self) (Instr.allBytes is)
      have hrest := ih (forall_mem_cons.mp h).2 fuel
        (by rw [length_cons] at hfuel; omega)
      show (do
        let (i, bs) ← readInstr (i.bytes ++ Instr.allBytes is)
        return i :: (← disassembleLoop fuel bs)) = _
      rw [hi]
      simp only [Option.bind_eq_bind, Option.bind_some, hrest]
      rfl
  refine hloop _ (Items.length_le_flatMap fun i _ hnil => ?_)
  -- every instruction has at least its opcode
  have hlen := i.bytes_length
  rw [hnil, length_nil] at hlen
  omega

/-! ## §3. The register machine. -/

/-- The registers of a function. -/
abbrev Registers := Nat → Int64

/-- An exact result; one that leaves the range is trapped. -/
def checked (z : Int) : Option Int64 :=
  if -(2 ^ 63) ≤ z ∧ z < 2 ^ 63 then some (Int64.ofInt z) else none

/-- A truth value in a register. -/
def ofBool (b : Bool) : Int64 := if b then 1 else 0

/-- Quotients and remainders of the truncating division; zero is trapped. -/
def divided (f : Int → Int → Int) (a b : Int64) : Option Int64 :=
  if b = 0 then none else checked (f a.toInt b.toInt)

/-- What the opcodes of three registers are named for. -/
def opMeaning (op : Nat) (a b : Int64) : Option Int64 :=
  if op = opAdd then checked (a.toInt + b.toInt)
  else if op = opSub then checked (a.toInt - b.toInt)
  else if op = opMul then checked (a.toInt * b.toInt)
  else if op = opDiv then divided Int.tdiv a b
  else if op = opMod then divided Int.tmod a b
  else if op = opLt then some (ofBool (a < b))
  else if op = opGt then some (ofBool (b < a))
  else none

/-- One instruction; `none` is a trap, or an instruction that is no part of an
integer expression. -/
def stepInstr (data : List EncDataEntry) (i : Instr) (s : Registers) : Option Registers :=
  match i.operands with
  | [dest, x] =>
    if i.op = opConstData then
      match data[x]? with
      | some (.i64 v) => some (Function.update s dest v)
      | _ => none
    else if i.op = opNeg then some (Function.update s dest (-(s x)))
    else none
  | [dest, x, y] => (opMeaning i.op (s x) (s y)).map (Function.update s dest)
  | _ => none

/-- Instructions one after the other. -/
def runInstrs (data : List EncDataEntry) : List Instr → Registers → Option Registers
  | [], s => some s
  | i :: is, s => (stepInstr data i s).bind (runInstrs data is)

theorem runInstrs_append (data : List EncDataEntry) (is js : List Instr) (s : Registers) :
    runInstrs data (is ++ js) s = (runInstrs data is s).bind (runInstrs data js) := by
  induction is generalizing s with
  | nil => rfl
  | cons i is ih =>
    show (stepInstr data i s).bind (runInstrs data (is ++ js)) = _
    rw [runInstrs, Option.bind_assoc]
    exact congrArg _ (funext ih)

end Toke.Tkir
