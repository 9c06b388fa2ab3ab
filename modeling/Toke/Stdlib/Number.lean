/-
  Toke.Stdlib.Number — **NUMBERS IN TEXTS**: `PRId64` and `strtoll`.

    `strtoll_decimal`   — a printed number is read back
    `strtoll_quote`     — a quote ends a number
-/
import Toke.Library.Items
import Toke.Stdlib.Bytes

namespace Toke.Stdlib

open List

/-! ## §1. Printing and reading. -/

/-- A number in decimal. -/
def decimalNat (n : Nat) : List UInt8 :=
  if n = 0 then [48] else (Nat.digits 10 n).reverse.map fun d => UInt8.ofNat (48 + d)

/-- `PRId64`. -/
def decimal (i : Int64) : List UInt8 :=
  if i.toInt < 0 then 45 :: decimalNat i.toInt.natAbs else decimalNat i.toInt.natAbs

/-- The value of a sequence of digits. -/
def digitsValue (ds : List UInt8) : Nat := ds.foldl (fun n d => n * 10 + (d.toNat - 48)) 0

/-- The range of `long long`. -/
def clamp (z : Int) : Int := max (-(2 ^ 63)) (min z (2 ^ 63 - 1))

/-- The digits at the head of a text, with a sign; `none` when there is none. -/
def signedValue (neg : Bool) (s : List UInt8) : Option Int64 :=
  let ds := s.takeWhile isDecimal
  if ds = [] then none
  else some (Int64.ofInt (clamp (if neg then -(digitsValue ds : Int) else digitsValue ds)))

/-- A number behind an optional sign. -/
def readSigned : List UInt8 → Option Int64
  | 45 :: s => signedValue true s
  | 43 :: s => signedValue false s
  | s => signedValue false s

/-- `strtoll` in base ten; `none` when nothing is converted. -/
def strtoll (s : List UInt8) : Option Int64 := readSigned (s.dropWhile isSpace)

/-! ## §2. Reading a printed number. -/

theorem digit_toNat {d : Nat} (h : d < 10) : (UInt8.ofNat (48 + d)).toNat = 48 + d := by
  rw [UInt8.toNat_ofNat']
  omega

theorem digit_isDecimal {d : Nat} (h : d < 10) : isDecimal (UInt8.ofNat (48 + d)) := by
  have hval := digit_toNat h
  simp only [isDecimal, Bool.and_eq_true, decide_eq_true_eq, UInt8.le_iff_toNat_le, hval]
  constructor
  · show 48 ≤ 48 + d
    omega
  · show 48 + d ≤ 57
    omega

theorem decimalNat_isDecimal (n : Nat) : ∀ c ∈ decimalNat n, isDecimal c := by
  unfold decimalNat
  by_cases hn : n = 0
  · rw [if_pos hn]
    intro c hc
    rw [mem_singleton.mp hc]
    decide
  · rw [if_neg hn]
    intro c hc
    obtain ⟨d, hd, rfl⟩ := mem_map.mp hc
    exact digit_isDecimal (Nat.digits_lt_base (by decide) (mem_reverse.mp hd))

theorem decimalNat_ne_nil (n : Nat) : decimalNat n ≠ [] := by
  unfold decimalNat
  by_cases hn : n = 0
  · rw [if_pos hn]
    exact cons_ne_nil _ _
  · rw [if_neg hn]
    intro h
    exact Nat.digits_ne_nil_iff_ne_zero.mpr hn (reverse_eq_nil_iff.mp (map_eq_nil_iff.mp h))

theorem digitsValue_reverse : ∀ ds : List Nat, (∀ d ∈ ds, d < 10) →
    digitsValue (ds.reverse.map fun d => UInt8.ofNat (48 + d)) = Nat.ofDigits 10 ds
  | [], _ => rfl
  | d :: ds, h => by
    have ih := digitsValue_reverse ds (forall_mem_cons.mp h).2
    have hd := digit_toNat (h d mem_cons_self)
    unfold digitsValue at ih ⊢
    rw [reverse_cons, map_append, map_singleton, foldl_append, ih,
      foldl_cons, hd]
    show Nat.ofDigits 10 ds * 10 + (48 + d - 48) = d + 10 * Nat.ofDigits 10 ds
    omega

theorem digitsValue_decimalNat (n : Nat) : digitsValue (decimalNat n) = n := by
  unfold decimalNat
  by_cases hn : n = 0
  · rw [hn]
    rfl
  · rw [if_neg hn, digitsValue_reverse _ fun d hd => Nat.digits_lt_base (by decide) hd,
      Nat.ofDigits_digits]

theorem clamp_toInt (i : Int64) : clamp i.toInt = i.toInt := by
  have hlow := i.le_toInt
  have hhigh := i.toInt_lt
  unfold clamp
  omega

/-- The digits end where another letter stands. -/
theorem signedValue_decimalNat (neg : Bool) (n : Nat) {x : UInt8} (hx : isDecimal x = false)
    (rest : List UInt8) : signedValue neg (decimalNat n ++ x :: rest) =
      some (Int64.ofInt (clamp (if neg then -(n : Int) else n))) := by
  have htake : (decimalNat n ++ x :: rest).takeWhile isDecimal = decimalNat n := by
    rw [takeWhile_append_of_pos (decimalNat_isDecimal n),
      takeWhile_cons_of_neg (by rw [hx]; exact Bool.false_ne_true), append_nil]
  simp only [signedValue, htake, if_neg (decimalNat_ne_nil n), digitsValue_decimalNat]

theorem decimal_cases {c : UInt8} (h : isDecimal c) : isSpace c = false ∧ c ≠ 45 ∧ c ≠ 43 := by
  simp only [isDecimal, Bool.and_eq_true, decide_eq_true_eq] at h
  refine ⟨?_, ?_, ?_⟩
  · have hlow : 48 ≤ c.toNat := h.1
    have hne : c ≠ 32 := by
      rintro rfl
      exact absurd hlow (by decide)
    have hgt : ¬ c ≤ 13 := by
      show ¬ c.toNat ≤ 13
      omega
    simp [isSpace, hne, hgt]
  · rintro rfl
    exact absurd h.1 (by decide)
  · rintro rfl
    exact absurd h.1 (by decide)

theorem readSigned_plain {c : UInt8} (hminus : c ≠ 45) (hplus : c ≠ 43) (s : List UInt8) :
    readSigned (c :: s) = signedValue false (c :: s) := by
  unfold readSigned
  split
  · next heq => exact absurd (cons.inj heq).1 hminus
  · next heq => exact absurd (cons.inj heq).1 hplus
  · rfl

/-- **A printed number is read back.** -/
theorem strtoll_decimal (i : Int64) {x : UInt8} (hx : isDecimal x = false) (rest : List UInt8) :
    strtoll (decimal i ++ x :: rest) = some i := by
  have hback : Int64.ofInt i.toInt = i := Int64.ofInt_toInt i
  unfold decimal
  by_cases hneg : i.toInt < 0
  · rw [if_pos hneg, cons_append, strtoll]
    show signedValue true _ = _
    rw [signedValue_decimalNat true _ hx, if_pos rfl]
    have habs : -(i.toInt.natAbs : Int) = i.toInt := by omega
    rw [habs, clamp_toInt, hback]
  · rw [if_neg hneg]
    obtain ⟨d, ds, hds⟩ := exists_cons_of_ne_nil (decimalNat_ne_nil i.toInt.natAbs)
    have hd := decimal_cases (decimalNat_isDecimal i.toInt.natAbs d (hds ▸ mem_cons_self))
    have habs : (i.toInt.natAbs : Int) = i.toInt := by omega
    have hval := signedValue_decimalNat false i.toInt.natAbs hx rest
    rw [if_neg Bool.false_ne_true, habs, clamp_toInt, hback] at hval
    rw [hds, cons_append] at hval ⊢
    rw [strtoll, dropWhile_cons_of_neg (by rw [hd.1]; exact Bool.false_ne_true),
      readSigned_plain hd.2.1 hd.2.2, hval]

theorem signedValue_quote (neg : Bool) (s rest : List UInt8) :
    signedValue neg (s ++ 34 :: rest) = signedValue neg s := by
  have htake : (s ++ 34 :: rest).takeWhile isDecimal = s.takeWhile isDecimal := by
    rw [takeWhile_append]
    by_cases hall : (s.takeWhile isDecimal).length = s.length
    · rw [if_pos hall, takeWhile_cons_of_neg (by decide), append_nil]
      exact ((takeWhile_sublist _).eq_of_length hall).symm
    · rw [if_neg hall]
  simp only [signedValue, htake]

theorem readSigned_quote (s rest : List UInt8) : readSigned (s ++ 34 :: rest) = readSigned s := by
  cases s with
  | nil =>
    exact signedValue_quote false [] rest
  | cons c s =>
    by_cases hminus : c = 45
    · subst hminus
      exact signedValue_quote true s rest
    · by_cases hplus : c = 43
      · subst hplus
        exact signedValue_quote false s rest
      · rw [cons_append, readSigned_plain hminus hplus, readSigned_plain hminus hplus,
          ← cons_append, signedValue_quote]

/-- A quote ends a number. -/
theorem strtoll_quote (r rest : List UInt8) : strtoll (r ++ 34 :: rest) = strtoll r := by
  unfold strtoll
  rw [Items.dropWhile_append_stop rfl, readSigned_quote]

end Toke.Stdlib
