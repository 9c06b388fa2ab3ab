/-
  Toke.Library.Regrouping — **DIGITS OF `w` BITS READ BACK AS BYTES.**

  The loop shifts every digit into an accumulator of `m` bits that is never
  cleared, and emits a byte whenever eight bits have arrived (`regroup`).
  Over the written bits, most significant first, it only moves the borders:
  `regroup_eq`.
-/
import Mathlib

namespace Regrouping

open List

/-- The `w` low bits of a number, most significant first. -/
def bits : Nat → Nat → List Bool
  | 0, _ => []
  | w + 1, n => n.testBit w :: bits w n

/-- The loop over the digits, with `n` bits of the accumulator still pending. -/
def regroup (w m : Nat) : List Nat → Nat → Nat → List UInt8
  | [], _, _ => []
  | v :: vs, acc, n =>
    let acc := (acc <<< w ||| v) % 2 ^ m
    if 8 ≤ n + w then
      UInt8.ofNat ((acc >>> (n + w - 8)) &&& 0xff) :: regroup w m vs acc (n + w - 8)
    else regroup w m vs acc (n + w)

@[simp] theorem length_bits (n : Nat) : ∀ w, (bits w n).length = w
  | 0 => rfl
  | w + 1 => congrArg (· + 1) (length_bits n w)

theorem bits_congr {x y : Nat} : ∀ {w : Nat}, (∀ i < w, x.testBit i = y.testBit i) →
    bits w x = bits w y
  | 0, _ => rfl
  | w + 1, h => by rw [bits, bits, h w (Nat.lt_succ_self w),
      bits_congr fun i hi => h i (Nat.lt_succ_of_lt hi)]

theorem bits_add (a b x : Nat) : bits (a + b) x = bits a (x >>> b) ++ bits b x := by
  induction a with
  | zero => rw [Nat.zero_add]; rfl
  | succ a ih =>
    rw [Nat.succ_add, bits, bits, ih, Nat.testBit_shiftRight, Nat.add_comm b a, cons_append]

theorem bits_inj {x y w : Nat} (h : bits w x = bits w y) : x % 2 ^ w = y % 2 ^ w := by
  have hbit : ∀ i < w, x.testBit i = y.testBit i := by
    induction w with
    | zero => exact fun i hi => absurd hi (Nat.not_lt_zero i)
    | succ w ih =>
      obtain ⟨hw, hrest⟩ := cons.inj h
      intro i hi
      rcases Nat.lt_succ_iff_lt_or_eq.mp hi with hi | rfl
      · exact ih hrest i hi
      · exact hw
  refine Nat.eq_of_testBit_eq fun i => ?_
  rw [Nat.testBit_mod_two_pow, Nat.testBit_mod_two_pow]
  by_cases hi : i < w
  · rw [hbit i hi]
  · simp [hi]

/-- Shifting a digit in puts its bits behind the others. -/
theorem bits_push {v w : Nat} (hv : v < 2 ^ w) (n acc : Nat) :
    bits (n + w) (acc <<< w ||| v) = bits n acc ++ bits w v := by
  rw [bits_add]
  refine congrArg₂ _ (bits_congr fun i _ => ?_) (bits_congr fun i hi => ?_)
  · have hhigh : v.testBit (w + i) = false :=
      Nat.testBit_lt_two_pow (Nat.lt_of_lt_of_le hv (Nat.pow_le_pow_right (by decide) (by omega)))
    simp [hhigh]
  · simp [Nat.not_le.mpr hi]

/-- **The loop emits the bytes whose bits the digits carry**, whatever is left. -/
theorem regroup_eq {w m : Nat} (hw : w ≤ 8) (hm : 16 ≤ m) {tail : List Bool} (htail : tail.length < 8) :
    ∀ {vs : List Nat} {acc n : Nat} {bs : List UInt8}, (∀ v ∈ vs, v < 2 ^ w) → n < 8 →
      bits n acc ++ vs.flatMap (bits w) = bs.flatMap (fun b => bits 8 b.toNat) ++ tail →
      regroup w m vs acc n = bs := by
  intro vs
  induction vs with
  | nil =>
    intro acc n bs _ hn h
    cases bs with
    | nil => rfl
    | cons b bs =>
      have hlen := congrArg length h
      simp at hlen
      omega
  | cons v vs ih =>
    intro acc n bs hvs hn h
    have hpush : bits (n + w) ((acc <<< w ||| v) % 2 ^ m) = bits n acc ++ bits w v := by
      rw [← bits_push (hvs v mem_cons_self)]
      refine bits_congr fun i hi => ?_
      rw [Nat.testBit_mod_two_pow, decide_eq_true (by omega : i < m), Bool.true_and]
    rw [flatMap_cons, ← append_assoc, ← hpush] at h
    have hrest := (forall_mem_cons.mp hvs).2
    rw [regroup]
    by_cases hfull : 8 ≤ n + w
    · -- the eight oldest bits are the next byte
      obtain ⟨r, hr⟩ : ∃ r, n + w = 8 + r := ⟨n + w - 8, by omega⟩
      rw [if_pos hfull]
      rw [hr, bits_add, append_assoc] at h
      rw [hr, Nat.add_sub_cancel_left]
      cases bs with
      | nil =>
        have hlen := congrArg length h
        simp at hlen
        omega
      | cons b bs =>
        rw [flatMap_cons, append_assoc] at h
        obtain ⟨hbyte, hmore⟩ := append_inj h (by simp)
        have hb := bits_inj hbyte
        rw [Nat.mod_eq_of_lt b.toNat_lt] at hb
        have hand := Nat.and_two_pow_sub_one_eq_mod (((acc <<< w ||| v) % 2 ^ m) >>> r) 8
        rw [ih hrest (by omega) hmore, hand, hb,
          UInt8.ofNat_toNat]
    · rw [if_neg hfull]
      exact ih hrest (by omega) h

end Regrouping
