/-
  Printing — **TEXT PRINTED PIECE BY PIECE INTO A BUFFER** of fixed size.

  The pattern is `off += snprintf(buf + off, cap - off, …)`.  `snprintf`
  returns the length the text would have had, so the offset counts what was
  asked for, not what was written.  The size is unsigned: behind the end of
  the buffer it wraps around, and the next piece is written outside
  (`escaped`).

    `printAll_text`      — the text is the beginning of all pieces
    `printAll_fits`      — pieces that fit are printed as they are
    `printAll_escaped`   — when a piece is written outside the buffer
-/
import Mathlib

namespace Printing

open List

variable {α : Type}

/-- The text in the buffer, the running offset, and whether a piece was
written outside. -/
structure Printer (α : Type) where
  text : List α
  off : Nat
  escaped : Bool

/-- One `snprintf` at the offset. -/
def print (cap : Nat) (p : Printer α) (t : List α) : Printer α :=
  if p.off ≤ cap then ⟨p.text ++ t.take (cap - p.off - 1), p.off + t.length, p.escaped⟩
  else ⟨p.text, p.off + t.length, true⟩

/-- All pieces, from an empty buffer. -/
def printAll (cap : Nat) (ts : List (List α)) : Printer α := ts.foldl (print cap) ⟨[], 0, false⟩

theorem printAll_concat (cap : Nat) (ts : List (List α)) (t : List α) :
    printAll cap (ts ++ [t]) = print cap (printAll cap ts) t := by
  unfold printAll
  rw [foldl_append, foldl_cons, foldl_nil]

theorem printAll_off (cap : Nat) (ts : List (List α)) :
    (printAll cap ts).off = ts.flatten.length := by
  induction ts using reverseRecOn with
  | nil => rfl
  | append_singleton ts t ih =>
    rw [printAll_concat, print, flatten_append, length_append, flatten_singleton]
    by_cases hle : (printAll cap ts).off ≤ cap
    · rw [if_pos hle, ih]
    · rw [if_neg hle, ih]

/-- **The buffer holds the beginning of all pieces.** -/
theorem printAll_text (cap : Nat) (ts : List (List α)) :
    (printAll cap ts).text = ts.flatten.take (cap - 1) := by
  induction ts using reverseRecOn with
  | nil => simp [printAll]
  | append_singleton ts t ih =>
    have hoff := printAll_off cap ts
    rw [printAll_concat, print, flatten_append, flatten_singleton, take_append, ← hoff]
    by_cases hle : (printAll cap ts).off ≤ cap
    · rw [if_pos hle]
      show _ ++ _ = _
      congr 2
      omega
    · rw [if_neg hle, ih]
      have hzero : cap - 1 - (printAll cap ts).off = 0 := by omega
      rw [hzero, take_zero, append_nil]

/-- A piece is written outside once what was printed before exceeds the buffer. -/
theorem printAll_escaped (cap : Nat) (ts : List (List α)) : (printAll cap ts).escaped ↔
      ∃ us t vs, ts = us ++ t :: vs ∧ cap < us.flatten.length := by
  induction ts using reverseRecOn with
  | nil => simp [printAll]
  | append_singleton ts t ih =>
    have hoff := printAll_off cap ts
    rw [printAll_concat, print]
    by_cases hle : (printAll cap ts).off ≤ cap
    · rw [if_pos hle]
      show (printAll cap ts).escaped ↔ _
      rw [ih]
      constructor
      · rintro ⟨us, u, vs, rfl, hlt⟩
        exact ⟨us, u, vs ++ [t], by simp, hlt⟩
      · rintro ⟨us, u, vs, heq, hlt⟩
        rcases eq_nil_or_concat vs with rfl | ⟨vs, v, rfl⟩
        · -- the last piece itself: all before it fits
          have hus : ts = us := (append_inj' heq rfl).1
          rw [hoff, hus] at hle
          omega
        · have hlast : ts ++ [t] = (us ++ u :: vs) ++ [v] := heq.trans (by simp)
          have hts : ts = us ++ u :: vs := (append_inj' hlast rfl).1
          exact ⟨us, u, vs, hts, hlt⟩
    · rw [if_neg hle]
      exact iff_of_true rfl ⟨ts, t, [], rfl, by omega⟩

/-- **Pieces that fit are printed as they are**, inside the buffer. -/
theorem printAll_fits {cap : Nat} {ts : List (List α)} (h : ts.flatten.length < cap) :
    (printAll cap ts).text = ts.flatten ∧ (printAll cap ts).escaped = false := by
  refine ⟨by rw [printAll_text, take_of_length_le (by omega)], ?_⟩
  by_contra hesc
  obtain ⟨us, t, vs, rfl, hlt⟩ := (printAll_escaped cap ts).mp (Bool.eq_true_of_not_eq_false hesc)
  rw [flatten_append, length_append] at h
  omega

end Printing
