/-
  Evicting — **DROPPING ENTRIES FROM THE END UNTIL THE REST FITS.**

  A table keeps its entries newest first and drops the oldest ones while their
  weights add up to more than a limit.  What is left is the longest front part
  within the limit (`front`), whatever the order of the steps: dropping one
  entry of too many changes nothing (`front_dropLast`), and neither does what
  was dropped before (`front_append_front`).
-/
import Mathlib

namespace Evicting

open List

variable {α : Type} {weight : α → Nat} {max room : Nat} {es : List α}

/-- The weights together. -/
def total (weight : α → Nat) (es : List α) : Nat := (es.map weight).sum

/-- The first entries, as many as fit into `max`. -/
def front (weight : α → Nat) : Nat → List α → List α
  | _, [] => []
  | max, e :: es => if weight e ≤ max then e :: front weight (max - weight e) es else []

theorem total_cons (e : α) (es : List α) : total weight (e :: es) = weight e + total weight es :=
  sum_cons

theorem total_append (es es' : List α) :
    total weight (es ++ es') = total weight es + total weight es' := by simp [total]

/-- The last entry counts like any other. -/
theorem total_dropLast {e : α} (h : es.getLast? = some e) :
    total weight es = total weight es.dropLast + weight e := by
  have hsplit : es = es.dropLast ++ [e] := (dropLast_append_getLast? e h).symm
  have hone : total weight [e] = weight e := Nat.add_zero _
  rw [← hone, ← total_append, ← hsplit]

/-- What fits is kept. -/
theorem front_all (h : total weight es ≤ max) : front weight max es = es := by
  induction es generalizing max with
  | nil => rfl
  | cons e es ih =>
    rw [total_cons] at h
    rw [front, if_pos (by omega), ih (by omega)]

/-- An entry that does not fit behind the others is not kept. -/
theorem front_append_large {e : α} (h : max < total weight (es ++ [e])) :
    front weight max (es ++ [e]) = front weight max es := by
  induction es generalizing max with
  | nil =>
    have hone : total weight [e] = weight e := Nat.add_zero _
    rw [nil_append] at h ⊢
    rw [front.eq_2, if_neg (by omega)]
    rfl
  | cons d es ih =>
    rw [cons_append, total_cons] at h
    rw [cons_append, front, front]
    split
    · rw [ih (by omega)]
    · rfl

/-- Where not all entries fit, the last one does not. -/
theorem front_dropLast (h : max < total weight es) :
    front weight max es = front weight max es.dropLast := by
  cases hlast : es.getLast? with
  | none =>
    obtain rfl : es = [] := getLast?_eq_none_iff.mp hlast
    rfl
  | some e =>
    have hsplit : es = es.dropLast ++ [e] := (dropLast_append_getLast? e hlast).symm
    rw [hsplit, front_append_large (hsplit ▸ h), ← hsplit]

/-- Entries dropped before are not missed. -/
theorem front_append_front (h : max ≤ room) (new es : List α) :
    front weight max (new ++ front weight room es) = front weight max (new ++ es) := by
  induction new generalizing max room with
  | cons e new ih =>
    rw [cons_append, cons_append, front, front]
    split
    · rw [ih (show max - weight e ≤ room by omega)]
    · rfl
  | nil =>
    rw [nil_append, nil_append]
    induction es generalizing max room with
    | nil => rfl
    | cons e es ih =>
      rw [front]
      by_cases hmax : weight e ≤ max
      · rw [if_pos (by omega), front, front, if_pos hmax, if_pos hmax,
          ih (show max - weight e ≤ room - weight e by omega)]
      · split
        · rw [front, front, if_neg hmax, if_neg hmax]
        · rw [front, front, if_neg hmax]

/-- What is kept fits. -/
theorem total_front_le (max : Nat) (es : List α) : total weight (front weight max es) ≤ max := by
  induction es generalizing max with
  | nil => exact Nat.zero_le max
  | cons e es ih =>
    rw [front]
    split
    · have hrest := ih (max - weight e)
      rw [total_cons]
      omega
    · exact Nat.zero_le max

/-- What is kept begins like what was there. -/
theorem front_begins (max : Nat) (es : List α) : front weight max es <+: es := by
  induction es generalizing max with
  | nil => exact nil_prefix
  | cons e es ih =>
    rw [front]
    split
    · exact cons_prefix_cons.mpr ⟨rfl, ih _⟩
    · exact nil_prefix

end Evicting
