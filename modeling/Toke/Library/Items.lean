/-
  Toke.Library.Items — **TEXTS WRITTEN ITEM BY ITEM.**

  Items one behind the other (`flatMap`), or with a separator between them
  (`intercalate`).
-/
import Mathlib

namespace Items

open List

variable {α β : Type}

/-- The first item, then the others, each behind a separator. -/
theorem intercalate_cons (sep x : List α) (xs : List (List α)) :
    sep.intercalate (x :: xs) = x ++ xs.flatMap (sep ++ ·) := by
  induction xs generalizing x with
  | nil => simp
  | cons y ys ih =>
    rw [intercalate_cons_cons, ih y, flatMap_cons]
    simp only [append_assoc]

/-- No more items than characters. -/
theorem length_le_flatMap {f : α → List β} {l : List α} (h : ∀ a ∈ l, f a ≠ []) :
    l.length ≤ (l.flatMap f).length := by
  rw [length_flatMap, ← length_map fun a => (f a).length]
  refine length_le_sum_of_one_le _ (forall_mem_map.mpr fun a ha => ?_)
  exact length_pos_of_ne_nil (h a ha)

theorem length_le_intercalate {sep : List α} {xs : List (List α)} (hsep : sep ≠ [])
    (h : ∀ x ∈ xs, x ≠ []) : xs.length ≤ (sep.intercalate xs).length := by
  cases xs with
  | nil => exact Nat.zero_le _
  | cons x xs =>
    have hx : 0 < x.length := length_pos_of_ne_nil (h x mem_cons_self)
    have hxs : xs.length ≤ (xs.flatMap (sep ++ ·)).length :=
      length_le_flatMap fun y _ => append_ne_nil_of_left_ne_nil hsep y
    rw [intercalate_cons, length_append, length_cons]
    omega

/-- No item is longer than the whole. -/
theorem length_le_of_mem_intercalate {sep x : List α} {xs : List (List α)} (h : x ∈ xs) :
    x.length ≤ (sep.intercalate xs).length := by
  obtain ⟨y, ys, rfl⟩ := exists_cons_of_ne_nil (ne_nil_of_mem h)
  rw [intercalate_cons, length_append]
  rcases mem_cons.mp h with rfl | h
  · omega
  · have hsum := List.le_sum_of_mem (mem_map_of_mem (f := fun z => (sep ++ z).length) h)
    rw [length_flatMap]
    rw [length_append] at hsum
    omega

/-! What stands at an offset or behind a run. -/

theorem drop_of_append {l s r : List α} {n : Nat} (h : l.drop n = s ++ r) :
    l.drop (n + s.length) = r := by rw [← drop_drop, h, drop_left]

theorem take_take_append (k : Nat) (xs ys : List α) :
    (xs.take k ++ ys).take k = (xs ++ ys).take k := by
  rcases Nat.le_total xs.length k with h | h
  · rw [take_of_length_le h]
  · rw [take_append_of_le_length (by simp [h]), take_append_of_le_length h, take_take, Nat.min_self]

theorem dropWhile_append_stop {p : α → Bool} {t : List α} (h : t.takeWhile p = []) (s : List α) :
    (s ++ t).dropWhile p = s.dropWhile p ++ t := by
  have ht : t.dropWhile p = t := by
    have := takeWhile_append_dropWhile (p := p) (l := t)
    rwa [h, nil_append] at this
  rw [dropWhile_append, ht]
  split
  · next hempty => rw [isEmpty_iff.mp hempty, nil_append]
  · rfl

end Items
