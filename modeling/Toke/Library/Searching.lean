/-
  Searching — **FINDING A PATTERN IN A TEXT**, as `strstr` does.

  `afterFirst pat s` is what follows the first occurrence of `pat`.  The
  lemmas move over a text in pieces: a piece without the pattern's first
  letter is passed, and between two delimiters a pattern that holds the
  delimiter itself has one way to match only (`delimited_iff`).
-/
import Mathlib

namespace Searching

open List

variable {α : Type} [DecidableEq α]

/-- What follows the first occurrence of the pattern. -/
def afterFirst (pat : List α) : List α → Option (List α)
  | [] => if pat = [] then some [] else none
  | x :: s => if pat <+: x :: s then some ((x :: s).drop pat.length) else afterFirst pat s

theorem afterFirst_here (pat s : List α) : afterFirst pat (pat ++ s) = some s := by
  cases hs : pat ++ s with
  | nil =>
    obtain ⟨rfl, rfl⟩ := append_eq_nil_iff.mp hs
    rfl
  | cons x t => rw [afterFirst, ← hs, if_pos (prefix_append pat s), drop_left]

theorem afterFirst_next {pat s : List α} {x : α} (h : ¬ pat <+: x :: s) :
    afterFirst pat (x :: s) = afterFirst pat s := by rw [afterFirst, if_neg h]

/-- A piece without the first letter of the pattern is passed. -/
theorem afterFirst_skip {q : α} {p c : List α} (h : q ∉ c) (s : List α) :
    afterFirst (q :: p) (c ++ s) = afterFirst (q :: p) s := by
  induction c with
  | nil => rfl
  | cons x c ih =>
    rw [mem_cons, not_or] at h
    have hno : ¬ q :: p <+: x :: (c ++ s) := fun hpre => h.1 (cons_prefix_cons.mp hpre).1
    rw [cons_append, afterFirst_next hno, ih h.2]

/-- The first letter alone is not a match. -/
theorem afterFirst_pass {q : α} {p s : List α} (h : ¬ p <+: s) :
    afterFirst (q :: p) (q :: s) = afterFirst (q :: p) s :=
  afterFirst_next fun hpre => h (cons_prefix_cons.mp hpre).2

/-- The pattern stands where it was found. -/
theorem afterFirst_eq {pat r : List α} : ∀ {s : List α}, afterFirst pat s = some r →
    ∃ l, s = l ++ pat ++ r
  | [], h => by
    unfold afterFirst at h
    by_cases hpat : pat = []
    · rw [if_pos hpat] at h
      injection h with h
      exact ⟨[], by rw [hpat, ← h]; rfl⟩
    · rw [if_neg hpat] at h
      cases h
  | x :: s, h => by
    unfold afterFirst at h
    by_cases hpre : pat <+: x :: s
    · rw [if_pos hpre] at h
      injection h with h
      refine ⟨[], ?_⟩
      rw [← h]
      exact (prefix_append_drop hpre)
    · rw [if_neg hpre] at h
      obtain ⟨l, hl⟩ := afterFirst_eq h
      exact ⟨x :: l, by rw [hl]; rfl⟩

/-- A pattern that occurs is found. -/
theorem afterFirst_isSome {pat : List α} : ∀ {s : List α}, pat <:+: s →
    ∃ r, afterFirst pat s = some r
  | [], h => by
    refine ⟨[], ?_⟩
    rw [afterFirst, if_pos (eq_nil_of_infix_nil h)]
  | x :: s, h => by
    unfold afterFirst
    by_cases hpre : pat <+: x :: s
    · exact ⟨_, if_pos hpre⟩
    · rw [if_neg hpre]
      exact afterFirst_isSome ((infix_cons_iff.mp h).resolve_left hpre)

/-- More text behind the occurrence does not move it. -/
theorem afterFirst_append {pat r : List α} (t : List α) : ∀ {s : List α},
    afterFirst pat s = some r → afterFirst pat (s ++ t) = some (r ++ t)
  | [], h => by
    unfold afterFirst at h
    by_cases hpat : pat = []
    · rw [if_pos hpat] at h
      injection h with h
      rw [hpat, ← h]
      exact afterFirst_here [] t
    · rw [if_neg hpat] at h
      cases h
  | x :: s, h => by
    unfold afterFirst at h
    by_cases hpre : pat <+: x :: s
    · rw [if_pos hpre] at h
      injection h with h
      have hsplit : x :: s = pat ++ r := by rw [← h]; exact prefix_append_drop hpre
      rw [hsplit, append_assoc, afterFirst_here]
    · rw [if_neg hpre] at h
      by_cases hpre' : pat <+: x :: (s ++ t)
      · -- a match across the end would begin before the one that was found
        obtain ⟨l, hl⟩ := afterFirst_eq h
        have hlen : pat.length ≤ (x :: s).length := by
          rw [length_cons, hl, length_append, length_append]
          omega
        exact absurd (prefix_of_prefix_length_le hpre'
          (prefix_append (x :: s) t) hlen) hpre
      · rw [cons_append, afterFirst_next hpre', afterFirst_append t h]

omit [DecidableEq α] in
/-- Between two delimiters, a pattern that holds the delimiter matches as a whole or not at all. -/
theorem delimited_iff {q : α} {a b c t : List α} (ha : q ∉ a) (hc : q ∉ c) :
    a ++ q :: b <+: c ++ q :: t ↔ a = c ∧ b <+: t := by
  induction a generalizing c with
  | nil =>
    cases c with
    | nil => simp [List.cons_prefix_cons]
    | cons y c =>
      rw [List.mem_cons, not_or] at hc
      simp [List.cons_prefix_cons, hc.1]
  | cons x a ih =>
    rw [List.mem_cons, not_or] at ha
    cases c with
    | nil => simp [List.cons_prefix_cons, Ne.symm ha.1]
    | cons y c =>
      rw [List.mem_cons, not_or] at hc
      rw [List.cons_append, List.cons_append, List.cons_prefix_cons, ih ha.2 hc.2,
        List.cons.injEq, and_assoc]

end Searching
