/-
  Toke.Library.Nesting — **FINDING A CLOSING BRACKET IN TEXT WITH QUOTED PARTS.**

  A scanner that counts brackets and skips quoted stretches is in one of two
  modes at every element: inside a quotation, or outside at some bracket
  level.  `track` runs that state over a text; `closing` returns what stands
  behind the bracket that brings the level back to zero.

      `track_append`      — runs compose; what they track is skipped
      `Level`             — such a text, closed under append, quoting, bracketing
-/
import Mathlib

namespace Nesting

open List

/-- What the scanner has to tell apart. -/
structure Marks (α : Type) where
  opens : α → Bool
  closes : α → Bool
  quote : α

variable {α : Type} [DecidableEq α] (M : Marks α)

/-! ## §1. The scanner. -/

/-- Inside a quotation or not, and at which bracket level. -/
abbrev State := Bool × Nat

/-- One element; `none` when it closes the outermost level. -/
def step : State → α → Option State
  | (true, d), c => if c = M.quote then some (false, d) else some (true, d)
  | (false, d), c =>
    if c = M.quote then some (true, d)
    else if M.opens c then some (false, d + 1)
    else if M.closes c then if d = 1 then none else some (false, d - 1)
    else some (false, d)

/-- The state behind a text that does not close the outermost level. -/
def track : State → List α → Option State
  | s, [] => some s
  | s, c :: r =>
    match step M s c with
    | none => none
    | some s' => track s' r

/-- The rest behind the bracket that closes the outermost level. -/
def closing : State → List α → Option (List α)
  | _, [] => none
  | s, c :: r =>
    match step M s c with
    | none => some r
    | some s' => closing s' r

variable {M}

theorem track_append {s s' : State} {x : List α} (y : List α) (h : track M s x = some s') :
    track M s (x ++ y) = track M s' y ∧ closing M s (x ++ y) = closing M s' y := by
  induction x generalizing s with
  | nil =>
    rw [track, Option.some.injEq] at h
    rw [h, nil_append]
    exact ⟨rfl, rfl⟩
  | cons c x ih =>
    rw [cons_append, track, closing]
    rw [track] at h
    cases hs : step M s c with
    | none => simp [hs] at h
    | some s₁ =>
      rw [hs] at h
      exact ih h

/-! ## §2. Level texts. -/

/-- Inside a bracket, the text leaves the level where it was. -/
def Level (M : Marks α) (s : List α) : Prop :=
  ∀ d, track M (false, d + 1) s = some (false, d + 1)

theorem Level.nil : Level M [] := fun _ => rfl

theorem Level.append {s t : List α} (hs : Level M s) (ht : Level M t) : Level M (s ++ t) := by
  intro d
  rw [(track_append t (hs d)).1]
  exact ht d

/-- A text without marks. -/
theorem Level.plain {s : List α}
    (h : ∀ c ∈ s, c ≠ M.quote ∧ M.opens c = false ∧ M.closes c = false) : Level M s := by
  induction s with
  | nil => exact Level.nil
  | cons c s ih =>
    intro d
    obtain ⟨hq, ho, hc⟩ := h c mem_cons_self
    simp only [track, step, if_neg hq, ho, hc]
    exact ih (forall_mem_cons.mp h).2 d

theorem track_quoted {s : List α} (h : M.quote ∉ s) (d : Nat) :
    track M (true, d) s = some (true, d) := by
  induction s with
  | nil => rfl
  | cons c s ih =>
    have hc : c ≠ M.quote := fun hc => h (hc ▸ mem_cons_self)
    simp only [track, step, if_neg hc]
    exact ih fun hm => h (mem_cons_of_mem _ hm)

/-- A quotation. -/
theorem Level.quoted {s : List α} (h : M.quote ∉ s) : Level M (M.quote :: (s ++ [M.quote])) := by
  intro d
  simp only [track, step, if_true]
  rw [(track_append _ (track_quoted h (d + 1))).1]
  simp [track, step]

/-- A bracketed level text. -/
theorem Level.bracket {o c : α} {s : List α} (hs : Level M s) (ho : M.opens o)
    (hoq : o ≠ M.quote) (hc : M.closes c) (hco : M.opens c = false)
    (hcq : c ≠ M.quote) : Level M (o :: (s ++ [c])) := by
  intro d
  simp only [track, step, if_neg hoq, ho, if_true]
  rw [(track_append _ (hs (d + 1))).1]
  simp [track, step, hcq, hco, hc]

/-- **The bracket after a level text closes the one before it.** -/
theorem closing_bracket {o c : α} {s : List α} (hs : Level M s) (ho : M.opens o)
    (hoq : o ≠ M.quote) (hc : M.closes c) (hco : M.opens c = false)
    (hcq : c ≠ M.quote) (r : List α) :
    closing M (false, 0) (o :: (s ++ c :: r)) = some r := by
  simp only [closing, step, if_neg hoq, ho, if_true]
  rw [(track_append (c :: r) (hs 0)).2]
  simp [closing, step, hcq, hco, hc]

/-- Level texts with a level separator between them. -/
theorem Level.intercalate {sep : List α} (hsep : Level M sep) {xs : List (List α)}
    (h : ∀ x ∈ xs, Level M x) : Level M (sep.intercalate xs) := by
  induction xs with
  | nil => exact Level.nil
  | cons x xs ih =>
    have hx := h x mem_cons_self
    have hxs := ih (forall_mem_cons.mp h).2
    cases xs with
    | nil => simpa using hx
    | cons y ys =>
      rw [intercalate_cons_cons]
      exact (hx.append hsep).append hxs

end Nesting
