/-
  Toke.Library.Writing — **WRITING INTO A BUFFER THROUGH ONE INDEX.**

  A `Pen` is the idiom `buf[w++] = a` with its index made visible: the bytes
  below the index, the index itself, and every index written so far.  The
  index may also go back (`w -= k`); it is an integer, so that going back too
  far shows.

      `Aligned`  — the index is the number of bytes below it
      `Inside n` — every write so far was at an index from 0 up to `n`
      `Tight`    — aligned, and nothing was written above the index
-/
import Mathlib

namespace Writing

open List

/-- A write position. -/
structure Pen (α : Type) where
  text : List α
  pos : Int
  log : List Int
  deriving DecidableEq

namespace Pen

variable {α : Type}

/-- Nothing is written. -/
def start : Pen α := ⟨[], 0, []⟩

/-- `buf[w++] = a`. -/
def put (w : Pen α) (a : α) : Pen α := ⟨w.text ++ [a], w.pos + 1, w.pos :: w.log⟩

/-- `memcpy(buf + w, as, n); w += n`. -/
def puts (w : Pen α) (as : List α) : Pen α := as.foldl put w

/-- `w -= k`. -/
def rewind (w : Pen α) (k : Nat) : Pen α := ⟨w.text.take (w.text.length - k), w.pos - k, w.log⟩

/-- `buf[w] = 0`: a write that does not move the index. -/
def mark (w : Pen α) : Pen α := { w with log := w.pos :: w.log }

/-- The index is behind the text. -/
def Aligned (w : Pen α) : Prop := w.pos = w.text.length

/-- Every write was below `size`. -/
def Inside (size : Nat) (w : Pen α) : Prop := ∀ i ∈ w.log, 0 ≤ i ∧ i < size

/-- Nothing stands behind the text. -/
def Tight (w : Pen α) : Prop := w.Aligned ∧ w.Inside w.text.length

variable {w : Pen α} {size : Nat}

@[simp] theorem puts_nil (w : Pen α) : w.puts [] = w := rfl

@[simp] theorem puts_cons (w : Pen α) (a : α) (as : List α) :
    w.puts (a :: as) = (w.put a).puts as := rfl

@[simp] theorem put_text (w : Pen α) (a : α) : (w.put a).text = w.text ++ [a] := rfl

@[simp] theorem puts_text (w : Pen α) (as : List α) : (w.puts as).text = w.text ++ as := by
  induction as generalizing w with
  | nil => simp
  | cons a as ih => rw [puts_cons, ih, put_text, append_assoc]; rfl

@[simp] theorem rewind_text (w : Pen α) (k : Nat) :
    (w.rewind k).text = w.text.take (w.text.length - k) := rfl

@[simp] theorem mark_text (w : Pen α) : w.mark.text = w.text := rfl

theorem Inside.mono {m : Nat} (h : w.Inside size) (hle : size ≤ m) : w.Inside m := by
  intro i hi
  have := h i hi
  omega

theorem Aligned.put (h : w.Aligned) (a : α) : (w.put a).Aligned := by
  simp only [Aligned, Pen.put, length_append, length_singleton] at h ⊢
  omega

theorem Aligned.puts (h : w.Aligned) (as : List α) : (w.puts as).Aligned := by
  induction as generalizing w with
  | nil => exact h
  | cons a as ih => exact ih (h.put a)

theorem Aligned.rewind (h : w.Aligned) {k : Nat} (hk : k ≤ w.text.length) :
    (w.rewind k).Aligned := by
  simp only [Aligned, Pen.rewind, length_take] at h ⊢
  omega

/-- One write, at an index that is in range. -/
theorem Inside.put (h : w.Inside size) (ha : w.Aligned) (a : α) (hlt : w.text.length < size) :
    (w.put a).Inside size := by
  intro i hi
  rcases mem_cons.mp hi with rfl | hi
  · rw [ha]
    omega
  · exact h i hi

theorem Inside.puts (h : w.Inside size) (ha : w.Aligned) (as : List α)
    (hle : w.text.length + as.length ≤ size) : (w.puts as).Inside size := by
  induction as generalizing w with
  | nil => exact h
  | cons a as ih =>
    simp only [length_cons] at hle
    refine ih (h.put ha a (by omega)) (ha.put a) ?_
    simp only [put_text, length_append, length_singleton]
    omega

theorem Inside.mark (h : w.Inside size) (ha : w.Aligned) (hlt : w.text.length < size) :
    w.mark.Inside size := by
  intro i hi
  rcases mem_cons.mp hi with rfl | hi
  · rw [ha]
    omega
  · exact h i hi

/-- A terminator behind everything that was written. -/
theorem Tight.marked (h : w.Tight) : w.mark.Inside size ↔ w.text.length < size := by
  refine ⟨fun hin => ?_, fun hlt => (h.2.mono hlt.le).mark h.1 hlt⟩
  have hlast := (hin w.pos mem_cons_self).2
  rw [h.1] at hlast
  omega

/-- The last of some writes is inside. -/
theorem Aligned.inside_puts (h : w.Aligned) {as : List α} (hne : as ≠ [])
    (hin : (w.puts as).Inside size) : w.text.length + as.length ≤ size := by
  induction as generalizing w with
  | nil => exact absurd rfl hne
  | cons a as ih =>
    cases as with
    | nil =>
      have hlast := (hin w.pos mem_cons_self).2
      rw [h] at hlast
      show w.text.length + 1 ≤ size
      omega
    | cons b bs =>
      have hrest := ih (h.put a) (cons_ne_nil b bs) hin
      rw [put_text, length_append, length_singleton] at hrest
      rw [length_cons]
      omega

theorem start_tight : (start : Pen α).Tight := ⟨rfl, fun i hi => absurd hi (by simp [start])⟩

/-- Appending leaves nothing above the index. -/
theorem Tight.puts (h : w.Tight) (as : List α) : (w.puts as).Tight := by
  obtain ⟨ha, hi⟩ := h
  refine ⟨ha.puts as, ?_⟩
  rw [puts_text, length_append]
  exact (hi.mono (Nat.le_add_right _ _)).puts ha as (le_refl _)

theorem Tight.put (h : w.Tight) (a : α) : (w.put a).Tight := h.puts [a]

/-- Going back and writing at least as much again. -/
theorem Tight.rewrite (h : w.Tight) {k : Nat} (hk : k ≤ w.text.length) (as : List α)
    (has : k ≤ as.length) : ((w.rewind k).puts as).Tight := by
  obtain ⟨ha, hi⟩ := h
  have hback := ha.rewind hk
  refine ⟨hback.puts as, ?_⟩
  rw [puts_text, length_append]
  have hlen : (w.rewind k).text.length + as.length = w.text.length - k + as.length := by
    rw [rewind_text, length_take]
    omega
  rw [hlen]
  refine Inside.puts ?_ hback as (le_of_eq hlen)
  exact fun i hmem => hi.mono (by omega) i hmem

end Pen

end Writing
