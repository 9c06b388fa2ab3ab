/-
  Streaming — **READING A STREAM THAT ARRIVES IN PACKETS.**

  A `Feed` holds the packets that are still to come, none of them empty.  One
  `recv` returns at most what was asked for and never reaches into the next
  packet, as `read` on a socket does.  `fill` reads into a buffer until the
  buffer wants no more.  What a reader gets therefore depends on the packets;
  `fill_cases` says what does not: the bytes come in order, none is lost, and
  the loop ends with a satisfied buffer or with the end of the stream.
-/
import Mathlib

namespace Streaming

open List

variable {α : Type}

/-- The packets that are still to come. -/
structure Feed (α : Type) where
  packets : List (List α)
  nonempty : ∀ p ∈ packets, p ≠ []

namespace Feed

/-- The bytes that are still to come. -/
def rest (f : Feed α) : List α := f.packets.flatten

/-- At most `k` bytes of the first packet; nothing at the end of the stream. -/
def recv (k : Nat) : Feed α → List α × Feed α
  | ⟨[], h⟩ => ([], ⟨[], h⟩)
  | ⟨p :: ps, h⟩ =>
    (p.take k, if hk : p.drop k = [] then ⟨ps, (List.forall_mem_cons.mp h).2⟩
      else ⟨p.drop k :: ps, fun q hq => by
        rcases List.mem_cons.mp hq with rfl | hq
        · exact hk
        · exact h q (List.mem_cons_of_mem p hq)⟩)

theorem recv_append (k : Nat) (f : Feed α) : (f.recv k).1 ++ (f.recv k).2.rest = f.rest := by
  obtain ⟨ps, h⟩ := f
  cases ps with
  | nil => rfl
  | cons p ps =>
    unfold recv rest
    dsimp only
    by_cases hk : p.drop k = []
    · have htake : p.take k = p := by
        rw [← take_append_drop k p, hk, append_nil]
        exact take_of_length_le (by rw [length_take]; omega)
      rw [dif_pos hk, htake, flatten_cons]
    · rw [dif_neg hk, flatten_cons, ← append_assoc, take_append_drop, flatten_cons]

theorem length_recv_le (k : Nat) (f : Feed α) : (f.recv k).1.length ≤ k := by
  obtain ⟨ps, h⟩ := f
  cases ps with
  | nil => exact Nat.zero_le k
  | cons p ps => exact (length_take_le k p)

/-- A read that asks for something returns nothing only at the end. -/
theorem rest_of_recv_nil {k : Nat} {f : Feed α} (hk : 0 < k) (h : (f.recv k).1 = []) :
    f.rest = [] := by
  obtain ⟨ps, hne⟩ := f
  cases ps with
  | nil => rfl
  | cons p ps =>
    rcases take_eq_nil_iff.mp h with hzero | hp
    · omega
    · exact absurd hp (hne p mem_cons_self)

theorem recv_of_rest_nil {f : Feed α} (h : f.rest = []) (k : Nat) : f.recv k = ([], f) := by
  obtain ⟨ps, hne⟩ := f
  cases ps with
  | nil => rfl
  | cons p ps =>
    have hp : p = [] := flatten_eq_nil_iff.mp h p mem_cons_self
    exact absurd hp (hne p mem_cons_self)

end Feed

/-- Read into a buffer until it wants nothing more; `none` at the end of the stream. -/
def fill (want : List α → Nat) : Nat → List α → Feed α → Option (List α) × Feed α
  | 0, buf, f => (some buf, f)
  | fuel + 1, buf, f =>
    if want buf = 0 then (some buf, f)
    else
      let (b, f') := f.recv (want buf)
      if b.isEmpty then (none, f') else fill want fuel (buf ++ b) f'

/-- A loop that can take at most `fuel` more bytes and keeps `I` ends in one of
two ways, whatever the packets are. -/
theorem fill_cases {want : List α → Nat} {I : List α → Prop} {most : Nat}
    (hstep : ∀ buf b, I buf → b.length ≤ want buf → I (buf ++ b))
    (hmost : ∀ buf, I buf → most ≤ buf.length → want buf = 0)
    (fuel : Nat) (buf : List α) (f : Feed α) (hI : I buf) (hfuel : most ≤ buf.length + fuel) :
    (∃ b g, fill want fuel buf f = (some (buf ++ b), g) ∧ f.rest = b ++ g.rest ∧ I (buf ++ b) ∧
        want (buf ++ b) = 0) ∨
      (∃ g, fill want fuel buf f = (none, g) ∧ g.rest = [] ∧ I (buf ++ f.rest) ∧
        want (buf ++ f.rest) ≠ 0) := by
  induction fuel generalizing buf f with
  | zero =>
    refine Or.inl ⟨[], f, ?_, rfl, ?_, ?_⟩
    · rw [append_nil]
      rfl
    · rwa [append_nil]
    · rw [append_nil]
      exact hmost buf hI hfuel
  | succ fuel ih =>
    by_cases hwant : want buf = 0
    · refine Or.inl ⟨[], f, ?_, rfl, ?_, ?_⟩
      · rw [fill, if_pos hwant, append_nil]
      · rwa [append_nil]
      · rwa [append_nil]
    · have happ := f.recv_append (want buf)
      have hle := f.length_recv_le (want buf)
      cases hb : (f.recv (want buf)).1 with
      | nil =>
        have hend := Feed.rest_of_recv_nil (Nat.pos_of_ne_zero hwant) hb
        refine Or.inr ⟨f, ?_, hend, ?_, ?_⟩
        · rw [fill, if_neg hwant, Feed.recv_of_rest_nil hend]
          rfl
        · rwa [hend, append_nil]
        · rwa [hend, append_nil]
      | cons x b =>
        have hfill : fill want (fuel + 1) buf f =
            fill want fuel (buf ++ (x :: b)) (f.recv (want buf)).2 := by
          rw [fill, if_neg hwant]
          simp only [hb]
          rfl
        rw [hb] at happ hle
        have hI' := hstep buf (x :: b) hI hle
        have hfuel' : most ≤ (buf ++ (x :: b)).length + fuel := by
          rw [length_append, length_cons]
          omega
        rw [hfill]
        rcases ih (buf ++ (x :: b)) (f.recv (want buf)).2 hI' hfuel' with
          ⟨c, g, heq, hrest, hIc, hdone⟩ | ⟨g, heq, hrest, hIc, hmore⟩
        · refine Or.inl ⟨x :: b ++ c, g, ?_, ?_, ?_, ?_⟩
          · rw [heq, append_assoc]
          · rw [← happ, hrest, append_assoc]
          · rwa [← append_assoc]
          · rwa [← append_assoc]
        · refine Or.inr ⟨g, heq, hrest, ?_, ?_⟩
          · rwa [← happ, ← append_assoc]
          · rwa [← happ, ← append_assoc]

end Streaming
