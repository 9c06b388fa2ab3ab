/-
  Mirroring — **TWO PARTIES THAT KEEP EQUAL STATES BY EXCHANGING BYTES.**

  A writer turns an item into bytes and moves to a next state; a reader, from
  the same state, takes those bytes off the front of its input, gets the item
  back and moves to the same next state.  `Mirrors` says this of one item.
  From it: a block of items is read back whole, and a writer that works in a
  buffer of fixed size wrote that block or nothing that counts.
-/
import Mathlib

namespace Mirroring

open List

variable {S A B : Type}

/-! ## §1. A buffer of fixed size. -/

/-- Appending to a buffer that holds at most `cap` bytes. -/
def limited (cap : Nat) (out w : List B) : Option (List B) :=
  if out.length + w.length ≤ cap then some (out ++ w) else none

theorem limited_of_le {cap : Nat} {out w : List B} (h : out.length + w.length ≤ cap) :
    limited cap out w = some (out ++ w) := if_pos h

theorem limited_of_lt {cap : Nat} {out w : List B} (h : cap < out.length + w.length) :
    limited cap out w = none := if_neg (by omega)

/-- Appending in two steps fails exactly if appending in one step does. -/
theorem limited_bind (cap : Nat) (out v w : List B) :
    ((limited cap out v).bind fun o => limited cap o w) = limited cap out (v ++ w) := by
  by_cases hv : out.length + v.length ≤ cap
  · rw [limited_of_le hv, Option.bind_some]
    unfold limited
    rw [length_append, length_append, append_assoc, Nat.add_assoc]
  · have hvw : cap < out.length + (v ++ w).length := by
      rw [length_append]
      omega
    rw [limited_of_lt (by omega), limited_of_lt hvw, Option.bind_none]

theorem limited_cons (cap : Nat) (out : List B) (b : B) (w : List B) :
    ((limited cap out [b]).bind fun o => limited cap o w) = limited cap out (b :: w) :=
  limited_bind cap out [b] w

/-! ## §2. Blocks of items. -/

/-- The bytes of a list of items, with the state threaded through. -/
def writeAll (write : S → A → S × List B) : S → List A → S × List B
  | s, [] => (s, [])
  | s, a :: as =>
    let next := writeAll write (write s a).1 as
    (next.1, (write s a).2 ++ next.2)

/-- Reading to the end of the input.  A unit of the input need not be an item:
it may only move the state.  After an error the state stays as the units read
before it left it. -/
def readAll (read : S → List B → Option (S × Option A × List B)) :
    Nat → S → List B → S × Option (List A)
  | _, s, [] => (s, some [])
  | 0, s, _ :: _ => (s, none)
  | fuel + 1, s, b :: bs =>
    match read s (b :: bs) with
    | none => (s, none)
    | some (s', item, rest) =>
      let next := readAll read fuel s' rest
      (next.1, next.2.map (item.toList ++ ·))

/-- Items written one after another until one of them fails. -/
def writeWhile (step : S → List B → A → Option (S × List B)) :
    S → List B → List A → S × Option (List B)
  | s, out, [] => (s, some out)
  | s, out, a :: as =>
    match step s out a with
    | none => (s, none)
    | some (s', out') => writeWhile step s' out' as

/-- The reader undoes the writer, one item at a time, while the states stay
good. -/
structure Mirrors (good : S → Prop) (fair : A → Prop) (write : S → A → S × List B)
    (read : S → List B → Option (S × Option A × List B)) : Prop where
  reads : ∀ s a r, good s → fair a → read s ((write s a).2 ++ r) = some ((write s a).1, some a, r)
  nonempty : ∀ s a, (write s a).2 ≠ []
  stays : ∀ s a, good s → good (write s a).1

section Blocks

variable {good : S → Prop} {fair : A → Prop} {write : S → A → S × List B}
  {read : S → List B → Option (S × Option A × List B)}

theorem writeAll_good (m : Mirrors good fair write read) :
    ∀ (as : List A) (s : S), good s → good (writeAll write s as).1 := by
  intro as
  induction as with
  | nil => intro s hs; exact hs
  | cons a as ih => intro s hs; exact ih _ (m.stays s a hs)

/-- **A block is read back whole**, and the reader ends in the writer's state. -/
theorem readAll_writeAll (m : Mirrors good fair write read) :
    ∀ (as : List A) (s : S) (fuel : Nat), good s → (∀ a ∈ as, fair a) →
      (writeAll write s as).2.length ≤ fuel →
      readAll read fuel s (writeAll write s as).2 = ((writeAll write s as).1, some as) := by
  intro as
  induction as with
  | nil =>
    intro s fuel _ _ _
    show readAll read fuel s [] = (s, some [])
    unfold readAll
    rfl
  | cons a as ih =>
    intro s fuel hs hfair hfuel
    have hread := m.reads s a (writeAll write (write s a).1 as).2 hs (hfair a mem_cons_self)
    have hlen := length_pos_of_ne_nil (m.nonempty s a)
    have hfuel' : (write s a).2.length + (writeAll write (write s a).1 as).2.length ≤ fuel := by
      rw [← length_append]
      exact hfuel
    obtain ⟨fuel, rfl⟩ : ∃ n, fuel = n + 1 := ⟨fuel - 1, by omega⟩
    have hrec := ih (write s a).1 fuel (m.stays s a hs)
      (forall_mem_cons.mp hfair).2 (by omega)
    show readAll read (fuel + 1) s ((write s a).2 ++ (writeAll write (write s a).1 as).2) = _
    -- the input is not empty, so the reader takes a unit off it
    obtain ⟨b, bs, hb⟩ := exists_cons_of_ne_nil (m.nonempty s a)
    rw [hb, cons_append] at hread ⊢
    unfold readAll
    rw [hread]
    dsimp only
    rw [hrec]
    rfl

/-- If every step appends what `write` says, a writer fails exactly if the
whole block is too long, and otherwise moves to the state behind it. -/
theorem writeWhile_eq {cap : Nat} {step : S → List B → A → Option (S × List B)}
    (hstep : ∀ s out a, fair a →
      step s out a = (limited cap out (write s a).2).map fun o => ((write s a).1, o)) :
    ∀ (as : List A) (s : S) (out : List B), (∀ a ∈ as, fair a) → out.length ≤ cap →
      (writeWhile step s out as).2 = limited cap out (writeAll write s as).2 ∧
      (out.length + (writeAll write s as).2.length ≤ cap →
        (writeWhile step s out as).1 = (writeAll write s as).1) := by
  intro as
  induction as with
  | nil =>
    intro s out _ hcap
    refine ⟨?_, fun _ => rfl⟩
    show some out = limited cap out []
    rw [limited_of_le (by simpa using hcap), append_nil]
  | cons a as ih =>
    intro s out hfair hcap
    have ha := hstep s out a (hfair a mem_cons_self)
    have hall : (writeAll write s (a :: as)).2
        = (write s a).2 ++ (writeAll write (write s a).1 as).2 := rfl
    by_cases hle : out.length + (write s a).2.length ≤ cap
    · rw [limited_of_le hle] at ha
      have hunfold : writeWhile step s out (a :: as)
          = writeWhile step (write s a).1 (out ++ (write s a).2) as := by
        conv_lhs => unfold writeWhile
        rw [ha]
        rfl
      have happ : (out ++ (write s a).2).length ≤ cap := by rw [length_append]; exact hle
      obtain ⟨hout, hstate⟩ := ih (write s a).1 (out ++ (write s a).2)
        (forall_mem_cons.mp hfair).2 happ
      rw [hunfold, hall, hout, ← limited_bind, limited_of_le hle]
      refine ⟨rfl, fun hlen => hstate ?_⟩
      rw [length_append] at hlen ⊢
      omega
    · have hlong : cap < out.length + (writeAll write s (a :: as)).2.length := by
        rw [hall, length_append]
        omega
      rw [limited_of_lt hlong]
      refine ⟨?_, fun hlen => absurd hlen (by omega)⟩
      unfold writeWhile
      rw [ha, limited_of_lt (by omega)]
      rfl

/-- Items that leave the state alone. -/
theorem writeAll_replicate {s : S} {a : A} {w : List B} (h : write s a = (s, w)) (n : Nat) :
    writeAll write s (List.replicate n a) = (s, (List.replicate n w).flatten) := by
  induction n with
  | zero => rfl
  | succ n ih =>
    rw [replicate_succ, replicate_succ, flatten_cons]
    unfold writeAll
    rw [h, ih]

end Blocks

end Mirroring
