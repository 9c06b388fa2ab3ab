/-
  Blocks — **A STORE OF HEAP BLOCKS.**

  A pointer is the number of a block, a freed block is gone for good, and
  every access is checked: reading or writing a freed block, or outside a
  block, has no result.  The lemmas say what an operation does to its own
  block, and that it leaves every other block as it was.
-/
import Mathlib

namespace Blocks

variable {α : Type}

/-- The blocks in the order of their allocation; `none` is a freed one. -/
abbrev Store (α : Type) := List (Option (List α))

/-- The contents of a live block. -/
def block (s : Store α) (p : Nat) : Option (List α) := s[p]?.join

/-- A new block; its pointer is the length of the store. -/
def alloc (s : Store α) (xs : List α) : Store α := s ++ [some xs]

/-- A block is freed. -/
def free (s : Store α) (p : Nat) : Store α := s.set p none

/-- Element `i` of block `p`. -/
def read (s : Store α) (p i : Nat) : Option α := (block s p).bind (·[i]?)

/-- Store `x` as element `i` of block `p`. -/
def write (s : Store α) (p i : Nat) (x : α) : Option (Store α) :=
  (block s p).bind fun xs => if i < xs.length then some (s.set p (some (xs.set i x))) else none

theorem lt_of_block {s : Store α} {p : Nat} {xs : List α} (h : block s p = some xs) :
    p < s.length := by
  by_contra hle
  unfold block at h
  rw [List.getElem?_eq_none (by omega)] at h
  cases h

theorem block_alloc_self (s : Store α) (xs : List α) : block (alloc s xs) s.length = some xs := by
  unfold block alloc
  rw [List.getElem?_concat_length]
  rfl

theorem block_alloc {s : Store α} {p : Nat} {ys : List α} (h : block s p = some ys)
    (xs : List α) : block (alloc s xs) p = some ys := by
  have hlt := lt_of_block h
  unfold block alloc at *
  rw [List.getElem?_append_left hlt, h]

theorem block_free_ne {s : Store α} {p q : Nat} (h : q ≠ p) : block (free s p) q = block s q := by
  unfold block free
  rw [List.getElem?_set_ne (Ne.symm h)]

theorem length_free (s : Store α) (p : Nat) : (free s p).length = s.length :=
  List.length_set

theorem block_set_self {s : Store α} {p : Nat} {xs : List α} (h : block s p = some xs)
    (ys : List α) : block (s.set p (some ys)) p = some ys := by
  unfold block
  rw [List.getElem?_set_self (lt_of_block h)]
  rfl

theorem block_set_ne {s : Store α} {p q : Nat} (h : q ≠ p) (ys : List α) :
    block (s.set p (some ys)) q = block s q := by
  unfold block
  rw [List.getElem?_set_ne (Ne.symm h)]

theorem read_eq {s : Store α} {p : Nat} {xs : List α} (h : block s p = some xs) (i : Nat) :
    read s p i = xs[i]? := by
  unfold read
  rw [h]
  rfl

theorem write_eq {s : Store α} {p i : Nat} {xs : List α} (h : block s p = some xs)
    (hi : i < xs.length) (x : α) : write s p i x = some (s.set p (some (xs.set i x))) := by
  unfold write
  rw [h, Option.bind_some, if_pos hi]

end Blocks
