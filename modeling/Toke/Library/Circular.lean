/-
  Circular — **A RING BUFFER AS A LIST.**

  `len` elements are stored from `head` on, and go on at cell 0 behind the
  last cell:

      cells   c d · · a b        head = 4, len = 4
      ↦       a b c d            `contents`

  The lemmas say what storing behind the last element, dropping the first one
  and moving to a bigger block do to the list: `contents_store`,
  `contents_eq_cons`, `contents_relocate`.
-/
import Mathlib

namespace Circular

open List

variable {α : Type}

/-- A ring of cells; the cells that hold no element may hold anything. -/
structure Buffer (α : Type) where
  cells : List α
  head : Nat
  len : Nat
  head_lt : head < cells.length
  len_le : len ≤ cells.length

namespace Buffer

/-- The number of cells. -/
def cap (b : Buffer α) : Nat := b.cells.length

theorem cap_pos (b : Buffer α) : 0 < b.cap := Nat.zero_lt_of_lt b.head_lt

/-- The index of the cell `i` places behind the head. -/
def place (b : Buffer α) (i : Nat) : Nat := (b.head + i) % b.cap

theorem place_lt (b : Buffer α) (i : Nat) : b.place i < b.cells.length :=
  Nat.mod_lt _ b.cap_pos

/-- The value `i` places behind the head. -/
def nth (b : Buffer α) (i : Nat) : α := b.cells.get ⟨b.place i, b.place_lt i⟩

/-- The elements, first to last. -/
def contents (b : Buffer α) : List α := (List.range b.len).map b.nth

@[simp] theorem length_contents (b : Buffer α) : b.contents.length = b.len := by simp [contents]

/-! ## §1. The operations. -/

/-- A block of `n` cells without elements. -/
def fresh (n : Nat) (junk : α) (h : 0 < n) : Buffer α where
  cells := List.replicate n junk
  head := 0
  len := 0
  head_lt := by simpa using h
  len_le := Nat.zero_le _

/-- Write behind the last element. -/
def store (b : Buffer α) (x : α) (h : b.len < b.cap) : Buffer α where
  cells := b.cells.set (b.place b.len) x
  head := b.head
  len := b.len + 1
  head_lt := by simpa using b.head_lt
  len_le := by
    rw [List.length_set]
    exact h

/-- Forget the first element. -/
def advance (b : Buffer α) : Buffer α where
  cells := b.cells
  head := b.place 1
  len := b.len - 1
  head_lt := b.place_lt 1
  len_le := Nat.le_trans (Nat.sub_le _ _) b.len_le

/-- Copy the elements in order to the front of a block of `n` cells. -/
def relocate (b : Buffer α) (n : Nat) (junk : α) (h : b.cap ≤ n) : Buffer α where
  cells := b.contents ++ List.replicate (n - b.len) junk
  head := 0
  len := b.len
  head_lt := by
    have hpos := b.cap_pos
    have hlen := b.len_le
    simp only [List.length_append, length_contents, List.length_replicate]
    omega
  len_le := by simp

theorem cap_relocate (b : Buffer α) (n : Nat) (junk : α) (h : b.cap ≤ n) :
    (b.relocate n junk h).cap = n := by
  have hlen : b.len ≤ n := Nat.le_trans b.len_le h
  simp only [cap, relocate, length_append, length_contents, length_replicate]
  omega

/-! ## §2. What they do to the list. -/

/-- Two places less than a round apart are different cells. -/
theorem place_ne (b : Buffer α) {i j : Nat} (hij : i < j) (hj : j < b.cap) :
    b.place i ≠ b.place j := by
  intro heq
  -- equal remainders: the places differ by a multiple of the capacity
  have hdvd : b.cap ∣ (b.head + j) - (b.head + i) := (Nat.modEq_iff_dvd' (by omega)).mp heq
  have hdiff : (b.head + j) - (b.head + i) = j - i := by omega
  have hle := Nat.le_of_dvd (by omega) hdvd
  omega

theorem contents_store (b : Buffer α) (x : α) (h : b.len < b.cap) :
    (b.store x h).contents = b.contents ++ [x] := by
  have hplace : ∀ i, (b.store x h).place i = b.place i := by
    intro i
    simp [place, store, cap]
  have hlast : (b.store x h).nth b.len = x := by
    simp only [nth, hplace]
    simp [store]
  have hold : ∀ i < b.len, (b.store x h).nth i = b.nth i := by
    intro i hi
    have hne : b.place b.len ≠ b.place i := (b.place_ne hi h).symm
    simp only [nth, hplace]
    simp [store, getElem_set_ne hne]
  show (range (b.len + 1)).map _ = _
  rw [range_succ, map_append, map_singleton, hlast]
  congr 1
  exact map_congr_left fun i hi => hold i (mem_range.mp hi)

theorem nth_advance (b : Buffer α) (i : Nat) : b.advance.nth i = b.nth (i + 1) := by
  have hplace : b.advance.place i = b.place (i + 1) := by
    show (b.place 1 + i) % b.cap = (b.head + (i + 1)) % b.cap
    unfold place
    rw [Nat.mod_add_mod, Nat.add_assoc, Nat.add_comm 1 i]
  simp only [nth, hplace]
  rfl

/-- A buffer with an element: the first one, and what `advance` leaves. -/
theorem contents_eq_cons (b : Buffer α) (h : b.len ≠ 0) :
    b.contents = b.nth 0 :: b.advance.contents := by
  obtain ⟨k, hk⟩ := Nat.exists_eq_succ_of_ne_zero h
  have hadv : b.advance.len = k := by
    show b.len - 1 = k
    omega
  unfold contents
  rw [hadv, hk, range_succ_eq_map, map_cons, map_map]
  congr 1
  exact map_congr_left fun i _ => (b.nth_advance i).symm

theorem contents_relocate (b : Buffer α) (n : Nat) (junk : α) (h : b.cap ≤ n) :
    (b.relocate n junk h).contents = b.contents := by
  have hlen : b.len ≤ n := Nat.le_trans b.len_le h
  have hplace : ∀ i < b.len, (b.relocate n junk h).place i = i := by
    intro i hi
    unfold place
    rw [cap_relocate]
    show (0 + i) % n = i
    rw [Nat.zero_add, Nat.mod_eq_of_lt (by omega)]
  refine map_congr_left fun i hi => ?_
  have hi : i < b.len := mem_range.mp hi
  simp only [nth, hplace i hi]
  simp [relocate, contents, hi, nth]

end Buffer

end Circular
