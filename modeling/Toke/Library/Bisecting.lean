/-
  Bisecting — **A FINITE SET AS A STRICTLY INCREASING LIST.**

  `bisect` is the three-way binary search on a half-open window `[lo, hi)`.
  On an increasing list it finds the value or the place where it belongs
  (`bisect_located`); inserting or deleting there keeps the list increasing
  and inserts into or deletes from the set of its elements
  (`increasing_insertAt`, `toFinset_insertAt`, `increasing_deleteAt`,
  `toFinset_deleteAt`).

  The list is kept in the front part of a longer block, and every access to the
  block is checked.  An insertion moves the words behind the place one up, a
  deletion moves them one down (`insertWord_eq`, `deleteWord_eq`).
-/
import Mathlib

namespace Bisecting

open List

variable {α : Type} [LinearOrder α]

/-! ## §1. The search. -/

/-- The search in `[lo, hi)`; the answer is an index and whether the value is
there.  `none` is a read outside the block, or a search that `fuel` turns do
not end. -/
def bisect (block : List α) (val : α) : Nat → Nat → Nat → Option (Nat × Bool)
  | 0, lo, hi => if lo < hi then none else some (lo, false)
  | fuel + 1, lo, hi =>
    if lo < hi then
      let mid := lo + (hi - lo) / 2
      match block[mid]? with
      | none => none
      | some x =>
        if x < val then bisect block val fuel (mid + 1) hi
        else if val < x then bisect block val fuel lo mid
        else some (mid, true)
    else some (lo, false)

/-- The list with a value before position `i`. -/
def insertAt (data : List α) (i : Nat) (val : α) : List α := data.take i ++ val :: data.drop i

/-- The list without the element at position `i`. -/
def deleteAt (data : List α) (i : Nat) : List α := data.take i ++ data.drop (i + 1)

/-- The list is strictly increasing. -/
def Increasing (data : List α) : Prop := data.Pairwise (· < ·)

/-- All elements before `i` are smaller, all from `i` on are bigger. -/
structure Gap (data : List α) (val : α) (i : Nat) : Prop where
  le : i ≤ data.length
  before : ∀ x ∈ data.take i, x < val
  behind : ∀ x ∈ data.drop i, val < x

/-- What the search promises. -/
def Located (data : List α) (val : α) (r : Nat × Bool) : Prop :=
  if r.2 then data[r.1]? = some val else Gap data val r.1

omit [LinearOrder α] in
theorem split_at {data : List α} {i : Nat} {x : α} (h : data[i]? = some x) :
    data = data.take i ++ x :: data.drop (i + 1) := by
  obtain ⟨hi, rfl⟩ := List.getElem?_eq_some_iff.mp h
  rw [List.getElem_cons_drop, List.take_append_drop]

/-- In an increasing list an element separates the smaller from the bigger. -/
theorem Increasing.around {data : List α} {i : Nat} {x : α} (hs : Increasing data)
    (h : data[i]? = some x) :
    (∀ y ∈ data.take i, y < x) ∧ ∀ y ∈ data.drop (i + 1), x < y := by
  unfold Increasing at hs
  rw [split_at h, pairwise_append, pairwise_cons] at hs
  exact ⟨fun y hy => hs.2.2 y hy x mem_cons_self, hs.2.1.1⟩

/-- A search that starts in an increasing list ends, reads only the list, and
finds the value or its place.  The window always has the value's place in it. -/
theorem bisect_located {data : List α} (hs : Increasing data) (val : α) (fuel lo hi : Nat)
    (hfuel : hi - lo ≤ fuel) (hlo : lo ≤ hi) (hhi : hi ≤ data.length)
    (hbefore : ∀ x ∈ data.take lo, x < val) (hbehind : ∀ x ∈ data.drop hi, val < x) :
    ∃ r, bisect data val fuel lo hi = some r ∧ Located data val r := by
  have hdone : ¬ lo < hi → Located data val (lo, false) := by
    intro hge
    have heq : lo = hi := by omega
    exact ⟨by omega, hbefore, heq ▸ hbehind⟩
  induction fuel generalizing lo hi with
  | zero =>
    have hge : ¬ lo < hi := by omega
    exact ⟨(lo, false), by rw [bisect, if_neg hge], hdone hge⟩
  | succ fuel ih =>
    rw [bisect]
    by_cases hlt : lo < hi
    · rw [if_pos hlt]
      dsimp only
      generalize hmid : lo + (hi - lo) / 2 = mid
      have hmlt : mid < data.length := by omega
      obtain ⟨x, hx⟩ : ∃ x, data[mid]? = some x := ⟨_, getElem?_eq_getElem hmlt⟩
      obtain ⟨hless, hmore⟩ := hs.around hx
      rw [hx]
      dsimp only
      by_cases hxv : x < val
      · -- the value can only be behind `mid`
        rw [if_pos hxv]
        have hfront : ∀ y ∈ data.take (mid + 1), y < val := by
          intro y hy
          rw [take_add_one, hx, Option.toList_some, mem_append, mem_singleton] at hy
          rcases hy with hy | rfl
          · exact (hless y hy).trans hxv
          · exact hxv
        refine ih (mid + 1) hi (by omega) (by omega) hhi hfront hbehind ?_
        intro hge
        have heq : mid + 1 = hi := by omega
        exact ⟨by omega, hfront, heq ▸ hbehind⟩
      · rw [if_neg hxv]
        by_cases hvx : val < x
        · -- the value can only be before `mid`
          rw [if_pos hvx]
          have hback : ∀ y ∈ data.drop mid, val < y := by
            intro y hy
            rw [drop_eq_getElem_cons hmlt, mem_cons] at hy
            have hxeq : data[mid] = x := (List.getElem?_eq_some_iff.mp hx).2
            rcases hy with rfl | hy
            · exact hxeq ▸ hvx
            · exact hvx.trans (hmore y hy)
          refine ih lo mid (by omega) (by omega) (by omega) hbefore hback ?_
          intro hge
          have heq : lo = mid := by omega
          exact ⟨by omega, hbefore, heq ▸ hback⟩
        · rw [if_neg hvx]
          have heq : x = val := le_antisymm (not_lt.mp hvx) (not_lt.mp hxv)
          refine ⟨(mid, true), rfl, ?_⟩
          show data[mid]? = some val
          rw [hx, heq]
    · rw [if_neg hlt]
      exact ⟨(lo, false), rfl, hdone hlt⟩

/-- The words behind the window are not read. -/
theorem bisect_append (data tail : List α) (val : α) (fuel lo hi : Nat) (hhi : hi ≤ data.length) :
    bisect (data ++ tail) val fuel lo hi = bisect data val fuel lo hi := by
  induction fuel generalizing lo hi with
  | zero => rfl
  | succ fuel ih =>
    unfold bisect
    by_cases hlt : lo < hi
    · rw [if_pos hlt, if_pos hlt]
      dsimp only
      rw [getElem?_append_left (show lo + (hi - lo) / 2 < data.length by omega)]
      rw [ih _ _ hhi, ih lo (lo + (hi - lo) / 2) (by omega)]
    · rw [if_neg hlt, if_neg hlt]

/-- The search over the list in front of a block. -/
theorem bisect_all {data : List α} (hs : Increasing data) (tail : List α) (val : α) :
    ∃ r, bisect (data ++ tail) val data.length 0 data.length = some r ∧ Located data val r := by
  rw [bisect_append _ _ _ _ _ _ le_rfl]
  exact bisect_located hs val _ 0 _ (by omega) (Nat.zero_le _) le_rfl (by simp) (by simp)

/-! ## §2. Updates of the list. -/

theorem Gap.notMem {data : List α} {val : α} {i : Nat} (h : Gap data val i) : val ∉ data := by
  intro hmem
  rw [← take_append_drop i data, mem_append] at hmem
  rcases hmem with hmem | hmem
  · exact lt_irrefl val (h.before val hmem)
  · exact lt_irrefl val (h.behind val hmem)

theorem increasing_insertAt {data : List α} {val : α} {i : Nat} (hs : Increasing data)
    (h : Gap data val i) : Increasing (insertAt data i val) := by
  unfold Increasing at hs
  rw [← take_append_drop i data, pairwise_append] at hs
  unfold Increasing insertAt
  rw [pairwise_append, pairwise_cons]
  refine ⟨hs.1, ⟨h.behind, hs.2.1⟩, fun x hx y hy => ?_⟩
  rcases mem_cons.mp hy with rfl | hy
  · exact h.before x hx
  · exact hs.2.2 x hx y hy

theorem toFinset_insertAt (data : List α) (i : Nat) (val : α) :
    (insertAt data i val).toFinset = insert val data.toFinset := by
  ext x
  have hdata : x ∈ data ↔ x ∈ data.take i ∨ x ∈ data.drop i := by
    rw [← mem_append, take_append_drop]
  simp only [insertAt, mem_toFinset, mem_append, mem_cons, Finset.mem_insert]
  tauto

theorem increasing_deleteAt {data : List α} (hs : Increasing data) (i : Nat) :
    Increasing (deleteAt data i) := by
  refine List.Pairwise.sublist ?_ hs
  have hdrop : (data.drop (i + 1)).Sublist (data.drop i) := by
    rw [drop_add_one_eq_tail_drop]
    exact tail_sublist _
  have h := (List.Sublist.refl (data.take i)).append hdrop
  rwa [take_append_drop] at h

theorem toFinset_deleteAt {data : List α} {val : α} {i : Nat} (hs : Increasing data)
    (h : data[i]? = some val) : (deleteAt data i).toFinset = data.toFinset.erase val := by
  obtain ⟨hless, hmore⟩ := hs.around h
  ext x
  have hdata : x ∈ data ↔ x ∈ data.take i ∨ x = val ∨ x ∈ data.drop (i + 1) := by
    rw [← mem_cons, ← mem_append, ← split_at h]
  simp only [deleteAt, mem_toFinset, mem_append, Finset.mem_erase, hdata]
  constructor
  · rintro (hx | hx)
    · exact ⟨(hless x hx).ne, Or.inl hx⟩
    · exact ⟨(hmore x hx).ne', Or.inr (Or.inr hx)⟩
  · rintro ⟨hne, hx | hx | hx⟩
    · exact Or.inl hx
    · exact absurd hx hne
    · exact Or.inr hx

/-- An increasing list has as many elements as its set. -/
theorem card_toFinset {data : List α} (hs : Increasing data) : data.toFinset.card = data.length :=
  toFinset_card_of_nodup (hs.imp fun h => h.ne)

/-! ## §3. Updates of the block. -/

omit [LinearOrder α]

/-- `n` words of the block are moved from `src` to `dst`; all of them are read
before the first is written.  `none` is an access outside the block. -/
def moveWords (block : List α) (dst src n : Nat) : Option (List α) :=
  if src + n ≤ block.length ∧ dst + n ≤ block.length then
    some (block.take dst ++ (block.drop src).take n ++ block.drop (dst + n))
  else none

/-- The word at position `i` is written. -/
def writeWord (block : List α) (i : Nat) (x : α) : Option (List α) :=
  if i < block.length then some (block.set i x) else none

/-- Position `i` of the `len` words in use is opened and written. -/
def insertWord (block : List α) (len i : Nat) (x : α) : Option (List α) :=
  (if i < len then moveWords block (i + 1) i (len - i) else some block).bind (writeWord · i x)

/-- Position `i` of the `len` words in use is closed. -/
def deleteWord (block : List α) (len i : Nat) : Option (List α) :=
  if i < len - 1 then moveWords block i (i + 1) (len - i - 1) else some block

/-- With one word to spare the insertion into the block is the insertion into
the list; only that word is lost. -/
theorem insertWord_eq (data tail : List α) (y x : α) {i : Nat} (hi : i ≤ data.length) :
    insertWord (data ++ y :: tail) data.length i x = some (insertAt data i x ++ tail) := by
  obtain ⟨l, r, rfl, rfl⟩ : ∃ l r, data = l ++ r ∧ i = l.length :=
    ⟨data.take i, data.drop i, (take_append_drop i data).symm, by rw [length_take]; omega⟩
  unfold insertWord insertAt
  rw [take_left, drop_left]
  cases r with
  | nil => simp [writeWord]
  | cons z r =>
    rw [if_pos (by simp)]
    have hmove : moveWords (l ++ z :: r ++ y :: tail) (l.length + 1) l.length
        ((l ++ z :: r).length - l.length) = some (l ++ z :: z :: r ++ tail) := by
      unfold moveWords
      rw [if_pos (by simp; omega)]
      have htake : (l ++ z :: r ++ y :: tail).take (l.length + 1) = l ++ [z] := by simp [take_append]
      have hmid : ((l ++ z :: r ++ y :: tail).drop l.length).take
          ((l ++ z :: r).length - l.length) = z :: r := by
        rw [append_assoc, drop_left, length_append, Nat.add_sub_cancel_left, take_left]
      have hrest : (l ++ z :: r ++ y :: tail).drop
          (l.length + 1 + ((l ++ z :: r).length - l.length)) = tail := by
        rw [show l.length + 1 + ((l ++ z :: r).length - l.length) = (l ++ z :: r).length + 1 by
          simp; omega, drop_append, drop_of_length_le (by omega)]
        simp
      rw [htake, hmid, hrest]
      simp
    rw [hmove]
    simp [writeWord]

/-- The deletion from the block leaves the shorter list in front. -/
theorem deleteWord_eq (data tail : List α) {i : Nat} (hi : i < data.length) :
    ∃ y, deleteWord (data ++ tail) data.length i = some (deleteAt data i ++ y :: tail) := by
  obtain ⟨l, z, r, rfl, rfl⟩ : ∃ l z r, data = l ++ z :: r ∧ i = l.length :=
    ⟨data.take i, data[i], data.drop (i + 1), by rw [getElem_cons_drop, take_append_drop],
      by rw [length_take]; omega⟩
  have hdelete : deleteAt (l ++ z :: r) l.length = l ++ r := by simp [deleteAt, drop_append]
  rw [hdelete]
  unfold deleteWord
  cases hr : r.reverse with
  | nil =>
    rw [reverse_eq_nil_iff] at hr
    subst hr
    exact ⟨z, by simp⟩
  | cons y q =>
    have hlast : r = q.reverse ++ [y] := by
      rw [← reverse_reverse r, hr, reverse_cons]
    refine ⟨y, ?_⟩
    have hlen : 0 < r.length := by rw [hlast]; simp
    rw [if_pos (by simp; omega)]
    unfold moveWords
    rw [if_pos (by simp; omega)]
    have htake : (l ++ z :: r ++ tail).take l.length = l := by rw [append_assoc, take_left]
    have hmid : ((l ++ z :: r ++ tail).drop (l.length + 1)).take
        ((l ++ z :: r).length - l.length - 1) = r := by
      rw [append_assoc, drop_append, drop_of_length_le (Nat.le_succ _)]
      simp
    have hrest : (l ++ z :: r ++ tail).drop
        (l.length + ((l ++ z :: r).length - l.length - 1)) = y :: tail := by
      have hsplit : l ++ z :: r ++ tail = (l ++ z :: q.reverse) ++ y :: tail := by
        rw [hlast]
        simp
      have hcount : l.length + ((l ++ z :: r).length - l.length - 1) = (l ++ z :: q.reverse).length := by
        rw [hlast]
        simp
      rw [hcount, hsplit, drop_left]
    rw [htake, hmid, hrest]

end Bisecting
