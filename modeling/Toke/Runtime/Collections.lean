/-
  Toke.Runtime.Collections — **QUEUE, SET AND ARRAY SLICE OF THE RUNTIME** (`collections.c`,
  `collections_glue.c`).

    `tkQueuePush`, `tkQueuePop`, …    a ring buffer that grows by copying
    `tkSetAdd`, `tkSetRemove`, …      a sorted array with binary search
    `tkArrSliceW`                     a clamped half-open slice

  Allocation succeeds here, so a capacity is a size that fits in memory and
  counts do not overflow; the slice takes its bounds from the program, and
  there the subtraction is checked.
-/
import Toke.Library.Circular
import Toke.Library.Bisecting

namespace Toke.Runtime

/-- Signed comparison of 64-bit integers. -/
instance linearOrderInt64 : LinearOrder Int64 where
  le_refl a := Int64.le_iff_toInt_le.mpr le_rfl
  le_trans a b c hab hbc := by
    rw [Int64.le_iff_toInt_le] at *
    exact hab.trans hbc
  lt_iff_le_not_ge a b := by
    rw [Int64.le_iff_toInt_le, Int64.le_iff_toInt_le, Int64.lt_iff_toInt_lt]
    exact lt_iff_le_not_ge
  le_antisymm a b hab hba := by
    rw [Int64.le_iff_toInt_le] at *
    exact Int64.toInt_inj.mp (le_antisymm hab hba)
  le_total a b := by
    rw [Int64.le_iff_toInt_le, Int64.le_iff_toInt_le]
    exact le_total _ _
  toDecidableLE := inferInstance
  toDecidableLT := inferInstance
  toDecidableEq := inferInstance

/-- `INIT_CAP`. -/
def initCap : Nat := 16

/-! ## §1. The queue. -/

/-- `Queue`: `data` with its `cap`, `head` and `len`. -/
abbrev Queue := Circular.Buffer Int64

/-- `tk_queue_new`.  What the cells of a new block hold is not known: `junk`. -/
def tkQueueNew (junk : Int64) : Queue := .fresh initCap junk (by decide)

/-- `queue_grow`. -/
def queueGrow (junk : Int64) (q : Queue) : Queue := q.relocate (q.cap * 2) junk (by omega)

theorem queueGrow_room (junk : Int64) (q : Queue) :
    (queueGrow junk q).len < (queueGrow junk q).cap := by
  have hpos := q.cap_pos
  have hlen : q.len ≤ q.cap := q.len_le
  have hcap : (queueGrow junk q).cap = q.cap * 2 := q.cap_relocate _ _ _
  show q.len < (queueGrow junk q).cap
  omega

/-- `tk_queue_push`. -/
def tkQueuePush (junk : Int64) (q : Queue) (val : Int64) : Queue :=
  if h : q.len = q.cap then (queueGrow junk q).store val (queueGrow_room junk q)
  else q.store val (Nat.lt_of_le_of_ne q.len_le h)

/-- `tk_queue_pop`. -/
def tkQueuePop (q : Queue) : Int64 × Queue :=
  if q.len = 0 then (0, q) else (q.nth 0, q.advance)

/-- `tk_queue_peek`. -/
def tkQueuePeek (q : Queue) : Int64 := if q.len = 0 then 0 else q.nth 0

/-- `tk_queue_len`. -/
def tkQueueLen (q : Queue) : Int64 := Int64.ofNat q.len

/-- The calls on a queue. -/
inductive QueueOp where
  | push (val : Int64)
  | pop
  | peek
  | len
  deriving Repr, DecidableEq

/-- One call on the queue behind the handle `qh`: the result, and the queue. -/
def QueueOp.exec (junk qh : Int64) : QueueOp → Queue → Int64 × Queue
  | .push val, q => (qh, tkQueuePush junk q val)
  | .pop, q => tkQueuePop q
  | .peek, q => (tkQueuePeek q, q)
  | .len, q => (tkQueueLen q, q)

/-- The results of a sequence of calls. -/
def queueRun (junk qh : Int64) : List QueueOp → Queue → List Int64
  | [], _ => []
  | op :: ops, q => (op.exec junk qh q).1 :: queueRun junk qh ops (op.exec junk qh q).2

/-- The same call on a list: in at the back, out at the front, 0 when there
is nothing. -/
def QueueOp.onList (qh : Int64) : QueueOp → List Int64 → Int64 × List Int64
  | .push val, l => (qh, l ++ [val])
  | .pop, l => (l.headD 0, l.tail)
  | .peek, l => (l.headD 0, l)
  | .len, l => (Int64.ofNat l.length, l)

/-- The results of the calls on a list. -/
def listRun (qh : Int64) : List QueueOp → List Int64 → List Int64
  | [], _ => []
  | op :: ops, l => (op.onList qh l).1 :: listRun qh ops (op.onList qh l).2

theorem contents_push (junk : Int64) (q : Queue) (val : Int64) :
    (tkQueuePush junk q val).contents = q.contents ++ [val] := by
  unfold tkQueuePush
  split
  · rw [Circular.Buffer.contents_store, queueGrow, Circular.Buffer.contents_relocate]
  · rw [Circular.Buffer.contents_store]

theorem contents_eq_nil {q : Queue} (h : q.len = 0) : q.contents = [] :=
  List.eq_nil_of_length_eq_zero (by rw [q.length_contents, h])

/-- One call does to the ring what it does to the list of its elements. -/
theorem QueueOp.exec_contents (junk qh : Int64) (op : QueueOp) (q : Queue) :
    ((op.exec junk qh q).1, (op.exec junk qh q).2.contents) = op.onList qh q.contents := by
  cases op with
  | push val => rw [QueueOp.exec, QueueOp.onList, contents_push]
  | pop =>
    show ((tkQueuePop q).1, (tkQueuePop q).2.contents) = (q.contents.headD 0, q.contents.tail)
    unfold tkQueuePop
    split
    · next h => rw [contents_eq_nil h]; rfl
    · next h => rw [q.contents_eq_cons h]; rfl
  | peek =>
    show (tkQueuePeek q, q.contents) = (q.contents.headD 0, q.contents)
    unfold tkQueuePeek
    split
    · next h => rw [contents_eq_nil h]; rfl
    · next h => rw [q.contents_eq_cons h]; rfl
  | len =>
    show (tkQueueLen q, q.contents) = (Int64.ofNat q.contents.length, q.contents)
    rw [q.length_contents]
    rfl

theorem queueRun_eq (junk qh : Int64) (ops : List QueueOp) (q : Queue) :
    queueRun junk qh ops q = listRun qh ops q.contents := by
  induction ops generalizing q with
  | nil => rfl
  | cons op ops ih =>
    have hstep := op.exec_contents junk qh q
    rw [queueRun, listRun, ← hstep, ih]

/-- **The queue is a FIFO**: on a new queue every sequence of calls gives the
results that it gives on a list. -/
theorem tkQueue_fifo (junk qh : Int64) (ops : List QueueOp) :
    queueRun junk qh ops (tkQueueNew junk) = listRun qh ops [] :=
  queueRun_eq junk qh ops (tkQueueNew junk)

/-! ## §2. The set. -/

/-- `Set`: the block behind `data`, and the fields `len` and `cap`.  Only the
first `len` words of the block are in use. -/
structure TkSet where
  data : List Int64
  len : Nat
  cap : Nat
  deriving Repr, DecidableEq

namespace TkSet

/-- `tk_set_new`; the words of the new block are not known. -/
def tkSetNew (junk : Int64) : TkSet := ⟨List.replicate initCap junk, 0, initCap⟩

/-- `set_bsearch`.  Here and below `none` is an access outside the block. -/
def setBsearch (s : TkSet) (val : Int64) : Option (Nat × Bool) :=
  Bisecting.bisect s.data val s.len 0 s.len

/-- `realloc` of a full set to twice its capacity: the old words stay in front. -/
def ensureCapacity (junk : Int64) (s : TkSet) : TkSet :=
  if s.len = s.cap then
    { s with
      data := s.data.take (s.cap * 2) ++ List.replicate (s.cap * 2 - s.data.length) junk
      cap := s.cap * 2 }
  else s

/-- `tk_set_add`; `memmove` opens a gap at the index. -/
def tkSetAdd (junk : Int64) (s : TkSet) (val : Int64) : Option TkSet :=
  (s.setBsearch val).bind fun r =>
    if r.2 then some s
    else
      let s := s.ensureCapacity junk
      (Bisecting.insertWord s.data s.len r.1 val).map fun data => { s with data, len := s.len + 1 }

/-- `tk_set_has`. -/
def tkSetHas (s : TkSet) (val : Int64) : Option Int64 :=
  (s.setBsearch val).map fun r => if r.2 then 1 else 0

/-- `tk_set_remove`; `memmove` closes the gap. -/
def tkSetRemove (s : TkSet) (val : Int64) : Option TkSet :=
  (s.setBsearch val).bind fun r =>
    if r.2 then
      (Bisecting.deleteWord s.data s.len r.1).map fun data => { s with data, len := s.len - 1 }
    else some s

/-- `tk_set_len`. -/
def tkSetLen (s : TkSet) : Int64 := Int64.ofNat s.len

/-- The words in use. -/
def used (s : TkSet) : List Int64 := s.data.take s.len

end TkSet

open List TkSet

/-- The calls on a set. -/
inductive SetOp where
  | add (val : Int64)
  | remove (val : Int64)
  | has (val : Int64)
  | len
  deriving Repr, DecidableEq

/-- One call on the set behind the handle `sh`: the result, and the set. -/
def SetOp.exec (junk sh : Int64) : SetOp → TkSet → Option (Int64 × TkSet)
  | .add val, s => (s.tkSetAdd junk val).map (sh, ·)
  | .remove val, s => (s.tkSetRemove val).map (sh, ·)
  | .has val, s => (s.tkSetHas val).map (·, s)
  | .len, s => some (s.tkSetLen, s)

/-- The same call on a finite set. -/
def SetOp.onFinset (sh : Int64) : SetOp → Finset Int64 → Int64 × Finset Int64
  | .add val, f => (sh, insert val f)
  | .remove val, f => (sh, f.erase val)
  | .has val, f => (if val ∈ f then 1 else 0, f)
  | .len, f => (Int64.ofNat f.card, f)

/-- The results of a sequence of calls and the set at the end. -/
def setRun (junk sh : Int64) : List SetOp → TkSet → Option (List Int64 × TkSet)
  | [], s => some ([], s)
  | op :: ops, s =>
    (op.exec junk sh s).bind fun r => (setRun junk sh ops r.2).map fun q => (r.1 :: q.1, q.2)

/-- The results of the same calls on a finite set. -/
def finsetRun (sh : Int64) : List SetOp → Finset Int64 → List Int64
  | [], _ => []
  | op :: ops, f => (op.onFinset sh f).1 :: finsetRun sh ops (op.onFinset sh f).2

/-- The block has `cap` words and holds the strictly increasing list `xs` in
front. -/
structure TkSet.Holds (s : TkSet) (xs : List Int64) : Prop where
  len : s.len = xs.length
  front : ∃ tail, s.data = xs ++ tail
  block : s.data.length = s.cap
  capPos : 0 < s.cap
  increasing : Bisecting.Increasing xs

namespace TkSet.Holds

variable {s : TkSet} {xs : List Int64}

theorem used_eq (h : s.Holds xs) : s.used = xs := by
  obtain ⟨tail, hdata⟩ := h.front
  rw [used, hdata, h.len, take_left]

/-- The search stays in the block: where the value is, or where it goes. -/
theorem search (h : s.Holds xs) (val : Int64) :
    (∃ idx, s.setBsearch val = some (idx, true) ∧ xs[idx]? = some val) ∨
      ∃ idx, s.setBsearch val = some (idx, false) ∧ Bisecting.Gap xs val idx := by
  obtain ⟨tail, hdata⟩ := h.front
  obtain ⟨⟨idx, found⟩, hr, hloc⟩ := Bisecting.bisect_all h.increasing tail val
  rw [← hdata, ← h.len] at hr
  cases found with
  | true => exact Or.inl ⟨idx, hr, hloc⟩
  | false => exact Or.inr ⟨idx, hr, hloc⟩

/-- After `ensureCapacity` the block has a word behind the list. -/
theorem ensureCapacity (h : s.Holds xs) (junk : Int64) :
    (s.ensureCapacity junk).Holds xs ∧ (s.ensureCapacity junk).len < (s.ensureCapacity junk).cap := by
  obtain ⟨tail, hdata⟩ := h.front
  have hlen := h.len
  have hblock := h.block
  have hpos := h.capPos
  have hsize : s.data.length = xs.length + tail.length := by rw [hdata, length_append]
  unfold TkSet.ensureCapacity
  by_cases hfull : s.len = s.cap
  · rw [if_pos hfull]
    have hwhole : s.data.take (s.cap * 2) = s.data := take_of_length_le (by omega)
    refine ⟨⟨hlen, ⟨tail ++ replicate (s.cap * 2 - s.data.length) junk, ?_⟩, ?_, ?_, h.increasing⟩, ?_⟩
    · rw [hwhole, hdata, append_assoc]
    · show (s.data.take (s.cap * 2) ++ replicate (s.cap * 2 - s.data.length) junk).length = s.cap * 2
      rw [hwhole, length_append, length_replicate]
      omega
    · show 0 < s.cap * 2
      omega
    · show s.len < s.cap * 2
      omega
  · rw [if_neg hfull]
    exact ⟨h, by omega⟩

/-- A value that is not there goes to its place, after the block has grown if
it was full. -/
theorem add (h : s.Holds xs) (junk : Int64) {val : Int64} {idx : Nat}
    (hr : s.setBsearch val = some (idx, false)) (hgap : Bisecting.Gap xs val idx) :
    ∃ s', s.tkSetAdd junk val = some s' ∧ s'.Holds (Bisecting.insertAt xs idx val) := by
  obtain ⟨hgrown, hroom⟩ := h.ensureCapacity junk
  unfold tkSetAdd
  rw [hr, Option.bind_some, if_neg Bool.false_ne_true]
  dsimp only
  generalize s.ensureCapacity junk = t at hgrown hroom ⊢
  obtain ⟨tail, hdata⟩ := hgrown.front
  have hblock := hgrown.block
  have hlen := hgrown.len
  rw [hdata, length_append] at hblock
  cases tail with
  | nil => rw [length_nil] at hblock; omega
  | cons y tail =>
    have hcount : (Bisecting.insertAt xs idx val).length = xs.length + 1 := by
      have hle := hgap.le
      rw [Bisecting.insertAt, length_append, length_cons, length_take, length_drop]
      omega
    rw [hdata, hlen, Bisecting.insertWord_eq xs tail y val hgap.le, Option.map_some]
    refine ⟨_, rfl, hcount.symm, ⟨tail, rfl⟩, ?_, hgrown.capPos,
      Bisecting.increasing_insertAt hgrown.increasing hgap⟩
    show (Bisecting.insertAt xs idx val ++ tail).length = t.cap
    rw [length_append, hcount, ← hblock, length_cons]
    omega

/-- A value that is there is taken out. -/
theorem remove (h : s.Holds xs) {val : Int64} {idx : Nat}
    (hr : s.setBsearch val = some (idx, true)) (hat : xs[idx]? = some val) :
    ∃ s', s.tkSetRemove val = some s' ∧ s'.Holds (Bisecting.deleteAt xs idx) := by
  obtain ⟨tail, hdata⟩ := h.front
  obtain ⟨hidx, -⟩ := List.getElem?_eq_some_iff.mp hat
  obtain ⟨y, hdelete⟩ := Bisecting.deleteWord_eq xs tail hidx
  have hcount : (Bisecting.deleteAt xs idx).length = xs.length - 1 := by
    rw [Bisecting.deleteAt, length_append, length_take, length_drop]
    omega
  have hblock := h.block
  unfold tkSetRemove
  rw [hr, Option.bind_some, if_pos rfl, hdata, h.len, hdelete, Option.map_some]
  refine ⟨_, rfl, hcount.symm, ⟨y :: tail, rfl⟩, ?_, h.capPos,
    Bisecting.increasing_deleteAt h.increasing idx⟩
  show (Bisecting.deleteAt xs idx ++ y :: tail).length = s.cap
  rw [← hblock, hdata, length_append, length_append, hcount, length_cons]
  omega

/-- One call stays in the block, and does to the list what it does to the set
of its elements. -/
theorem exec (h : s.Holds xs) (junk sh : Int64) (op : SetOp) :
    ∃ s' ys, op.exec junk sh s = some ((op.onFinset sh xs.toFinset).1, s') ∧ s'.Holds ys ∧
      ys.toFinset = (op.onFinset sh xs.toFinset).2 := by
  cases op with
  | add val =>
    rcases h.search val with ⟨idx, hr, hat⟩ | ⟨idx, hr, hgap⟩
    · refine ⟨s, xs, ?_, h, ?_⟩
      · show (s.tkSetAdd junk val).map (sh, ·) = some (sh, s)
        rw [tkSetAdd, hr]
        rfl
      · exact (Finset.insert_eq_of_mem (mem_toFinset.mpr (mem_of_getElem? hat))).symm
    · obtain ⟨s', hadd, hs'⟩ := h.add junk hr hgap
      refine ⟨s', _, ?_, hs', Bisecting.toFinset_insertAt xs idx val⟩
      show (s.tkSetAdd junk val).map (sh, ·) = some (sh, s')
      rw [hadd]
      rfl
  | remove val =>
    rcases h.search val with ⟨idx, hr, hat⟩ | ⟨idx, hr, hgap⟩
    · obtain ⟨s', hremove, hs'⟩ := h.remove hr hat
      refine ⟨s', _, ?_, hs', Bisecting.toFinset_deleteAt h.increasing hat⟩
      show (s.tkSetRemove val).map (sh, ·) = some (sh, s')
      rw [hremove]
      rfl
    · refine ⟨s, xs, ?_, h, ?_⟩
      · show (s.tkSetRemove val).map (sh, ·) = some (sh, s)
        rw [tkSetRemove, hr]
        rfl
      · exact (Finset.erase_eq_of_notMem fun hmem => hgap.notMem (mem_toFinset.mp hmem)).symm
  | has val =>
    refine ⟨s, xs, ?_, h, rfl⟩
    show (s.tkSetHas val).map (·, s) = some (if val ∈ xs.toFinset then 1 else 0, s)
    rw [tkSetHas]
    rcases h.search val with ⟨idx, hr, hat⟩ | ⟨idx, hr, hgap⟩
    · rw [hr, if_pos (mem_toFinset.mpr (mem_of_getElem? hat))]
      rfl
    · rw [hr, if_neg fun hmem => hgap.notMem (mem_toFinset.mp hmem)]
      rfl
  | len =>
    refine ⟨s, xs, ?_, h, rfl⟩
    show some (s.tkSetLen, s) = some (Int64.ofNat xs.toFinset.card, s)
    rw [tkSetLen, h.len, Bisecting.card_toFinset h.increasing]

/-- A whole run, call by call. -/
theorem run (h : s.Holds xs) (junk sh : Int64) (ops : List SetOp) :
    ∃ s' ys, setRun junk sh ops s = some (finsetRun sh ops xs.toFinset, s') ∧ s'.Holds ys := by
  induction ops generalizing s xs with
  | nil => exact ⟨s, xs, rfl, h⟩
  | cons op ops ih =>
    obtain ⟨s₁, ys, hexec, hs₁, hset⟩ := h.exec junk sh op
    obtain ⟨s', zs, hrun, hs'⟩ := ih hs₁
    refine ⟨s', zs, ?_, hs'⟩
    rw [setRun, hexec, Option.bind_some, hrun, hset]
    rfl

end TkSet.Holds

/-- A new set is empty. -/
theorem tkSetNew_holds (junk : Int64) : (tkSetNew junk).Holds [] where
  len := rfl
  front := ⟨_, rfl⟩
  block := length_replicate
  capPos := Nat.succ_pos 15
  increasing := List.Pairwise.nil

/-- **The set is a set**: every sequence of calls on a new set stays inside the
block, leaves the words in use strictly increasing, and gives the results it
gives on a finite set. -/
theorem tkSet_finset (junk sh : Int64) (ops : List SetOp) :
    ∃ s, setRun junk sh ops (tkSetNew junk) = some (finsetRun sh ops ∅, s) ∧
      s.data.length = s.cap ∧ s.len ≤ s.cap ∧ s.used.Pairwise (· < ·) := by
  obtain ⟨s, xs, hrun, hs⟩ := (tkSetNew_holds junk).run junk sh ops
  refine ⟨s, hrun, hs.block, ?_, ?_⟩
  · obtain ⟨tail, hdata⟩ := hs.front
    have hlen := hs.len
    have hblock := hs.block
    rw [hdata, length_append] at hblock
    omega
  · rw [hs.used_eq]
    exact hs.increasing

/-! ## §3. The slice of an array. -/

/-- An array block: reference count, capacity and the elements.  The block is
in memory, so its size in bytes is below `2^63`. -/
structure TkArr where
  rc : Nat
  cap : Nat
  data : List Int64
  fits : data.length < 2 ^ 60

/-- The elements behind a handle; `NULL` has none. -/
def elements (arr : Option TkArr) : List Int64 := (arr.map (·.data)).getD []

theorem elements_length (arr : Option TkArr) : (elements arr).length < 2 ^ 60 := by
  cases arr with
  | none => decide
  | some a => exact a.fits

/-- `tk_arr_alloc(n, n)` filled with `n` words. -/
def tkArrAlloc (words : List Int64) (h : words.length < 2 ^ 60) : TkArr :=
  ⟨1, words.length, words, h⟩

/-- A signed subtraction; `none` is an overflow, whose outcome is undefined. -/
def sub64 (a b : Int) : Option Int :=
  if -2 ^ 63 ≤ a - b ∧ a - b < 2 ^ 63 then some (a - b) else none

/-- `start` after its two clamps. -/
def sliceStart (arr : Option TkArr) (start : Int64) : Int :=
  let start := if start.toInt < 0 then 0 else start.toInt
  if start > (elements arr).length then (elements arr).length else start

/-- `end_` after its clamp. -/
def sliceEnd (arr : Option TkArr) (end_ : Int64) : Int :=
  if end_.toInt > (elements arr).length then (elements arr).length else end_.toInt

/-- `tk_arr_slice_w`: the number of words is the checked difference, then the
words from `start` on are copied. -/
def tkArrSliceW (arr : Option TkArr) (start end_ : Int64) : Option TkArr :=
  (sub64 (sliceEnd arr end_) (sliceStart arr start)).map fun n =>
    let n := if n < 0 then 0 else n
    tkArrAlloc (((elements arr).drop (sliceStart arr start).toNat).take n.toNat)
      (Nat.lt_of_le_of_lt (by
        rw [List.length_take, List.length_drop]
        omega) (elements_length arr))

/-- The elements whose index `i` has `max(start,0) <= i < min(end,len)`. -/
def clampedSlice (l : List Int64) (start end_ : Int) : List Int64 :=
  (l.zipIdx.filter fun p => max start 0 ≤ (p.2 : Int) ∧ (p.2 : Int) < min end_ l.length).map
    (·.1)

/-- The elements with an index in `[a, b)` are a stretch of the list. -/
theorem filter_zipIdx (l : List Int64) (k a b : Nat) :
    ((l.zipIdx k).filter fun p => a ≤ p.2 ∧ p.2 < b).map (·.1)
      = (l.drop (a - k)).take (b - max a k) := by
  induction l generalizing k with
  | nil => simp
  | cons x l ih =>
    rw [zipIdx_cons, filter_cons]
    by_cases hk : a ≤ k
    · have hdrop : a - k = 0 := by omega
      have hdrop' : a - (k + 1) = 0 := by omega
      by_cases hb : k < b
      · -- the head is inside
        obtain ⟨m, hm⟩ : ∃ m, b - max a k = m + 1 := ⟨b - k - 1, by omega⟩
        have hm' : b - max a (k + 1) = m := by omega
        rw [if_pos (by simp [hk, hb]), map_cons, ih, hdrop, hdrop', hm, hm']
        rfl
      · have hm : b - max a k = 0 := by omega
        have hm' : b - max a (k + 1) = 0 := by omega
        rw [if_neg (by simp [hb]), ih, hm, hm', take_zero, take_zero]
    · -- the head is before the stretch
      obtain ⟨m, hm⟩ : ∃ m, a - k = m + 1 := ⟨a - k - 1, by omega⟩
      have hm' : a - (k + 1) = m := by omega
      have hmax : max a (k + 1) = max a k := by omega
      rw [if_neg (by simp [hk]), ih, hm, hm', hmax]
      rfl

theorem sliceStart_eq (arr : Option TkArr) (start : Int64) :
    sliceStart arr start = min (max start.toInt 0) (elements arr).length := by
  unfold sliceStart
  dsimp only
  split <;> split <;> omega

theorem sliceEnd_eq (arr : Option TkArr) (end_ : Int64) :
    sliceEnd arr end_ = min end_.toInt (elements arr).length := by
  unfold sliceEnd
  split <;> omega

/-- Without an overflow the words copied are the clamped slice. -/
theorem clampedSlice_eq (arr : Option TkArr) (start end_ : Int64) :
    clampedSlice (elements arr) start.toInt end_.toInt
      = ((elements arr).drop (sliceStart arr start).toNat).take
          (sliceEnd arr end_ - sliceStart arr start).toNat := by
  rw [sliceStart_eq, sliceEnd_eq]
  generalize elements arr = l
  have hfilter := filter_zipIdx l 0 (max start.toInt 0).toNat (min end_.toInt l.length).toNat
  have hpred : ∀ p : Int64 × Nat,
      decide (max start.toInt 0 ≤ (p.2 : Int) ∧ (p.2 : Int) < min end_.toInt l.length)
        = decide ((max start.toInt 0).toNat ≤ p.2 ∧ p.2 < (min end_.toInt l.length).toNat) := by
    intro p
    refine decide_eq_decide.mpr ?_
    omega
  unfold clampedSlice
  rw [filter_congr fun p _ => hpred p, hfilter, Nat.sub_zero]
  by_cases hin : max start.toInt 0 ≤ l.length
  · rw [min_eq_left hin]
    congr 1
    omega
  · -- a start behind the end: nothing is left to take
    have hlen : l.length ≤ (max start.toInt 0).toNat := by omega
    have hz : (min end_.toInt l.length - min (max start.toInt 0) l.length).toNat = 0 := by omega
    rw [drop_eq_nil_of_le hlen, take_nil, hz, take_zero]

/-- **When the slice is the clamped slice**: exactly if the difference of the
clamped bounds is a 64-bit integer. -/
theorem tkArrSliceW_clamped_iff (arr : Option TkArr) (start end_ : Int64) :
    (tkArrSliceW arr start end_).map (·.data)
        = some (clampedSlice (elements arr) start.toInt end_.toInt)
      ↔ -2 ^ 63 + min (max start.toInt 0) (elements arr).length ≤ end_.toInt := by
  have hlen := elements_length arr
  -- only the lower end of the range can be missed
  have hrange : (-2 ^ 63 ≤ sliceEnd arr end_ - sliceStart arr start ∧
      sliceEnd arr end_ - sliceStart arr start < 2 ^ 63) ↔
      -2 ^ 63 + min (max start.toInt 0) (elements arr).length ≤ end_.toInt := by
    rw [sliceStart_eq, sliceEnd_eq]
    omega
  unfold tkArrSliceW sub64
  by_cases h : -2 ^ 63 ≤ sliceEnd arr end_ - sliceStart arr start ∧
      sliceEnd arr end_ - sliceStart arr start < 2 ^ 63
  · rw [if_pos h, clampedSlice_eq]
    refine iff_of_true ?_ (hrange.mp h)
    show some (take _ _) = _
    congr 2
    split <;> omega
  · rw [if_neg h]
    exact iff_of_false (by simp) fun hc => h (hrange.mpr hc)

/-- A slice from index 1 to the smallest 64-bit integer is empty, but the
difference of its bounds overflows. -/
theorem slice_overflows : clampedSlice [7] (1 : Int64).toInt Int64.minValue.toInt = [] ∧
      tkArrSliceW (some (tkArrAlloc [7] (by decide))) 1 Int64.minValue = none := by decide

end Toke.Runtime
