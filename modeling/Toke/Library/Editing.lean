/-
  Editing — **SIMULTANEOUS REPLACEMENT OF SPANS IN A BUFFER.**

  An edit replaces the span `[start, stop)` of a buffer.  `replace` performs a
  list of edits, in ascending order and without overlap, at once: every offset
  means the original buffer.  Two ways to get there are related to it: splicing
  one edit after the other from the right (`splice_replace`), and the sorts that
  bring edits into order.
-/
import Mathlib

namespace Editing

open List

variable {α : Type}

/-! ## §1. Edits. -/

/-- Replace the span `[start, stop)` by `text`. -/
structure Edit (α : Type) where
  start : Nat
  stop : Nat
  text : List α

/-- Each edit ends before the next one starts. -/
def Ascending (es : List (Edit α)) : Prop := es.Pairwise fun a b => a.stop ≤ b.start

/-- The span is one of the buffer. -/
def Edit.Within (buf : List α) (e : Edit α) : Prop := e.start ≤ e.stop ∧ e.stop ≤ buf.length

/-- The buffer from `pos` on, with the edits performed. -/
def replaceFrom (buf : List α) : Nat → List (Edit α) → List α
  | pos, [] => buf.drop pos
  | pos, e :: es => (buf.drop pos).take (e.start - pos) ++ (e.text ++ replaceFrom buf e.stop es)

/-- The buffer with the edits performed. -/
def replace (buf : List α) (es : List (Edit α)) : List α := replaceFrom buf 0 es

/-- Up to the first edit nothing changes. -/
theorem replaceFrom_split (buf : List α) {pos p : Nat} (hp : pos ≤ p) {es : List (Edit α)}
    (hes : ∀ e ∈ es, p ≤ e.start) :
    replaceFrom buf pos es = (buf.drop pos).take (p - pos) ++ replaceFrom buf p es := by
  have hdrop : (buf.drop pos).drop (p - pos) = buf.drop p := by
    rw [drop_drop]
    congr 1
    omega
  cases es with
  | nil =>
    show buf.drop pos = _ ++ buf.drop p
    rw [← hdrop, take_append_drop]
  | cons e es =>
    have he : p ≤ e.start := hes e mem_cons_self
    have hsum : e.start - pos = (p - pos) + (e.start - p) := by omega
    show (buf.drop pos).take (e.start - pos) ++ _
      = (buf.drop pos).take (p - pos) ++ ((buf.drop p).take (e.start - p) ++ _)
    rw [hsum, take_add, hdrop, append_assoc]

/-! ## §2. Splicing from the right. -/

/-- One edit performed in place. -/
def splice (buf : List α) (e : Edit α) : List α :=
  buf.take e.start ++ (e.text ++ buf.drop e.stop)

/-- **Splicing from the right is simultaneous**: offsets to the left of all the
edits performed so far still mean the original buffer. -/
theorem splice_replace {buf : List α} {e : Edit α} {es : List (Edit α)} (he : e.Within buf)
    (hes : ∀ f ∈ es, e.stop ≤ f.start) : splice (replace buf es) e = replace buf (e :: es) := by
  have hsplit := replaceFrom_split buf (Nat.zero_le e.stop) hes
  rw [drop_zero, Nat.sub_zero] at hsplit
  have hlen : (buf.take e.stop).length = e.stop := by
    rw [length_take]
    exact Nat.min_eq_left he.2
  have htake : (buf.take e.stop ++ replaceFrom buf e.stop es).take e.start = buf.take e.start := by
    rw [take_append_of_le_length (by rw [hlen]; exact he.1), take_take, Nat.min_eq_left he.1]
  have hdrop : (buf.take e.stop ++ replaceFrom buf e.stop es).drop e.stop = replaceFrom buf e.stop es :=
    drop_left' hlen
  unfold splice replace
  rw [hsplit, htake, hdrop]
  rfl

/-- What splicing does to the length. -/
theorem length_splice {buf : List α} {e : Edit α} (he : e.Within buf) :
    (splice buf e).length + (e.stop - e.start) = buf.length + e.text.length := by
  unfold splice
  rw [length_append, length_append, length_take, length_drop]
  have h₁ := he.1
  have h₂ := he.2
  omega

/-! ## §3. Exchange sort. -/

section Exchange

variable (lt : α → α → Bool)

/-- One pass: the entry in front meets every later one and is exchanged with it
where `lt` says so. -/
def exchangePass (a : α) : List α → α × List α
  | [] => (a, [])
  | b :: l =>
    if lt a b then ((exchangePass b l).1, a :: (exchangePass b l).2)
    else ((exchangePass a l).1, b :: (exchangePass a l).2)

/-- The sort, for lists of length `n`. -/
def exchangeSort : Nat → List α → List α
  | _, [] => []
  | 0, l => l
  | n + 1, a :: l => (exchangePass lt a l).1 :: exchangeSort n (exchangePass lt a l).2

theorem exchangePass_perm (a : α) (l : List α) :
    ((exchangePass lt a l).1 :: (exchangePass lt a l).2).Perm (a :: l) := by
  induction l generalizing a with
  | nil => exact List.Perm.refl _
  | cons b l ih =>
    unfold exchangePass
    split
    · exact (List.Perm.swap a _ _).trans ((ih b).cons a)
    · exact (List.Perm.swap b _ _).trans (((ih a).cons b).trans (List.Perm.swap a b l))

theorem exchangeSort_perm : ∀ (n : Nat) (l : List α), (exchangeSort lt n l).Perm l
  | _, [] => by
    unfold exchangeSort
    exact List.Perm.refl _
  | 0, _ :: _ => List.Perm.refl _
  | n + 1, a :: l =>
    ((exchangeSort_perm n (exchangePass lt a l).2).cons _).trans (exchangePass_perm lt a l)

variable {K : Type} [LinearOrder K] (key : α → K) (hlt : ∀ a b, lt a b = true ↔ key a < key b)

include hlt

/-- The pass brings a greatest entry to the front. -/
theorem exchangePass_max (a : α) (l : List α) :
    ∀ x ∈ a :: l, key x ≤ key (exchangePass lt a l).1 := by
  induction l generalizing a with
  | nil =>
    intro x hx
    rw [mem_singleton.mp hx]
    exact le_refl _
  | cons b l ih =>
    intro x hx
    unfold exchangePass
    split
    · next hab =>
      have hb := ih b b mem_cons_self
      rcases mem_cons.mp hx with rfl | hx
      · exact le_trans (le_of_lt ((hlt _ _).mp hab)) hb
      · exact ih b x hx
    · next hab =>
      have ha := ih a a mem_cons_self
      rcases mem_cons.mp hx with rfl | hx
      · exact ha
      · rcases mem_cons.mp hx with rfl | hx
        · exact le_trans (not_lt.mp fun h => hab ((hlt _ _).mpr h)) ha
        · exact ih a x (mem_cons_of_mem a hx)

/-- **The sort is descending.** -/
theorem exchangeSort_descending : ∀ (n : Nat) (l : List α), l.length ≤ n →
    (exchangeSort lt n l).Pairwise fun a b => key b ≤ key a
  | _, [], _ => by
    unfold exchangeSort
    exact List.Pairwise.nil
  | 0, a :: l, h => absurd h (Nat.not_succ_le_zero _)
  | n + 1, a :: l, h => by
    have hperm := exchangePass_perm lt a l
    have hlen : (exchangePass lt a l).2.length ≤ n := by
      have := hperm.length_eq
      simp only [length_cons] at this h
      omega
    refine List.Pairwise.cons ?_ (exchangeSort_descending n _ hlen)
    intro x hx
    have hrest : x ∈ (exchangePass lt a l).2 := (exchangeSort_perm lt n _).mem_iff.mp hx
    exact exchangePass_max lt key hlt a l x (hperm.mem_iff.mp (mem_cons_of_mem _ hrest))

end Exchange

/-! ## §4. Insertion sort. -/

section Insertion

variable (key : α → Nat)

/-- Insert `v` behind everything that is not greater; the list is kept with its
last element first. -/
def insertBack (v : α) : List α → List α
  | [] => [v]
  | x :: l => if key x > key v then x :: insertBack v l else v :: x :: l

/-- The stable sort by insertion from the left. -/
def insertionSort (l : List α) : List α := (l.foldl (fun r v => insertBack key v r) []).reverse

theorem insertBack_perm (v : α) (l : List α) : (insertBack key v l).Perm (v :: l) := by
  induction l with
  | nil => exact List.Perm.refl _
  | cons x l ih =>
    unfold insertBack
    split
    · exact (ih.cons x).trans (List.Perm.swap v x l)
    · exact List.Perm.refl _

theorem foldl_insertBack_perm (l : List α) : ∀ r : List α,
    (l.foldl (fun r v => insertBack key v r) r).Perm (l ++ r) := by
  induction l with
  | nil => exact fun r => List.Perm.refl r
  | cons v l ih =>
    intro r
    exact (ih _).trans (((insertBack_perm key v r).append_left l).trans perm_middle)

theorem insertionSort_perm (l : List α) : (insertionSort key l).Perm l := by
  have h := foldl_insertBack_perm key l []
  rw [append_nil] at h
  exact (reverse_perm _).trans h

theorem insertBack_sorted (v : α) {l : List α} (h : l.Pairwise fun a b => key b ≤ key a) :
    (insertBack key v l).Pairwise fun a b => key b ≤ key a := by
  induction l with
  | nil => exact pairwise_singleton _ _
  | cons x l ih =>
    obtain ⟨hx, hl⟩ := pairwise_cons.mp h
    unfold insertBack
    split
    · next hgt =>
      refine List.Pairwise.cons (fun y hy => ?_) (ih hl)
      rcases mem_cons.mp ((insertBack_perm key v l).mem_iff.mp hy) with rfl | hy
      · omega
      · exact hx y hy
    · next hle =>
      refine List.Pairwise.cons (fun y hy => ?_) h
      rcases mem_cons.mp hy with rfl | hy
      · omega
      · have := hx y hy
        omega

theorem insertionSort_sorted (l : List α) :
    (insertionSort key l).Pairwise fun a b => key a ≤ key b := by
  refine pairwise_reverse.mpr ?_
  exact foldlRecOn l _ List.Pairwise.nil fun r hr v _ => insertBack_sorted key v hr

variable {R : α → α → Prop} (hR : ∀ a b, key a ≠ key b → R a b)

include hR

/-- Inserting passes only entries with another key. -/
theorem insertBack_pairwise (v : α) (l : List α) :
    ((insertBack key v l).Pairwise fun a b => R b a) ↔ (v :: l).Pairwise fun a b => R b a := by
  induction l with
  | nil => exact Iff.rfl
  | cons x l ih =>
    unfold insertBack
    split
    · next hgt =>
      have hxv : R x v := hR x v (by omega)
      have hvx : R v x := hR v x (by omega)
      have hmem : (∀ y ∈ insertBack key v l, R y x) ↔ ∀ y ∈ l, R y x := by
        constructor
        · exact fun h y hy => h y ((insertBack_perm key v l).mem_iff.mpr (mem_cons_of_mem v hy))
        · intro h y hy
          rcases mem_cons.mp ((insertBack_perm key v l).mem_iff.mp hy) with rfl | hy
          · exact hvx
          · exact h y hy
      simp only [pairwise_cons, ih, mem_cons, forall_eq_or_imp]
      tauto
    · exact Iff.rfl

/-- **Stability**: a relation between entries of one key holds in the sorted list
exactly when it holds in the list as it was. -/
theorem insertionSort_pairwise (l : List α) : (insertionSort key l).Pairwise R ↔ l.Pairwise R := by
  have hfold : ∀ (l r : List α), ((l.foldl (fun r v => insertBack key v r) r).Pairwise fun a b => R b a) ↔
      (r.reverse ++ l).Pairwise R := by
    intro l
    induction l with
    | nil =>
      intro r
      rw [append_nil, pairwise_reverse]
      rfl
    | cons v l ih =>
      intro r
      have hperm := insertBack_perm key v r
      have hhead : (insertBack key v r).reverse.Pairwise R ↔ (r.reverse ++ [v]).Pairwise R := by
        rw [pairwise_reverse, insertBack_pairwise key hR v r, ← reverse_cons, pairwise_reverse]
      have hmem : ∀ x, x ∈ (insertBack key v r).reverse ↔ x ∈ r.reverse ++ [v] := by
        intro x
        rw [mem_reverse, hperm.mem_iff, ← reverse_cons, mem_reverse]
      have hsplit : (r.reverse ++ v :: l).Pairwise R ↔ (r.reverse ++ [v]).Pairwise R ∧
          l.Pairwise R ∧ ∀ a ∈ r.reverse ++ [v], ∀ b ∈ l, R a b := by
        rw [show r.reverse ++ v :: l = (r.reverse ++ [v]) ++ l by simp]
        exact pairwise_append
      rw [foldl_cons, ih, pairwise_append, hhead, hsplit]
      simp only [hmem]
  have h := hfold l []
  unfold insertionSort
  rw [pairwise_reverse]
  exact h

end Insertion

end Editing
