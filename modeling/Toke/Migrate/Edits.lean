/-
  Toke.Migrate.Edits — **`mig_apply_edits`, THE OTHER EDIT ENGINE** (`migrate.c`).

  The edits are sorted by their offset alone and copied from left to right; an
  edit that starts before the end of the one before it is dropped.  The sort is
  stable, so of an insertion and a deletion at one offset the one that comes
  first in the list is taken first, and the insertion is dropped when it comes
  second.

    `copy_run`             — all edits are copied exactly when they ascend
    `appliesAll_iff`       — which lists of disjoint edits are applied as a whole
    `engines_simultaneous` — both engines
-/
import Toke.Lint.Edits

namespace Toke.Migrate

open List

open Editing (Edit)

/-! ## §1. The engine. -/

/-- `MigEdit`: delete `del` bytes at `off`, insert `dyn` there, or `ins`. -/
structure MigEdit where
  off : Nat
  del : Nat
  ins : List Char
  dyn : Option (List Char)
  deriving DecidableEq

namespace MigEdit

/-- `ed[a].dyn ? ed[a].dyn : ed[a].ins`. -/
def text (e : MigEdit) : List Char := e.dyn.getD e.ins

/-- The edit it stands for. -/
def edit (e : MigEdit) : Edit Char := ⟨e.off, e.off + e.del, e.text⟩

/-- Two spans without a byte in common, neither of which lies inside the other. -/
def Disjoint (a b : MigEdit) : Prop := a.off + a.del ≤ b.off ∨ b.off + b.del ≤ a.off

end MigEdit

/-- The variables of the copying loop: `nb`, `w`, `prev` and `done`. -/
structure Copying where
  nb : List Char
  w : Nat
  prev : Nat
  done : Nat
  deriving DecidableEq

/-- One turn of the copying loop. -/
def Copying.turn (buf : List Char) (st : Copying) (e : MigEdit) : Copying :=
  if e.off < st.prev ∨ e.off + e.del > buf.length then st
  else
    { nb := st.nb ++ ((buf.drop st.prev).take (e.off - st.prev) ++ e.text)
      w := st.w + (e.off - st.prev) + e.text.length
      prev := e.off + e.del
      done := st.done + 1 }

/-- The text, the length reported with it, and the number of edits applied. -/
structure Migrated where
  text : List Char
  len : Nat
  done : Nat
  deriving DecidableEq

/-- `mig_apply_edits`. -/
def migApplyEdits (buf : List Char) (ed : List MigEdit) : Migrated :=
  if ed = [] then ⟨buf, buf.length, 0⟩
  else
    let st := (Editing.insertionSort MigEdit.off ed).foldl (Copying.turn buf) ⟨[], 0, 0, 0⟩
    if st.done = 0 then ⟨buf, buf.length, 0⟩
    else ⟨st.nb ++ buf.drop st.prev, st.w + (buf.length - st.prev), st.done⟩

/-! ## §2. The copying loop. -/

section Copy

variable {buf : List Char}

theorem Copying.turn_done_le (buf : List Char) (st : Copying) (e : MigEdit) :
    (st.turn buf e).done ≤ st.done + 1 := by
  unfold turn
  split
  · exact Nat.le_succ _
  · exact Nat.le_refl _

theorem foldl_done_le (buf : List Char) (l : List MigEdit) : ∀ st : Copying,
    (l.foldl (Copying.turn buf) st).done ≤ st.done + l.length := by
  induction l with
  | nil => exact fun st => Nat.le_refl _
  | cons e l ih =>
    intro st
    have hturn := Copying.turn_done_le buf st e
    have hrest := ih (st.turn buf e)
    rw [foldl_cons, length_cons]
    omega

/-- The end of an edit does not pass the start of the next one. -/
def Ascends (l : List MigEdit) : Prop := l.Pairwise fun a b => a.off + a.del ≤ b.off

/-- **The copying loop.**  Induction on the edits: none is dropped exactly when
they ascend, and then the copy is the text with all of them performed. -/
theorem copy_run (l : List MigEdit) : ∀ st : Copying, (∀ e ∈ l, e.off + e.del ≤ buf.length) →
    ((l.foldl (Copying.turn buf) st).done = st.done + l.length ↔
      (∀ e ∈ l, st.prev ≤ e.off) ∧ Ascends l) ∧
    ((∀ e ∈ l, st.prev ≤ e.off) → Ascends l →
      (l.foldl (Copying.turn buf) st).nb ++ buf.drop (l.foldl (Copying.turn buf) st).prev
        = st.nb ++ Editing.replaceFrom buf st.prev (l.map MigEdit.edit)) := by
  induction l with
  | nil =>
    intro st _
    exact ⟨⟨fun _ => ⟨nofun, List.Pairwise.nil⟩, fun _ => rfl⟩, fun _ _ => rfl⟩
  | cons e l ih =>
    intro st hin
    have hend := hin e mem_cons_self
    have hin' : ∀ f ∈ l, f.off + f.del ≤ buf.length := (forall_mem_cons.mp hin).2
    rw [foldl_cons, length_cons]
    by_cases hprev : st.prev ≤ e.off
    · have hturn : st.turn buf e =
          { nb := st.nb ++ ((buf.drop st.prev).take (e.off - st.prev) ++ e.text)
            w := st.w + (e.off - st.prev) + e.text.length
            prev := e.off + e.del
            done := st.done + 1 } := by
        unfold Copying.turn
        rw [if_neg (by omega)]
      obtain ⟨hdone, htext⟩ := ih (st.turn buf e) hin'
      rw [hturn] at hdone htext ⊢
      dsimp only at hdone htext
      have hpair : ((∀ f ∈ l, e.off + e.del ≤ f.off) ∧ Ascends l) ↔
          ((∀ f ∈ e :: l, st.prev ≤ f.off) ∧ Ascends (e :: l)) := by
        unfold Ascends
        rw [pairwise_cons]
        constructor
        · rintro ⟨hall, hl⟩
          refine ⟨fun f hf => ?_, hall, hl⟩
          rcases mem_cons.mp hf with rfl | hf
          · exact hprev
          · have := hall f hf
            omega
        · exact fun h => h.2
      refine ⟨?_, fun hall hasc => ?_⟩
      · rw [← hpair, ← hdone]
        omega
      · obtain ⟨hall', hasc'⟩ := hpair.mpr ⟨hall, hasc⟩
        rw [htext hall' hasc', append_assoc, append_assoc]
        rfl
    · -- the edit starts inside the one before it and is dropped
      have hturn : st.turn buf e = st := by
        unfold Copying.turn
        rw [if_pos (by omega)]
      have hle := foldl_done_le buf l st
      rw [hturn]
      refine ⟨⟨fun h => by omega, fun h => absurd (h.1 e mem_cons_self) hprev⟩, fun h _ => ?_⟩
      exact absurd (h e mem_cons_self) hprev

/-- The length is counted along. -/
theorem copy_length (l : List MigEdit) : ∀ st : Copying, st.w = st.nb.length → st.prev ≤ buf.length →
    (l.foldl (Copying.turn buf) st).w = (l.foldl (Copying.turn buf) st).nb.length ∧
      (l.foldl (Copying.turn buf) st).prev ≤ buf.length := by
  induction l with
  | nil => exact fun st hw hp => ⟨hw, hp⟩
  | cons e l ih =>
    intro st hw hp
    rw [foldl_cons]
    unfold Copying.turn
    split
    · exact ih st hw hp
    · next hin =>
      refine ih _ ?_ ?_
      · dsimp only
        rw [length_append, length_append, length_take, length_drop]
        omega
      · dsimp only
        omega

end Copy

/-! ## §3. Which lists are applied as a whole. -/

/-- All the edits are applied, at once, and the reported length is that of the
text. -/
structure AppliesAll (buf : List Char) (ed : List MigEdit) : Prop where
  count : (migApplyEdits buf ed).done = ed.length
  text : ∃ es : List MigEdit, es.Perm ed ∧ Editing.Ascending (es.map MigEdit.edit) ∧
    (migApplyEdits buf ed).text = Editing.replace buf (es.map MigEdit.edit)
  len : (migApplyEdits buf ed).len = (migApplyEdits buf ed).text.length

/-- No deletion comes before another edit at its offset. -/
def InsertionsFirst (ed : List MigEdit) : Prop :=
  ed.Pairwise fun a b => a.off = b.off → a.del = 0

/-- Disjoint edits ascend, once sorted, exactly when insertions come first. -/
theorem ascends_sorted_iff {ed : List MigEdit} (hdis : ed.Pairwise MigEdit.Disjoint) :
    Ascends (Editing.insertionSort MigEdit.off ed) ↔ InsertionsFirst ed := by
  have hsorted := Editing.insertionSort_sorted MigEdit.off ed
  have hdis' : (Editing.insertionSort MigEdit.off ed).Pairwise MigEdit.Disjoint :=
    (Editing.insertionSort_perm MigEdit.off ed).symm.pairwise hdis fun h => h.symm
  have hstable := Editing.insertionSort_pairwise MigEdit.off
    (R := fun a b => a.off = b.off → a.del = 0) (fun a b hne heq => absurd heq hne) ed
  unfold InsertionsFirst
  rw [← hstable]
  constructor
  · intro h
    refine h.imp fun {a b} hab heq => ?_
    omega
  · intro h
    refine ((hsorted.and hdis').and h).imp fun {a b} hab => ?_
    obtain ⟨⟨hle, hd⟩, hfirst⟩ := hab
    rcases hd with hd | hd
    · exact hd
    · -- the later edit ends before the earlier one starts: both are at one offset
      have heq : a.off = b.off := by omega
      omega

/-- **Disjoint edits are applied as a whole** exactly when no deletion comes
before an insertion at its offset. -/
theorem appliesAll_iff {buf : List Char} {ed : List MigEdit}
    (hin : ∀ e ∈ ed, e.off + e.del ≤ buf.length) (hdis : ed.Pairwise MigEdit.Disjoint) :
    AppliesAll buf ed ↔ InsertionsFirst ed := by
  by_cases hne : ed = []
  · subst hne
    exact ⟨fun _ => List.Pairwise.nil,
      fun _ => ⟨rfl, ⟨[], List.Perm.refl _, List.Pairwise.nil, rfl⟩, rfl⟩⟩
  · have hperm := Editing.insertionSort_perm MigEdit.off ed
    obtain ⟨hdone, htext⟩ := copy_run (Editing.insertionSort MigEdit.off ed) ⟨[], 0, 0, 0⟩
      fun e he => hin e (hperm.mem_iff.mp he)
    obtain ⟨hw, hprev⟩ := copy_length (Editing.insertionSort MigEdit.off ed) ⟨[], 0, 0, 0⟩ rfl
      (Nat.zero_le buf.length)
    have hpos : 0 < ed.length := length_pos_of_ne_nil hne
    have hzero : ∀ e ∈ Editing.insertionSort MigEdit.off ed, 0 ≤ e.off := fun e _ => Nat.zero_le _
    rw [hperm.length_eq, ascends_sorted_iff hdis] at hdone
    generalize hst : (Editing.insertionSort MigEdit.off ed).foldl (Copying.turn buf) ⟨[], 0, 0, 0⟩ = st
      at hdone htext hw hprev
    have hresult : migApplyEdits buf ed = if st.done = 0 then ⟨buf, buf.length, 0⟩
        else ⟨st.nb ++ buf.drop st.prev, st.w + (buf.length - st.prev), st.done⟩ := by
      unfold migApplyEdits
      rw [if_neg hne, hst]
    constructor
    · intro h
      have hcount := h.count
      rw [hresult] at hcount
      split at hcount
      · change 0 = ed.length at hcount
        omega
      · change st.done = ed.length at hcount
        exact (hdone.mp (by rw [hcount, Nat.zero_add])).2
    · intro h
      have hall : st.done = 0 + ed.length := hdone.mpr ⟨hzero, h⟩
      have hasc := (ascends_sorted_iff hdis).mpr h
      have hsome : migApplyEdits buf ed
          = ⟨st.nb ++ buf.drop st.prev, st.w + (buf.length - st.prev), st.done⟩ := by
        rw [hresult, if_neg (by omega)]
      refine ⟨?_, ⟨Editing.insertionSort MigEdit.off ed, hperm, ?_, ?_⟩, ?_⟩
      · rw [hsome, hall, Nat.zero_add]
      · exact pairwise_map.mpr hasc
      · rw [hsome]
        exact htext hzero hasc
      · rw [hsome]
        show st.w + (buf.length - st.prev) = (st.nb ++ buf.drop st.prev).length
        rw [length_append, length_drop, hw]

/-- **Both edit engines.**  `lint_apply_fixes` performs the fixes it applies at
once; `mig_apply_edits` performs all of a list of disjoint edits at once exactly
when no deletion comes before an insertion at its offset. -/
theorem engines_simultaneous (buf : List Char) (items : List Lint.LintDiag) (text : List Char)
    (ed : List MigEdit) (hin : ∀ e ∈ ed, e.off + e.del ≤ text.length)
    (hdis : ed.Pairwise MigEdit.Disjoint) :
    (∃ es, Lint.Engine.Simultaneous buf items (Lint.Engine.lintApplyFixes buf items) es) ∧
      (AppliesAll text ed ↔ InsertionsFirst ed) :=
  ⟨Lint.Engine.applies_simultaneously buf items, appliesAll_iff hin hdis⟩

/-- An insertion and, behind it, a deletion at the same offset. -/
theorem engines_on_abc : (∃ es, Lint.Engine.Simultaneous "abc".toList [⟨true, 1, 2, none⟩]
      (Lint.Engine.lintApplyFixes "abc".toList [⟨true, 1, 2, none⟩]) es) ∧
    (AppliesAll "abc".toList [⟨0, 0, "y".toList, none⟩, ⟨0, 1, "x".toList, none⟩] ↔
      InsertionsFirst [⟨0, 0, "y".toList, none⟩, ⟨0, 1, "x".toList, none⟩]) :=
  engines_simultaneous "abc".toList [⟨true, 1, 2, none⟩] "abc".toList
    [⟨0, 0, "y".toList, none⟩, ⟨0, 1, "x".toList, none⟩] (by decide)
    (by simp [MigEdit.Disjoint])

/-- The other way round the insertion is lost. -/
theorem insertion_lost : (∀ e ∈ [(⟨0, 1, "x".toList, none⟩ : MigEdit), ⟨0, 0, "y".toList, none⟩],
      e.off + e.del ≤ "abc".toList.length) ∧
    [(⟨0, 1, "x".toList, none⟩ : MigEdit), ⟨0, 0, "y".toList, none⟩].Pairwise MigEdit.Disjoint ∧
    migApplyEdits "abc".toList [⟨0, 1, "x".toList, none⟩, ⟨0, 0, "y".toList, none⟩]
      = ⟨"xbc".toList, 3, 1⟩ := by refine ⟨by decide, by simp [MigEdit.Disjoint], by decide +kernel⟩

end Toke.Migrate
