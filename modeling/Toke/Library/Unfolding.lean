/-
  Toke.Library.Unfolding — **EAGER UNFOLDING OF A FINITELY BRANCHING GRAPH.**

  A resolver that expands every name it meets walks a graph: `succ n` lists
  what it has to expand before it is done with `n`.  `unfolds succ fuel n`
  says that recursion depth `fuel` is enough.  Three ways to say that the
  walk from `n` ends agree:

      `∃ fuel, unfolds succ fuel n`          — some depth is enough
      `Acc (Below succ) n`                   — `n` is accessible
      `¬ HasCycle succ n`                    — no cycle is reachable from `n`

  the last one when only finitely many nodes are reachable.
-/
import Mathlib

namespace Unfolding

variable {N : Type} {succ : N → List N}

/-! ## §1. Depth and accessibility. -/

/-- Recursion depth `fuel` is enough to unfold `n` completely. -/
def unfolds (succ : N → List N) : Nat → N → Bool
  | 0, _ => false
  | fuel + 1, n => (succ n).all (unfolds succ fuel)

/-- `m` is expanded before `n` is done. -/
def Below (succ : N → List N) (m n : N) : Prop := m ∈ succ n

theorem unfolds_succ {fuel : Nat} {n : N} :
    unfolds succ (fuel + 1) n ↔ ∀ m ∈ succ n, unfolds succ fuel m := by
  simp only [unfolds, List.all_eq_true]

/-- More depth does no harm. -/
theorem unfolds_mono {f f' : Nat} (hle : f ≤ f') {n : N} (h : unfolds succ f n) :
    unfolds succ f' n := by
  induction f generalizing f' n with
  | zero => simp [unfolds] at h
  | succ f ih =>
    obtain ⟨g, rfl⟩ : ∃ g, f' = g + 1 := ⟨f' - 1, by omega⟩
    rw [unfolds_succ] at h ⊢
    intro m hm
    exact ih (by omega) (h m hm)

/-- Finitely many walks that end, end within one depth. -/
theorem exists_common_depth {l : List N} (h : ∀ m ∈ l, ∃ f, unfolds succ f m) :
    ∃ f, ∀ m ∈ l, unfolds succ f m := by
  induction l with
  | nil => exact ⟨0, fun m hm => absurd hm (by simp)⟩
  | cons a l ih =>
    obtain ⟨f, hf⟩ := h a (by simp)
    obtain ⟨g, hg⟩ := ih fun m hm => h m (by simp [hm])
    refine ⟨max f g, fun m hm => ?_⟩
    rcases List.mem_cons.mp hm with rfl | hm
    · exact unfolds_mono (le_max_left _ _) hf
    · exact unfolds_mono (le_max_right _ _) (hg m hm)

theorem exists_unfolds_iff_acc {n : N} : (∃ f, unfolds succ f n) ↔ Acc (Below succ) n := by
  constructor
  · rintro ⟨f, hf⟩
    induction f generalizing n with
    | zero => simp [unfolds] at hf
    | succ f ih =>
      rw [unfolds_succ] at hf
      exact Acc.intro n fun m hm => ih (hf m hm)
  · intro hacc
    induction hacc with
    | intro n _ ih =>
      obtain ⟨f, hf⟩ := exists_common_depth ih
      exact ⟨f + 1, unfolds_succ.mpr hf⟩

/-! ## §2. Cycles. -/

/-- `m` is reachable from `n` in any number of steps. -/
def Reaches (succ : N → List N) : N → N → Prop :=
  Relation.ReflTransGen fun n m => m ∈ succ n

/-- Some node reachable from `n` reaches itself in one or more steps. -/
def HasCycle (succ : N → List N) (n : N) : Prop :=
  ∃ m, Reaches succ n m ∧ Relation.TransGen (fun n m => m ∈ succ n) m m

theorem acc_of_reaches {n m : N} (hacc : Acc (Below succ) n) (h : Reaches succ n m) :
    Acc (Below succ) m := by
  induction h with
  | refl => exact hacc
  | tail _ hstep ih => exact ih.inv hstep

theorem not_cycle_of_acc {n : N} (hacc : Acc (Below succ) n) :
    ¬ Relation.TransGen (fun n m => m ∈ succ n) n n := by
  have htrans : Acc (Relation.TransGen (Below succ)) n := hacc.transGen
  intro hcycle
  have hself : Relation.TransGen (Below succ) n n := Relation.transGen_swap.mp hcycle
  induction htrans with
  | intro n _ ih => exact ih n hself (hacc.inv_of_transGen hself) hcycle hself

/-- A node that refers to itself is never done. -/
theorem not_unfolds_of_mem {n : N} (h : n ∈ succ n) (f : Nat) : unfolds succ f n = false := by
  have hnot : ¬ unfolds succ f n := fun hf =>
    not_cycle_of_acc (exists_unfolds_iff_acc.mp ⟨f, hf⟩) (Relation.TransGen.single h)
  simpa using hnot

/-- **Where only finitely many nodes are reachable, unfolding ends exactly if
no cycle is reachable.** -/
theorem acc_iff_not_hasCycle {n : N} (hfin : {m | Reaches succ n m}.Finite) :
    Acc (Below succ) n ↔ ¬ HasCycle succ n := by
  constructor
  · rintro hacc ⟨m, hreach, hcycle⟩
    exact not_cycle_of_acc (acc_of_reaches hacc hreach) hcycle
  · intro hno
    -- on the finitely many reachable nodes the strict order has no descent
    let r : {m // Reaches succ n m} → {m // Reaches succ n m} → Prop := fun a b => a.1 ∈ succ b.1
    have hproj : ∀ a b, Relation.TransGen r a b → Relation.TransGen (Below succ) a.1 b.1 := by
      intro a b h
      induction h with
      | single hab => exact Relation.TransGen.single hab
      | tail _ hbc ih => exact ih.tail hbc
    have hirr : ∀ a, ¬ Relation.TransGen r a a := fun a ha =>
      hno ⟨a.1, a.2, Relation.transGen_swap.mp (hproj a a ha)⟩
    have : Finite {m // Reaches succ n m} := hfin
    have : Std.Irrefl (Relation.TransGen r) := ⟨hirr⟩
    have hwf : WellFounded r :=
      Subrelation.wf Relation.TransGen.single
        (Finite.wellFounded_of_trans_of_irrefl (Relation.TransGen r))
    -- what lies below a reachable node is reachable, so accessibility carries over
    have hlift : ∀ b, Acc r b → Acc (Below succ) b.1 := by
      intro b hb
      induction hb with
      | intro b _ ih => exact Acc.intro b.1 fun m hm => ih ⟨m, b.2.tail hm⟩ hm
    exact hlift ⟨n, Relation.ReflTransGen.refl⟩ (hwf.apply _)

/-- Reachability stays inside a list that the successors do not leave. -/
theorem reaches_finite {n : N} {nodes : List N} (hn : n ∈ nodes)
    (hclosed : ∀ m ∈ nodes, ∀ k ∈ succ m, k ∈ nodes) :
    {m | Reaches succ n m}.Finite := by
  refine (List.finite_toSet nodes).subset fun m hm => ?_
  induction hm with
  | refl => exact hn
  | tail _ hstep ih => exact hclosed _ ih _ hstep

/-- **The walk from `n` ends exactly if it meets no cycle**, for a graph whose
nodes come from a list. -/
theorem exists_unfolds_iff_not_hasCycle {n : N} {nodes : List N} (hn : n ∈ nodes)
    (hclosed : ∀ m ∈ nodes, ∀ k ∈ succ m, k ∈ nodes) :
    (∃ f, unfolds succ f n) ↔ ¬ HasCycle succ n := by
  rw [exists_unfolds_iff_acc, acc_iff_not_hasCycle (reaches_finite hn hclosed)]

end Unfolding
