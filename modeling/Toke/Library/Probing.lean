/-
  Probing — **LINEAR PROBING** in a table of `n` slots.

  The probe sequence of a home slot `i` is `i, i + 1, …` modulo `n`.  A table
  is described by its occupied slots (`occ`); `Clear n occ i j` says that the
  sequence of `i` reaches slot `j` without crossing an empty one.

    `probe_isSome`      — a search ends when some slot stops it
    `Clear.mono`        — filling slots keeps what is reachable reachable
    `probe_free`        — the free slot a search finds is reachable
    `probe_hit`, `probe_miss`  — a search finds what is there, and nothing else
-/
import Mathlib

namespace Probing

variable {p occ : Nat → Bool} {i j : Nat}

/-- The first slot from `i` on that satisfies `p`; `fuel` bounds the steps. -/
def probe (n : Nat) (p : Nat → Bool) : Nat → Nat → Option Nat
  | 0, _ => none
  | fuel + 1, i => if p i then some i else probe n p fuel ((i + 1) % n)

/-- From slot `i` every slot before `j` is occupied. -/
def Clear (n : Nat) (occ : Nat → Bool) (i j : Nat) : Prop :=
  ∃ d, d < n ∧ j = (i + d) % n ∧ ∀ k < d, occ ((i + k) % n) = true

variable {n : Nat}

theorem probe_stop (h : p i) (fuel : Nat) : probe n p (fuel + 1) i = some i := by
  unfold probe
  rw [if_pos h]

theorem probe_next (h : p i = false) (fuel : Nat) :
    probe n p (fuel + 1) i = probe n p fuel ((i + 1) % n) := by
  rw [probe, if_neg (by rw [h]; exact Bool.false_ne_true)]

theorem succ_mod (i d : Nat) : ((i + 1) % n + d) % n = (i + (d + 1)) % n := by
  rw [Nat.mod_add_mod]
  congr 1
  omega

/-- The slot found is the first of the sequence that satisfies `p`. -/
theorem probe_spec : ∀ {fuel i j : Nat}, i < n → probe n p fuel i = some j →
    ∃ d < fuel, j = (i + d) % n ∧ p j ∧ ∀ k < d, p ((i + k) % n) = false
  | 0, _, _, _, h => by cases h
  | fuel + 1, i, j, hi, h => by
    unfold probe at h
    by_cases hp : p i
    · rw [if_pos hp] at h
      cases h
      refine ⟨0, by omega, (Nat.mod_eq_of_lt hi).symm, hp, fun k hk => absurd hk (by omega)⟩
    · rw [if_neg hp] at h
      obtain ⟨d, hd, hj, hpj, hbefore⟩ := probe_spec (Nat.mod_lt _ (by omega)) h
      refine ⟨d + 1, by omega, by rw [hj, succ_mod], hpj, fun k hk => ?_⟩
      cases k with
      | zero =>
        rw [Nat.add_zero, Nat.mod_eq_of_lt hi]
        simpa using hp
      | succ k =>
        rw [← succ_mod]
        exact hbefore k (by omega)

/-- A search that is given `d + 1` steps passes no satisfying slot at distance `d`. -/
theorem probe_isSome_of_dist : ∀ {d fuel i : Nat}, i < n → d < fuel →
    p ((i + d) % n) → ∃ j, probe n p fuel i = some j := by
  intro d
  induction d with
  | zero =>
    intro fuel i hi hd hp
    obtain ⟨fuel, rfl⟩ := Nat.exists_eq_add_one_of_ne_zero (by omega : fuel ≠ 0)
    rw [Nat.add_zero, Nat.mod_eq_of_lt hi] at hp
    exact ⟨i, probe_stop hp fuel⟩
  | succ d ih =>
    intro fuel i hi hd hp
    obtain ⟨fuel, rfl⟩ := Nat.exists_eq_add_one_of_ne_zero (by omega : fuel ≠ 0)
    by_cases hpi : p i
    · exact ⟨i, probe_stop hpi fuel⟩
    · have hnext : (i + 1) % n < n := Nat.mod_lt _ (by omega)
      obtain ⟨j, hj⟩ := ih hnext (Nat.lt_of_succ_lt_succ hd) (by rw [succ_mod]; exact hp)
      exact ⟨j, (probe_next (Bool.eq_false_of_not_eq_true hpi) fuel).trans hj⟩

/-- Every slot has a distance from every other. -/
theorem exists_dist (hi : i < n) (hj : j < n) : ∃ d < n, j = (i + d) % n := by
  by_cases hle : i ≤ j
  · exact ⟨j - i, by omega, by rw [Nat.add_sub_cancel' hle, Nat.mod_eq_of_lt hj]⟩
  · refine ⟨n - i + j, by omega, ?_⟩
    have hsum : i + (n - i + j) = j + n := by omega
    rw [hsum, Nat.add_mod_right, Nat.mod_eq_of_lt hj]

/-- **A search over the whole table ends** when some slot stops it. -/
theorem probe_isSome (hi : i < n) (hj : j < n) (hp : p j) : ∃ k, probe n p n i = some k := by
  obtain ⟨d, hd, rfl⟩ := exists_dist hi hj
  exact probe_isSome_of_dist hi hd hp

theorem Clear.mono {occ' : Nat → Bool} (h : Clear n occ i j)
    (hocc : ∀ k, occ k → occ' k) : Clear n occ' i j := by
  obtain ⟨d, hd, hj, hbefore⟩ := h
  exact ⟨d, hd, hj, fun k hk => hocc _ (hbefore k hk)⟩

/-- **The free slot that is found is reachable.** -/
theorem probe_free (hi : i < n)
    (h : probe n (fun k => !occ k) n i = some j) : j < n ∧ occ j = false ∧ Clear n occ i j := by
  obtain ⟨d, hd, hj, hfree, hbefore⟩ := probe_spec hi h
  have hlt : j < n := hj ▸ Nat.mod_lt _ (by omega)
  refine ⟨hlt, by simpa using hfree, d, hd, hj, fun k hk => ?_⟩
  simpa using hbefore k hk

/-- **A search finds the one slot that matches**, if it is reachable. -/
theorem probe_hit {hit : Nat → Bool} (hi : i < n) (hreach : Clear n occ i j) (hj : hit j)
    (huniq : ∀ k, hit k → k = j) :
    probe n (fun k => !occ k || hit k) n i = some j := by
  obtain ⟨d, hd, rfl, hbefore⟩ := hreach
  have hstop : (!occ ((i + d) % n) || hit ((i + d) % n)) := by rw [hj, Bool.or_true]
  obtain ⟨j', hfound⟩ := probe_isSome_of_dist (p := fun k => !occ k || hit k) hi hd hstop
  obtain ⟨d', hd', hj', hp, hnone⟩ := probe_spec hi hfound
  rw [hfound]
  congr 1
  rcases Nat.lt_trichotomy d' d with hlt | rfl | hgt
  · -- the search stopped earlier, on an occupied slot: that was a hit
    have hocc := hbefore d' hlt
    rw [← hj'] at hocc
    rw [hocc] at hp
    exact huniq j' (by simpa using hp)
  · exact hj'
  · rw [hnone d hgt] at hstop
    cases hstop

/-- **A search for what is not there ends on an empty slot.** -/
theorem probe_miss {hit : Nat → Bool} (hi : i < n) (hj : j < n) (hfree : occ j = false)
    (hno : ∀ k, hit k = false) :
    ∃ k, probe n (fun k => !occ k || hit k) n i = some k ∧ occ k = false := by
  obtain ⟨k, hk⟩ := probe_isSome (p := fun k => !occ k || hit k) hi hj (by simp [hfree])
  obtain ⟨_, _, _, hp, _⟩ := probe_spec hi hk
  exact ⟨k, hk, by simpa [hno k] using hp⟩

end Probing
