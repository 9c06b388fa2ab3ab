/-
  Reading — **READERS: A STATE THAT ADVANCES, OR A FAILURE.**

  Two judgments about a reader `f : StateT σ (Except ε) α`, each with one rule
  for every way readers are put together:

    * `Yields f Φ` — whatever `f` reads satisfies `Φ`;
    * `Below f g`  — where `f` succeeds, `g` reads the same and stops at the
      same place; `f` is `g` on less input.
-/
import Mathlib

namespace Reading

variable {σ ε α β : Type}

/-! ## §1. Runs. -/

/-- A successful run of two readers in a row is a run of each. -/
theorem run_bind_ok {f : StateT σ (Except ε) α} {g : α → StateT σ (Except ε) β} {s s' : σ} {b : β}
    (h : (f >>= g).run s = .ok (b, s')) :
    ∃ a s₁, f.run s = .ok (a, s₁) ∧ (g a).run s₁ = .ok (b, s') := by
  rw [StateT.run_bind] at h
  cases hf : f.run s with
  | error e => rw [hf] at h; cases h
  | ok r =>
    rw [hf] at h
    exact ⟨r.1, r.2, rfl, h⟩

theorem run_bind_of_ok {f : StateT σ (Except ε) α} {g : α → StateT σ (Except ε) β} {s s₁ : σ} {a : α}
    (h : f.run s = .ok (a, s₁)) : (f >>= g).run s = (g a).run s₁ := by
  rw [StateT.run_bind, h]
  rfl

/-! ## §2. What a reader yields. -/

/-- Whatever the reader reads satisfies `Φ`. -/
def Yields (f : StateT σ (Except ε) α) (Φ : α → Prop) : Prop :=
  ∀ ⦃s a s'⦄, f.run s = .ok (a, s') → Φ a

namespace Yields

variable {f : StateT σ (Except ε) α} {g : α → StateT σ (Except ε) β} {Φ : α → Prop} {Ψ : β → Prop}

theorem pure {a : α} (h : Φ a) : Yields (Pure.pure a : StateT σ (Except ε) α) Φ := by
  intro s b s' hrun
  cases hrun
  exact h

theorem throw (e : ε) : Yields (MonadExcept.throw e : StateT σ (Except ε) α) Φ := by
  intro s a s' hrun
  cases hrun

/-- A failure ends the block it stands in. -/
theorem failed (e : ε) : Yields (MonadExcept.throw e >>= g) Ψ := by
  intro s b s' hrun
  cases hrun

theorem any (f : StateT σ (Except ε) α) : Yields f fun _ => True := fun _ _ _ _ => trivial

theorem mono {Φ' : α → Prop} (h : Yields f Φ) (himp : ∀ a, Φ a → Φ' a) : Yields f Φ' :=
  fun _ _ _ hrun => himp _ (h hrun)

theorem bind (hf : Yields f Φ) (hg : ∀ a, Φ a → Yields (g a) Ψ) : Yields (f >>= g) Ψ := by
  intro s b s' hrun
  obtain ⟨a, s₁, ha, hb⟩ := run_bind_ok hrun
  exact hg a (hf ha) hb

/-- Where the first reader's value does not matter. -/
theorem seq (hg : ∀ a, Yields (g a) Ψ) : Yields (f >>= g) Ψ := (any f).bind fun a _ => hg a

theorem ite {p : Prop} [Decidable p] {f' : StateT σ (Except ε) α} (h : p → Yields f Φ)
    (h' : ¬ p → Yields f' Φ) : Yields (if p then f else f') Φ := by
  split
  · next hp => exact h hp
  · next hp => exact h' hp

theorem mapM {l : List β} {f : β → StateT σ (Except ε) α} (h : ∀ b, Yields (f b) Φ) :
    Yields (l.mapM f) fun as => ∀ a ∈ as, Φ a := by
  induction l with
  | nil => exact pure nofun
  | cons b l ih =>
    rw [List.mapM_cons]
    refine (h b).bind fun a ha => ih.bind fun as has => pure ?_
    exact List.forall_mem_cons.mpr ⟨ha, has⟩

theorem mapM_length {l : List β} (f : β → StateT σ (Except ε) α) :
    Yields (l.mapM f) fun as => as.length = l.length := by
  induction l with
  | nil => exact pure rfl
  | cons b l ih =>
    rw [List.mapM_cons]
    exact seq fun a => ih.bind fun as has => pure (congrArg Nat.succ has)

end Yields

/-! ## §3. One reader below another. -/

/-- Where `f` succeeds, `g` does the same. -/
def Below (f g : StateT σ (Except ε) α) : Prop := ∀ ⦃s r⦄, f.run s = .ok r → g.run s = .ok r

namespace Below

variable {f f' : StateT σ (Except ε) α} {g g' : α → StateT σ (Except ε) β}

theorem refl (f : StateT σ (Except ε) α) : Below f f := fun _ _ h => h

theorem failed {h : StateT σ (Except ε) β} (e : ε) : Below (MonadExcept.throw e >>= g) h :=
  fun _ _ h => by cases h

theorem bind (hf : Below f f') (hg : ∀ a, Below (g a) (g' a)) : Below (f >>= g) (f' >>= g') := by
  rintro s ⟨b, s'⟩ hrun
  obtain ⟨a, s₁, ha, hb⟩ := run_bind_ok hrun
  rw [run_bind_of_ok (hf ha)]
  exact hg a hb

/-- The same choice on both sides. -/
theorem ite {p : Prop} [Decidable p] {h h' : StateT σ (Except ε) α} (hf : Below f f')
    (hh : Below h h') : Below (if p then f else h) (if p then f' else h') := by
  split
  · exact hf
  · exact hh

/-- A guard on each side, where the second one refuses less. -/
theorem guard {p q : Prop} [Decidable p] [Decidable q] {e e' : ε}
    {g g' : α → StateT σ (Except ε) β} {f f' : StateT σ (Except ε) β} (hqp : q → p)
    (hf : Below f f') :
    Below (if p then MonadExcept.throw e >>= g else f)
      (if q then MonadExcept.throw e' >>= g' else f') := by
  by_cases hp : p
  · rw [if_pos hp]
    exact failed e
  · rw [if_neg hp, if_neg fun hq => hp (hqp hq)]
    exact hf

theorem mapM {l : List β} {f f' : β → StateT σ (Except ε) α} (h : ∀ b, Below (f b) (f' b)) :
    Below (l.mapM f) (l.mapM f') := by
  induction l with
  | nil => exact refl _
  | cons b l ih =>
    rw [List.mapM_cons, List.mapM_cons]
    exact (h b).bind fun a => ih.bind fun as => refl _

theorem foldlM {l : List β} {f f' : α → β → StateT σ (Except ε) α}
    (h : ∀ a b, Below (f a b) (f' a b)) (a : α) : Below (l.foldlM f a) (l.foldlM f' a) := by
  induction l generalizing a with
  | nil => exact refl _
  | cons b l ih =>
    exact (h a b).bind fun a' => ih a'

end Below

end Reading
