/-
  Toke.Library.Progress — **STATE COMPUTATIONS THAT RETURN BECAUSE THEY MAKE PROGRESS.**

  A recursive-descent parser, a scanner or a recovery loop runs over a state
  with two counters: how much input is LEFT, and how much of an error budget
  is SPENT.  Nothing ever gives input back or takes an error back, and every
  loop turn and every recursive call either consumes input or spends budget.

  Computations are partial here (`Fueled`, with `none` for "out of fuel"), and
  `Runs R n g x` is the total-correctness judgement about them: from every
  state of size below `n` the computation RETURNS, the invariant is kept, and
  the outcome `a` comes with the progress `g a`.

      `Gain`            — stay < move < shrink < eat
      `Runs.bind`       — sequencing; eating lowers the level by one
      `iter_runs`       — a loop whose every turn shrinks the state returns
      `fuelFix_induction` — recursion through calls made after eating returns
      `Meets`           — `Runs` with a contract that holds while no budget is spent
      `Leads`           — what every result from one given state satisfies
-/
import Mathlib

namespace Progress

variable {σ α β : Type}

/-! ## §1. Computations, ranks and gains. -/

/-- A state computation that may run out of fuel. -/
abbrev Fueled (σ α : Type) := StateT σ Option α

/-- What measures a state: input left, budget spent out of `cap`, and the
invariant under which both are meaningful. -/
structure Rank (σ : Type) where
  ok : σ → Prop
  left : σ → Nat
  spent : σ → Nat
  cap : Nat

/-- Input left plus budget left. -/
def Rank.size (R : Rank σ) (s : σ) : Nat := R.left s + (R.cap - R.spent s)

/-- How far a run got: nowhere in particular, past input or an error, to a
strictly smaller state, past input. -/
inductive Gain where
  | stay
  | move
  | shrink
  | eat
  deriving Repr, DecidableEq

/-- The four gains in order. -/
def Gain.rank : Gain → Nat
  | .stay => 0
  | .move => 1
  | .shrink => 2
  | .eat => 3

/-- What is still wanted once `got` is there. -/
def Gain.after (got want : Gain) : Gain :=
  if want.rank ≤ got.rank then .stay else want

@[simp] theorem Gain.stay_after (want : Gain) : Gain.stay.after want = want := by cases want <;> rfl

@[simp] theorem Gain.eat_after (want : Gain) : Gain.eat.after want = .stay := by cases want <;> rfl

/-- The two counters moved the right way, and by as much as the gain says. -/
def Rank.Moves (R : Rank σ) (g : Gain) (s s' : σ) : Prop :=
  R.left s' ≤ R.left s ∧ R.spent s ≤ R.spent s' ∧ match g with
    | .stay => True
    | .move => R.left s' < R.left s ∨ R.spent s < R.spent s'
    | .shrink => R.size s' < R.size s
    | .eat => R.left s' < R.left s

section Moves

variable {R : Rank σ} {g h : Gain} {s s' s'' : σ}

theorem Rank.Moves.refl (R : Rank σ) (s : σ) : R.Moves .stay s s :=
  ⟨le_refl _, le_refl _, trivial⟩

theorem Rank.Moves.size_le (m : R.Moves g s s') : R.size s' ≤ R.size s := by
  obtain ⟨hl, hs, -⟩ := m
  simp only [Rank.size]
  omega

theorem Rank.Moves.size_lt (m : R.Moves g s s') (hg : Gain.shrink.rank ≤ g.rank) :
    R.size s' < R.size s := by
  obtain ⟨hl, hs, hm⟩ := m
  cases g with
  | stay => exact absurd hg (by decide)
  | move => exact absurd hg (by decide)
  | shrink => exact hm
  | eat =>
    simp only [Rank.size]
    omega

/-- A gain implies the smaller ones. -/
theorem Rank.Moves.weaken (m : R.Moves g s s') (hle : h.rank ≤ g.rank) : R.Moves h s s' := by
  obtain ⟨hl, hs, hm⟩ := m
  refine ⟨hl, hs, ?_⟩
  cases g <;> cases h <;> first
    | trivial
    | exact hm
    | exact absurd hle (by decide)
    | exact .inl hm
    | (simp only [Rank.size] at hm ⊢; omega)

/-- While budget is left, moving is shrinking. -/
theorem Rank.Moves.shrink (m : R.Moves .move s s') (hb : R.spent s < R.cap) :
    R.Moves .shrink s s' := by
  obtain ⟨hl, hs, hm⟩ := m
  refine ⟨hl, hs, ?_⟩
  simp only [Rank.size] at hm ⊢
  omega

/-- Runs compose: the second one only has to add what the first left open. -/
theorem Rank.Moves.trans (m₁ : R.Moves g s s') (m₂ : R.Moves (g.after h) s' s'') :
    R.Moves h s s'' := by
  by_cases hle : h.rank ≤ g.rank
  · -- the first run already gained enough; the second one loses nothing
    have m := m₁.weaken hle
    have hsize := m₂.size_le
    obtain ⟨hl₂, hs₂, -⟩ := m₂
    obtain ⟨hl, hs, hm⟩ := m
    refine ⟨by omega, by omega, ?_⟩
    cases h <;> simp only at hm ⊢ <;> omega
  · rw [Gain.after, if_neg hle] at m₂
    have hsize := m₁.size_le
    obtain ⟨hl₁, hs₁, -⟩ := m₁
    obtain ⟨hl₂, hs₂, hm⟩ := m₂
    refine ⟨by omega, by omega, ?_⟩
    cases h <;> simp only at hm ⊢ <;> omega

end Moves

/-! ## §2. The judgement. -/

/-- From every state of size below `n` that satisfies the invariant, `x`
returns, keeps the invariant and gains `g` of its outcome. -/
def Runs (R : Rank σ) (n : Nat) (g : α → Gain) (x : Fueled σ α) : Prop :=
  ∀ s, R.ok s → R.size s < n → ∃ a s', x s = some (a, s') ∧ R.ok s' ∧ R.Moves (g a) s s'

/-- `Runs` without any claim about progress. -/
abbrev Safe (R : Rank σ) (n : Nat) (x : Fueled σ α) : Prop := Runs R n (fun _ => .stay) x

theorem bind_run {x : Fueled σ α} {f : α → Fueled σ β} {s s' : σ} {a : α}
    (h : x s = some (a, s')) : (x >>= f) s = f a s' := by
  show (x s >>= fun p => f p.1 p.2) = f a s'
  rw [h]
  rfl

section Rules

variable {R : Rank σ} {n m : Nat} {g : α → Gain} {h : β → Gain}
  {x : Fueled σ α} {f : α → Fueled σ β}

theorem Runs.level (hx : Runs R n g x) (hle : m ≤ n) : Runs R m g x :=
  fun s hok hs => hx s hok (by omega)

theorem Runs.weaken {g' : α → Gain} (hx : Runs R n g x)
    (hle : ∀ a, (g' a).rank ≤ (g a).rank) : Runs R n g' x := by
  intro s hok hs
  obtain ⟨a, s', hrun, hok', hm⟩ := hx s hok hs
  exact ⟨a, s', hrun, hok', hm.weaken (hle a)⟩

theorem Runs.safe (hx : Runs R n g x) : Safe R n x :=
  hx.weaken fun _ => Nat.zero_le _

theorem Runs.pure (a : α) (ha : g a = .stay) : Runs R n g (pure a) := by
  intro s hok _
  refine ⟨a, s, rfl, hok, ?_⟩
  rw [ha]
  exact Rank.Moves.refl R s

theorem Safe.pure (a : α) : Safe R n (pure a : Fueled σ α) := Runs.pure a rfl

/-- The level that is left after a gain. -/
def Gain.below : Gain → Nat → Nat
  | .stay, n => n
  | .move, n => n
  | .shrink, n => n - 1
  | .eat, n => n - 1

theorem Rank.Moves.below {R : Rank σ} {g : Gain} {s s' : σ} (m : R.Moves g s s')
    {n : Nat} (hs : R.size s < n) : R.size s' < g.below n := by
  have hle := m.size_le
  cases g with
  | stay => exact lt_of_le_of_lt hle hs
  | move => exact lt_of_le_of_lt hle hs
  | shrink =>
    have := m.size_lt (le_refl _)
    simp only [Gain.below]
    omega
  | eat =>
    have := m.size_lt (by decide)
    simp only [Gain.below]
    omega

/-- **Sequencing.** -/
theorem Runs.bind (hx : Runs R n g x)
    (hf : ∀ a, Runs R ((g a).below n) (fun b => (g a).after (h b)) (f a)) :
    Runs R n h (x >>= f) := by
  intro s hok hs
  obtain ⟨a, s₁, hrun, hok₁, hm₁⟩ := hx s hok hs
  obtain ⟨b, s₂, hrun₂, hok₂, hm₂⟩ := hf a s₁ hok₁ (hm₁.below hs)
  exact ⟨b, s₂, (bind_run hrun).trans hrun₂, hok₂, hm₁.trans hm₂⟩

/-- After a step that gains nothing, all is still to be shown. -/
theorem Runs.then (hx : Safe R n x) (hf : ∀ a, Runs R n h (f a)) : Runs R n h (x >>= f) := by
  refine .bind hx fun a => ?_
  simpa only [Gain.below, Gain.stay_after] using hf a

/-- A step whose outcome is only put into the result. -/
theorem Runs.finish {f : α → β} (hx : Runs R n g x) : Safe R n (x >>= fun a => Pure.pure (f a)) :=
  .then hx.safe fun _ => Safe.pure _

/-- An optional outcome that eats when it is there. -/
def optGain (lo : Gain) : Option α → Gain
  | none => lo
  | some _ => .eat

/-- Sequencing after a step that may fail to eat. -/
theorem Runs.opt {lo : Gain} {y : Fueled σ (Option α)} {k : Option α → Fueled σ β}
    (hy : Runs R (n + 1) (optGain lo) y) (hnone : Runs R (n + 1) (fun b => lo.after (h b)) (k none))
    (hsome : ∀ a, Safe R n (k (some a))) : Runs R (n + 1) h (y >>= k) := by
  refine .bind hy fun o => ?_
  cases o with
  | none => exact hnone.level (by cases lo <;> simp [optGain, Gain.below])
  | some a => simpa only [optGain, Gain.below, Gain.eat_after, Nat.add_sub_cancel] using hsome a

/-- Sequencing after a step that eats or does nothing. -/
theorem Runs.try {y : Fueled σ (Option α)} {k : Option α → Fueled σ β}
    (hy : Runs R (n + 1) (optGain .stay) y) (hnone : Runs R (n + 1) h (k none))
    (hsome : ∀ a, Safe R n (k (some a))) : Runs R (n + 1) h (y >>= k) :=
  Runs.opt hy (by simpa only [Gain.stay_after] using hnone) hsome

/-- Where progress no longer matters, both outcomes only have to run. -/
theorem Safe.opt {y : Fueled σ (Option α)} {k : Option α → Fueled σ β}
    {g : Option α → Gain} (hy : Runs R n g y) (hnone : Safe R n (k none))
    (hsome : ∀ a, Safe R n (k (some a))) : Safe R n (y >>= k) := by
  refine .then hy.safe fun o => ?_
  cases o with
  | none => exact hnone
  | some a => exact hsome a

/-- Both branches of a test run. -/
theorem Runs.ite {c : Prop} [Decidable c] {y : Fueled σ α}
    (hx : c → Runs R n g x) (hy : ¬c → Runs R n g y) :
    Runs R n g (if c then x else y) := by
  split
  · next hc => exact hx hc
  · next hc => exact hy hc

end Rules

/-! ## §3. Loops and recursion. -/

/-- The outcome of one loop turn. -/
inductive Turn (α β : Type) where
  | again (a : α)
  | done (b : β)

/-- A loop with an accumulator; `fuel` bounds its turns. -/
def iter (body : α → Fueled σ (Turn α β)) : Nat → α → Fueled σ β
  | 0, _ => fun _ => none
  | fuel + 1, a => do
      match ← body a with
      | .again a' => iter body fuel a'
      | .done b => pure b

/-- Every turn that goes on leaves a smaller state. -/
def turnGain : Turn α β → Gain
  | .again _ => .shrink
  | .done _ => .stay

/-- **A loop whose turns shrink the state returns** within as many turns as
the state is large. -/
theorem iter_runs {R : Rank σ} {n : Nat} {body : α → Fueled σ (Turn α β)}
    (hb : ∀ a, Runs R n turnGain (body a)) (fuel : Nat) (hle : fuel ≤ n) (a : α) :
    Safe R fuel (iter body fuel a) := by
  induction fuel generalizing a with
  | zero => exact fun s _ hs => absurd hs (Nat.not_lt_zero _)
  | succ fuel ih =>
    refine .bind ((hb a).level hle) fun t => ?_
    cases t with
    | again a' => exact ih (by omega) a'
    | done b => exact Safe.pure b

/-- Recursion through a bundle of entry points: `fuel` bounds its depth. -/
def fuelFix {κ : Type} (bottom : κ) (step : Nat → κ → κ) : Nat → κ
  | 0 => bottom
  | fuel + 1 => step (fuel + 1) (fuelFix bottom step fuel)

/-- **Open recursion**: what a bundle one level deeper guarantees is kept by
the step, so every unfolding of the recursion guarantees it. -/
theorem fuelFix_induction {κ : Type} {bottom : κ} {step : Nat → κ → κ}
    {P : Nat → κ → Prop} (h0 : P 0 bottom)
    (hstep : ∀ n k, P n k → P (n + 1) (step (n + 1) k)) (n : Nat) :
    P n (fuelFix bottom step n) := by
  induction n with
  | zero => exact h0
  | succ n ih => exact hstep n _ ih

/-! ## §4. Contracts.

While no budget is spent, nothing went wrong: that is when a computation owes
its postcondition, and when it may rely on its precondition. -/

/-- `Runs`, and from `P` to `Q` as long as the budget is untouched. -/
def Meets (R : Rank σ) (n : Nat) (g : α → Gain) (P : σ → Prop) (x : Fueled σ α)
    (Q : α → σ → Prop) : Prop :=
  ∀ s, R.ok s → R.size s < n → (R.spent s = 0 → P s) →
    ∃ a s', x s = some (a, s') ∧ R.ok s' ∧ R.Moves (g a) s s' ∧ (R.spent s' = 0 → Q a s')

section Contracts

variable {R : Rank σ} {n : Nat} {g : α → Gain} {h : β → Gain}
  {x : Fueled σ α} {f : α → Fueled σ β} {P : σ → Prop} {Q : α → σ → Prop} {S : β → σ → Prop}

/-- Nothing spent at the end, nothing spent before. -/
theorem Rank.Moves.spent_zero {g : Gain} {s s' : σ} (m : R.Moves g s s')
    (hs : R.spent s' = 0) : R.spent s = 0 := Nat.le_zero.mp (hs ▸ m.2.1)

theorem Meets.pre {P' : σ → Prop} (hx : Meets R n g P' x Q) (hP : ∀ s, P s → P' s) :
    Meets R n g P x Q := fun s hok hs hp => hx s hok hs fun h0 => hP s (hp h0)

/-- `Meets.pre` with the new precondition written out. -/
theorem Meets.given (P' : σ → Prop) (hP : ∀ s, P s → P' s) (hx : Meets R n g P' x Q) :
    Meets R n g P x Q := hx.pre hP

theorem Meets.post {Q' : α → σ → Prop} (hx : Meets R n g P x Q')
    (hQ : ∀ a s, Q' a s → Q a s) : Meets R n g P x Q := by
  intro s hok hs hp
  obtain ⟨a, s', hrun, hok', hm, hq⟩ := hx s hok hs hp
  exact ⟨a, s', hrun, hok', hm, fun h0 => hQ a s' (hq h0)⟩

theorem Meets.level {m : Nat} (hx : Meets R n g P x Q) (hle : m ≤ n) : Meets R m g P x Q :=
  fun s hok hs hp => hx s hok (by omega) hp

theorem Meets.safe (hx : Meets R n g P x Q) : Meets R n (fun _ => .stay) P x Q := by
  intro s hok hs hp
  obtain ⟨a, s', hrun, hok', hm, hq⟩ := hx s hok hs hp
  exact ⟨a, s', hrun, hok', hm.weaken (Nat.zero_le _), hq⟩

/-- A fact that is not about the state survives every run. -/
theorem Meets.frame (hx : Meets R n g P x Q) (F : Prop) :
    Meets R n g (fun s => F ∧ P s) x (fun a s => F ∧ Q a s) := by
  intro s hok hs hp
  obtain ⟨a, s', hrun, hok', hm, hq⟩ := hx s hok hs fun h0 => (hp h0).2
  exact ⟨a, s', hrun, hok', hm, fun h0 => ⟨(hp (hm.spent_zero h0)).1, hq h0⟩⟩

theorem Runs.keeps (hx : Runs R n g x) (F : Prop) : Meets R n g (fun _ => F) x (fun _ _ => F) := by
  intro s hok hs hp
  obtain ⟨a, s', hrun, hok', hm⟩ := hx s hok hs
  exact ⟨a, s', hrun, hok', hm, fun h0 => hp (hm.spent_zero h0)⟩

/-- Once something went wrong, running is all that is owed. -/
theorem Runs.failed (hx : Runs R n g x) : Meets R n g (fun _ => False) x Q := by
  intro s hok hs hp
  obtain ⟨a, s', hrun, hok', hm⟩ := hx s hok hs
  exact ⟨a, s', hrun, hok', hm, fun h0 => (hp (hm.spent_zero h0)).elim⟩

theorem Meets.pure {a : α} (ha : g a = .stay) (hq : ∀ s, P s → Q a s) :
    Meets R n g P (Pure.pure a) Q := by
  intro s hok _ hp
  refine ⟨a, s, rfl, hok, ?_, fun h0 => hq s (hp h0)⟩
  rw [ha]
  exact Rank.Moves.refl R s

/-- **Sequencing.** -/
theorem Meets.bind (hx : Meets R n g P x Q)
    (hf : ∀ a, Meets R ((g a).below n) (fun b => (g a).after (h b)) (Q a) (f a) S) :
    Meets R n h P (x >>= f) S := by
  intro s hok hs hp
  obtain ⟨a, s₁, hrun, hok₁, hm₁, hq⟩ := hx s hok hs hp
  obtain ⟨b, s₂, hrun₂, hok₂, hm₂, hS⟩ := hf a s₁ hok₁ (hm₁.below hs) hq
  exact ⟨b, s₂, (bind_run hrun).trans hrun₂, hok₂, hm₁.trans hm₂, hS⟩

theorem Meets.then (hx : Meets R n (fun _ => .stay) P x Q)
    (hf : ∀ a, Meets R n h (Q a) (f a) S) : Meets R n h P (x >>= f) S := by
  refine .bind hx fun a => ?_
  simpa only [Gain.below, Gain.stay_after] using hf a

/-- Sequencing after a step that eats or does nothing. -/
theorem Meets.try {y : Fueled σ (Option α)} {k : Option α → Fueled σ β}
    {T : Option α → σ → Prop} (hy : Meets R (n + 1) (optGain .stay) P y T)
    (hnone : Meets R (n + 1) h (T none) (k none) S)
    (hsome : ∀ a, Meets R n (fun _ => .stay) (T (some a)) (k (some a)) S) :
    Meets R (n + 1) h P (y >>= k) S := by
  refine .bind hy fun o => ?_
  cases o with
  | none => simpa only [optGain, Gain.below, Gain.stay_after] using hnone
  | some a => simpa only [optGain, Gain.below, Gain.eat_after, Nat.add_sub_cancel] using hsome a

/-- Both outcomes of an optional step, where progress does not matter. -/
theorem Meets.opt {y : Fueled σ (Option α)} {k : Option α → Fueled σ β} {g : Option α → Gain}
    {T : Option α → σ → Prop} (hy : Meets R n g P y T)
    (hnone : Meets R n (fun _ => .stay) (T none) (k none) S)
    (hsome : ∀ a, Meets R n (fun _ => .stay) (T (some a)) (k (some a)) S) :
    Meets R n (fun _ => .stay) P (y >>= k) S := by
  refine .then hy.safe fun o => ?_
  cases o with
  | none => exact hnone
  | some a => exact hsome a

theorem Meets.ite {c : Prop} [Decidable c] {y : Fueled σ α}
    (hx : c → Meets R n g P x Q) (hy : ¬c → Meets R n g P y Q) :
    Meets R n g P (if c then x else y) Q := by
  split
  · next hc => exact hx hc
  · next hc => exact hy hc

end Contracts

/-- What a turn owes: the invariant to go on with, or the result. -/
def turnPost {α β σ : Type} (I : α → σ → Prop) (Q : β → σ → Prop) : Turn α β → σ → Prop
  | .again a, s => I a s
  | .done b, s => Q b s

/-- **The invariant rule of a loop** whose turns shrink the state. -/
theorem iter_meets {R : Rank σ} {n : Nat} {body : α → Fueled σ (Turn α β)}
    {I : α → σ → Prop} {Q : β → σ → Prop}
    (hb : ∀ a, Meets R n turnGain (I a) (body a) (turnPost I Q)) (fuel : Nat) (hle : fuel ≤ n)
    (a : α) : Meets R fuel (fun _ => .stay) (I a) (iter body fuel a) Q := by
  induction fuel generalizing a with
  | zero => exact fun s _ hs => absurd hs (Nat.not_lt_zero _)
  | succ fuel ih =>
    refine .bind ((hb a).level hle) fun t => ?_
    cases t with
    | again a' => exact ih (by omega) a'
    | done b => exact .pure rfl fun _ h => h

/-! ## §5. From one state.

Where a state says exactly what is ahead, a computation is followed step by
step; that it returns at all is `Runs`' business. -/

/-- Every result of `x` from `s` satisfies `Q`. -/
def Leads (x : Fueled σ α) (s : σ) (Q : α → σ → Prop) : Prop :=
  ∀ a s', x s = some (a, s') → Q a s'

section Leading

variable {x : Fueled σ α} {f : α → Fueled σ β} {s s' : σ} {a : α} {P Q : α → σ → Prop}
  {S : β → σ → Prop}

theorem leads_of_run (h : x s = some (a, s')) (hq : Q a s') : Leads x s Q := by
  intro b s'' hrun
  rw [h] at hrun
  injection hrun with hrun
  injection hrun with hb hs
  exact hb ▸ hs ▸ hq

theorem leads_pure (h : Q a s) : Leads (pure a) s Q := leads_of_run rfl h

theorem Leads.post (hx : Leads x s P) (h : ∀ a s', P a s' → Q a s') : Leads x s Q :=
  fun b s' hrun => h b s' (hx b s' hrun)

/-- **Sequencing.** -/
theorem Leads.bind (hx : Leads x s P) (hf : ∀ a s', P a s' → Leads (f a) s' S) :
    Leads (x >>= f) s S := by
  intro b s₂ hrun
  cases hxs : x s with
  | none =>
    have hnone : (x >>= f) s = none := by
      show (x s >>= fun p => f p.1 p.2) = none
      rw [hxs]
      rfl
    rw [hnone] at hrun
    simp at hrun
  | some r =>
    obtain ⟨a, s₁⟩ := r
    rw [bind_run hxs] at hrun
    exact hf a s₁ (hx a s₁ hxs) b s₂ hrun

/-- A step whose outcome is known. -/
theorem leads_step (h : x s = some (a, s')) (hf : Leads (f a) s' S) : Leads (x >>= f) s S :=
  fun b s₂ hrun => hf b s₂ ((bind_run h).symm.trans hrun)

/-- A loop, one turn further. -/
theorem leads_iter {body : α → Fueled σ (Turn α β)} (hb : Leads (body a) s fun t s' =>
      match t with
      | .again a' => ∀ fuel, Leads (iter body fuel a') s' S
      | .done b => S b s') (fuel : Nat) : Leads (iter body fuel a) s S := by
  cases fuel with
  | zero => exact fun b s' h => absurd h (by simp [iter])
  | succ fuel =>
    refine .bind hb fun t s' ht => ?_
    cases t with
    | again a' => exact ht fuel
    | done b => exact leads_pure ht

/-- What every turn keeps, the loop keeps. -/
theorem iter_leads {body : α → Fueled σ (Turn α β)} {I : σ → Prop}
    (hb : ∀ a s, I s → Leads (body a) s fun _ s' => I s') (fuel : Nat) (a : α) (hs : I s) :
    Leads (iter body fuel a) s fun _ s' => I s' := by
  induction fuel generalizing a s with
  | zero => exact fun b s' h => absurd h (by simp [iter])
  | succ fuel ih =>
    refine .bind (hb a s hs) fun t s' ht => ?_
    cases t with
    | again a' => exact ih a' ht
    | done b => exact leads_pure ht

theorem Runs.leads {R : Rank σ} {n : Nat} {g : α → Gain} (hx : Runs R n g x) (hok : R.ok s)
    (hs : R.size s < n) : Leads x s fun a s' => R.ok s' ∧ R.Moves (g a) s s' := by
  obtain ⟨a, s', hrun, hok', hm⟩ := hx s hok hs
  exact leads_of_run hrun ⟨hok', hm⟩

end Leading

/-! ## §6. Results.

What holds of every result, whatever state the run starts and ends in. -/

/-- Every result of `x` satisfies `Q`. -/
def Gives (x : Fueled σ α) (Q : α → Prop) : Prop := ∀ s a s', x s = some (a, s') → Q a

theorem Gives.pure {Q : α → Prop} {a : α} (h : Q a) : Gives (Pure.pure a : Fueled σ α) Q :=
  fun _ => leads_pure h

theorem Gives.bind {x : Fueled σ α} {f : α → Fueled σ β} {P : α → Prop} {Q : β → Prop}
    (hx : Gives x P) (hf : ∀ a, P a → Gives (f a) Q) : Gives (x >>= f) Q :=
  fun s => Leads.bind (hx s) fun a s' ha => hf a ha s'

/-- Only the last step matters. -/
theorem Gives.last {x : Fueled σ α} {f : α → Fueled σ β} {Q : β → Prop}
    (hf : ∀ a, Gives (f a) Q) : Gives (x >>= f) Q :=
  Gives.bind (P := fun _ => True) (fun _ _ _ _ => trivial) fun a _ => hf a

theorem Gives.opt {x : Fueled σ (Option α)} {f : Option α → Fueled σ β} {Q : β → Prop}
    (hnone : Gives (f none) Q) (hsome : ∀ a, Gives (f (some a)) Q) : Gives (x >>= f) Q := by
  refine .last fun o => ?_
  cases o with
  | none => exact hnone
  | some a => exact hsome a

theorem Gives.ite {c : Prop} [Decidable c] {x y : Fueled σ α} {Q : α → Prop}
    (hx : Gives x Q) (hy : Gives y Q) : Gives (if c then x else y) Q := by
  split
  · exact hx
  · exact hy

/-- What a turn gives: an accumulator with `I`, or a result with `Q`. -/
def turnGives {α β : Type} (I : α → Prop) (Q : β → Prop) : Turn α β → Prop
  | .again a => I a
  | .done b => Q b

theorem iter_gives {body : α → Fueled σ (Turn α β)} {I : α → Prop} {Q : β → Prop}
    (hb : ∀ a, I a → Gives (body a) (turnGives I Q)) (fuel : Nat) (a : α) (ha : I a) :
    Gives (iter body fuel a) Q := by
  induction fuel generalizing a with
  | zero => exact fun s b s' h => absurd h (by simp [iter])
  | succ fuel ih =>
    refine .bind (hb a ha) fun t ht => ?_
    cases t with
    | again a' => exact ih a' ht
    | done b => exact .pure ht

/-- A run together with what its results satisfy. -/
theorem Runs.gives {R : Rank σ} {n : Nat} {g : α → Gain} {x : Fueled σ α} {Q : α → Prop}
    (hx : Runs R n g x) (hq : Gives x Q) (F : Prop) :
    Meets R n g (fun _ => F) x (fun a _ => F ∧ Q a) := by
  intro s hok hs hp
  obtain ⟨a, s', hrun, hok', hm, hf⟩ := hx.keeps F s hok hs hp
  exact ⟨a, s', hrun, hok', hm, fun h0 => ⟨hf h0, hq s a s' hrun⟩⟩

end Progress
