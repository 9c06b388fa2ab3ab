/-
  Toke.Stdlib.Time — **MILLISECOND ARITHMETIC OF `std.time`.**

  `tk_time_add` and `tk_time_diff` mix `uint64_t` timestamps with `int64_t`
  durations and mean to saturate.  A signed operation that overflows has no
  meaning in C; here it is `none`, so a run that gives a value has met no
  overflow.  `tk_time_add` always saturates exactly.  `tk_time_add_days`
  overflows in its product, and `tk_time_diff` in its negation at one
  difference, 2^63.
-/
import Toke.Lexer.Token

namespace Toke.Stdlib.Time

/-! ## §1. Sixty-four bits. -/

/-- `uint64_t`. -/
abbrev U64 := {n : Nat // n < 2 ^ 64}

/-- `int64_t`. -/
abbrev I64 := {n : Int // -2 ^ 63 ≤ n ∧ n < 2 ^ 63}

/-- The result of a signed operation; overflow is undefined. -/
def signed (n : Int) : Option I64 :=
  if h : -2 ^ 63 ≤ n ∧ n < 2 ^ 63 then some ⟨n, h⟩ else none

/-- The conversion `(uint64_t)`. -/
def toU64 (n : Int) : U64 := ⟨(n % 2 ^ 64).toNat, by omega⟩

/-- The conversion `(int64_t)`. -/
def toI64 (n : Nat) : I64 := ⟨(n + 2 ^ 63) % 2 ^ 64 - 2 ^ 63, by omega⟩

/-- `UINT64_MAX`. -/
def uint64Max : U64 := ⟨2 ^ 64 - 1, by decide⟩

/-- `INT64_MAX`. -/
def int64Max : I64 := ⟨2 ^ 63 - 1, by decide⟩

/-- `INT64_MIN`. -/
def int64Min : I64 := ⟨-2 ^ 63, by decide⟩

/-! ## §2. The functions. -/

/-- The size of a negative duration.  The one value that cannot be negated is
taken as `INT64_MAX + 1`. -/
def magnitude (duration : I64) : Option U64 :=
  if duration = int64Min then some (toU64 (int64Max.1 + 1))
  else (signed (-duration.1)).map fun d => toU64 d.1

/-- `tk_time_add`. -/
def tkTimeAdd (ts : U64) (duration : I64) : Option U64 :=
  if 0 ≤ duration.1 then
    let delta := toU64 duration.1
    if delta.1 > 2 ^ 64 - 1 - ts.1 then some uint64Max else some (toU64 (ts.1 + delta.1))
  else (magnitude duration).bind fun delta =>
    if delta.1 > ts.1 then some ⟨0, by decide⟩ else some (toU64 (ts.1 - delta.1 : Nat))

/-- `tk_time_diff`. -/
def tkTimeDiff (ts1 ts2 : U64) : Option I64 :=
  if ts2.1 ≤ ts1.1 then
    let d := ts1.1 - ts2.1
    if d > 2 ^ 63 - 1 then some int64Max else some (toI64 d)
  else
    let d := ts2.1 - ts1.1
    if d > 2 ^ 63 - 1 + 1 then some int64Min else signed (-(toI64 d).1)

/-- `tk_time_add_days`: the product `n * 86400LL * 1000LL` is signed. -/
def tkTimeAddDays (ts : U64) (n : I64) : Option U64 :=
  (signed (n.1 * 86400)).bind fun seconds => (signed (seconds.1 * 1000)).bind (tkTimeAdd ts)

/-! ## §3. Saturation. -/

/-- The nearest `uint64_t`. -/
def clampU64 (n : Int) : U64 := ⟨(max 0 (min n (2 ^ 64 - 1))).toNat, by omega⟩

/-- The nearest `int64_t`. -/
def clampI64 (n : Int) : I64 := ⟨max (-2 ^ 63) (min n (2 ^ 63 - 1)), by omega⟩

theorem signed_eq_some {n : Int} {x : I64} : signed n = some x ↔ n = x.1 := by
  unfold signed
  by_cases h : -2 ^ 63 ≤ n ∧ n < 2 ^ 63
  · rw [dif_pos h, Option.some.injEq, Subtype.ext_iff]
  · rw [dif_neg h]
    constructor
    · intro hx
      cases hx
    · intro hx
      exact absurd (hx ▸ x.2) h

theorem magnitude_eq {d : I64} (h : d.1 < 0) : magnitude d = some (toU64 (-d.1)) := by
  unfold magnitude
  by_cases hmin : d = int64Min
  · subst hmin
    rfl
  · have hd := d.2
    have hne : d.1 ≠ -2 ^ 63 := fun h => hmin (Subtype.ext h)
    rw [if_neg hmin, signed, dif_pos (by omega)]
    rfl

theorem toU64_val {n : Int} (h : 0 ≤ n) (h' : n < 2 ^ 64) : ((toU64 n).1 : Int) = n := by
  dsimp only [toU64]
  omega

theorem tkTimeAdd_saturates (ts : U64) (d : I64) : tkTimeAdd ts d = some (clampU64 (ts.1 + d.1)) := by
  have hts := ts.2
  have hd := d.2
  have same : ∀ {x y : U64}, (x.1 : Int) = y.1 → some x = some y :=
    fun h => congrArg some (Subtype.ext (Int.ofNat.inj h))
  unfold tkTimeAdd
  by_cases hpos : 0 ≤ d.1
  · have hdelta := toU64_val hpos (by omega)
    rw [if_pos hpos]
    by_cases hover : (toU64 d.1).1 > 2 ^ 64 - 1 - ts.1
    · rw [if_pos hover]
      refine same ?_
      dsimp only [clampU64, uint64Max]
      omega
    · rw [if_neg hover]
      refine same ((toU64_val (by omega) (by omega)).trans ?_)
      dsimp only [clampU64]
      omega
  · have hdelta := toU64_val (n := -d.1) (by omega) (by omega)
    rw [if_neg hpos, magnitude_eq (by omega), Option.bind_some]
    by_cases hunder : (toU64 (-d.1)).1 > ts.1
    · rw [if_pos hunder]
      refine same ?_
      dsimp only [clampU64]
      omega
    · rw [if_neg hunder]
      refine same ((toU64_val (by omega) (by omega)).trans ?_)
      dsimp only [clampU64]
      omega

theorem tkTimeDiff_iff (a b : U64) :
    tkTimeDiff a b = some (clampI64 (a.1 - b.1)) ↔ (b.1 : Int) - a.1 ≠ 2 ^ 63 := by
  have ha := a.2
  have hb := b.2
  unfold tkTimeDiff
  dsimp only [toI64]
  split
  · split <;> simp only [clampI64, int64Max, Option.some.injEq, Subtype.mk.injEq] <;> omega
  · split
    · simp only [clampI64, int64Min, Option.some.injEq, Subtype.mk.injEq]
      omega
    · rw [signed_eq_some]
      simp only [clampI64]
      omega

theorem tkTimeAddDays_iff (ts : U64) (n : I64) :
    tkTimeAddDays ts n = some (clampU64 (ts.1 + 86400000 * n.1)) ↔
      -2 ^ 63 ≤ 86400000 * n.1 ∧ 86400000 * n.1 < 2 ^ 63 := by
  unfold tkTimeAddDays
  constructor
  · intro h
    obtain ⟨seconds, hs, h⟩ := Option.bind_eq_some_iff.mp h
    obtain ⟨duration, hd, -⟩ := Option.bind_eq_some_iff.mp h
    rw [signed_eq_some] at hs hd
    have := duration.2
    omega
  · intro h
    have hs : signed (n.1 * 86400) = some ⟨n.1 * 86400, by omega⟩ := signed_eq_some.mpr rfl
    have hd : signed (n.1 * 86400 * 1000) = some ⟨86400000 * n.1, h⟩ :=
      signed_eq_some.mpr (by show _ = 86400000 * n.1; omega)
    rw [hs, Option.bind_some, hd, Option.bind_some, tkTimeAdd_saturates]

/-- The three functions saturate at these arguments, without overflow. -/
def Saturates (a b : U64) (d n : I64) : Prop :=
  tkTimeAdd a d = some (clampU64 (a.1 + d.1)) ∧
    tkTimeAddDays a n = some (clampU64 (a.1 + 86400000 * n.1)) ∧
    tkTimeDiff a b = some (clampI64 (a.1 - b.1))

/-- **When time arithmetic saturates exactly.** -/
theorem saturates_iff (a b : U64) (d n : I64) : Saturates a b d n ↔
      (-2 ^ 63 ≤ 86400000 * n.1 ∧ 86400000 * n.1 < 2 ^ 63) ∧ (b.1 : Int) - a.1 ≠ 2 ^ 63 := by
  unfold Saturates
  rw [tkTimeAddDays_iff, tkTimeDiff_iff]
  exact and_iff_right (tkTimeAdd_saturates a d)

/-- A difference of -2^63 is negated from the most negative value. -/
theorem diff_overflows : tkTimeDiff ⟨0, by decide⟩ ⟨2 ^ 63, by decide⟩ = none ∧
      tkTimeAddDays ⟨0, by decide⟩ int64Max = none := by
  decide

end Toke.Stdlib.Time
