/-
  Toke.Stdlib.JsonAgree — **WHERE THE TWO JSON READERS AGREE.**

  Both readers are the machine over lexemes, with one liberty each
  (`jsonDec_eq_run`, `streamAccepts_eq_run`): the skipper goes down the text by
  recursion, the token reader keeps the machine's stack itself.  They differ
  exactly on the texts that are well formed up to the liberties and use one of
  them (`readers_agree_iff`).
-/
import Toke.Stdlib.JsonLexemes

namespace Toke.Stdlib.Json

open List

variable {c : Char} {t : St} {st : List St} {x : Lexeme} {d fuel : Nat} {p r q s : List Char}
    {o : Option (List Char)}

/-! ## §1. Nesting. -/

/-- The characters of a number. -/
def Lexeme.numberLength : Lexeme → Nat
  | .num _ n => n
  | _ => 0

/-- The value around the lexemes, inside `d` containers, is nested less than 200
deep. -/
def Shallow (d : Nat) (xs : List Lexeme) : Prop := nesting d (topValue d xs) < 200

section Shallow

variable {d : Nat} {x : Lexeme} {xs : List Lexeme}

theorem Shallow.bound (h : Shallow d xs) : d < 200 := by
  have hle : d ≤ nesting d (topValue d xs) := by
    cases topValue d xs with
    | nil => exact Nat.le_refl d
    | cons y ys => exact Nat.le_max_left _ _
  exact Nat.lt_of_le_of_lt hle h

theorem Shallow.open (ho : x.opens) (h : Shallow d (x :: xs)) : Shallow (d + 1) xs := by
  unfold Shallow at h
  rw [topValue_open ho] at h
  unfold nesting at h
  rw [if_pos ho] at h
  exact (Nat.max_lt.mp h).2

theorem Shallow.close (ho : x.opens = false) (hc : x.closes) (hd : 0 < d)
    (h : Shallow (d + 1) (x :: xs)) : Shallow d xs := by
  unfold Shallow at h
  rw [topValue_close ho hc hd] at h
  unfold nesting at h
  rw [ho, if_pos hc] at h
  exact (Nat.max_lt.mp h).2

theorem Shallow.other (ho : x.opens = false) (hc : x.closes = false)
    (h : Shallow d (x :: xs)) : Shallow d xs := by
  unfold Shallow at h
  rw [topValue_other ho hc] at h
  unfold nesting at h
  rw [ho, hc] at h
  exact (Nat.max_lt.mp h).2

end Shallow

/-! ## §2. The skipper. -/

/-- The skipper passes over a lexeme that is a value and stops at any other. -/
def Passes (o : Option (List Char)) (y : Lexeme × List Char) : Prop :=
  y.1.opens = false ∧ ((o = some y.2 ∧ y.1.scalar true = true ∧ y.1.closes = false) ∨
    (o = none ∧ y.1.scalar true = false))

theorem Passes.ite {p : Prop} [Decidable p] {o o' : Option (List Char)} {y y' : Lexeme × List Char}
    (h : Passes o y) (h' : Passes o' y') : Passes (if p then o else o') (if p then y else y') := by
  split
  · exact h
  · exact h'

theorem skipScalar_lexeme (r : List Char) (hobj : c ≠ '\x7b') (harr : c ≠ '[') :
    ∃ y, lexeme (c :: r) = some y ∧ Passes (skipScalar (c :: r)) y := by
  have hbad : Passes none (.bad, []) := ⟨rfl, .inr ⟨rfl, rfl⟩⟩
  have hword : ∀ word, Passes (skipWord word (c :: r)) (wordLexeme word (c :: r)) := by
    intro word
    unfold wordLexeme
    cases skipWord word (c :: r) with
    | none => exact hbad
    | some q => exact ⟨rfl, .inl ⟨rfl, rfl, rfl⟩⟩
  refine ⟨_, rfl, ?_⟩
  by_cases hmark : c = '\x7d' ∨ c = ']' ∨ c = ':' ∨ c = ','
  · rcases hmark with rfl | rfl | rfl | rfl <;> exact ⟨rfl, .inr ⟨rfl, rfl⟩⟩
  · simp only [not_or] at hmark
    rw [if_neg hobj, if_neg hmark.1, if_neg harr, if_neg hmark.2.1, if_neg hmark.2.2.1,
      if_neg hmark.2.2.2]
    by_cases hquote : c = '"'
    · subst hquote
      show Passes (skipBody r) (strLexeme r)
      unfold strLexeme
      cases skipBody r with
      | none => exact hbad
      | some q => exact ⟨rfl, .inl ⟨rfl, rfl, rfl⟩⟩
    · unfold skipScalar
      dsimp only
      rw [if_neg hquote, if_neg hquote]
      have hnum : Passes (some (numberEnd (c :: r))) (.num (startsNumber (c :: r))
          ((c :: r).length - (numberEnd (c :: r)).length), numberEnd (c :: r)) :=
        ⟨rfl, .inl ⟨rfl, by simp [Lexeme.scalar], rfl⟩⟩
      exact (hword _).ite ((hword _).ite ((hword _).ite (hnum.ite hbad)))

/-- The states in which the skipper reads a value. -/
def St.awaits : St → Bool
  | .value => true
  | .objValue => true
  | .arrNext => true
  | _ => false

theorem advance_awaits {minuses : Bool} (ht : t.awaits) (st : List St) (x : Lexeme) :
    advance false minuses (t :: st) x = advanceValue minuses t st x := by
  cases t <;> first | rfl | cases ht

theorem advanceValue_scalar {minuses : Bool} (ho : x.opens = false) :
    advanceValue minuses t st x = if x.scalar minuses then some (t.after :: st) else none := by
  cases x <;> first | rfl | cases ho

/-- What a part of the skipper did, seen from the machine: it failed where the
machine does, or the machine gets from `st` to `st'` over what was skipped. -/
def Skips (st st' : List St) (d : Nat) (p : List Char) : Option (List Char) → Prop
  | none => run false true st (lexemes p) = false
  | some q => run false true st (lexemes p) = run false true st' (lexemes q) ∧
      q.length < p.length ∧ (0 < d → Shallow d (lexemes q))

/-- The parts of the skipper, with fuel enough for the text. -/
structure SkipSpec (fuel : Nat) : Prop where
  value : ∀ d p t st, 3 * p.length + 2 ≤ fuel → Shallow d (lexemes p) → t.awaits = true →
    Skips (t :: st) (t.after :: st) d p (skipValueD fuel d p)
  array : ∀ d r t st, 3 * r.length + 4 ≤ fuel → Shallow d (lexemes ('[' :: r)) →
    t.awaits = true → Skips (t :: st) (t.after :: st) d ('[' :: r) (skipArrayD fuel d ('[' :: r))
  elements : ∀ d p st, 3 * p.length + 3 ≤ fuel → Shallow (d + 1) (lexemes p) →
    Skips (.arrNext :: st) st d p (skipElements fuel d p)
  object : ∀ d r t st, 3 * r.length + 4 ≤ fuel → Shallow d (lexemes ('\x7b' :: r)) →
    t.awaits = true →
    Skips (t :: st) (t.after :: st) d ('\x7b' :: r) (skipObjectD fuel d ('\x7b' :: r))
  members : ∀ d p st, 3 * p.length + 3 ≤ fuel → Shallow (d + 1) (lexemes p) →
    Skips (.objNext :: st) st d p (skipMembers fuel d p)

theorem Skips.of_run {st₁ st' : List St} {p₁ : List Char}
    (hrun : run false true st (lexemes p) = run false true st₁ (lexemes p₁))
    (hlen : p₁.length ≤ p.length) (h : Skips st₁ st' d p₁ o) : Skips st st' d p o := by
  cases o with
  | none => exact hrun.trans h
  | some q => exact ⟨hrun.trans h.1, Nat.lt_of_lt_of_le h.2.1 hlen, h.2.2⟩

theorem Skips.of_skipWs {st' : List St} (h : Skips st st' d (skipWs p) o) : Skips st st' d p o :=
  h.of_run (by rw [lexemes_skipWs]) (skipWs_length_le p)

theorem ne_done_of_ne (h : t ≠ .done) : t :: st ≠ [.done] := fun heq =>
  h (cons.inj heq).1

theorem St.awaits_ne_done (h : t.awaits) : t ≠ .done := by
  rintro rfl
  cases h

theorem skipWs_cons_length (h : skipWs p = c :: r) : r.length < p.length := by
  have hle := skipWs_length_le p
  rw [h] at hle
  exact hle

/-- The first lexeme behind white space. -/
theorem lexemes_of_skipWs (hp : skipWs p = c :: r)
    (hx : lexeme (c :: r) = some (x, q)) : lexemes p = x :: lexemes q :=
  lexemes_cons (by rw [hp]; exact hx)

theorem skip_value (ih : SkipSpec fuel) (d : Nat) (p : List Char) (t : St) (st : List St)
    (hfuel : 3 * p.length + 2 ≤ fuel + 1) (hd : Shallow d (lexemes p))
    (ht : t.awaits) : Skips (t :: st) (t.after :: st) d p (skipValueD (fuel + 1) d p) := by
  have hdeep : ¬ maxDepth < d := by
    have hbound := hd.bound
    unfold maxDepth
    omega
  have hne : t :: st ≠ [.done] := ne_done_of_ne (St.awaits_ne_done ht)
  unfold skipValueD
  rw [if_neg hdeep]
  split
  · rename_i r hp
    have hlen := skipWs_cons_length hp
    rw [← lexemes_skipWs, hp] at hd
    have hobj := ih.object d r t st (by omega) hd ht
    exact Skips.of_skipWs (by rw [hp]; exact hobj)
  · rename_i r hp
    have hlen := skipWs_cons_length hp
    rw [← lexemes_skipWs, hp] at hd
    have harr := ih.array d r t st (by omega) hd ht
    exact Skips.of_skipWs (by rw [hp]; exact harr)
  · rename_i q hobj harr
    cases hp : skipWs p with
    | nil =>
      show run false true (t :: st) (lexemes p) = false
      rw [lexemes_of_end hp, run_nil hne]
    | cons c r =>
      have hc₁ : c ≠ '\x7b' := fun hc => hobj r (by rw [hp, hc])
      have hc₂ : c ≠ '[' := fun hc => harr r (by rw [hp, hc])
      obtain ⟨⟨x, q⟩, hx, ho, hcases⟩ := skipScalar_lexeme r hc₁ hc₂
      dsimp only at ho hcases
      have hlex := lexemes_of_skipWs hp hx
      rcases hcases with ⟨hskip, hs, hc⟩ | ⟨hskip, hs⟩
      · rw [hskip]
        have hstep : advance false true (t :: st) x = some (t.after :: st) := by
          rw [advance_awaits ht, advanceValue_scalar ho, if_pos hs]
        refine ⟨?_, ?_, fun _ => ?_⟩
        · rw [hlex, run_cons hne hstep]
        · have hlt := lexeme_length_lt hx
          have hle := skipWs_length_le p
          rw [hp] at hle
          omega
        · rw [hlex] at hd
          exact hd.other ho hc
      · rw [hskip]
        have hstep : advance false true (t :: st) x = none := by
          rw [advance_awaits ht, advanceValue_scalar ho, hs]
          rfl
        show run false true (t :: st) (lexemes p) = false
        rw [hlex, run_stuck hne hstep]

theorem run_congr {u : St} (ht : t ≠ .done) (hu : u ≠ .done)
    (h : advance false true (t :: st) x = advance false true (u :: st) x) (xs : List Lexeme) :
    run false true (t :: st) (x :: xs) = run false true (u :: st) (x :: xs) := by
  cases hnext : advance false true (u :: st) x with
  | none => rw [run_stuck (ne_done_of_ne ht) (h.trans hnext), run_stuck (ne_done_of_ne hu) hnext]
  | some st' => rw [run_cons (ne_done_of_ne ht) (h.trans hnext), run_cons (ne_done_of_ne hu) hnext]

/-- The brackets of a container, and the states behind the opening one and
behind a comma. -/
inductive Bracket : Lexeme → Char → St → St → Lexeme → Char → Prop
  | arr : Bracket .openArr '[' .arrFirst .arrNext .closeArr ']'
  | obj : Bracket .openObj '\x7b' .objFirst .objNext .closeObj '\x7d'

/-- Behind an opening bracket the machine only differs from the one behind a
comma if the container is closed at once. -/
theorem Bracket.run_first {first next : St} {close : Lexeme} {ch : Char}
    (h : Bracket x c first next close ch) (st : List St) (xs : List Lexeme)
    (hx : xs.head? ≠ some close) :
    run false true (first :: st) xs = run false true (next :: st) xs := by
  cases xs with
  | nil => cases h <;> rfl
  | cons y ys =>
    have hne : y ≠ close := fun h => hx (by rw [h]; rfl)
    cases h with
    | arr =>
      refine run_congr (by decide) (by decide) ?_ ys
      show (if y = .closeArr then some st else advanceValue true .arrFirst st y) = _
      rw [if_neg hne]
      cases y <;> rfl
    | obj =>
      refine run_congr (by decide) (by decide) ?_ ys
      show (if y = .closeObj then some st else if y = .str then some (.objColon :: st) else none) = _
      rw [if_neg hne]
      rfl

/-- Which character starts which mark. -/
theorem lexeme_mark (h : lexeme (c :: r) = some (x, q)) :
    (x = .closeArr → c = ']') ∧ (x = .closeObj → c = '\x7d') ∧ (x = .comma → c = ',') ∧
      (x = .colon → c = ':') := by
  refine ⟨?_, ?_, ?_, ?_⟩ <;> rintro rfl <;> cases lexeme_begins h with
  | mark hmark => simpa [marks] using hmark

theorem head_lexemes (h : (lexemes p).head? = some x) :
    ∃ c r q, skipWs p = c :: r ∧ lexeme (c :: r) = some (x, q) := by
  cases hp : skipWs p with
  | nil =>
    rw [lexemes_of_end hp] at h
    cases h
  | cons c r =>
    obtain ⟨y, q, hy⟩ : ∃ y q, lexeme (c :: r) = some (y, q) := ⟨_, _, rfl⟩
    rw [lexemes_of_skipWs hp hy] at h
    obtain rfl := Option.some.inj h
    exact ⟨c, r, q, rfl, hy⟩

/-- The machine stops at the first lexeme. -/
theorem run_stuck_at (ht : t ≠ .done) (h : ∀ {c r x q}, skipWs p = c :: r →
      lexeme (c :: r) = some (x, q) → advance false true (t :: st) x = none) :
    run false true (t :: st) (lexemes p) = false := by
  cases hp : skipWs p with
  | nil => rw [lexemes_of_end hp, run_nil (ne_done_of_ne ht)]
  | cons c r =>
    obtain ⟨x, q, hx⟩ : ∃ x q, lexeme (c :: r) = some (x, q) := ⟨_, _, rfl⟩
    rw [lexemes_of_skipWs hp hx, run_stuck (ne_done_of_ne ht) (h hp hx)]

/-- What may stand behind a value in a container: a comma or the closing
bracket. -/
inductive Sep : St → St → Lexeme → Char → Prop
  | arr : Sep .arrComma .arrNext .closeArr ']'
  | obj : Sep .objComma .objNext .closeObj '\x7d'

section Sep

variable {behind next : St} {close : Lexeme} {ch : Char} {q r : List Char} {d : Nat}

theorem Sep.ne_done (h : Sep behind next close ch) : behind ≠ .done := by
  cases h <;> decide

theorem Sep.closed (h : Sep behind next close ch) (st : List St) (hq : skipWs q = ch :: r) :
    run false true (behind :: st) (lexemes q) = run false true st (lexemes r) ∧
      (0 < d → Shallow (d + 1) (lexemes q) → Shallow d (lexemes r)) := by
  have hlex : lexemes q = close :: lexemes r := by cases h <;> exact lexemes_of_skipWs hq rfl
  have hstep : advance false true (behind :: st) close = some st := by cases h <;> rfl
  have hshape : close.opens = false ∧ close.closes := by cases h <;> exact ⟨rfl, rfl⟩
  rw [hlex, run_cons (ne_done_of_ne h.ne_done) hstep]
  exact ⟨rfl, fun hd hs => hs.close hshape.1 hshape.2 hd⟩

theorem Sep.comma (h : Sep behind next close ch) (st : List St) (hq : skipWs q = ',' :: r) :
    run false true (behind :: st) (lexemes q) = run false true (next :: st) (lexemes r) ∧
      (Shallow d (lexemes q) → Shallow d (lexemes r)) := by
  have hlex : lexemes q = .comma :: lexemes r := lexemes_of_skipWs hq rfl
  have hstep : advance false true (behind :: st) .comma = some (next :: st) := by cases h <;> rfl
  rw [hlex, run_cons (ne_done_of_ne h.ne_done) hstep]
  exact ⟨rfl, fun hs => hs.other rfl rfl⟩

theorem Sep.stuck (h : Sep behind next close ch) (st : List St)
    (hclose : ∀ r, skipWs q ≠ ch :: r) (hcomma : ∀ r, skipWs q ≠ ',' :: r) :
    run false true (behind :: st) (lexemes q) = false := by
  refine run_stuck_at h.ne_done fun {c r x _} hq hx => ?_
  obtain ⟨harr, hobj, hcom, -⟩ := lexeme_mark hx
  have hx₁ : x ≠ .comma := fun hc => hcomma r (by rw [hq, hcom hc])
  cases h with
  | arr =>
    show (if x = .closeArr then some st else if x = .comma then _ else none) = none
    rw [if_neg fun hx₂ => hclose r (by rw [hq, harr hx₂]), if_neg hx₁]
  | obj =>
    show (if x = .closeObj then some st else if x = .comma then _ else none) = none
    rw [if_neg fun hx₂ => hclose r (by rw [hq, hobj hx₂]), if_neg hx₁]

end Sep

/-- A container is closed at once, or goes on with its first part. -/
theorem Skips.container {first next : St} {close : Lexeme} {ch : Char}
    (h : Bracket x c first next close ch) (ht : t.awaits) (hd : Shallow d (lexemes (c :: r)))
    (hcases : (∃ q, skipWs r = ch :: q ∧ o = some q) ∨ ((∀ q, skipWs r ≠ ch :: q) ∧
      (Shallow (d + 1) (lexemes (skipWs r)) →
        Skips (next :: t.after :: st) (t.after :: st) d (skipWs r) o))) :
    Skips (t :: st) (t.after :: st) d (c :: r) o := by
  have hlex : lexemes (c :: r) = x :: lexemes r := by cases h <;> exact lexemes_cons rfl
  have hstep : advance false true (t :: st) x = some (first :: t.after :: st) := by
    rw [advance_awaits ht]
    cases h <;> rfl
  have hrun : run false true (t :: st) (lexemes (c :: r))
      = run false true (first :: t.after :: st) (lexemes r) := by
    rw [hlex, run_cons (ne_done_of_ne (St.awaits_ne_done ht)) hstep]
  rw [hlex] at hd
  have hin : Shallow (d + 1) (lexemes r) := hd.open (by cases h <;> rfl)
  rcases hcases with ⟨q, hq, rfl⟩ | ⟨hopen, hrest⟩
  · have hclose : lexemes r = close :: lexemes q := by cases h <;> exact lexemes_of_skipWs hq rfl
    rw [hclose] at hin hrun
    refine ⟨hrun.trans ?_, Nat.lt_succ_of_lt (skipWs_cons_length hq),
      hin.close (by cases h <;> rfl) (by cases h <;> rfl)⟩
    cases h <;> exact run_cons (ne_done_of_ne (by decide)) rfl
  · have hskips := (hrest (by rw [lexemes_skipWs]; exact hin)).of_skipWs
    refine hskips.of_run (hrun.trans (h.run_first _ _ fun hhead => ?_)) (Nat.le_succ _)
    obtain ⟨_, r', _, hr, hx⟩ := head_lexemes hhead
    cases h with
    | arr => exact hopen r' (by rw [hr, (lexeme_mark hx).1 rfl])
    | obj => exact hopen r' (by rw [hr, (lexeme_mark hx).2.1 rfl])

theorem skipArrayD_open (fuel d : Nat) (r : List Char) :
    skipArrayD (fuel + 1) d ('[' :: r) = match skipWs r with
      | ']' :: q => some q
      | q => skipElements fuel d q := by
  conv_lhs => unfold skipArrayD
  rfl

theorem skipObjectD_open (fuel d : Nat) (r : List Char) :
    skipObjectD (fuel + 1) d ('\x7b' :: r) = match skipWs r with
      | '\x7d' :: q => some q
      | q => skipMembers fuel d q := by
  conv_lhs => unfold skipObjectD
  rfl

theorem skip_array (ih : SkipSpec fuel) (d : Nat) (r : List Char) (t : St) (st : List St)
    (hfuel : 3 * r.length + 4 ≤ fuel + 1) (hd : Shallow d (lexemes ('[' :: r)))
    (ht : t.awaits) :
    Skips (t :: st) (t.after :: st) d ('[' :: r) (skipArrayD (fuel + 1) d ('[' :: r)) := by
  have hle := skipWs_length_le r
  rw [skipArrayD_open]
  refine Skips.container .arr ht hd ?_
  split
  · next q hq => exact .inl ⟨q, hq, rfl⟩
  · next hq => exact .inr ⟨hq, ih.elements d (skipWs r) _ (by omega)⟩

theorem skip_object (ih : SkipSpec fuel) (d : Nat) (r : List Char) (t : St) (st : List St)
    (hfuel : 3 * r.length + 4 ≤ fuel + 1) (hd : Shallow d (lexemes ('\x7b' :: r)))
    (ht : t.awaits) :
    Skips (t :: st) (t.after :: st) d ('\x7b' :: r) (skipObjectD (fuel + 1) d ('\x7b' :: r)) := by
  have hle := skipWs_length_le r
  rw [skipObjectD_open]
  refine Skips.container .obj ht hd ?_
  split
  · next q hq => exact .inl ⟨q, hq, rfl⟩
  · next hq => exact .inr ⟨hq, ih.members d (skipWs r) _ (by omega)⟩

/-- Behind a value the loop over a container ends, goes on or fails. -/
theorem Skips.behind {behind next : St} {close : Lexeme} {ch : Char}
    (hsep : Sep behind next close ch) {start : List St}
    (hrun : run false true start (lexemes p) = run false true (behind :: st) (lexemes q))
    (hlen : q.length < p.length) (hq : Shallow (d + 1) (lexemes q))
    (hcases : (∃ r, skipWs q = ch :: r ∧ o = some r) ∨
      (∃ r, skipWs q = ',' :: r ∧ (Shallow (d + 1) (lexemes r) → Skips (next :: st) st d r o)) ∨
      ((∀ r, skipWs q ≠ ch :: r) ∧ (∀ r, skipWs q ≠ ',' :: r) ∧ o = none)) :
    Skips start st d p o := by
  rcases hcases with ⟨r, hr, rfl⟩ | ⟨r, hr, hnext⟩ | ⟨hclose, hcomma, rfl⟩
  · obtain ⟨hend, hshallow⟩ := hsep.closed (d := d) st hr
    have hlt := skipWs_cons_length hr
    exact ⟨hrun.trans hend, by omega, fun hpos => hshallow hpos hq⟩
  · obtain ⟨hgo, hshallow⟩ := hsep.comma (d := d + 1) st hr
    have hlt := skipWs_cons_length hr
    exact (hnext (hshallow hq)).of_run (hrun.trans hgo) (by omega)
  · exact hrun.trans (hsep.stuck st hclose hcomma)

theorem skip_elements (ih : SkipSpec fuel) (d : Nat) (p : List Char) (st : List St)
    (hfuel : 3 * p.length + 3 ≤ fuel + 1) (hd : Shallow (d + 1) (lexemes p)) :
    Skips (.arrNext :: st) st d p (skipElements (fuel + 1) d p) := by
  have hle := skipWs_length_le p
  have hvalue := (ih.value (d + 1) (skipWs p) .arrNext st (by omega)
    (by rw [lexemes_skipWs]; exact hd) rfl).of_skipWs
  unfold skipElements
  by_cases hp : p = []
  · rw [hp]
    rfl
  · rw [if_neg hp]
    cases hskip : skipValueD fuel (d + 1) (skipWs p) with
    | none =>
      rw [hskip] at hvalue
      exact hvalue
    | some q =>
      rw [hskip] at hvalue
      obtain ⟨hrun, hlen, hq⟩ := hvalue
      refine Skips.behind .arr hrun hlen (hq (Nat.succ_pos d)) ?_
      dsimp only
      split
      · rename_i r hr
        exact .inl ⟨r, hr, rfl⟩
      · rename_i r hr
        have hlt := skipWs_cons_length hr
        exact .inr (.inl ⟨r, hr, ih.elements d r st (by omega)⟩)
      · rename_i hclose hcomma
        exact .inr (.inr ⟨hclose, hcomma, rfl⟩)

/-- Only a quote starts a string. -/
theorem lexeme_quote (h : lexeme (c :: r) = some (.str, q)) : c = '"' ∧ skipBody r = some q := by
  cases lexeme_begins h with
  | mark hmark => simp [marks] at hmark
  | str hquote hbody => exact ⟨hquote, hbody⟩

/-- The key of a member, a string as the machine reads it. -/
theorem skipString_lexeme (h : skipString (skipWs p) = some q) :
    lexemes p = .str :: lexemes q ∧ q.length < p.length := by
  unfold skipString at h
  split at h
  · rename_i r hp
    have hlex : lexeme ('"' :: r) = some (.str, q) := by
      show some (strLexeme r) = _
      rw [strLexeme, h]
    have hlt := skipBody_length_lt _ r q (Nat.le_refl _) h
    have hcons := skipWs_cons_length hp
    exact ⟨lexemes_of_skipWs hp hlex, by omega⟩
  · cases h

/-- No key: the machine stops as well. -/
theorem run_objNext_stuck (h : skipString (skipWs p) = none) (st : List St) :
    run false true (.objNext :: st) (lexemes p) = false := by
  refine run_stuck_at (by decide) fun {c r x _} hp hx => ?_
  have hne : x ≠ .str := by
    rintro rfl
    obtain ⟨rfl, hbody⟩ := lexeme_quote hx
    rw [hp] at h
    cases h.symm.trans hbody
  show (if x = .str then _ else none) = none
  rw [if_neg hne]

theorem run_objColon_stuck (h : ∀ r, skipWs p ≠ ':' :: r) (st : List St) :
    run false true (.objColon :: st) (lexemes p) = false := by
  refine run_stuck_at (by decide) fun {c r x _} hp hx => ?_
  have hne : x ≠ .colon := fun hc => h r (by rw [hp, (lexeme_mark hx).2.2.2 hc])
  show (if x = .colon then _ else none) = none
  rw [if_neg hne]

theorem skip_members (ih : SkipSpec fuel) (d : Nat) (p : List Char) (st : List St)
    (hfuel : 3 * p.length + 3 ≤ fuel + 1) (hd : Shallow (d + 1) (lexemes p)) :
    Skips (.objNext :: st) st d p (skipMembers (fuel + 1) d p) := by
  unfold skipMembers
  by_cases hp : p = []
  · rw [hp]
    rfl
  rw [if_neg hp]
  cases hkey : skipString (skipWs p) with
  | none => exact run_objNext_stuck hkey st
  | some q =>
    obtain ⟨hlex, hlen⟩ := skipString_lexeme hkey
    have hstr : run false true (.objNext :: st) (lexemes p)
        = run false true (.objColon :: st) (lexemes q) := by
      rw [hlex]
      exact run_cons (ne_done_of_ne (by decide)) rfl
    rw [hlex] at hd
    have hd' : Shallow (d + 1) (lexemes q) := hd.other rfl rfl
    dsimp only
    split
    · rename_i r hr
      have hcolon : lexemes q = .colon :: lexemes r := lexemes_of_skipWs hr rfl
      have hin : run false true (.objNext :: st) (lexemes p)
          = run false true (.objValue :: st) (lexemes r) := by
        rw [hstr, hcolon]
        exact run_cons (ne_done_of_ne (by decide)) rfl
      rw [hcolon] at hd'
      have hlt := skipWs_cons_length hr
      have hle := skipWs_length_le r
      have hvalue := (ih.value (d + 1) (skipWs r) .objValue st (by omega)
        (by rw [lexemes_skipWs]; exact hd'.other rfl rfl) rfl).of_skipWs
      cases hskip : skipValueD fuel (d + 1) (skipWs r) with
      | none =>
        rw [hskip] at hvalue
        exact hin.trans hvalue
      | some v =>
        rw [hskip] at hvalue
        obtain ⟨hrun, hvlen, hv⟩ := hvalue
        refine Skips.behind .obj (hin.trans hrun) (by omega) (hv (Nat.succ_pos d)) ?_
        dsimp only
        split
        · rename_i r' hr'
          exact .inl ⟨r', hr', rfl⟩
        · rename_i r' hr'
          have hlt' := skipWs_cons_length hr'
          exact .inr (.inl ⟨r', hr', ih.members d r' st (by omega)⟩)
        · rename_i hclose hcomma
          exact .inr (.inr ⟨hclose, hcomma, rfl⟩)
    · rename_i hnone
      exact hstr.trans (run_objColon_stuck hnone st)

theorem skipSpec : ∀ fuel, SkipSpec fuel := by
  intro fuel
  induction fuel with
  | zero => constructor <;> intros <;> omega
  | succ fuel ih =>
    exact ⟨skip_value ih, skip_array ih, skip_elements ih, skip_object ih, skip_members ih⟩

/-- A text whose top level is an object or an array. -/
def isContainer (s : List Char) : Bool := (skipWs s).head? = some '\x7b' || (skipWs s).head? = some '['

/-- **The skipper is the machine** that tolerates a minus sign without a digit. -/
theorem jsonDec_eq_run (hd : Shallow 0 (lexemes s)) (hs : isContainer s) :
    jsonDec s = run false true [.value] (lexemes s) := by
  have hle := skipWs_length_le s
  have hfound : ∀ o, Skips [.value] [.done] 0 (skipWs s) o →
      o.isSome = run false true [.value] (lexemes s) := by
    intro o ho
    have h := ho.of_skipWs
    cases o with
    | none => exact h.symm
    | some q => exact (h.1.trans (run_done false true _)).symm
  unfold jsonDec
  unfold isContainer at hs
  cases hp : skipWs s with
  | nil =>
    rw [hp] at hs
    cases hs
  | cons c r =>
    rw [← lexemes_skipWs, hp] at hd
    rw [hp] at hs hfound hle
    have hfuel : 3 * r.length + 4 ≤ skipFuel s := by
      unfold skipFuel
      rw [length_cons] at hle
      omega
    have hc : c = '\x7b' ∨ c = '[' := by simpa using hs
    rcases hc with rfl | rfl
    · exact hfound _ ((skipSpec _).object 0 r .value [] hfuel hd rfl)
    · exact hfound _ ((skipSpec _).array 0 r .value [] hfuel hd rfl)

/-! ## §3. The token reader. -/

/-- The state of the machine. -/
def JsonStreamState.toSt : JsonStreamState → St
  | .value => .value
  | .objKeyOrEnd => .objFirst
  | .objColon => .objColon
  | .objValue => .objValue
  | .objComma => .objComma
  | .arrValueOrEnd => .arrFirst
  | .arrComma => .arrComma
  | .done => .done

/-- An entry below the top.  The bottom one keeps its first state until the
value is closed. -/
def JsonStreamState.waiting : JsonStreamState → St
  | .value => .done
  | t => t.toSt

/-- The stream as states of the machine. -/
def JsonStream.machine (s : JsonStream) : List St := s.state.toSt :: s.below.map (·.waiting)

/-- The entries below the top. -/
inductive Waits : List JsonStreamState → Prop
  | bottom : Waits [.value]
  | deeper {t : JsonStreamState} {below : List JsonStreamState} :
      t = .objComma ∨ t = .arrComma → Waits below → Waits (t :: below)

/-- A state inside an array or object. -/
def JsonStreamState.inner : JsonStreamState → Bool
  | .value => false
  | .done => false
  | _ => true

/-- The stacks the reader builds. -/
inductive Shape : JsonStreamState → List JsonStreamState → Prop
  | start : Shape .value []
  | ended : Shape .done []
  | inside {t : JsonStreamState} {below : List JsonStreamState} :
      t.inner = true → Waits below → Shape t below

theorem Shape.of_nil {t : JsonStreamState} (h : Shape t []) : t = .value ∨ t = .done := by
  cases h with
  | start => exact .inl rfl
  | ended => exact .inr rfl
  | inside _ hw => cases hw

/-- A reader in the middle of a text. -/
structure Ready (s : JsonStream) : Prop where
  shape : Shape s.state s.below
  shallow : s.state = .value ∨ 0 < s.depth → Shallow s.depth (lexemes s.rest)
  short : ∀ x ∈ lexemes s.rest, x.numberLength < 64

/-- What a call did, seen from the machine. -/
def Goes (s : JsonStream) : JsonStream × Except JsonStreamErr JsonToken → Prop
  | (_, .error _) => run true false s.machine (lexemes s.rest) = false
  | (s', .ok token) =>
    if token = .done then run true false s.machine (lexemes s.rest) = true
    else run true false s.machine (lexemes s.rest) = run true false s'.machine (lexemes s'.rest) ∧
      s'.rest.length < s.rest.length ∧ Ready s'

theorem JsonStream.machine_ne_done {s : JsonStream} (hs : s.state ≠ .done) :
    s.machine ≠ [.done] := by
  refine ne_done_of_ne ?_
  cases hstate : s.state <;> first | decide | exact absurd hstate hs

/-- A call goes on from a reader with the same run. -/
theorem Goes.of_run {s : JsonStream} (s' : JsonStream) {o : JsonStream × Except JsonStreamErr JsonToken}
    (hrun : run true false s.machine (lexemes s.rest) = run true false s'.machine (lexemes s'.rest))
    (hlen : s'.rest.length ≤ s.rest.length) (h : Goes s' o) : Goes s o := by
  obtain ⟨s'', _ | token⟩ := o
  · exact hrun.trans h
  · unfold Goes at h ⊢
    rw [← hrun] at h
    by_cases htoken : token = .done
    · simpa only [if_pos htoken] using h
    · simp only [if_neg htoken] at h ⊢
      exact ⟨h.1, Nat.lt_of_lt_of_le h.2.1 hlen, h.2.2⟩

/-- A reader that is one lexeme further, as the machine is. -/
theorem Ready.step {s s' : JsonStream} (h : Ready s) (hlex : lexemes s.rest = x :: lexemes r)
    (hrest : s'.rest = r) (hstep : advance true false s.machine x = some s'.machine)
    (hshape : Shape s'.state s'.below) (hvalue : s'.state ≠ .value) : Ready s' where
  shape := hshape
  shallow := by
    intro hpos
    have hpos' : 0 < s'.depth := hpos.resolve_left hvalue
    have hdepth : ∀ t : JsonStream, (t.below.map (·.waiting)).length = t.depth := fun t =>
      length_map _
    have hold : s.state = .value ∨ 0 < s.depth := by
      by_cases hstate : s.state = .value
      · exact .inl hstate
      · refine .inr ?_
        cases hb : s.below with
        | nil =>
          have hs := h.shape
          rw [hb] at hs
          have hdone : s.state = .done := hs.of_nil.resolve_left hstate
          unfold JsonStream.machine at hstep
          rw [hdone] at hstep
          cases hstep
        | cons t below =>
          unfold JsonStream.depth
          rw [hb]
          exact Nat.succ_pos _
    have hsh := h.shallow hold
    rw [hlex] at hsh
    rw [hrest]
    rcases advance_next hstep with ⟨ho, hc, hst⟩ | ⟨ho, u, v, -, hst⟩ | ⟨ho, hc, u, hst⟩
    all_goals
      have hlen := congrArg length hst
      simp only [JsonStream.machine, length_cons, hdepth] at hlen
    · have heq : s.depth = s'.depth + 1 := by omega
      rw [heq] at hsh
      exact hsh.close ho hc hpos'
    · have heq : s'.depth = s.depth + 1 := by omega
      rw [heq]
      exact hsh.open ho
    · have heq : s'.depth = s.depth := by omega
      rw [heq]
      exact hsh.other ho hc
  short := by
    intro y hmem
    rw [hrest] at hmem
    exact h.short y (by rw [hlex]; exact mem_cons_of_mem x hmem)

section Calls

variable {s : JsonStream} {x : Lexeme} {r : List Char}

variable {s' : JsonStream} {token : JsonToken} {t u : JsonStreamState}
    {below : List JsonStreamState} {c : Char}

theorem Goes.step (h : Ready s) (hdone : s.state ≠ .done) (hlex : lexemes s.rest = x :: lexemes r)
    (hlen : r.length < s.rest.length) (hrest : s'.rest = r)
    (hstep : advance true false s.machine x = some s'.machine) (hshape : Shape s'.state s'.below)
    (hvalue : s'.state ≠ .value) (htoken : token ≠ .done) :
    Goes s (s', .ok token) := by
  unfold Goes
  dsimp only
  rw [if_neg htoken]
  refine ⟨?_, by rw [hrest]; exact hlen, h.step hlex hrest hstep hshape hvalue⟩
  rw [hlex, run_cons (JsonStream.machine_ne_done hdone) hstep, hrest]

theorem Goes.stuck {e : JsonStreamErr} (hdone : s.state ≠ .done)
    (hlex : lexemes s.rest = x :: lexemes r) (hstep : advance true false s.machine x = none) :
    Goes s (s', .error e) := by
  unfold Goes
  rw [hlex, run_stuck (JsonStream.machine_ne_done hdone) hstep]

/-- The states that expect a value. -/
def JsonStreamState.awaits : JsonStreamState → Bool
  | .value => true
  | .objValue => true
  | .arrValueOrEnd => true
  | _ => false

theorem awaits_ne_done (h : s.state.awaits) : s.state ≠ .done := by
  intro hdone
  rw [hdone] at h
  cases h

theorem advance_stream (h : s.state.awaits) (hx : ¬ (s.state = .arrValueOrEnd ∧ x = .closeArr)) :
    advance true false s.machine x
      = advanceValue false s.state.toSt (s.below.map (·.waiting)) x := by
  unfold JsonStream.machine
  cases hstate : s.state <;> rw [hstate] at h hx <;> try first | rfl | cases h
  have hne : x ≠ .closeArr := fun heq => hx ⟨rfl, heq⟩
  show (if x = .closeArr then _ else _) = _
  rw [if_neg hne]
  rfl

theorem Shape.of_cons (h : Shape t (u :: below)) : t.inner ∧ Waits (u :: below) := by
  cases h with
  | inside hi hw => exact ⟨hi, hw⟩

/-- A value is expected at the start or inside a container. -/
theorem Shape.of_awaits (h : Shape t below) (ha : t.awaits) : (t = .value ∧ below = []) ∨
      ((t = .objValue ∨ t = .arrValueOrEnd) ∧ 0 < below.length ∧ Waits below) := by
  cases below with
  | nil =>
    rcases h.of_nil with rfl | rfl
    · exact .inl ⟨rfl, rfl⟩
    · cases ha
  | cons u below =>
    obtain ⟨hi, hw⟩ := h.of_cons
    refine .inr ⟨?_, Nat.succ_pos _, hw⟩
    revert ha hi
    cases t <;> decide

theorem scalar_machine (h : Ready s) (ha : s.state.awaits) (q : List Char) :
    (s.scalar q).machine = s.state.toSt.after :: s.below.map (·.waiting) ∧
      Shape (s.scalar q).state (s.scalar q).below ∧ (s.scalar q).state ≠ .value := by
  obtain ⟨rest, t, below⟩ := s
  unfold JsonStream.scalar JsonStream.depth JsonStream.machine
  rcases h.shape.of_awaits ha with ⟨rfl, rfl⟩ | ⟨hstate, hpos, hw⟩
  · exact ⟨rfl, .ended, nofun⟩
  · rw [if_neg (Nat.ne_of_gt hpos)]
    rcases hstate with rfl | rfl <;> exact ⟨rfl, .inside rfl hw, nofun⟩

theorem opened_machine (h : Ready s) (ha : s.state.awaits) (hu : u.inner)
    (q : List Char) :
    (s.opened q u).machine = u.toSt :: s.state.toSt.after :: s.below.map (·.waiting) ∧
      Shape (s.opened q u).state (s.opened q u).below ∧ (s.opened q u).state ≠ .value := by
  have hvalue : u ≠ .value := by
    rintro rfl
    cases hu
  obtain ⟨rest, t, below⟩ := s
  unfold JsonStream.opened JsonStream.depth JsonStream.machine
  rcases h.shape.of_awaits ha with ⟨rfl, rfl⟩ | ⟨hstate, hpos, hw⟩
  · exact ⟨rfl, .inside hu .bottom, hvalue⟩
  · rw [if_pos hpos]
    rcases hstate with rfl | rfl
    · exact ⟨rfl, .inside hu (.deeper (.inl rfl) hw), hvalue⟩
    · exact ⟨rfl, .inside hu (.deeper (.inr rfl) hw), hvalue⟩

theorem closed_machine (hw : Waits below) (p r : List Char) :
    ((⟨p, t, below⟩ : JsonStream).closed r).machine = below.map (·.waiting) ∧
      Shape ((⟨p, t, below⟩ : JsonStream).closed r).state ((⟨p, t, below⟩ : JsonStream).closed r).below ∧
      ((⟨p, t, below⟩ : JsonStream).closed r).state ≠ .value ∧
      ((⟨p, t, below⟩ : JsonStream).closed r).rest = r := by
  cases hw with
  | bottom => exact ⟨rfl, .ended, nofun, rfl⟩
  | deeper ht hbelow =>
    cases hbelow with
    | bottom => rcases ht with rfl | rfl <;> exact ⟨rfl, .inside rfl .bottom, nofun, rfl⟩
    | deeper hu hbelow =>
      rcases ht with rfl | rfl <;> exact ⟨rfl, .inside rfl (.deeper hu hbelow), nofun, rfl⟩

/-- The resolved text of a string is found where the skipper finds its end. -/
theorem streamBody_skipBody : ∀ (n : Nat) (r : List Char), r.length ≤ n →
    (streamBody r).map Prod.snd = skipBody r := by
  intro n
  induction n with
  | zero =>
    intro r hr
    obtain rfl : r = [] := length_eq_zero_iff.mp (by omega)
    rfl
  | succ n ih =>
    intro r hr
    unfold streamBody skipBody
    split
    · rfl
    · rfl
    · rename_i c t
      rw [← ih t (by simp only [length_cons] at hr; omega), Option.map_map]
      rfl
    · rfl
    · rename_i c t _ _ _
      rw [← ih t (by simp only [length_cons] at hr; omega), Option.map_map]
      rfl

/-- A quote starts a string for both or for none. -/
theorem quote_cases (t : List Char) : (streamBody t = none ∧ lexeme ('"' :: t) = some (.bad, [])) ∨
    ∃ text q, streamBody t = some (text, q) ∧ lexeme ('"' :: t) = some (.str, q) ∧
      q.length < t.length := by
  have hbody := streamBody_skipBody _ t (Nat.le_refl _)
  have hlex : lexeme ('"' :: t) = some (strLexeme t) := rfl
  unfold strLexeme at hlex
  cases hstream : streamBody t with
  | none =>
    rw [← hbody, hstream] at hlex
    exact .inl ⟨rfl, hlex⟩
  | some pair =>
    have hskip : skipBody t = some pair.2 := by
      rw [← hbody, hstream]
      rfl
    rw [hskip] at hlex
    exact .inr ⟨pair.1, pair.2, rfl, hlex, skipBody_length_lt _ t _ (Nat.le_refl _) hskip⟩

/-- Where a number starts, the reader finds its end where the skipper does, if
there is a digit and the number is short. -/
theorem streamParseNumber_cases (p : List Char) (hshort : p.length - (numberEnd p).length < 64) :
    (startsNumber p ∧ ∃ token, token ≠ .done ∧
      streamParseNumber p = (.ok token, numberEnd p)) ∨
    (startsNumber p = false ∧ ∃ e q, streamParseNumber p = (.error e, q)) := by
  unfold streamParseNumber
  by_cases hstart : startsNumber p
  · refine .inl ⟨hstart, ?_⟩
    unfold startsNumber at hstart
    rw [if_pos hstart]
    have hlen : ¬ 64 ≤ p.length - (skipExponent (skipFraction (skipDigits (skipMinus p)))).length := by
      show ¬ 64 ≤ p.length - (numberEnd p).length
      omega
    rw [if_neg hlen]
    refine ⟨_, ?_, rfl⟩
    unfold numberToken
    split
    · nofun
    · split <;> nofun
  · have hfalse : startsNumber p = false := by simpa using hstart
    refine .inr ⟨hfalse, ?_⟩
    unfold startsNumber at hstart
    rw [if_neg hstart]
    exact ⟨_, _, rfl⟩

/-- Opening a container inside fewer than 200 others. -/
theorem openContainer_goes (h : Ready s) (ha : s.state.awaits) (hu : u.inner)
    (hlex : lexemes s.rest = x :: lexemes r) (hlen : r.length < s.rest.length)
    (hx : ∀ t st, advanceValue false t st x = some (u.toSt :: t.after :: st)) (hne : x ≠ .closeArr)
    (htoken : token ≠ .done) : Goes s (openContainer s r u token) := by
  obtain ⟨hmachine, hshape, hvalue⟩ := opened_machine h ha hu r
  have hdepth : s.state = .value ∨ 0 < s.depth := by
    rcases h.shape.of_awaits ha with ⟨hv, -⟩ | ⟨-, hpos, -⟩
    · exact .inl hv
    · exact .inr hpos
  have hbound := (h.shallow hdepth).bound
  have hroom : ¬ maxDepth ≤ s.depth + 1 := by
    unfold maxDepth
    omega
  unfold openContainer
  rw [if_neg hroom]
  refine Goes.step h (awaits_ne_done ha) hlex hlen rfl ?_ hshape hvalue htoken
  rw [advance_stream ha (fun hc => hne hc.2), hx, hmachine]

theorem scalar_goes (h : Ready s) (ha : s.state.awaits)
    (hlex : lexemes s.rest = x :: lexemes r) (hlen : r.length < s.rest.length)
    (ho : x.opens = false) (hc : x.closes = false) (hs : x.scalar false)
    (htoken : token ≠ .done) : Goes s (s.scalar r, .ok token) := by
  obtain ⟨hmachine, hshape, hvalue⟩ := scalar_machine h ha r
  have hne : x ≠ .closeArr := by
    rintro rfl
    cases hc
  refine Goes.step h (awaits_ne_done ha) hlex hlen rfl ?_ hshape hvalue htoken
  rw [advance_stream ha (fun hx => hne hx.2), advanceValue_scalar ho, if_pos hs, hmachine]

theorem value_stuck (ha : s.state.awaits)
    (hlex : lexemes s.rest = x :: lexemes r) (ho : x.opens = false) (hs : x.scalar false = false)
    (hx : ¬ (s.state = .arrValueOrEnd ∧ x = .closeArr)) {e : JsonStreamErr} :
    Goes s (s', .error e) := by
  refine Goes.stuck (awaits_ne_done ha) hlex ?_
  rw [advance_stream ha hx, advanceValue_scalar ho, hs]
  rfl

/-- An array that is closed where a value might stand. -/
theorem closeArr_goes (h : Ready s) (hstate : s.state = .arrValueOrEnd)
    (hlex : lexemes s.rest = .closeArr :: lexemes r) (hlen : r.length < s.rest.length) :
    Goes s (({ s.closed r with
      state := if (s.closed r).depth = 0 then .done else afterValue (s.closed r).state }),
      .ok .arrayEnd) := by
  obtain ⟨rest, t, below⟩ := s
  subst hstate
  rcases h.shape.of_awaits rfl with ⟨hv, -⟩ | ⟨-, -, hw⟩
  · cases hv
  · obtain ⟨hmachine, hshape, hvalue, hrest⟩ := closed_machine (t := .arrValueOrEnd) hw rest r
    -- the parent waits behind its value already, so the state does not change
    have hsame : (if ((⟨rest, .arrValueOrEnd, below⟩ : JsonStream).closed r).depth = 0
          then JsonStreamState.done
          else afterValue ((⟨rest, .arrValueOrEnd, below⟩ : JsonStream).closed r).state)
        = ((⟨rest, .arrValueOrEnd, below⟩ : JsonStream).closed r).state := by
      cases hw with
      | bottom => rfl
      | deeper ht hbelow =>
        cases hbelow with
        | bottom | deeper hu hbelow => rcases ht with rfl | rfl <;> rfl
    rw [hsame]
    exact Goes.step h nofun hlex hlen hrest (by rw [hmachine]; rfl) hshape hvalue nofun

theorem streamWord_goes (h : Ready s) (ha : s.state.awaits) {word : List Char}
    (hlex : lexeme s.rest = some (wordLexeme (c :: word) s.rest)) (hws : skipWs s.rest = s.rest)
    (htoken : token ≠ .done) : Goes s (streamWord s (c :: word) token) := by
  unfold streamWord
  unfold wordLexeme at hlex
  cases hskip : skipWord (c :: word) s.rest with
  | none =>
    rw [hskip] at hlex
    have hbad : lexemes s.rest = .bad :: lexemes [] := lexemes_cons (by rw [hws]; exact hlex)
    exact value_stuck ha hbad rfl rfl nofun
  | some q =>
    rw [hskip] at hlex
    have hword : lexemes s.rest = .word :: lexemes q := lexemes_cons (by rw [hws]; exact hlex)
    exact scalar_goes h ha hword (skipWord_length_lt hskip) rfl rfl rfl htoken

/-- What starts with none of the marks and no quote. -/
theorem lexeme_word (t : List Char) (hobj : c ≠ '\x7b') (harr : c ≠ '[')
    (hmark : ¬ (c = '\x7d' ∨ c = ']' ∨ c = ':' ∨ c = ',')) (hquote : c ≠ '"') :
    lexeme (c :: t) = some (if c = 't' then wordLexeme ['t', 'r', 'u', 'e'] (c :: t)
      else if c = 'f' then wordLexeme ['f', 'a', 'l', 's', 'e'] (c :: t)
      else if c = 'n' then wordLexeme ['n', 'u', 'l', 'l'] (c :: t)
      else if c = '-' || isDigit c then
        (.num (startsNumber (c :: t)) ((c :: t).length - (numberEnd (c :: t)).length),
          numberEnd (c :: t))
      else (.bad, [])) := by
  simp only [not_or] at hmark
  unfold lexeme
  dsimp only
  rw [if_neg hobj, if_neg hmark.1, if_neg harr, if_neg hmark.2.1, if_neg hmark.2.2.1,
    if_neg hmark.2.2.2, if_neg hquote]

/-- **A value**, in any of the states that expect one. -/
theorem streamValue_goes {t : List Char} (h : Ready s) (ha : s.state.awaits)
    (hrest : s.rest = c :: t) (hws : skipWs s.rest = s.rest) : Goes s (streamValue s) := by
  have hcons : ∀ {x q}, lexeme (c :: t) = some (x, q) → lexemes s.rest = x :: lexemes q := fun hx =>
    lexemes_cons (by rw [hws, hrest]; exact hx)
  have hlen : t.length < s.rest.length := by
    rw [hrest]
    exact Nat.lt_succ_self _
  unfold streamValue
  rw [hrest]
  dsimp only
  by_cases hclose : s.state = .arrValueOrEnd ∧ c = ']'
  · obtain ⟨hstate, rfl⟩ := hclose
    rw [if_pos ⟨hstate, rfl⟩]
    have hgoes := closeArr_goes h hstate (hcons rfl) hlen
    split
    · rename_i hb
      have hshape := h.shape
      rw [hb, hstate] at hshape
      rcases hshape.of_nil with hv | hv <;> cases hv
    · exact hgoes
  rw [if_neg hclose]
  by_cases hobj : c = '\x7b'
  · subst hobj
    exact openContainer_goes h ha rfl (hcons rfl) hlen (fun _ _ => rfl) nofun nofun
  rw [if_neg hobj]
  by_cases harr : c = '['
  · subst harr
    exact openContainer_goes h ha rfl (hcons rfl) hlen (fun _ _ => rfl) nofun nofun
  rw [if_neg harr]
  by_cases hmark : c = '\x7d' ∨ c = ']' ∨ c = ':' ∨ c = ','
  · rcases hmark with rfl | rfl | rfl | rfl
    · exact value_stuck ha (hcons (x := .closeObj) rfl) rfl rfl nofun
    · exact value_stuck ha (hcons (x := .closeArr) rfl) rfl rfl fun hx => hclose ⟨hx.1, rfl⟩
    · exact value_stuck ha (hcons (x := .colon) rfl) rfl rfl nofun
    · exact value_stuck ha (hcons (x := .comma) rfl) rfl rfl nofun
  by_cases hquote : c = '"'
  · subst hquote
    rcases quote_cases t with ⟨hstream, hlex⟩ | ⟨text, q, hstream, hlex, hlt⟩
    · rw [hstream]
      exact value_stuck ha (hcons hlex) rfl rfl nofun
    · rw [hstream]
      exact scalar_goes h ha (hcons hlex) (by omega) rfl rfl rfl nofun
  rw [if_neg hquote]
  have hlex := lexeme_word t hobj harr hmark hquote
  rw [← hrest] at hlex
  by_cases ht : c = 't'
  · rw [if_pos ht] at hlex ⊢
    exact streamWord_goes h ha hlex hws nofun
  rw [if_neg ht] at hlex ⊢
  by_cases hf : c = 'f'
  · rw [if_pos hf] at hlex ⊢
    exact streamWord_goes h ha hlex hws nofun
  rw [if_neg hf] at hlex ⊢
  by_cases hn : c = 'n'
  · rw [if_pos hn] at hlex ⊢
    exact streamWord_goes h ha hlex hws nofun
  rw [if_neg hn] at hlex ⊢
  by_cases hnum : (c = '-' || isDigit c)
  · rw [if_pos hnum] at hlex ⊢
    have hcons' := lexemes_cons (by rw [hws]; exact hlex)
    have hshort := h.short _ (by rw [hcons']; exact mem_cons_self)
    rw [← hrest]
    rcases streamParseNumber_cases s.rest hshort with ⟨hstart, token, htoken, hparse⟩ |
      ⟨hstart, e, q, hparse⟩
    · rw [hparse]
      have hlt : (numberEnd s.rest).length < s.rest.length := by
        rw [hrest]
        exact numberEnd_length_lt hnum
      have hscalar : (Lexeme.num (startsNumber s.rest)
          (s.rest.length - (numberEnd s.rest).length)).scalar false := by
        rw [hstart]
        rfl
      exact scalar_goes h ha hcons' hlt rfl rfl hscalar htoken
    · rw [hparse]
      have hscalar : (Lexeme.num (startsNumber s.rest)
          (s.rest.length - (numberEnd s.rest).length)).scalar false = false := by
        rw [hstart]
        rfl
      exact value_stuck ha hcons' rfl hscalar nofun
  · rw [if_neg hnum] at hlex ⊢
    have hbad : lexemes s.rest = .bad :: lexemes [] := lexemes_cons (by rw [hws]; exact hlex)
    exact value_stuck ha hbad rfl rfl nofun

theorem Shape.of_inner (h : Shape t below) (ht : t.inner) : Waits below := by
  cases h with
  | start => cases ht
  | ended => cases ht
  | inside _ hw => exact hw

theorem Ready.skipWs (h : Ready s) : Ready { s with rest := Json.skipWs s.rest } where
  shape := h.shape
  shallow := by
    intro hpos
    have hs := h.shallow hpos
    rw [← lexemes_skipWs] at hs
    exact hs
  short := by
    intro y hmem
    rw [lexemes_skipWs] at hmem
    exact h.short y hmem

/-- **One call** of `json_streamnext`. -/
theorem streamnextLoop_goes : ∀ (fuel : Nat) (s : JsonStream), s.rest.length < fuel → Ready s →
    Goes s (streamnextLoop fuel s) := by
  intro fuel
  induction fuel with
  | zero => intro s hfuel; omega
  | succ fuel ih =>
    intro s hfuel hready
    have hle := skipWs_length_le s.rest
    have hws := skipWs_skipWs s.rest
    have h := hready.skipWs
    refine Goes.of_run { s with rest := Json.skipWs s.rest } (by rw [lexemes_skipWs]; rfl) hle ?_
    unfold streamnextLoop
    obtain ⟨rest, state, below⟩ := s
    dsimp only at hfuel hle hws h ⊢
    generalize Json.skipWs rest = rest at *
    have hcons : ∀ {c t x q}, rest = c :: t → lexeme (c :: t) = some (x, q) →
        lexemes rest = x :: lexemes q := fun hr hx => lexemes_cons (by rw [hws, hr]; exact hx)
    split
    · rename_i hdone
      obtain ⟨hdepth, rfl⟩ := hdone
      obtain rfl : below = [] := length_eq_zero_iff.mp hdepth
      exact run_done true false _
    · rename_i hdone
      have hstate : state ≠ .done := by
        rintro rfl
        refine hdone ⟨?_, rfl⟩
        have hshape := h.shape
        cases hshape with
        | ended => rfl
        | inside hi _ => cases hi
      cases rest with
      | nil => exact run_nil (JsonStream.machine_ne_done hstate)
      | cons c t =>
        have hlen : t.length < (c :: t).length := Nat.lt_succ_self _
        obtain ⟨x, q, hx⟩ : ∃ x q, lexeme (c :: t) = some (x, q) := ⟨_, _, rfl⟩
        have hlex := hcons rfl hx
        obtain ⟨harr, hobj, hcom, hcol⟩ := lexeme_mark hx
        have hpass : ∀ {y u}, lexeme (c :: t) = some (y, t) → u ≠ .value → Shape u below →
            advance true false (state.toSt :: below.map (·.waiting)) y
              = some (u.toSt :: below.map (·.waiting)) →
            Goes ⟨c :: t, state, below⟩ (streamnextLoop fuel ⟨t, u, below⟩) := by
          intro y u hy hu hshape hstep
          have hnext : Ready ⟨t, u, below⟩ := h.step (hcons rfl hy) rfl hstep hshape hu
          have hnextfuel : t.length < fuel := by
            omega
          refine Goes.of_run ⟨t, u, below⟩ ?_ (Nat.le_of_lt hlen) (ih ⟨t, u, below⟩ hnextfuel hnext)
          rw [hcons rfl hy]
          exact run_cons (JsonStream.machine_ne_done hstate) hstep
        have hclosed : ∀ {y token}, lexeme (c :: t) = some (y, t) → state.inner →
            advance true false (state.toSt :: below.map (·.waiting)) y
              = some (below.map (·.waiting)) → token ≠ .done →
            Goes ⟨c :: t, state, below⟩ ((⟨c :: t, state, below⟩ : JsonStream).closed t, .ok token) := by
          intro y token hy hi hstep htoken
          obtain ⟨hmachine, hshape, hvalue, hrest⟩ :=
            closed_machine (t := state) (h.shape.of_inner hi) (c :: t) t
          exact Goes.step h hstate (hcons rfl hy) hlen hrest (by rw [hmachine]; exact hstep)
            hshape hvalue htoken
        have hstuck : ∀ {s' e}, advance true false (state.toSt :: below.map (·.waiting)) x = none →
            Goes ⟨c :: t, state, below⟩ (s', .error e) := fun hstep =>
          Goes.stuck hstate hlex hstep
        cases state with
        | value | objValue | arrValueOrEnd => exact streamValue_goes h rfl rfl hws
        | done => exact absurd rfl hstate
        | objKeyOrEnd =>
          dsimp only
          split
          · rename_i hc
            subst hc
            exact hclosed rfl rfl rfl nofun
          split
          · rename_i hc
            subst hc
            rcases quote_cases t with ⟨hstream, hbad⟩ | ⟨text, q, hstream, hstr, hlt⟩
            · rw [hstream]
              exact Goes.stuck hstate (hcons rfl hbad) rfl
            · rw [hstream]
              exact Goes.step h hstate (hcons rfl hstr) (Nat.lt_trans hlt hlen) rfl rfl
                (.inside rfl (h.shape.of_inner rfl)) nofun nofun
          · rename_i hc hq
            refine hstuck ?_
            have hx₁ : x ≠ .closeObj := fun hy => hc (hobj hy)
            have hx₂ : x ≠ .str := by
              rintro rfl
              exact hq (lexeme_quote hx).1
            show (if x = .closeObj then _ else if x = .str then _ else none) = none
            rw [if_neg hx₁, if_neg hx₂]
        | objColon =>
          dsimp only
          split
          · rename_i hc
            subst hc
            exact hpass rfl nofun (.inside rfl (h.shape.of_inner rfl)) rfl
          · rename_i hc
            refine hstuck ?_
            show (if x = .colon then _ else none) = none
            rw [if_neg fun hy => hc (hcol hy)]
        | objComma =>
          dsimp only
          split
          · rename_i hc
            subst hc
            exact hclosed rfl rfl rfl nofun
          split
          · rename_i hc
            subst hc
            exact hpass rfl nofun (.inside rfl (h.shape.of_inner rfl)) rfl
          · rename_i hc hcm
            refine hstuck ?_
            show (if x = .closeObj then _ else if x = .comma then _ else none) = none
            rw [if_neg fun hy => hc (hobj hy), if_neg fun hy => hcm (hcom hy)]
        | arrComma =>
          dsimp only
          split
          · rename_i hc
            subst hc
            exact hclosed rfl rfl rfl nofun
          split
          · rename_i hc
            subst hc
            exact hpass rfl nofun (.inside rfl (h.shape.of_inner rfl)) rfl
          · rename_i hc hcm
            refine hstuck ?_
            show (if x = .closeArr then _ else if x = .comma then _ else none) = none
            rw [if_neg fun hy => hc (harr hy), if_neg fun hy => hcm (hcom hy)]

/-- Calls to the end. -/
theorem readsToEnd_eq_run : ∀ (fuel : Nat) (s : JsonStream), s.rest.length < fuel → Ready s →
    readsToEnd fuel s = run true false s.machine (lexemes s.rest) := by
  intro fuel
  induction fuel with
  | zero => intro s hfuel; omega
  | succ fuel ih =>
    intro s hfuel h
    have hgoes := streamnextLoop_goes (s.rest.length + 1) s (Nat.lt_succ_self _) h
    unfold readsToEnd jsonStreamnext
    generalize streamnextLoop (s.rest.length + 1) s = o at *
    obtain ⟨s', result⟩ := o
    cases result with
    | error e => exact (show run true false s.machine (lexemes s.rest) = false from hgoes).symm
    | ok token =>
      unfold Goes at hgoes
      dsimp only at hgoes
      by_cases htoken : token = .done
      · subst htoken
        exact hgoes.symm
      · rw [if_neg htoken] at hgoes
        obtain ⟨hrun, hlen, hready⟩ := hgoes
        have hrec := ih s' (by omega) hready
        rw [hrun, ← hrec]
        cases token <;> first | rfl | exact absurd rfl htoken

end Calls

/-- **The token reader is the machine** that tolerates a comma before a closing
bracket. -/
theorem streamAccepts_eq_run (hd : Shallow 0 (lexemes s))
    (hshort : ∀ x ∈ lexemes s, x.numberLength < 64) :
    streamAccepts s = run true false [.value] (lexemes s) :=
  readsToEnd_eq_run (s.length + 1) (jsonStreamparser s) (Nat.lt_succ_self _)
    ⟨.start, fun _ => hd, hshort⟩

/-! ## §4. Agreement. -/

/-- A text with both liberties: well formed, but a comma may stand before a
closing bracket and a minus sign without a digit behind it. -/
def wellFormedLoosely (s : List Char) : Bool := run true true [.value] (lexemes s)

/-- The lexemes of the value at the top level. -/
def topLexemes (s : List Char) : List Lexeme := topValue 0 (lexemes s)

theorem isContainer_cases (h : isContainer s) :
    ∃ x xs first, lexemes s = x :: xs ∧ x.opens ∧ St.isNext first = false ∧
      ∀ commas minuses, run commas minuses [.value] (x :: xs) = run commas minuses [first, .done] xs := by
  unfold isContainer at h
  cases hp : skipWs s with
  | nil =>
    rw [hp] at h
    cases h
  | cons c r =>
    rw [hp] at h
    have hc : c = '\x7b' ∨ c = '[' := by simpa using h
    rcases hc with rfl | rfl
    · exact ⟨.openObj, lexemes r, .objFirst, lexemes_of_skipWs hp rfl, rfl, rfl,
        fun _ _ => run_cons nofun rfl⟩
    · exact ⟨.openArr, lexemes r, .arrFirst, lexemes_of_skipWs hp rfl, rfl, rfl,
        fun _ _ => run_cons nofun rfl⟩

theorem waiting_done : Waiting [.done] := ⟨rfl, by decide⟩

/-- **Where the readers agree.**  A text has an object or an array at its top
level, is nested less than 200 deep and has numbers of fewer than 64
characters.  Both readers accept it or both reject it, unless it is well formed
up to the two liberties and takes exactly one of them. -/
theorem readers_agree_iff (s : List Char) (hcontainer : isContainer s = true)
    (hdeep : nesting 0 (topLexemes s) < 200) (hshort : ∀ x ∈ lexemes s, x.numberLength < 64) :
    (jsonDec s = true ↔ streamAccepts s = true) ↔ (wellFormedLoosely s = true →
        trailing false (topLexemes s) = bareMinus (topLexemes s)) := by
  rw [jsonDec_eq_run hdeep hcontainer, streamAccepts_eq_run hdeep hshort]
  unfold wellFormedLoosely topLexemes
  obtain ⟨x, xs, first, hlex, hopens, hfirst, hrun⟩ := isContainer_cases hcontainer
  have htrail : trailing false (topValue 0 (x :: xs)) = trailing false (topValue 1 xs) := by
    rw [topValue_open hopens]
    conv_lhs => unfold trailing
    rw [decide_eq_false (Lexeme.ne_comma_of_opens hopens)]
    rfl
  have hbare : bareMinus (topValue 0 (x :: xs)) = bareMinus (topValue 1 xs) := by
    rw [topValue_open hopens]
    unfold bareMinus
    cases x <;> first | rfl | cases hopens
  have hcommas := run_strict_commas true xs first [.done] waiting_done
  have hminuses := run_strict_minuses true xs first [.done] waiting_done
  rw [St.relax_of_not_next hfirst, hfirst] at hcommas
  rw [hlex, hrun, hrun, hrun, htrail, hbare, hcommas, hminuses]
  generalize run true true [first, .done] xs = accepted
  generalize trailing false (topValue 1 xs) = comma
  generalize bareMinus (topValue 1 xs) = minus
  revert accepted comma minus
  decide

/-- Objects, arrays, all kinds of scalars and white space. -/
theorem sample_agree : let s := "[\x7b\"k\": [true, null, -1.5e3, \"a\\\"b\"]\x7d, 7] ".toList
    jsonDec s = true ∧ (jsonDec s = true ↔ streamAccepts s = true) :=
  ⟨by decide +kernel, (readers_agree_iff _ (by decide +kernel) (by decide +kernel)
    (by decide +kernel)).mpr (by decide +kernel)⟩

/-- **A comma before the closing bracket** is accepted by one reader only; a
minus sign alone by the other only. -/
theorem comma_before_bracket : jsonDec "[1,]".toList = false ∧ streamAccepts "[1,]".toList = true ∧
    jsonDec "[-]".toList = true ∧ streamAccepts "[-]".toList = false := by decide +kernel

end Toke.Stdlib.Json
