/-
  Toke.Lexer.Scan — **THE SCANNER DECIDES THE LEXICAL GRAMMAR.**

  One turn of the main loop either skips trivia, reads one lexeme of the
  grammar, counts an error or finds the token buffer full
  (`lexStep_reads`); conversely it reads every lexeme that is delimited by
  what follows (`lexStep_lexeme`) and skips every piece of trivia
  (`lexStep_trivia`).  By induction on the turns:

    `lex_scans`     — an accepted buffer scans as the kinds and texts of its
                      tokens
    `lex_of_scans`  — a text that scans is accepted, given room for its tokens
    `Scans.unique`  — a text scans in one way only
-/
import Toke.Lexer.Read

namespace Toke

open List Lexer

variable {x : Lexeme} {c : Char} {r cs t s : List Char} {n cap pos : Nat} {l l' : Lexer}
    {src : Source} {xs : List Lexeme}

/-! ## §1. Symbols and comments. -/

theorem commentLen_le : ∀ (d : Nat) (r : List Char), commentLen d r ≤ r.length
  | 0, _ => by simp [commentLen]
  | _ + 1, [] => Nat.le_refl _
  | _ + 1, [_] => Nat.le_refl _
  | d + 1, c :: c' :: r => by
    have h1 := commentLen_le (d + 2) r
    have h2 := commentLen_le d r
    have h3 := commentLen_le (d + 1) (c' :: r)
    simp only [commentLen, length_cons] at *
    split
    · omega
    · split <;> omega

/-- A symbol is delimited by its bytes alone. -/
theorem delimits_symbol (hx : x ∈ symbols) (r : List Char) :
    Delimits x r = symbolStops x.text r := by
  fin_cases hx <;> rfl

/-- **Every token of the `switch` is a symbol**, ending where it must. -/
theorem symAction_token {k : TokenKind} (h : symAction .default c r = .token k n) :
    ∃ t r', c :: r = t ++ r' ∧ t.length = n ∧ (⟨k, t⟩ : Lexeme) ∈ symbols ∧
      symbolStops t r' := by
  cases r with
  | nil =>
    unfold symAction at h
    split at h <;> simp at h <;> obtain ⟨rfl, rfl⟩ := h <;>
      exact ⟨[_], [], rfl, rfl, by decide, rfl⟩
  | cons e r =>
    -- a one-byte symbol keeps the tests on `e` that failed, a two-byte one fixes `e`
    unfold symAction at h
    simp only [head?_cons, Option.some.injEq] at h
    split at h <;> (try split at h) <;> (try split at h) <;> simp at h <;>
      obtain ⟨rfl, rfl⟩ := h <;>
      first
      | contradiction
      | exact ⟨[_], e :: r, rfl, rfl, by decide, by simp [symbolStops, fusingBytes, *]⟩
      | (subst_vars; exact ⟨[_, _], r, rfl, rfl, by decide, rfl⟩)

/-- Conversely the `switch` reads every symbol. -/
theorem symAction_symbol (hx : x ∈ symbols) (ht : x.text = c :: cs)
    (hr : symbolStops x.text r) :
    symAction .default c (cs ++ r) = .token x.kind x.text.length := by
  cases r with
  | nil => fin_cases hx <;> cases ht <;> rfl
  | cons e r =>
    fin_cases hx <;> cases ht <;> simp [symbolStops, fusingBytes] at hr <;> simp [symAction, hr]

/-- A comment that the `switch` skips is trivia. -/
theorem symAction_skip {profile : Profile} (h : symAction profile c r = .skip n) :
    ∃ s r', c :: r = s ++ r' ∧ s.length = n ∧ Trivia s r' := by
  unfold symAction at h
  dsimp only at h
  split at h <;> (try split at h) <;> (try split at h) <;> simp at h
  · -- `(*`
    next hnext =>
    obtain ⟨r₁, rfl⟩ : ∃ r₁, r = '*' :: r₁ := by
      cases r with
      | nil => simp at hnext
      | cons e r₁ => exact ⟨r₁, by simpa using hnext⟩
    subst h
    have hle := commentLen_le 1 r₁
    have hlen : (r₁.take (commentLen 1 r₁)).length = commentLen 1 r₁ := by
      rw [length_take]
      omega
    refine ⟨'(' :: '*' :: r₁.take (commentLen 1 r₁), r₁.drop (commentLen 1 r₁), by simp, ?_,
      .block ?_⟩
    · simp only [length_cons, tail_cons]
      omega
    · rw [take_append_drop, hlen]
  · -- `//`
    next hnext =>
    obtain ⟨r₁, rfl⟩ : ∃ r₁, r = '/' :: r₁ := by
      cases r with
      | nil => simp at hnext
      | cons e r₁ => exact ⟨r₁, by simpa using hnext⟩
    subst h
    obtain ⟨w, r', hsplit, hw, hall, hr'⟩ := takeWhile_split (· != '\n') r₁
    refine ⟨'/' :: '/' :: w, r', by simp [hsplit], ?_, .line hall hr'⟩
    have hslash : ('/' != '\n') := by decide
    rw [takeWhile_cons, hslash, if_pos rfl, hw]
    simp only [length_cons]
    omega

/-! ## §2. One turn of the main loop. -/

/-- A byte on which `lex` goes to its `switch`. -/
def startsSymbol (c : Char) : Bool :=
  !isWhitespace c && c != '_' && !isLetter c && !isDigit c && c != '"' && c != '#'

theorem lexStep_switch (hc : startsSymbol c) :
    lexStep .default cap c r l = lexSymbol .default cap c r l := by
  simp only [startsSymbol, Bool.and_eq_true, Bool.not_eq_true', bne_iff_ne] at hc
  obtain ⟨⟨⟨⟨⟨h1, h2⟩, h3⟩, h4⟩, h5⟩, h6⟩ := hc
  simp [lexStep, h1, h2, h3, h4, h5, h6]

theorem countFailure_true (l : Lexer) : countFailure (l, true) = .next l := rfl

theorem isLetter_ne (h : isLetter c) : isWhitespace c = false ∧ c ≠ '_' := by
  refine ⟨?_, by rintro rfl; revert h; decide⟩
  cases hw : isWhitespace c with
  | false => rfl
  | true =>
    simp only [isWhitespace, Bool.or_eq_true, beq_iff_eq] at hw
    rcases hw with ((rfl | rfl) | rfl) | rfl <;> (revert h; decide)

theorem isDigit_ne (h : isDigit c) :
    isWhitespace c = false ∧ c ≠ '_' ∧ isLetter c = false := by
  refine ⟨?_, by rintro rfl; revert h; decide, isDigit_not_isLetter h⟩
  cases hw : isWhitespace c with
  | false => rfl
  | true =>
    simp only [isWhitespace, Bool.or_eq_true, beq_iff_eq] at hw
    rcases hw with ((rfl | rfl) | rfl) | rfl <;> (revert h; decide)

theorem lexStep_letter (hc : isLetter c) : lexStep .default cap c r l =
      countFailure (lexIdent .default cap l.pos l.line l.col c l.advance) := by
  obtain ⟨h1, h2⟩ := isLetter_ne hc
  unfold lexStep
  simp [h1, h2, hc]

theorem lexStep_digit (hc : isDigit c) :
    lexStep .default cap c r l = countFailure (lexNumber cap l.pos l.line l.col l) := by
  obtain ⟨h1, h2, h3⟩ := isDigit_ne hc
  unfold lexStep
  simp [h1, h2, h3, hc]

theorem lexStep_quote : lexStep .default cap '"' r l =
      if !(lexString cap l.pos l.line l.col l.advance).2
          && (lexString cap l.pos l.line l.col l.advance).1.errCount ≥ lexMaxErrors
      then .stop (lexString cap l.pos l.line l.col l.advance).1
      else .next (lexString cap l.pos l.line l.col l.advance).1 := by
  have h1 : isWhitespace '"' = false := by decide
  have h2 : isLetter '"' = false := by decide
  have h3 : isDigit '"' = false := by decide
  unfold lexStep
  simp [h1, h2, h3]

/-- A number starts with a digit. -/
theorem WF_digit_head {ds : List Char} (hne : ds ≠ []) (hds : ∀ d ∈ ds, isDigit d)
    (h : ds ++ t = c :: cs) : isDigit c := by
  cases ds with
  | nil => exact absurd rfl hne
  | cons d ds =>
    cases h
    exact hds c (by simp)

/-- **Every delimited lexeme is read in one turn.** -/
theorem lexStep_lexeme (hx : x.WF) (ht : x.text = c :: cs) (hl : l.rest = x.text ++ r)
    (hd : Delimits x r) (hcap : l.out.length < cap) :
    lexStep .default cap c (cs ++ r) l = .next (l.reads x.kind x.text) := by
  cases hx with
  | word hc hcs =>
    cases ht
    rw [lexStep_letter hc, lexIdent_word hc hcs hl hd hcap, countFailure_true]
  | based hm hne hds =>
    cases ht
    rw [lexStep_digit (by decide), lexNumber_based hm hne hds hl hd hcap, countFailure_true]
  | int hne hds =>
    have hc : isDigit c := WF_digit_head hne hds (t := []) (by simpa using ht)
    rw [lexStep_digit hc, lexNumber_int hne hds hl hd hcap, countFailure_true]
  | float hne hds hes hes' =>
    have hc : isDigit c := WF_digit_head hne hds ht
    rw [lexStep_digit hc, lexNumber_float hne hds hes hes' hl hd hcap, countFailure_true]
  | str hps =>
    cases ht
    rw [lexStep_quote, lexString_pieces hps hl hcap]
    rfl
  | sym hx =>
    have hall : ∀ y ∈ symbols, startsSymbol (y.text.headD 'a') := by decide
    have hc : startsSymbol c := by
      have := hall x hx
      rwa [ht] at this
    rw [delimits_symbol hx] at hd
    rw [lexStep_switch hc, lexSymbol, symAction_symbol hx ht hd]
    dsimp only
    rw [emit_eq (by simpa using hcap)]
    rfl

/-- **Every piece of trivia is skipped in one turn.** -/
theorem lexStep_trivia (hs : Trivia s r) (ht : s = c :: cs) (hl : l.rest = s ++ r) :
    lexStep .default cap c (cs ++ r) l = .next (l.advanceN s.length) := by
  cases hs with
  | space hc =>
    cases ht
    unfold lexStep
    simp [hc, advance_eq]
  | @hash s r hall hr =>
    cases ht
    have hall' : ∀ d ∈ '#' :: cs, (d != '\n') := forall_mem_cons.mpr ⟨by decide, hall⟩
    unfold lexStep
    rw [advanceWhile_append hl hall' hr]
    rfl
  | @line s r hall hr =>
    cases ht
    have hslash : ('/' != '\n') := by decide
    rw [lexStep_switch (by decide)]
    have hact : symAction .default '/' (('/' :: s) ++ r) = .skip ('/' :: '/' :: s).length := by
      have htake : (('/' :: s) ++ r).takeWhile (· != '\n') = '/' :: s := by
        rw [cons_append, takeWhile_cons, hslash, if_pos rfl, takeWhile_append_stop hall hr]
      simp only [symAction, htake]
      simp
      omega
    rw [lexSymbol, hact]
  | @block s r hlen =>
    cases ht
    rw [lexStep_switch (by decide)]
    have hact : symAction .default '(' (('*' :: s) ++ r) = .skip ('(' :: '*' :: s).length := by
      simp only [symAction]
      simp
      omega
    rw [lexSymbol, hact]

/-- How a turn can end, where `P` is known of the lexemes it reads: it goes on
after trivia, a lexeme, a counted error or a full token buffer, or it leaves
the loop with an error. -/
def Turned (P : Lexeme → List Char → Prop) (cap : Nat) (l : Lexer) : LexTurn → Prop
  | .next l' =>
    (∃ s r, l.rest = s ++ r ∧ Trivia s r ∧ l' = l.advanceN s.length) ∨
    (∃ x r, P x r ∧ l.rest = x.text ++ r ∧ l' = l.reads x.kind x.text) ∨
    (l.errCount < l'.errCount ∧ l'.out = l.out) ∨
    (cap ≤ l.out.length ∧ l.errCount ≤ l'.errCount ∧ l'.out = l.out)
  | .stop l' => l.errCount ≤ l'.errCount ∧ 0 < l'.errCount ∧ l'.out = l.out
  | .fail => True

section Turn

variable {P : Lexeme → List Char → Prop} {profile : Profile}

theorem countFailure_turned {x : Lexer × Bool}
    (htrue : ∀ l₁, x = (l₁, true) → Turned P cap l (.next l₁))
    (hfalse : ∀ l₁, x = (l₁, false) → l₁.errCount = l.errCount ∧ l₁.out = l.out) :
    Turned P cap l (countFailure x) := by
  obtain ⟨l₁, ok⟩ := x
  cases ok with
  | true => exact htrue l₁ rfl
  | false =>
    obtain ⟨he, ho⟩ := hfalse l₁ rfl
    have hlt : l.errCount < l₁.recordError.1.errCount := by simp [recordError, he]
    unfold countFailure
    simp only [Bool.false_eq_true, if_false]
    split
    · exact ⟨by omega, by omega, ho⟩
    · exact .inr (.inr (.inl ⟨hlt, ho⟩))

theorem lexSymbol_turned (hl : l.rest = c :: r)
    (hsym : ∀ {k n}, symAction profile c r = .token k n →
      ∃ t r', c :: r = t ++ r' ∧ t.length = n ∧ P ⟨k, t⟩ r') :
    Turned P cap l (lexSymbol profile cap c r l) := by
  unfold lexSymbol
  cases hact : symAction profile c r with
  | skip n =>
    obtain ⟨s, r', hsplit, rfl, hs⟩ := symAction_skip hact
    exact .inl ⟨s, r', hl.trans hsplit, hs, rfl⟩
  | token k n =>
    obtain ⟨t, r', hsplit, rfl, hP⟩ := hsym hact
    dsimp only
    split
    next l₁ hemit =>
      obtain ⟨-, rfl⟩ := emit_true hemit
      exact .inr (.inl ⟨⟨k, t⟩, r', hP, hl.trans hsplit, rfl⟩)
    next => trivial
  | bad =>
    dsimp only
    split
    · exact ⟨by simp [recordError], by simp [recordError], rfl⟩
    · exact .inr (.inr (.inl ⟨by simp [recordError], by simp [recordError]⟩))

/-- **What a turn can do**: it remains to say what is known of a word and of a
token of the `switch`. -/
theorem lexStep_turned (hl : l.rest = c :: r)
    (hread : ∀ {x r}, x.WF → Delimits x r → P x r)
    (hident : ∀ l₁, isLetter c ∨ profile = .legacy →
      lexIdent profile cap l.pos l.line l.col c l.advance = (l₁, true) →
        Turned P cap l (.next l₁))
    (hsym : ∀ {k n}, symAction profile c r = .token k n →
      ∃ t r', c :: r = t ++ r' ∧ t.length = n ∧ P ⟨k, t⟩ r') :
    Turned P cap l (lexStep profile cap c r l) := by
  have read : ∀ l₁, (∃ x, ReadAt x l l₁) → Turned P cap l (.next l₁) := by
    rintro l₁ ⟨x, hx, ⟨r, hr, hd⟩, rfl⟩
    exact .inr (.inl ⟨x, r, hread hx hd, hr, rfl⟩)
  unfold lexStep
  dsimp only
  split
  next hw => exact .inl ⟨[c], r, hl, .space hw, rfl⟩
  split
  next => exact countFailure_turned (by simp) (by rintro l₁ ⟨⟩; simp)
  split
  next hc =>
    refine countFailure_turned (fun l₁ h => hident l₁ ?_ h) fun l₁ h => ?_
    · rcases Bool.or_eq_true _ _ ▸ hc with hc | hc
      · exact .inl hc
      · exact .inr (of_decide_eq_true hc).2
    · obtain ⟨he, ho⟩ := lexIdent_false h
      exact ⟨by rw [he]; simp, by rw [ho]; simp⟩
  split
  next hdigit =>
    exact countFailure_turned (fun l₁ h => read l₁ (lexNumber_true hl hdigit h))
      fun l₁ h => lexNumber_false h
  split
  next hq =>
    subst hq
    cases hres : lexString cap l.pos l.line l.col l.advance with
    | mk l₁ ok =>
      cases ok with
      | true => exact read l₁ (lexString_true hl hres)
      | false =>
        -- the literal was bad, or there was no room for its token
        obtain ⟨ho, he, hor⟩ := lexStringLoop_false _ _ _ hres
        have hor := hor rfl
        simp only [advance_out, advance_errCount] at ho he hor
        split
        next hmax =>
          have hmax : lexMaxErrors ≤ l₁.errCount := by simpa using hmax
          exact ⟨he, Nat.lt_of_lt_of_le (by decide) hmax, ho⟩
        next =>
          rcases hor with hlt | hfull
          · exact .inr (.inr (.inl ⟨hlt, ho⟩))
          · exact .inr (.inr (.inr ⟨hfull, he, ho⟩))
  split
  next hh =>
    subst hh
    obtain ⟨w, r', hsplit, -, hall, hr'⟩ := takeWhile_split (· != '\n') r
    have hall' : ∀ d ∈ '#' :: w, (d != '\n') := forall_mem_cons.mpr ⟨by decide, hall⟩
    have hl' : l.rest = ('#' :: w) ++ r' := by rw [hl, hsplit]; rfl
    exact .inl ⟨'#' :: w, r', hl', .hash hall hr', advanceWhile_append hl' hall' hr'⟩
  next => exact lexSymbol_turned hl hsym

end Turn

/-- **In the default profile** every lexeme read is one of the grammar and
delimited by what follows. -/
theorem lexStep_reads (hl : l.rest = c :: r) :
    Turned (fun x r => x.WF ∧ Delimits x r) cap l (lexStep .default cap c r l) := by
  refine lexStep_turned hl (fun hx hd => ⟨hx, hd⟩) (fun l₁ hc h => ?_) fun hact => ?_
  · obtain ⟨x, hx, ⟨r, hr, hd⟩, rfl⟩ := lexIdent_true hl (hc.resolve_right (by decide)) h
    exact .inr (.inl ⟨x, r, ⟨hx, hd⟩, hr, rfl⟩)
  · obtain ⟨t, r', hsplit, hlen, hmem, hstop⟩ := symAction_token hact
    exact ⟨t, r', hsplit, hlen, .sym hmem, by rw [delimits_symbol hmem]; exact hstop⟩

/-! ## §3. The whole buffer. -/

theorem reads_errCount (l : Lexer) (k : TokenKind) (t : List Char) :
    (l.reads k t).errCount = l.errCount := by simp [Lexer.reads]

theorem reads_out (l : Lexer) (k : TokenKind) (t : List Char) :
    (l.reads k t).out = l.out ++ [⟨k, l.pos, t.length, l.line, l.col⟩] := by simp [Lexer.reads]

theorem reads_rest (h : l.rest = t ++ r) (k : TokenKind) :
    (l.reads k t).rest = r := by simp [Lexer.reads, h]

/-- **Induction on the turns of a run that ends in `lf`**: there is nothing to
read, the turn leaves the loop, or it goes on in `l'`. -/
theorem lexLoop_induct {profile : Profile} {lf : Lexer} {P : Lexeme → List Char → Prop}
    {motive : Nat → Lexer → Prop}
    (turn : ∀ {c r l}, l.rest = c :: r → Turned P cap l (lexStep profile cap c r l))
    (done : ∀ f, f = 0 ∨ lf.rest = [] → motive f lf)
    (stop : ∀ f l, l.errCount ≤ lf.errCount → 0 < lf.errCount → lf.out = l.out →
      motive (f + 1) l)
    (next : ∀ f l l', Turned P cap l (.next l') → lexLoop profile cap f l' = some lf →
      motive f l' → motive (f + 1) l) :
    ∀ f l, lexLoop profile cap f l = some lf → motive f l
  | 0, l, h => by
    cases h
    exact done 0 (.inl rfl)
  | f + 1, l, h => by
    rw [lexLoop] at h
    split at h
    next hnil =>
      cases h
      exact done _ (.inr hnil)
    next c r hl =>
      have hturn := turn hl
      split at h
      next l' hstep => exact next f l l' (hstep ▸ hturn) h (lexLoop_induct turn done stop next f l' h)
      next l' hstep =>
        cases h
        obtain ⟨he, hpos, ho⟩ : Turned P cap l (.stop lf) := hstep ▸ hturn
        exact stop f l he hpos ho
      next => simp at h

/-- Errors and tokens only accumulate. -/
theorem lexLoop_mono {profile : Profile} {lf : Lexer} {P : Lexeme → List Char → Prop}
    (turn : ∀ {c r l}, l.rest = c :: r → Turned P cap l (lexStep profile cap c r l)) {f : Nat}
    (h : lexLoop profile cap f l = some lf) :
    l.errCount ≤ lf.errCount ∧ l.out.length ≤ lf.out.length := by
  refine lexLoop_induct (motive := fun _ l => l.errCount ≤ lf.errCount ∧
    l.out.length ≤ lf.out.length) turn (fun _ _ => ⟨Nat.le_refl _, Nat.le_refl _⟩)
    (fun _ l he _ ho => ⟨he, by rw [ho]⟩) (fun f l l' hturn _ ih => ?_) f l h
  rcases hturn with ⟨s, r', -, -, rfl⟩ | ⟨x, r', -, -, rfl⟩ | ⟨he, ho⟩ | ⟨-, he, ho⟩
  · simpa using ih
  · simp only [reads_errCount, reads_out, length_append] at ih
    omega
  · rw [ho] at ih
    omega
  · rw [ho] at ih
    omega

/-- The unread bytes are the suffix of the source at the current offset. -/
def Tracks (src : Source) (l : Lexer) : Prop :=
  l.rest = src.drop l.pos ∧ l.pos + l.rest.length = src.length

theorem tracks_init (src : Source) : Tracks src (Lexer.init src) := by
  simp [Tracks, Lexer.init]

theorem tracks_advanceN (h : Tracks src l)
    (hn : n ≤ l.rest.length) : Tracks src (l.advanceN n) := by
  obtain ⟨hrest, hlen⟩ := h
  refine ⟨?_, ?_⟩
  · rw [advanceN_rest, advanceN_pos hn, hrest, drop_drop]
  · rw [advanceN_rest, advanceN_pos hn, length_drop]
    omega

theorem tracks_reads (h : Tracks src l) (hl : l.rest = t ++ r)
    (k : TokenKind) : Tracks src (l.reads k t) :=
  tracks_advanceN (n := t.length) h (by rw [hl]; simp)

/-- The kind and text of a token. -/
def Token.lexeme (src : Source) (t : Token) : Lexeme := ⟨t.kind, t.text src⟩

theorem reads_pos (h : l.rest = t ++ r) (k : TokenKind) : (l.reads k t).pos = l.pos + t.length := by
  show (l.advanceN t.length).pos = _
  rw [advanceN_pos (by rw [h]; simp)]

theorem lexeme_reads (h : Tracks src l) (hl : l.rest = t ++ r) (k : TokenKind) :
    Token.lexeme src ⟨k, l.pos, t.length, l.line, l.col⟩ = ⟨k, t⟩ := by
  simp only [Token.lexeme, Token.text, slice]
  rw [← h.1, hl, take_left]

theorem trivia_ne_nil (h : Trivia s r) : s ≠ [] := by
  cases h <;> simp

/-- The first byte of a lexeme, and the kinds that start so. -/
theorem WF_first (h : x.WF) : ∃ c t, x.text = c :: t ∧ (isLetter c ∧ x.kind ∈ wordKinds ∨
      isDigit c ∧ (x.kind = .intLit ∨ x.kind = .floatLit) ∨
      c = '"' ∧ x.kind = .strLit ∨ x ∈ symbols) := by
  cases h with
  | @word c cs hc => exact ⟨c, cs, rfl, .inl ⟨hc, classifyIdent_mem _⟩⟩
  | based => exact ⟨'0', _, rfl, .inr (.inl ⟨by decide, .inl rfl⟩)⟩
  | int hne hds =>
    obtain ⟨d, ds, rfl⟩ := exists_cons_of_ne_nil hne
    exact ⟨d, ds, rfl, .inr (.inl ⟨hds d mem_cons_self, .inl rfl⟩)⟩
  | float hne hds =>
    obtain ⟨d, ds, rfl⟩ := exists_cons_of_ne_nil hne
    exact ⟨d, _, rfl, .inr (.inl ⟨hds d mem_cons_self, .inr rfl⟩)⟩
  | str => exact ⟨'"', _, rfl, .inr (.inr (.inl ⟨rfl, rfl⟩))⟩
  | sym hx =>
    have hall : ∀ y ∈ symbols, y.text ≠ [] := by decide
    obtain ⟨c, t, ht⟩ := exists_cons_of_ne_nil (hall x hx)
    exact ⟨c, t, ht, .inr (.inr (.inr hx))⟩

theorem WF_ne_nil (h : x.WF) : x.text ≠ [] := by
  obtain ⟨c, t, ht, -⟩ := WF_first h
  simp [ht]

/-- The end marker is no lexeme. -/
theorem WF_kind_ne_eof (h : x.WF) : x.kind ≠ .eof := by
  have hwords : ∀ k ∈ wordKinds, k ≠ .eof := by decide
  have hsyms : ∀ y ∈ symbols, y.kind ≠ .eof := by decide
  obtain ⟨-, -, -, ⟨-, hk⟩ | ⟨-, hk | hk⟩ | ⟨-, hk⟩ | hs⟩ := WF_first h
  · exact hwords _ hk
  · simp [hk]
  · simp [hk]
  · simp [hk]
  · exact hsyms x hs

/-- Every lexeme of a scanned text is one of the grammar. -/
theorem Scans.wf {src : List Char} (h : Scans src xs) : ∀ x ∈ xs, x.WF := by
  induction h with
  | nil => simp
  | skip _ _ ih => exact ih
  | lexeme hx _ _ ih =>
    exact forall_mem_cons.mpr ⟨hx, ih⟩

/-- The tokens from offset `pos` on, where they stand in the source. -/
inductive Placed (src : Source) : Nat → List Token → Prop where
  | nil {pos : Nat} (h : src.drop pos = []) : Placed src pos []
  | skip {pos : Nat} {s r : List Char} {ts : List Token} (hs : Trivia s r)
      (hsrc : src.drop pos = s ++ r) (h : Placed src (pos + s.length) ts) : Placed src pos ts
  | token {pos : Nat} {t : Token} {r : List Char} {ts : List Token}
      (hx : (t.lexeme src).WF) (hd : Delimits (t.lexeme src) r = true) (hstart : t.start = pos)
      (hsrc : src.drop pos = t.text src ++ r) (h : Placed src (pos + (t.text src).length) ts) :
      Placed src pos (t :: ts)

theorem Placed.scans {ts : List Token} (h : Placed src pos ts) :
    Scans (src.drop pos) (ts.map (Token.lexeme src)) := by
  induction h with
  | nil h =>
    rw [h]
    exact .nil
  | skip hs hsrc _ ih =>
    rw [Items.drop_of_append hsrc] at ih
    rw [hsrc]
    exact .skip hs ih
  | token hx hd _ hsrc _ ih =>
    rw [Items.drop_of_append hsrc] at ih
    rw [hsrc]
    exact .lexeme hx hd ih

/-- **An error-free run of the loop scans what is left.**  Induction on the
turns; `lf` is the state the loop ends in. -/
theorem lexLoop_placed {lf : Lexer} {f : Nat} (he : lf.errCount = 0) (hcap : lf.out.length < cap)
    (h : lexLoop .default cap f l = some lf) : Tracks src l → l.rest.length ≤ f →
    ∃ toks, lf.out = l.out ++ toks ∧ Placed src l.pos toks ∧ Tracks src lf ∧ lf.rest = [] := by
  refine lexLoop_induct (motive := fun f l => Tracks src l → l.rest.length ≤ f →
    ∃ toks, lf.out = l.out ++ toks ∧ Placed src l.pos toks ∧ Tracks src lf ∧ lf.rest = [])
    lexStep_reads (fun f hf ht hle => ?_) (fun _ _ _ hpos _ => by omega)
    (fun f l l' hturn hrun ih ht hf => ?_) f l h
  · have hnil : lf.rest = [] := hf.elim (fun hf => length_eq_zero_iff.mp (by omega)) id
    exact ⟨[], by simp, .nil (by rw [← ht.1, hnil]), ht, hnil⟩
  obtain ⟨he', ho'⟩ := lexLoop_mono lexStep_reads hrun
  rcases hturn with
    ⟨s, r', hs, htr, rfl⟩ | ⟨x, r', ⟨hx, hd⟩, hr', rfl⟩ | ⟨hlt, _⟩ | ⟨hfull, _, ho⟩
  · -- trivia
    have hpos : s.length ≠ 0 := by simpa using trivia_ne_nil htr
    have hrest : (l.advanceN s.length).rest = r' := by rw [advanceN_rest, hs]; simp
    obtain ⟨toks, hout, hplaced, hfin⟩ := ih (tracks_advanceN ht (by rw [hs]; simp))
      (by rw [hrest]; rw [hs, length_append] at hf; omega)
    refine ⟨toks, by simpa using hout, ?_, hfin⟩
    rw [advanceN_pos (by rw [hs]; simp)] at hplaced
    exact .skip htr (by rw [← ht.1, hs]) hplaced
  · -- a lexeme
    have hpos : x.text.length ≠ 0 := by simpa using WF_ne_nil hx
    have hrest : (l.reads x.kind x.text).rest = r' := reads_rest hr' _
    obtain ⟨toks, hout, hplaced, hfin⟩ := ih (tracks_reads ht hr' x.kind)
      (by rw [hrest]; rw [hr', length_append] at hf; omega)
    refine ⟨⟨x.kind, l.pos, x.text.length, l.line, l.col⟩ :: toks, ?_, ?_, hfin⟩
    · rw [hout, reads_out]; simp
    · have hlex := lexeme_reads ht hr' x.kind
      have htext : Token.text src ⟨x.kind, l.pos, x.text.length, l.line, l.col⟩ = x.text :=
        congrArg Lexeme.text hlex
      rw [reads_pos hr'] at hplaced
      refine .token (by rw [hlex]; exact hx) (by rw [hlex]; exact hd) rfl ?_ ?_
      · rw [htext, ← ht.1, hr']
      · rw [htext]
        exact hplaced
  · -- an error would still be counted at the end
    omega
  · -- a full buffer would stay full
    rw [ho] at ho'
    omega

/-- What an accepted buffer says about the run. -/
theorem lex_run {profile : Profile} {toks : List Token} (h : lex profile cap src = some toks) :
    ∃ lf, lexLoop profile cap src.length (Lexer.init src) = some lf ∧ lf.errCount = 0 ∧
      lf.out.length < cap ∧ toks = lf.out ++ [⟨.eof, lf.pos, 0, lf.line, lf.col⟩] := by
  unfold lex at h
  split at h
  next => simp at h
  next lf hloop =>
    split at h
    next => simp at h
    next l₁ hemit =>
      obtain ⟨hcap, rfl⟩ := emit_true hemit
      split at h
      next => simp at h
      next herr =>
        injection h with h
        exact ⟨lf, hloop, by simpa using herr, hcap, h.symm⟩

/-- **Accepted buffers scan.**  The tokens are those of the grammar, in order
and where they stand, followed by the end marker at the end of the buffer. -/
theorem lex_placed {toks : List Token} (h : lex .default cap src = some toks) :
    ∃ body eof, toks = body ++ [eof] ∧ eof.kind = .eof ∧ eof.start = src.length ∧ eof.len = 0 ∧
      toks.length ≤ cap ∧ Placed src 0 body := by
  obtain ⟨lf, hloop, he, hcap, rfl⟩ := lex_run h
  obtain ⟨body, hout, hplaced, ht, hnil⟩ := lexLoop_placed he hcap hloop (tracks_init src)
    (by simp [Lexer.init])
  have hpos : lf.pos = src.length := by
    have := ht.2
    rw [hnil] at this
    simpa using this
  have hbody : lf.out = body := by simpa [Lexer.init] using hout
  refine ⟨body, ⟨.eof, lf.pos, 0, lf.line, lf.col⟩, by rw [hbody], rfl, hpos, rfl, ?_, hplaced⟩
  rw [length_append]
  exact hcap

theorem lex_scans {toks : List Token} (h : lex .default cap src = some toks) :
    ∃ body eof, toks = body ++ [eof] ∧ eof.kind = .eof ∧ eof.start = src.length ∧ eof.len = 0 ∧
      toks.length ≤ cap ∧ Scans src (body.map (Token.lexeme src)) := by
  obtain ⟨body, eof, htoks, hkind, hstart, hlen, hcap, hplaced⟩ := lex_placed h
  exact ⟨body, eof, htoks, hkind, hstart, hlen, hcap, hplaced.scans⟩

/-! ### The byte before a token. -/

theorem commentLen_pos (d : Nat) (c : Char) (r : List Char) : 0 < commentLen (d + 1) (c :: r) := by
  cases r with
  | nil => exact Nat.one_pos
  | cons c' r =>
    rw [commentLen]
    split
    · omega
    · split <;> omega

/-- A block comment ends at its bracket, or with the text. -/
theorem commentLen_last : ∀ (d : Nat) (s r : List Char), commentLen d (s ++ r) = s.length →
    s ≠ [] → r = [] ∨ s.getLast? = some ')'
  | _, [], _, _, hne => absurd rfl hne
  | 0, _ :: _, _, h, _ => by simp [commentLen] at h
  | d + 1, [c], [], _, _ => .inl rfl
  | d + 1, [c], c' :: r, h, _ => by
    have hpos := commentLen_pos d c' r
    simp only [cons_append, nil_append, commentLen, length_singleton] at h
    split at h
    · omega
    · split at h <;> omega
  | d + 1, c :: c' :: s, r, h, _ => by
    have hcons : (c :: c' :: s).getLast? = (c' :: s).getLast? := getLast?_cons_cons
    simp only [cons_append, commentLen, length_cons] at h
    split at h
    · -- a nested comment opens
      cases s with
      | nil =>
        cases r with
        | nil => exact .inl rfl
        | cons e r =>
          have hpos : 0 < commentLen (d + 2) (e :: r) := commentLen_pos (d + 1) e r
          simp only [nil_append, length_nil] at h
          omega
      | cons e s =>
        have ih := commentLen_last (d + 2) (e :: s) r (by omega) (cons_ne_nil _ _)
        rwa [hcons, getLast?_cons_cons]
    · split at h
      · next hclose =>
          cases s with
          | nil =>
            rw [hclose.2]
            exact .inr rfl
          | cons e s =>
            have ih := commentLen_last d (e :: s) r (by omega) (cons_ne_nil _ _)
            rwa [hcons, getLast?_cons_cons]
      · have ih := commentLen_last (d + 1) (c' :: s) r
          (by simp only [cons_append, length_cons]; omega) (cons_ne_nil _ _)
        rwa [hcons]

/-- Does the byte at the offset before `pos` read `$`? -/
def SigilBefore (src : Source) (pos : Nat) : Prop :=
  0 < pos ∧ (src.drop (pos - 1)).head? = some '$'

theorem sigilBefore_append {src : List Char} (hsrc : src.drop pos = s ++ r) (hne : s ≠ [])
    (h : SigilBefore src (pos + s.length)) : s.getLast? = some '$' := by
  obtain ⟨s, c, rfl⟩ := eq_nil_or_concat' s |>.resolve_left hne
  have hdrop : src.drop (pos + s.length) = c :: r := by
    rw [← drop_drop, hsrc, append_assoc, drop_left]
    rfl
  have hpos : pos + (s ++ [c]).length - 1 = pos + s.length := by
    rw [length_append, length_singleton]
    omega
  have hhead := h.2
  rw [hpos, hdrop] at hhead
  rw [getLast?_concat]
  exact hhead

theorem trivia_last (h : Trivia s r) (hs : s.getLast? = some '$') :
    stopsAt (· != '\n') r := by
  cases h with
  | space hc =>
    simp only [getLast?_singleton, Option.some.injEq] at hs
    subst hs
    cases hc
  | hash _ hr => exact hr
  | line _ hr => exact hr
  | @block s r hlen =>
    cases hs' : s with
    | nil =>
      rw [hs'] at hs
      cases hs
    | cons c t =>
      rw [hs'] at hlen hs
      rcases commentLen_last 1 (c :: t) r hlen (cons_ne_nil _ _) with rfl | hlast
      · rfl
      · rw [getLast?_cons_cons, getLast?_cons_cons, hlast] at hs
        cases hs

theorem baseDigits_cases {m : Char} {p : Char → Bool} (h : baseDigits m = some p) :
    p = isHex ∨ p = isBin := by
  unfold baseDigits at h
  split at h
  · exact .inl (Option.some.inj h).symm
  · split at h
    · exact .inr (Option.some.inj h).symm
    · simp at h

/-- A lexeme that ends in `$` is the sigil. -/
theorem WF_sigil (h : x.WF) (hx : x.text.getLast? = some '$') : x.kind = .dollar := by
  have hmem := mem_of_getLast? hx
  cases h with
  | @word c cs hc hcs =>
    rcases mem_cons.mp hmem with rfl | hm
    · cases hc
    · exact absurd (hcs _ hm) (by decide)
  | @based m p ds hm hne hds =>
    have hlast : ds.getLast? = some '$' := by
      obtain ⟨d, ds, rfl⟩ := exists_cons_of_ne_nil hne
      simpa [getLast?_cons_cons] using hx
    have hp := hds _ (mem_of_getLast? hlast)
    rcases baseDigits_cases hm with rfl | rfl <;> cases hp
  | int _ hds => exact absurd (hds _ hmem) (by decide)
  | float _ hds _ hes =>
    rcases mem_append.mp hmem with hm | hm
    · exact absurd (hds _ hm) (by decide)
    · rcases mem_cons.mp hm with h | hm
      · cases h
      · exact absurd (hes _ hm) (by decide)
  | @str ps _ =>
    have hq : (strText ps).getLast? = some '"' := by rw [strText, ← cons_append, getLast?_concat]
    cases hq.symm.trans hx
  | sym hs =>
    have hall : ∀ y ∈ symbols, y.text.getLast? = some '$' → y.kind = .dollar := by decide
    exact hall _ hs hx

theorem WF_head (h : x.WF) (r : List Char) : stopsAt (· != '\n') (x.text ++ r) = false := by
  have hsyms : ∀ y ∈ symbols, y.text.head? ≠ some '\n' := by decide
  obtain ⟨c, t, ht, hc⟩ := WF_first h
  have hne : c ≠ '\n' := by
    rintro rfl
    rcases hc with ⟨hc, -⟩ | ⟨hc, -⟩ | ⟨hc, -⟩ | hs
    · cases hc
    · cases hc
    · cases hc
    · exact hsyms x hs (by rw [ht]; rfl)
  rw [ht]
  simpa [stopsAt] using hne

/-- Every token behind a `$` byte follows a `$` token. -/
def AfterSigil (src : Source) : Option TokenKind → List Token → Prop
  | _, [] => True
  | prev, t :: ts =>
    (SigilBefore src t.start → prev = some .dollar) ∧ AfterSigil src (some t.kind) ts

/-- A `$` byte before a token is a token of its own: it is not the end of a
comment, of white space or of another lexeme. -/
theorem Placed.afterSigil {ts : List Token} (h : Placed src pos ts) : ∀ prev : Option TokenKind,
      (SigilBefore src pos → prev = some .dollar ∨ stopsAt (· != '\n') (src.drop pos)) →
      AfterSigil src prev ts := by
  induction h with
  | nil => exact fun _ _ => trivial
  | skip hs hsrc _ ih =>
    intro prev _
    refine ih prev fun hsig => .inr ?_
    rw [Items.drop_of_append hsrc]
    exact trivia_last hs (sigilBefore_append hsrc (trivia_ne_nil hs) hsig)
  | @token pos t r ts hx _ hstart hsrc _ ih =>
    intro prev hprev
    refine ⟨fun hsig => ?_, ih _ fun hsig => .inl ?_⟩
    · rw [hstart] at hsig
      refine (hprev hsig).resolve_right fun hstop => ?_
      rw [hsrc] at hstop
      have hhead := WF_head hx r
      cases hhead.symm.trans hstop
    · have hkind : t.kind = .dollar := WF_sigil hx (sigilBefore_append hsrc (WF_ne_nil hx) hsig)
      rw [hkind]

/-- **A text that scans is scanned.**  Induction on the derivation. -/
theorem lexLoop_of_scans (cap : Nat)
    (h : Scans cs xs) : ∀ (f : Nat) (l : Lexer), l.rest = cs → cs.length ≤ f →
    Tracks src l → l.errCount = 0 → l.out.length + xs.length ≤ cap →
    ∃ lf toks, lexLoop .default cap f l = some lf ∧ lf.out = l.out ++ toks ∧
      lf.errCount = 0 ∧ toks.map (Token.lexeme src) = xs := by
  induction h with
  | nil =>
    intro f l hl _ _ he _
    refine ⟨l, [], ?_, by simp, he, rfl⟩
    cases f with
    | zero => rfl
    | succ f => simp [lexLoop, hl]
  | @skip s r xs hs _ ih =>
    intro f l hl hf ht he hcap
    obtain ⟨c, t, rfl⟩ : ∃ c t, s = c :: t := exists_cons_of_ne_nil (trivia_ne_nil hs)
    cases f with
    | zero => simp at hf
    | succ f =>
      have hrest : (l.advanceN (c :: t).length).rest = r := by rw [advanceN_rest, hl]; simp
      obtain ⟨lf, toks, hloop, hout, hfin⟩ := ih f (l.advanceN (c :: t).length) hrest
        (by simp only [length_append, length_cons] at hf; omega)
        (tracks_advanceN ht (by rw [hl]; simp)) (by simpa using he) (by simpa using hcap)
      refine ⟨lf, toks, ?_, by simpa using hout, hfin⟩
      have hl' : l.rest = c :: (t ++ r) := hl
      rw [lexLoop, hl']
      dsimp only
      rw [lexStep_trivia hs rfl hl]
      exact hloop
  | @lexeme x r xs hx hd _ ih =>
    intro f l hl hf ht he hcap
    obtain ⟨c, t, hxt⟩ : ∃ c t, x.text = c :: t := exists_cons_of_ne_nil (WF_ne_nil hx)
    cases f with
    | zero => rw [hxt] at hf; simp at hf
    | succ f =>
      have hrest : (l.reads x.kind x.text).rest = r := reads_rest hl _
      simp only [length_cons] at hcap
      obtain ⟨lf, toks, hloop, hout, hfin, hmap⟩ := ih f (l.reads x.kind x.text) hrest
        (by rw [hxt] at hf; simp only [length_append, length_cons] at hf; omega)
        (tracks_reads ht hl x.kind) (by rw [reads_errCount]; exact he)
        (by rw [reads_out, length_append, length_singleton]; omega)
      refine ⟨lf, ⟨x.kind, l.pos, x.text.length, l.line, l.col⟩ :: toks, ?_, ?_, hfin, ?_⟩
      · have hl' : l.rest = c :: (t ++ r) := by rw [hl, hxt]; rfl
        rw [lexLoop, hl']
        dsimp only
        rw [lexStep_lexeme hx hxt hl hd (by omega)]
        exact hloop
      · rw [hout, reads_out]; simp
      · rw [map_cons, lexeme_reads ht hl, hmap]

/-- **A text that scans is accepted**, given room for its tokens and the end
marker. -/
theorem lex_of_scans (cap : Nat) (h : Scans src xs) (hcap : xs.length < cap) :
    ∃ body eof, lex .default cap src = some (body ++ [eof]) ∧ body.map (Token.lexeme src) = xs := by
  obtain ⟨lf, toks, hloop, hout, he, hmap⟩ := lexLoop_of_scans cap h src.length
    (Lexer.init src) rfl (Nat.le_refl _) (tracks_init src) rfl
    (by simp only [Lexer.init, length_nil]; omega)
  have hbody : lf.out = toks := by simpa [Lexer.init] using hout
  have hlen : lf.out.length < cap := by
    rw [hbody, ← length_map (f := Token.lexeme src), hmap]
    exact hcap
  refine ⟨toks, ⟨.eof, lf.pos, 0, lf.line, lf.col⟩, ?_, hmap⟩
  unfold lex
  rw [hloop]
  dsimp only
  rw [emit_eq hlen]
  dsimp only
  rw [if_neg (by simp [he]), push_out, hbody]

/-- There are at most as many lexemes as bytes. -/
theorem Scans.length_le (h : Scans src xs) : xs.length ≤ src.length := by
  induction h with
  | nil => exact Nat.le_refl _
  | skip _ _ ih => rw [length_append]; omega
  | @lexeme x _ _ hx _ _ ih =>
    have hpos : x.text.length ≠ 0 := by simpa using WF_ne_nil hx
    simp only [length_cons, length_append]
    omega

end Toke
