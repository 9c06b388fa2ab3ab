/-
  Toke.Lexer.Read — **ONE TOKEN AT A TIME**: the word, number and string readers of the scanner
  against the lexical grammar.

  For each reader two theorems: it reads every lexeme of its class that what
  follows delimits (`lexIdent_word`, `lexNumber_based/int/float`,
  `lexString_pieces`), and when it succeeds it has read one
  (`lexIdent_true`, `lexNumber_true`, `lexString_true`).  What a failure leaves
  behind is stated by the `_false` lemmas.
-/
import Toke.Lexer.Lexeme

namespace Toke

open List Lexer

variable {p : Char → Bool} {l l' : Lexer} {r t ds : List Char} {cap start line col : Nat}
    {k kind : TokenKind} {c m : Char}

/-! ## §1. Runs of a character class. -/

theorem takeWhile_append_stop {w : List Char} (hw : ∀ c ∈ w, p c) (hr : stopsAt p r) :
    (w ++ r).takeWhile p = w := by
  rw [takeWhile_append_of_pos hw]
  cases r with
  | nil => simp
  | cons c r =>
    have hc : p c = false := by simpa [stopsAt] using hr
    simp [hc]

/-- Every text splits at the end of its leading run. -/
theorem takeWhile_split (p : Char → Bool) (cs : List Char) :
    ∃ w r, cs = w ++ r ∧ cs.takeWhile p = w ∧ (∀ c ∈ w, p c) ∧ stopsAt p r := by
  refine ⟨_, cs.dropWhile p, takeWhile_append_dropWhile.symm, rfl, fun c => mem_takeWhile_imp, ?_⟩
  have hhead := head?_dropWhile_not p cs
  cases hd : cs.dropWhile p with
  | nil => rfl
  | cons c r =>
    rw [hd] at hhead
    simpa [stopsAt] using hhead

theorem advanceWhile_append {w : List Char} (hl : l.rest = w ++ r) (hw : ∀ c ∈ w, p c)
    (hr : stopsAt p r) :
    l.advanceWhile p = l.advanceN w.length := by
  unfold advanceWhile
  rw [hl, takeWhile_append_stop hw hr]

theorem stopsAt_or {q : Char → Bool} :
    stopsAt (fun c => p c || q c) r = (stopsAt p r && stopsAt q r) := by
  cases r with
  | nil => rfl
  | cons c r => simp [stopsAt]

/-! ## §2. Reading one token. -/

/-- The state behind a token of text `t` read at `l`. -/
def Lexer.reads (l : Lexer) (k : TokenKind) (t : List Char) : Lexer :=
  (l.advanceN t.length).push ⟨k, l.pos, t.length, l.line, l.col⟩

theorem emit_advanceN (hl : l.rest = t ++ r) (hcap : l.out.length < cap) (k : TokenKind) :
    (l.advanceN t.length).emit cap k l.pos ((l.advanceN t.length).pos - l.pos) l.line l.col
      = (l.reads k t, true) := by
  have hpos : (l.advanceN t.length).pos = l.pos + t.length := advanceN_pos (by rw [hl]; simp)
  rw [emit_eq (by simpa using hcap), hpos, Nat.add_sub_cancel_left]
  rfl

/-- `emit` either refuses, with the buffer full, or appends its token. -/
theorem emit_true {len : Nat} (h : l.emit cap k start len line col = (l', true)) :
    l.out.length < cap ∧ l' = l.push ⟨k, start, len, line, col⟩ := by
  by_cases hc : l.out.length < cap
  · rw [emit_eq hc] at h
    injection h with h _
    exact ⟨hc, h.symm⟩
  · rw [emit_full (by omega)] at h
    simp at h

theorem emit_false {len : Nat}
    (h : l.emit cap k start len line col = (l', false)) : cap ≤ l.out.length ∧ l' = l := by
  by_cases hc : l.out.length < cap
  · rw [emit_eq hc] at h
    simp at h
  · rw [emit_full (by omega)] at h
    injection h with h _
    exact ⟨by omega, h.symm⟩

theorem lexNumberEnd_eq (cap : Nat) (kind : TokenKind) (start line col : Nat) (l : Lexer) :
    lexNumberEnd cap kind start line col l =
      if stopsAt isLetter l.rest then l.emit cap kind start (l.pos - start) line col
      else ((l.advanceWhile isIdentCont).diag 1004 start line col, false) := by
  unfold lexNumberEnd
  cases h : l.rest with
  | nil => simp [stopsAt]
  | cons c r => cases hc : isLetter c <;> simp [stopsAt, hc]

/-! ## §3. Numbers. -/

theorem isDigit_isIdentCont (h : isDigit c) : isIdentCont c := by
  simp [isIdentCont, h]

theorem isLetter_isIdentCont (h : isLetter c) : isIdentCont c := by
  simp [isIdentCont, h]

theorem stopsAt_isIdentCont (r : List Char) :
    stopsAt isIdentCont r = (stopsAt isLetter r && stopsAt isDigit r) := stopsAt_or

/-- Behind the digits of a number read so far, the end of the number decides. -/
theorem lexNumberEnd_advanceN (hl : l.rest = t ++ r) (hr : stopsAt isLetter r)
    (hcap : l.out.length < cap) :
    lexNumberEnd cap kind l.pos l.line l.col (l.advanceN t.length) = (l.reads kind t, true) := by
  rw [lexNumberEnd_eq, if_pos (by rw [advanceN_rest, hl]; simpa using hr)]
  exact emit_advanceN hl hcap kind

theorem lexNumberEnd_true (hl : l.rest = t ++ r)
    (h : lexNumberEnd cap kind l.pos l.line l.col (l.advanceN t.length) = (l', true)) :
    stopsAt isLetter r ∧ l' = l.reads kind t := by
  rw [lexNumberEnd_eq] at h
  split at h
  next hs =>
    have hr : stopsAt isLetter r := by rw [advanceN_rest, hl] at hs; simpa using hs
    have hcap : l.out.length < cap := by simpa using (emit_true h).1
    rw [emit_advanceN hl hcap] at h
    injection h with h _
    exact ⟨hr, h.symm⟩
  next => simp at h

theorem lexNumberEnd_false (h : lexNumberEnd cap kind start line col l = (l', false)) :
    l'.errCount = l.errCount ∧ l'.out = l.out := by
  rw [lexNumberEnd_eq] at h
  split at h
  next => rw [(emit_false h).2]; exact ⟨rfl, rfl⟩
  next =>
    cases h
    simp

/-- The based forms: marker, digits, end. -/
theorem lexNumberBase_eq (hl : l.rest = '0' :: m :: (ds ++ r)) (hds : ∀ d ∈ ds, p d)
    (hr : stopsAt p r) :
    lexNumberBase cap p start line col l =
      if ds = [] then ((l.advanceN 2).diag 1005 start line col, false)
      else lexNumberEnd cap .intLit start line col (l.advanceN (ds.length + 2)) := by
  have hadv : l.advance.advance = l.advanceN 2 := rfl
  have hrest : (l.advanceN 2).rest = ds ++ r := by rw [advanceN_rest, hl]; rfl
  unfold lexNumberBase
  simp only [hadv]
  cases ds with
  | nil =>
    rw [hrest]
    cases r with
    | nil => rfl
    | cons c r =>
      have hc : p c = false := by simpa [stopsAt] using hr
      simp [hc]
  | cons d ds =>
    rw [if_neg (by simp), advanceWhile_append hrest hds hr, advanceN_advanceN]
    rw [hrest]
    simp only [cons_append]
    rw [if_pos (hds d (by simp)), Nat.add_comm]

/-- The second byte of a based number, if the text starts like one. -/
def baseMarker : List Char → Option (Char → Bool)
  | '0' :: m :: _ => baseDigits m
  | _ => none

theorem lexNumber_eq (cap start line col : Nat) (l : Lexer) : lexNumber cap start line col l =
      match baseMarker l.rest with
      | some p => lexNumberBase cap p start line col l
      | none => lexNumberDecimal cap start line col l := by
  by_cases hz : ∃ m t, l.rest = '0' :: m :: t
  · obtain ⟨m, t, hl⟩ := hz
    have hb : baseMarker l.rest = baseDigits m := by rw [hl]; rfl
    rw [hb]
    simp only [lexNumber, hl, baseDigits]
    by_cases hx : (decide (m = 'x') || decide (m = 'X'))
    · simp only [if_pos hx]
    · by_cases hb : (decide (m = 'b') || decide (m = 'B'))
      · simp only [if_neg hx, if_pos hb]
      · simp only [if_neg hx, if_neg hb]
  · have hdec : lexNumber cap start line col l = lexNumberDecimal cap start line col l := by
      unfold lexNumber
      split
      next m t hl => exact absurd ⟨m, t, hl⟩ hz
      next => rfl
    have hb : baseMarker l.rest = none := by
      unfold baseMarker
      split
      next m t hl => exact absurd ⟨m, t, hl⟩ hz
      next => rfl
    rw [hdec, hb]

/-- Whether a fraction follows. -/
def fraction : List Char → Bool
  | '.' :: d :: _ => isDigit d
  | _ => false

theorem decimalStops_eq (r : List Char) :
    decimalStops r = (stopsAt isIdentCont r && !fraction r) := by
  unfold decimalStops fraction
  split <;> simp_all

theorem lexNumberDecimal_int (hl : l.rest = ds ++ r) (hds : ∀ d ∈ ds, isDigit d)
    (hr : stopsAt isDigit r) (hf : fraction r = false) :
    lexNumberDecimal cap start line col l =
      lexNumberEnd cap .intLit start line col (l.advanceN ds.length) := by
  unfold lexNumberDecimal
  rw [advanceWhile_append hl hds hr]
  have hrest : (l.advanceN ds.length).rest = r := by rw [advanceN_rest, hl]; simp
  dsimp only
  rw [hrest]
  split
  next d r' =>
    have hd : isDigit d = false := hf
    rw [if_neg (by simp [hd])]
  next => rfl

theorem lexNumberDecimal_float {es : List Char} (hl : l.rest = (ds ++ '.' :: es) ++ r)
    (hds : ∀ d ∈ ds, isDigit d) (hne : es ≠ []) (hes : ∀ d ∈ es, isDigit d)
    (hr : stopsAt isDigit r) :
    lexNumberDecimal cap start line col l =
      lexNumberEnd cap .floatLit start line col (l.advanceN (ds ++ '.' :: es).length) := by
  have hl' : l.rest = ds ++ ('.' :: (es ++ r)) := by rw [hl]; simp
  unfold lexNumberDecimal
  rw [advanceWhile_append hl' hds (by simp [stopsAt]; decide)]
  have hrest : (l.advanceN ds.length).rest = '.' :: (es ++ r) := by rw [advanceN_rest, hl']; simp
  have hrest' : ((l.advanceN ds.length).advance).rest = es ++ r := by rw [advance_rest, hrest]; rfl
  dsimp only
  rw [hrest]
  cases es with
  | nil => exact absurd rfl hne
  | cons e es =>
    simp only [cons_append]
    rw [if_pos (hes e (by simp)), advanceWhile_append hrest' hes hr, advance_eq,
      advanceN_advanceN, advanceN_advanceN]
    congr 2
    simp only [length_append, length_cons]
    omega

/-- A lexeme of `x` read at `l` with `l'` as the state behind it. -/
def ReadAt (x : Lexeme) (l l' : Lexer) : Prop :=
  x.WF ∧ (∃ r, l.rest = x.text ++ r ∧ Delimits x r = true) ∧ l' = l.reads x.kind x.text

theorem baseDigits_letter (h : baseDigits m = some p) : isLetter m := by
  unfold baseDigits at h
  split at h
  next hm =>
    simp only [Bool.or_eq_true, decide_eq_true_eq] at hm
    rcases hm with rfl | rfl <;> decide
  next =>
    split at h
    next hm =>
      simp only [Bool.or_eq_true, decide_eq_true_eq] at hm
      rcases hm with rfl | rfl <;> decide
    next => simp at h

theorem isLetter_not_isDigit (h : isLetter c) : isDigit c = false := by
  simp only [isLetter, isDigit, Bool.or_eq_true, Bool.and_eq_true, decide_eq_true_eq,
    Bool.and_eq_false_iff, decide_eq_false_iff_not, Char.le_def, UInt32.le_iff_toNat_le] at *
  have e9 : '9'.val.toNat = 57 := rfl
  have ea : 'a'.val.toNat = 97 := rfl
  have eA : 'A'.val.toNat = 65 := rfl
  omega

theorem isDigit_not_isLetter (h : isDigit c) : isLetter c = false := by
  cases hl : isLetter c with
  | false => rfl
  | true => rw [isLetter_not_isDigit hl] at h; simp at h

theorem baseDigits_none (hm : isLetter m = false) : baseDigits m = none := by
  cases h : baseDigits m with
  | none => rfl
  | some p => rw [baseDigits_letter h] at hm; simp at hm

/-- Digits are no marker of a base. -/
theorem baseMarker_digits (hne : ds ≠ []) (hds : ∀ d ∈ ds, isDigit d)
    (hr : stopsAt isLetter r) :
    baseMarker (ds ++ r) = none := by
  match ds, r with
  | [], _ => exact absurd rfl hne
  | [d], [] => unfold baseMarker; split <;> simp_all
  | [d], c :: r =>
    have hc : isLetter c = false := by simpa [stopsAt] using hr
    unfold baseMarker
    split
    next m t heq =>
      simp only [cons_append, nil_append, cons.injEq] at heq
      rw [← heq.2.1]
      exact baseDigits_none hc
    next => rfl
  | d :: d' :: ds, r =>
    unfold baseMarker
    split
    next m t heq =>
      simp only [cons_append, cons.injEq] at heq
      rw [← heq.2.1]
      exact baseDigits_none (isDigit_not_isLetter (hds d' (by simp)))
    next => rfl

theorem delimits_int (hds : ∀ d ∈ ds, isDigit d) (r : List Char) :
    Delimits ⟨.intLit, ds⟩ r = decimalStops r := by
  unfold Delimits
  dsimp only
  split
  next hk => simp at hk
  next hk => simp at hk
  next m t _ =>
    rw [baseDigits_none (isDigit_not_isLetter (hds m (by simp)))]
  next => rfl
  next h => exact absurd rfl h
  next h => exact absurd rfl h

theorem delimits_based (hm : baseDigits m = some p) (ds r : List Char) :
    Delimits ⟨.intLit, '0' :: m :: ds⟩ r = (stopsAt p r && stopsAt isLetter r) := by
  simp only [Delimits, hm, stopsAt_or]

theorem delimits_float (t r : List Char) : Delimits ⟨.floatLit, t⟩ r = stopsAt isIdentCont r := by
  simp only [Delimits]

/-- **`lex_number` reads every number** that what follows lets it end. -/
theorem lexNumber_based (hm : baseDigits m = some p) (hne : ds ≠ []) (hds : ∀ d ∈ ds, p d)
    (hl : l.rest = ('0' :: m :: ds) ++ r) (hr : Delimits ⟨.intLit, '0' :: m :: ds⟩ r)
    (hcap : l.out.length < cap) :
    lexNumber cap l.pos l.line l.col l = (l.reads .intLit ('0' :: m :: ds), true) := by
  rw [delimits_based hm, Bool.and_eq_true] at hr
  have hl' : l.rest = '0' :: m :: (ds ++ r) := by simpa using hl
  have hbm : baseMarker l.rest = some p := by rw [hl']; exact hm
  rw [lexNumber_eq, hbm]
  dsimp only
  rw [lexNumberBase_eq hl' hds hr.1, if_neg hne]
  exact lexNumberEnd_advanceN hl hr.2 hcap

theorem lexNumber_int (hne : ds ≠ []) (hds : ∀ d ∈ ds, isDigit d) (hl : l.rest = ds ++ r)
    (hr : Delimits ⟨.intLit, ds⟩ r) (hcap : l.out.length < cap) :
    lexNumber cap l.pos l.line l.col l = (l.reads .intLit ds, true) := by
  rw [delimits_int hds, decimalStops_eq, stopsAt_isIdentCont] at hr
  simp only [Bool.and_eq_true, Bool.not_eq_true'] at hr
  obtain ⟨⟨hletter, hdigit⟩, hfrac⟩ := hr
  rw [lexNumber_eq, hl, baseMarker_digits hne hds hletter]
  rw [lexNumberDecimal_int hl hds hdigit hfrac]
  exact lexNumberEnd_advanceN hl hletter hcap

theorem lexNumber_float {es : List Char} (hne : ds ≠ []) (hds : ∀ d ∈ ds, isDigit d)
    (hes : es ≠ []) (hes' : ∀ d ∈ es, isDigit d) (hl : l.rest = (ds ++ '.' :: es) ++ r)
    (hr : Delimits ⟨.floatLit, ds ++ '.' :: es⟩ r) (hcap : l.out.length < cap) :
    lexNumber cap l.pos l.line l.col l = (l.reads .floatLit (ds ++ '.' :: es), true) := by
  rw [delimits_float, stopsAt_isIdentCont, Bool.and_eq_true] at hr
  have hl' : l.rest = ds ++ ('.' :: (es ++ r)) := by rw [hl]; simp
  rw [lexNumber_eq, hl', baseMarker_digits hne hds (by simp [stopsAt]; decide)]
  rw [lexNumberDecimal_float hl hds hes hes' hr.2]
  exact lexNumberEnd_advanceN hl hr.1 hcap

/-- The digits at the head of a text, with what follows them. -/
theorem digits_split (hc : isDigit c) :
    ∃ ds r, c :: t = ds ++ r ∧ ds ≠ [] ∧ (∀ d ∈ ds, isDigit d) ∧
      stopsAt isDigit r := by
  obtain ⟨w, r, hsplit, hw, hall, hr⟩ := takeWhile_split isDigit (c :: t)
  refine ⟨w, r, hsplit, ?_, hall, hr⟩
  rw [← hw]
  simp [hc]

/-- A decimal number is an integer, or an integer part with a fraction. -/
theorem lexNumberDecimal_cases (cap : Nat) (hl : l.rest = c :: t) (hc : isDigit c) :
    ∃ k ds r, l.rest = ds ++ r ∧ stopsAt isDigit r ∧
      lexNumberDecimal cap l.pos l.line l.col l =
        lexNumberEnd cap k l.pos l.line l.col (l.advanceN ds.length) ∧
      (stopsAt isLetter r → (⟨k, ds⟩ : Lexeme).WF ∧ Delimits ⟨k, ds⟩ r) := by
  obtain ⟨ds, r, hsplit, hne, hds, hr⟩ := digits_split (t := t) hc
  have hl' : l.rest = ds ++ r := hl.trans hsplit
  cases hf : fraction r with
  | false =>
    refine ⟨.intLit, ds, r, hl', hr, lexNumberDecimal_int hl' hds hr hf, ?_⟩
    intro hletter
    refine ⟨.int hne hds, ?_⟩
    rw [delimits_int hds, decimalStops_eq, stopsAt_isIdentCont, hletter, hr, hf]
    rfl
  | true =>
    unfold fraction at hf
    split at hf
    next d r' =>
      obtain ⟨es, r₂, hsplit₂, hne₂, hes, hr₂⟩ := digits_split (t := r') hf
      have hl₂ : l.rest = (ds ++ '.' :: es) ++ r₂ := by rw [hl', hsplit₂]; simp
      refine ⟨.floatLit, ds ++ '.' :: es, r₂, hl₂, hr₂,
        lexNumberDecimal_float hl₂ hds hne₂ hes hr₂, ?_⟩
      intro hletter
      refine ⟨.float hne hds hne₂ hes, ?_⟩
      rw [delimits_float, stopsAt_isIdentCont, hletter, hr₂]
      rfl
    next => simp at hf

/-- **`lex_number` reads nothing else.** -/
theorem lexNumber_true (hl : l.rest = c :: t) (hc : isDigit c)
    (h : lexNumber cap l.pos l.line l.col l = (l', true)) : ∃ x, ReadAt x l l' := by
  rw [lexNumber_eq] at h
  cases hb : baseMarker l.rest with
  | none =>
    rw [hb] at h
    obtain ⟨k, ds, r, hl', _, heq, hwf⟩ := lexNumberDecimal_cases cap hl hc
    rw [heq] at h
    obtain ⟨hletter, hread⟩ := lexNumberEnd_true hl' h
    obtain ⟨hx, hd⟩ := hwf hletter
    exact ⟨⟨k, ds⟩, hx, ⟨r, hl', hd⟩, hread⟩
  | some p =>
    rw [hb] at h
    dsimp only at h
    unfold baseMarker at hb
    split at hb
    next m t' hrest =>
      obtain ⟨ds, r, hsplit, _, hds, hr⟩ := takeWhile_split p t'
      have hl₂ : l.rest = '0' :: m :: (ds ++ r) := by rw [hrest, hsplit]
      rw [lexNumberBase_eq hl₂ hds hr] at h
      split at h
      next => simp at h
      next hne =>
        have hl₃ : l.rest = ('0' :: m :: ds) ++ r := by rw [hl₂]; rfl
        obtain ⟨hletter, hread⟩ := lexNumberEnd_true hl₃ h
        refine ⟨⟨.intLit, '0' :: m :: ds⟩, .based hb hne hds, ⟨r, hl₃, ?_⟩, hread⟩
        rw [delimits_based hb, hr, hletter]
        rfl
    next => simp at hb

theorem lexNumberBase_false (h : lexNumberBase cap p start line col l = (l', false)) :
    l'.errCount = l.errCount ∧ l'.out = l.out := by
  unfold lexNumberBase at h
  dsimp only at h
  split at h
  next =>
    split at h
    next => simpa using lexNumberEnd_false h
    next => cases h; simp
  next => cases h; simp

theorem lexNumberDecimal_false (h : lexNumberDecimal cap start line col l = (l', false)) :
    l'.errCount = l.errCount ∧ l'.out = l.out := by
  unfold lexNumberDecimal at h
  dsimp only at h
  split at h
  next => split at h <;> simpa using lexNumberEnd_false h
  next => simpa using lexNumberEnd_false h

/-- A refused number leaves the tokens and the count of errors to its caller. -/
theorem lexNumber_false (h : lexNumber cap start line col l = (l', false)) :
    l'.errCount = l.errCount ∧ l'.out = l.out := by
  rw [lexNumber_eq] at h
  split at h
  next => exact lexNumberBase_false h
  next => exact lexNumberDecimal_false h

/-! ## §4. Identifiers. -/

/-- The kinds of words in the default profile. -/
def wordKinds : List TokenKind :=
  [.kwIf, .kwEl, .kwLp, .kwBr, .kwLet, .kwMut, .kwAs, .kwRt, .kwSc, .kwMt, .boolLit,
   .ident, .typeIdent]

theorem classifyIdent_mem (w : List Char) : classifyIdent .default w ∈ wordKinds := by
  have hid : ∀ w : List Char, identKind w = .typeIdent ∨ identKind w = .ident := by
    intro w
    unfold identKind
    split
    · split
      · exact .inl rfl
      · exact .inr rfl
    · exact .inr rfl
  unfold classifyIdent
  split
  · rcases hid w with h | h <;> rw [h] <;> decide
  · split
    next k hk =>
      have hall : ∀ e ∈ keywords .default, e.2 ∈ wordKinds := by decide
      obtain ⟨pre, post, htbl, -⟩ := lookup_eq_some_iff.mp hk
      exact hall (w, k) (by simp [htbl])
    next => rcases hid w with h | h <;> rw [h] <;> decide

/-- `classify_ident` never answers with a literal other than a boolean. -/
theorem classifyIdent_kind (w : List Char) :
    classifyIdent .default w ≠ .strLit ∧ classifyIdent .default w ≠ .intLit ∧
      classifyIdent .default w ≠ .floatLit := by
  have hall : ∀ k ∈ wordKinds, k ≠ .strLit ∧ k ≠ .intLit ∧ k ≠ .floatLit := by decide
  exact hall _ (classifyIdent_mem w)

/-- Outside the literals the first byte tells words and symbols apart. -/
theorem delimits_other (h1 : k ≠ .strLit) (h2 : k ≠ .intLit) (h3 : k ≠ .floatLit) (c : Char)
    (cs r : List Char) :
    Delimits ⟨k, c :: cs⟩ r =
      if isLetter c then stopsAt isIdentContLegacy r && !upperKeyword .default (c :: cs) r
      else symbolStops (c :: cs) r := by cases k <;> first | rfl | contradiction

theorem delimits_word (hc : isLetter c) (cs r : List Char) :
    Delimits ⟨classifyIdent .default (c :: cs), c :: cs⟩ r =
      (stopsAt isIdentContLegacy r && !upperKeyword .default (c :: cs) r) := by
  obtain ⟨h1, h2, h3⟩ := classifyIdent_kind (c :: cs)
  rw [delimits_other h1 h2 h3, if_pos hc]

theorem stopsAt_isIdentContLegacy (r : List Char) :
    stopsAt isIdentContLegacy r = (stopsAt isIdentCont r && decide (r.head? ≠ some '_')) := by
  cases r with
  | nil => rfl
  | cons c r => by_cases h : c = '_' <;> simp [stopsAt, isIdentContLegacy, isIdentCont, h]

/-- `lex_ident` on the word at its head. -/
theorem lexIdent_eq {cs : List Char} (hl : l.rest = (c :: cs) ++ r)
    (hcs : ∀ d ∈ cs, isIdentCont d) (hr : stopsAt isIdentCont r) :
    lexIdent .default cap l.pos l.line l.col c l.advance = if r.head? = some '_' then
        (((l.advanceN (c :: cs).length).advanceWhile isIdentContLegacy).diag 1003
          l.pos l.line l.col, false)
      else if upperKeyword .default (c :: cs) r then
        ((l.advanceN (c :: cs).length).diag 1006 l.pos l.line l.col, false)
      else (l.advanceN (c :: cs).length).emit cap (classifyIdent .default (c :: cs)) l.pos
        ((l.advanceN (c :: cs).length).pos - l.pos) l.line l.col := by
  have hrest : l.advance.rest = cs ++ r := by rw [advance_rest, hl]; rfl
  have hadv : l.advance.advanceWhile isIdentCont = l.advanceN (c :: cs).length := by
    rw [advanceWhile_append hrest hcs hr]
    rfl
  have hpos : (l.advanceN (c :: cs).length).pos - l.pos = (c :: cs).length := by
    rw [advanceN_pos (by rw [hl]; simp), Nat.add_sub_cancel_left]
  have hdrop : (l.advanceN (c :: cs).length).rest = r := by rw [advanceN_rest, hl]; simp
  unfold lexIdent
  dsimp only
  rw [hadv, hrest, takeWhile_append_stop hcs hr, hdrop, hpos]
  simp only [true_and]

/-- **`lex_ident` reads every word** that what follows lets it end. -/
theorem lexIdent_word {cs : List Char} (hc : isLetter c)
    (hcs : ∀ d ∈ cs, isIdentCont d) (hl : l.rest = (c :: cs) ++ r)
    (hr : Delimits ⟨classifyIdent .default (c :: cs), c :: cs⟩ r)
    (hcap : l.out.length < cap) :
    lexIdent .default cap l.pos l.line l.col c l.advance =
      (l.reads (classifyIdent .default (c :: cs)) (c :: cs), true) := by
  rw [delimits_word hc, stopsAt_isIdentContLegacy] at hr
  simp only [Bool.and_eq_true, decide_eq_true_eq, Bool.not_eq_true'] at hr
  obtain ⟨⟨hcont, hund⟩, hupper⟩ := hr
  rw [lexIdent_eq hl hcs hcont, if_neg hund, if_neg (by simp [hupper])]
  exact emit_advanceN hl hcap _

/-- **`lex_ident` reads nothing else.** -/
theorem lexIdent_true (hl : l.rest = c :: t) (hc : isLetter c)
    (h : lexIdent .default cap l.pos l.line l.col c l.advance = (l', true)) :
    ∃ x, ReadAt x l l' := by
  obtain ⟨cs, r, hsplit, _, hcs, hr⟩ := takeWhile_split isIdentCont t
  have hl' : l.rest = (c :: cs) ++ r := by rw [hl, hsplit]; rfl
  rw [lexIdent_eq hl' hcs hr] at h
  split at h
  next => simp at h
  next hund =>
    split at h
    next => simp at h
    next hupper =>
      have hcap : l.out.length < cap := by simpa using (emit_true h).1
      rw [emit_advanceN hl' hcap] at h
      injection h with h _
      refine ⟨⟨_, c :: cs⟩, .word hc hcs, ⟨r, hl', ?_⟩, h.symm⟩
      rw [delimits_word hc, stopsAt_isIdentContLegacy, hr]
      simp [hund, hupper]

theorem lexIdent_false {profile : Profile}
    (h : lexIdent profile cap start line col c l = (l', false)) :
    l'.errCount = l.errCount ∧ l'.out = l.out := by
  unfold lexIdent at h
  dsimp only at h
  split at h
  next => cases h; simp
  next =>
    split at h
    next => cases h; simp
    next => rw [(emit_false h).2]; simp

/-! ## §5. Strings. -/

theorem isSimpleEscape_ne (h : isSimpleEscape c) : c ≠ 'x' ∧ c ≠ '(' := by
  constructor <;> (rintro rfl; revert h; decide)

/-- One turn of the string loop steps over one piece. -/
theorem lexStringTurn_piece {b : Bool} {p : StrPiece} (hp : p.ok)
    (hl : l.rest = p.text ++ r) :
    lexStringTurn cap start line col b l = .more b (l.advanceN p.text.length) := by
  cases p with
  | plain c =>
    simp only [StrPiece.ok, Bool.and_eq_true, bne_iff_ne] at hp
    simp only [StrPiece.text, cons_append] at hl
    simp only [lexStringTurn, hl, if_neg hp.1, if_neg hp.2]
    rfl
  | escape c | hex a d =>
    simp only [StrPiece.text] at hl
    simp only [StrPiece.ok] at hp
    simp [lexStringTurn, hl, lexEscape, hp]
    rfl
  | interp body =>
    have hx : isSimpleEscape '(' = false := by decide
    simp [lexStringTurn, hl, lexEscape, hx, interpLen_balanced hp, StrPiece.text]
    rw [show l.advance.advance = l.advanceN 2 from rfl, advanceN_advanceN]
    congr 1
    omega

/-- The string loop steps over any number of pieces. -/
theorem lexStringLoop_pieces {b : Bool} :
    ∀ (ps : List StrPiece) (f : Nat) (l : Lexer), (∀ p ∈ ps, p.ok) →
      l.rest = bodyText ps ++ r →
      lexStringLoop cap start line col (f + ps.length) b l =
        lexStringLoop cap start line col f b (l.advanceN (bodyText ps).length)
  | [], f, l, _, _ => rfl
  | p :: ps, f, l, hps, hl => by
    have hl' : l.rest = p.text ++ (bodyText ps ++ r) := by rw [hl]; simp
    have hrest : (l.advanceN p.text.length).rest = bodyText ps ++ r := by
      rw [advanceN_rest, hl']; simp
    have hps' : ∀ q ∈ ps, q.ok := fun q hq => hps q (by simp [hq])
    rw [length_cons, ← Nat.add_assoc, lexStringLoop, lexStringTurn_piece (hps p (by simp)) hl']
    dsimp only
    rw [lexStringLoop_pieces ps f _ hps' hrest]
    simp

theorem length_le_bodyText (ps : List StrPiece) : ps.length ≤ (bodyText ps).length :=
  Items.length_le_flatMap fun p _ => by cases p <;> simp [StrPiece.text]

/-- **`lex_string` reads every string literal.** -/
theorem lexString_pieces {ps : List StrPiece} (hps : ∀ p ∈ ps, p.ok)
    (hl : l.rest = strText ps ++ r) (hcap : l.out.length < cap) :
    lexString cap l.pos l.line l.col l.advance = (l.reads .strLit (strText ps), true) := by
  have hrest : l.advance.rest = bodyText ps ++ '"' :: r := by rw [advance_rest, hl]; simp [strText]
  have hlen := length_le_bodyText ps
  obtain ⟨f, hf⟩ : ∃ f, l.advance.rest.length + 1 = (f + 1) + ps.length :=
    ⟨l.advance.rest.length - ps.length, by rw [hrest]; simp; omega⟩
  have hquote : (l.advance.advanceN (bodyText ps).length).rest = '"' :: r := by
    rw [advanceN_rest, hrest]; simp
  unfold lexString
  rw [hf, lexStringLoop_pieces ps (f + 1) _ hps hrest, lexStringLoop]
  simp only [lexStringTurn, hquote]
  have hall : (l.advance.advanceN (bodyText ps).length).advance
      = l.advanceN (strText ps).length := by
    rw [advance_eq, advance_eq, advanceN_advanceN, advanceN_advanceN]
    congr 1
    simp only [strText, length_cons, length_append, length_nil]
    omega
  rw [hall]
  exact emit_advanceN hl hcap _

/-- A turn that counted an error, or ran into the end of the buffer. -/
def StrTurn.Bad (l : Lexer) : StrTurn → Prop
  | .done l' ok => ok = false ∧ l.errCount < l'.errCount ∧ l'.out = l.out
  | .more b l' => b = true ∧ l.errCount < l'.errCount ∧ l'.out = l.out

theorem badEscape_bad (l : Lexer) : (badEscape l).Bad l := by
  unfold badEscape
  split
  · exact ⟨rfl, by simp [recordError], rfl⟩
  · exact ⟨rfl, by simp [recordError], rfl⟩

theorem unterminated_bad (start line col : Nat) (l : Lexer) :
    (unterminated start line col l).Bad l := by
  refine ⟨rfl, ?_, rfl⟩
  simp [recordError]

/-- `Bad` only looks at the count of errors and the tokens. -/
theorem StrTurn.Bad.of_eq {l₀ : Lexer} {t : StrTurn} (h : t.Bad l) (he : l.errCount = l₀.errCount)
    (ho : l.out = l₀.out) : t.Bad l₀ := by
  cases t with
  | done l' ok | more b l' => exact ⟨h.1, he ▸ h.2.1, h.2.2.trans ho⟩

/-- What an escape can be. -/
theorem lexEscape_cases (start line col : Nat) (b : Bool) :
    (∃ p r, StrPiece.ok p ∧ '\\' :: l.rest = p.text ++ r ∧
      lexEscape start line col b l = .more b (l.advanceN (p.text.length - 1))) ∨
    (∃ l', lexEscape start line col b l = .more b l' ∧ l'.rest = [] ∧
      l'.errCount = l.errCount ∧ l'.out = l.out) ∨
    (lexEscape start line col b l).Bad l := by
  cases hl : l.rest with
  | nil =>
    refine .inr (.inr ?_)
    simp only [lexEscape, hl]
    exact unterminated_bad start line col l
  | cons esc r =>
    by_cases hs : isSimpleEscape esc
    · refine .inl ⟨.escape esc, r, hs, rfl, ?_⟩
      simp [lexEscape, hl, hs, StrPiece.text, advance_eq]
    by_cases hx : esc = 'x'
    · subst hx
      have bad : (badEscape (l.advance.diag 1001 l.advance.pos l.advance.line
          l.advance.col)).Bad l := (badEscape_bad _).of_eq (by simp) (by simp)
      match r with
      | [] => exact .inr (.inr (by simpa [lexEscape, hl, hs] using bad))
      | [a] => exact .inr (.inr (by simpa [lexEscape, hl, hs] using bad))
      | a :: d :: r =>
        by_cases hh : (isHex a && isHex d)
        · refine .inl ⟨.hex a d, r, hh, rfl, ?_⟩
          simp [lexEscape, hl, hs, hh, StrPiece.text]
        · refine .inr (.inr ?_)
          simp only [lexEscape, hl, hh]
          exact bad
    by_cases hp : esc = '('
    · subst hp
      have hturn : lexEscape start line col b l = .more b (l.advance.advanceN (interpLen 1 r)) := by
        simp [lexEscape, hl, hs]
      rcases interpLen_cases 0 r with ⟨body, r', rfl, hb⟩ | hend
      · have hbal : balanced body := by simpa [balanced] using hb
        refine .inl ⟨.interp body, r', hbal, by simp [StrPiece.text], ?_⟩
        rw [hturn, interpLen_balanced hbal, advance_eq, advanceN_advanceN]
        congr 2
        simp only [StrPiece.text, length_cons, length_append, length_nil]
        omega
      · -- no closing parenthesis: the loop runs to the end of the buffer
        refine .inr (.inl ⟨_, hturn, ?_, by simp, by simp⟩)
        rw [advanceN_rest, advance_rest, hl]
        exact drop_eq_nil_of_le (Nat.le_of_eq hend.symm)
    · refine .inr (.inr ?_)
      have bad := badEscape_bad (l.diag 1001 (l.pos - 1) l.line (l.col - 1))
      simp only [lexEscape, hl, hs, hx, hp, Bool.false_eq_true, if_false]
      split
      next b' l' h' => rw [h'] at bad; exact ⟨bad.1, by simpa using bad.2.1, by simpa using bad.2.2⟩
      next => exact bad

/-- What a turn of the string loop can do. -/
theorem lexStringTurn_cases (cap start line col : Nat) (b : Bool) (l : Lexer) :
    (∃ r, l.rest = '"' :: r ∧ lexStringTurn cap start line col b l = if b then .done l.advance false
      else .done (l.advance.emit cap .strLit start (l.advance.pos - start) line col).1
        (l.advance.emit cap .strLit start (l.advance.pos - start) line col).2) ∨
    (∃ p r, StrPiece.ok p ∧ l.rest = p.text ++ r ∧
      lexStringTurn cap start line col b l = .more b (l.advanceN p.text.length)) ∨
    (∃ l', lexStringTurn cap start line col b l = .more b l' ∧ l'.rest = [] ∧
      l'.errCount = l.errCount ∧ l'.out = l.out) ∨
    (lexStringTurn cap start line col b l).Bad l := by
  cases hl : l.rest with
  | nil =>
    refine .inr (.inr (.inr ?_))
    simp only [lexStringTurn, hl]
    exact unterminated_bad start line col l
  | cons c r =>
    by_cases hq : c = '"'
    · subst hq
      exact .inl ⟨r, rfl, by simp [lexStringTurn, hl]⟩
    by_cases hb : c = '\\'
    · subst hb
      have hturn : lexStringTurn cap start line col b l
          = lexEscape start line col b l.advance := by simp [lexStringTurn, hl]
      rw [hturn]
      rcases lexEscape_cases start line col b (l := l.advance) with
        ⟨p, r', hp, htext, hmore⟩ | ⟨l', hmore, hend, he, ho⟩ | hbad
      · refine .inr (.inl ⟨p, r', hp, by rw [← htext, advance_rest, hl]; rfl, ?_⟩)
        have hlen : 1 ≤ p.text.length := by cases p <;> simp [StrPiece.text]
        rw [hmore, advance_eq, advanceN_advanceN, Nat.add_sub_cancel' hlen]
      · exact .inr (.inr (.inl ⟨l', hmore, hend, by simpa using he, by simpa using ho⟩))
      · exact .inr (.inr (.inr (hbad.of_eq (by simp) (by simp))))
    · refine .inr (.inl ⟨.plain c, r, by simp [StrPiece.ok, hq, hb], rfl, ?_⟩)
      simp [lexStringTurn, hl, hq, hb, StrPiece.text, advance_eq]

/-- At the end of the buffer the loop can only report E1002. -/
theorem lexStringLoop_end (cap start line col : Nat) (b : Bool) (hl : l.rest = []) (f : Nat) :
    ∃ l', lexStringLoop cap start line col f b l = (l', false) ∧
      l.errCount < l'.errCount ∧ l'.out = l.out := by
  have hbad := unterminated_bad start line col l
  cases f with
  | zero => exact ⟨_, rfl, hbad.2⟩
  | succ f =>
    refine ⟨_, ?_, hbad.2⟩
    simp only [lexStringLoop, lexStringTurn, hl, unterminated]

/-- **`lex_string` reads nothing else.**  By induction on the turns. -/
theorem lexStringLoop_true : ∀ (f : Nat) (b : Bool) (l : Lexer),
      lexStringLoop cap start line col f b l = (l', true) →
      b = false ∧ ∃ ps r, (∀ p ∈ ps, StrPiece.ok p) ∧ l.rest = bodyText ps ++ '"' :: r ∧
        (l.advanceN ((bodyText ps).length + 1)).emit cap .strLit start
          ((l.advanceN ((bodyText ps).length + 1)).pos - start) line col = (l', true)
  | 0, b, l, h => by simp [lexStringLoop] at h
  | f + 1, b, l, h => by
    rw [lexStringLoop] at h
    rcases lexStringTurn_cases cap start line col b l with
      ⟨r, hl, hturn⟩ | ⟨p, r, hp, hl, hturn⟩ | ⟨l₁, hturn, hend, _, _⟩ | hbad
    · rw [hturn] at h
      cases b with
      | true => simp at h
      | false => exact ⟨rfl, [], r, by simp, hl, h⟩
    · rw [hturn] at h
      obtain ⟨hb, ps, r', hps, hrest, hemit⟩ := lexStringLoop_true f b _ h
      refine ⟨hb, p :: ps, r', ?_, ?_, ?_⟩
      · exact forall_mem_cons.mpr ⟨hp, hps⟩
      · have hdrop : l.rest.drop p.text.length = r := by rw [hl]; simp
        rw [advanceN_rest, hdrop] at hrest
        rw [hl, hrest]
        simp
      · simpa [Nat.add_assoc] using hemit
    · rw [hturn] at h
      obtain ⟨l₂, hloop, _⟩ := lexStringLoop_end cap start line col b hend f
      dsimp only at h
      rw [hloop] at h
      simp at h
    · cases hturn : lexStringTurn cap start line col b l with
      | done l₁ ok =>
        rw [hturn] at hbad h
        simp [hbad.1] at h
      | more b' l₁ =>
        -- an error was counted, so the loop can only return a failure
        rw [hturn] at hbad h
        have := (lexStringLoop_true f b' l₁ h).1
        rw [hbad.1] at this
        simp at this

theorem lexStringLoop_false : ∀ (f : Nat) (b : Bool) (l : Lexer),
      lexStringLoop cap start line col f b l = (l', false) →
      l'.out = l.out ∧ l.errCount ≤ l'.errCount ∧
        (b = false → l.errCount < l'.errCount ∨ cap ≤ l.out.length)
  | 0, b, l, h => by
    simp only [lexStringLoop, Prod.mk.injEq, and_true] at h
    subst h
    exact ⟨rfl, by simp [recordError], fun _ => .inl (by simp [recordError])⟩
  | f + 1, b, l, h => by
    rw [lexStringLoop] at h
    rcases lexStringTurn_cases cap start line col b l with
      ⟨r, hl, hturn⟩ | ⟨p, r, hp, hl, hturn⟩ | ⟨l₁, hturn, hend, he, ho⟩ | hbad
    · rw [hturn] at h
      cases b with
      | true =>
        simp only [if_true, Prod.mk.injEq, and_true] at h
        subst h
        exact ⟨by simp, by simp, fun h => absurd h (by simp)⟩
      | false =>
        have h' : l.advance.emit cap .strLit start (l.advance.pos - start) line col
            = (l', false) := h
        obtain ⟨hfull, rfl⟩ := emit_false h'
        exact ⟨by simp, by simp, fun _ => .inr (by simpa using hfull)⟩
    · rw [hturn] at h
      simpa using lexStringLoop_false f b _ h
    · rw [hturn] at h
      have := lexStringLoop_false f b _ h
      rwa [he, ho] at this
    · cases hturn : lexStringTurn cap start line col b l with
      | done l₁ ok =>
        rw [hturn] at hbad h
        cases h
        exact ⟨hbad.2.2, Nat.le_of_lt hbad.2.1, fun _ => .inl hbad.2.1⟩
      | more b' l₁ =>
        rw [hturn] at hbad h
        obtain ⟨hout, herr, _⟩ := lexStringLoop_false f b' l₁ h
        have hlt := hbad.2.1
        exact ⟨hout.trans hbad.2.2, by omega, fun _ => .inl (by omega)⟩

/-- What `lex_string` accepts is a literal made of pieces. -/
theorem lexString_strText (hl : l.rest = '"' :: t)
    (h : lexString cap l.pos l.line l.col l.advance = (l', true)) :
    ∃ ps r, (∀ p ∈ ps, StrPiece.ok p) ∧ l.rest = strText ps ++ r ∧
      l' = l.reads .strLit (strText ps) := by
  obtain ⟨_, ps, r, hps, hrest, hemit⟩ := lexStringLoop_true _ _ _ h
  have hl' : l.rest = strText ps ++ r := by
    rw [advance_rest, hl, tail_cons] at hrest
    rw [hl, hrest]
    simp [strText]
  have hall : l.advance.advanceN ((bodyText ps).length + 1) = l.advanceN (strText ps).length := by
    rw [advance_eq, advanceN_advanceN]
    congr 1
    simp only [strText, length_cons, length_append, length_nil]
    omega
  rw [hall] at hemit
  have hcap : l.out.length < cap := by simpa using (emit_true hemit).1
  rw [emit_advanceN hl' hcap] at hemit
  injection hemit with hread _
  exact ⟨ps, r, hps, hl', hread.symm⟩

theorem lexString_true (hl : l.rest = '"' :: t)
    (h : lexString cap l.pos l.line l.col l.advance = (l', true)) : ∃ x, ReadAt x l l' := by
  obtain ⟨ps, r, hps, hrest, hread⟩ := lexString_strText hl h
  exact ⟨⟨.strLit, strText ps⟩, .str hps, ⟨r, hrest, rfl⟩, hread⟩

end Toke
