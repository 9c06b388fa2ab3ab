/-
  Toke.Format.Minify — **THE MINIFIER** (`fmt.c`: `min_put_str`, `tkc_minify`).

  `tkcMinify` re-lexes the source and prints the tokens with one space between
  two word-like tokens and nothing elsewhere.  String literals go through
  `minPutStr`, which rewrites raw control bytes.  The result is a C string: the
  caller reads it up to the first NUL byte (`cString`).

  On lexemes instead of tokens the printer is `render`; `minifyLoop_eq` says
  that the two agree on every accepted source.  The string rewriting acts piece
  by piece (`minPutStr_strText`), keeps a literal well formed and is idempotent.
-/
import Toke.Lexer.Scan

namespace Toke

open List Lexer

/-! ## §1. The source functions. -/

/-- `fmt_is_word`. -/
def fmtIsWord (c : Char) : Bool := isLetter c || isDigit c || c == '_'

/-- The raw control bytes that `min_put_str` rewrites. -/
def isRawControl (c : Char) : Bool := c == '\n' || c == '\t' || c == '\r'

/-- A raw control byte inside an interpolation becomes a space. -/
def blankControl (c : Char) : Char := if isRawControl c then ' ' else c

/-- A raw control byte outside becomes its escape. -/
def escapeControl (c : Char) : List Char :=
  if c = '\n' then ['\\', 'n']
  else if c = '\t' then ['\\', 't']
  else if c = '\r' then ['\\', 'r']
  else [c]

/-- `min_put_str`; the first argument is its `depth`. -/
def minPutStr : Nat → List Char → List Char
  | _, [] => []
  | d + 1, c :: r =>
    blankControl c :: minPutStr (if c = '(' then d + 2 else if c = ')' then d else d + 1) r
  | 0, [c] => escapeControl c
  | 0, c :: e :: r =>
    if c = '\\' then c :: e :: minPutStr (if e = '(' then 1 else 0) r
    else escapeControl c ++ minPutStr 0 (e :: r)

/-- The NUL byte. -/
def nul : Char := Char.ofNat 0

/-- The separator `tkc_minify` prints between a token ending in `prev` and one
starting with `c`. -/
def minSep (prev c : Char) : List Char :=
  if prev != nul && fmtIsWord prev && fmtIsWord c then [' '] else []

/-- The token loop of `tkc_minify`; `prev` is `prev_last`. -/
def minifyLoop (src : Source) : Char → List Token → List Char
  | _, [] => []
  | prev, t :: ts =>
    if t.kind = .eof then []
    else if t.len = 0 then minifyLoop src prev ts
    else
      let text := t.text src
      minSep prev (text.headD nul) ++ (if t.kind = .strLit then minPutStr 0 text else text) ++
        minifyLoop src (text.getLastD nul) ts

/-- A buffer read as a C string. -/
def cString (b : List Char) : List Char := b.takeWhile (· != nul)

/-- `tkc_minify`; `none` is `NULL`. -/
def tkcMinify (src : Source) : Option (List Char) :=
  (lex .default (src.length + 16) src).map fun toks => cString (minifyLoop src nul toks)

/-! ## §2. Printing lexemes. -/

/-- The printed text of a lexeme. -/
def minText (x : Lexeme) : List Char :=
  if x.kind = .strLit then minPutStr 0 x.text else x.text

/-- The lexeme that should be read back. -/
def minLexeme (x : Lexeme) : Lexeme := ⟨x.kind, minText x⟩

/-- The printer of `tkc_minify` on lexemes. -/
def render : Char → List Lexeme → List Char
  | _, [] => []
  | prev, x :: xs => minSep prev (x.text.headD nul) ++ minText x ++ render (x.text.getLastD nul) xs

theorem minifyLoop_eq (src : Source) (eof : Token) (he : eof.kind = .eof) :
    ∀ (body : List Token) (prev : Char), (∀ t ∈ body, (t.lexeme src).WF) →
      minifyLoop src prev (body ++ [eof]) = render prev (body.map (Token.lexeme src))
  | [], prev, _ => by simp [minifyLoop, render, he]
  | t :: body, prev, hwf => by
    have hx : (t.lexeme src).WF := hwf t (by simp)
    have hne : (t.lexeme src).text ≠ [] := WF_ne_nil hx
    have hkind : t.kind ≠ .eof := WF_kind_ne_eof hx
    have hlen : t.len ≠ 0 := by
      intro h0
      apply hne
      simp [Token.lexeme, Token.text, slice, h0]
    have ih := minifyLoop_eq src eof he body ((t.text src).getLastD nul)
      (forall_mem_cons.mp hwf).2
    simp only [cons_append, minifyLoop, if_neg hkind, if_neg hlen, ih]
    rfl

/-! ## §3. String literals, piece by piece. -/

/-- What `min_put_str` makes of one piece. -/
def minPiece : StrPiece → StrPiece
  | .plain c =>
    if c = '\n' then .escape 'n'
    else if c = '\t' then .escape 't'
    else if c = '\r' then .escape 'r'
    else .plain c
  | .escape c => .escape c
  | .hex a b => .hex a b
  | .interp body => .interp (body.map blankControl)

theorem escapeControl_eq (c : Char) : escapeControl c = (minPiece (.plain c)).text := by
  simp only [escapeControl, minPiece]
  split_ifs <;> rfl

theorem blankControl_paren (c : Char) :
    (blankControl c = '(' ↔ c = '(') ∧ (blankControl c = ')' ↔ c = ')') := by
  unfold blankControl isRawControl
  split
  next h =>
    simp only [Bool.or_eq_true, beq_iff_eq] at h
    rcases h with (rfl | rfl) | rfl <;> decide
  next => simp

/-- Blanking control bytes does not move a parenthesis. -/
theorem parenDepth_blank : ∀ (d : Nat) (b : List Char),
    parenDepth d (b.map blankControl) = parenDepth d b
  | _, [] => rfl
  | d, c :: b => by
    obtain ⟨h1, h2⟩ := blankControl_paren c
    simp only [map_cons, parenDepth, h1, h2, parenDepth_blank]

theorem isHex_plain {c : Char} (h : isHex c) :
    c ≠ '\\' ∧ c ≠ '\n' ∧ c ≠ '\t' ∧ c ≠ '\r' ∧ c ≠ '"' := by
  refine ⟨?_, ?_, ?_, ?_, ?_⟩ <;> (rintro rfl; revert h; decide)

/-- A plain byte becomes an escape, or stays and is no raw control byte. -/
theorem minPiece_plain (c : Char) :
    (∃ e, minPiece (.plain c) = .escape e ∧ (e = 'n' ∨ e = 't' ∨ e = 'r')) ∨
      (minPiece (.plain c) = .plain c ∧ isRawControl c = false) := by
  simp only [minPiece]
  by_cases h1 : c = '\n'
  · exact Or.inl ⟨'n', by simp [h1], by simp⟩
  by_cases h2 : c = '\t'
  · exact Or.inl ⟨'t', by simp [h2], by simp⟩
  by_cases h3 : c = '\r'
  · exact Or.inl ⟨'r', by simp [h3], by simp⟩
  · exact Or.inr ⟨by simp [h1, h2, h3], by simp [isRawControl, h1, h2, h3]⟩

theorem minPiece_ok {p : StrPiece} (h : p.ok) : (minPiece p).ok := by
  cases p with
  | plain c =>
    rcases minPiece_plain c with ⟨e, he, rfl | rfl | rfl⟩ | ⟨he, _⟩
    · rw [he]; decide
    · rw [he]; decide
    · rw [he]; decide
    · rw [he]; exact h
  | escape c => exact h
  | hex a b => exact h
  | interp body =>
    simp only [minPiece, StrPiece.ok, balanced, parenDepth_blank]
    exact h

theorem minPiece_idem (p : StrPiece) : minPiece (minPiece p) = minPiece p := by
  cases p with
  | plain c =>
    rcases minPiece_plain c with ⟨e, he, _⟩ | ⟨he, _⟩
    · rw [he]; rfl
    · rw [he, he]
  | escape c => rfl
  | hex a b => rfl
  | interp body =>
    have hblank : ∀ c, blankControl (blankControl c) = blankControl c := by
      intro c
      unfold blankControl
      by_cases h : isRawControl c
      · rw [if_pos h]; rfl
      · rw [if_neg h, if_neg h]
    simp [minPiece, hblank]

/-- Inside an interpolation every byte is kept or blanked. -/
theorem minPutStr_interp (b r : List Char) (d d' : Nat)
    (h : parenDepth (d + 1) b = some (d' + 1)) :
    minPutStr (d + 1) (b ++ r) = b.map blankControl ++ minPutStr (d' + 1) r := by
  refine parenDepth_induct rfl (fun he ih => ?_) h
  rw [cons_append, minPutStr, he, ih]
  rfl

/-- A byte outside an interpolation that is no backslash. -/
theorem minPutStr_plain {c : Char} (hc : c ≠ '\\') (r : List Char) :
    minPutStr 0 (c :: r) = escapeControl c ++ minPutStr 0 r := by
  cases r with
  | nil => simp [minPutStr]
  | cons e r => simp [minPutStr, hc]

/-- **`min_put_str` acts piece by piece.** -/
theorem minPutStr_piece {p : StrPiece} (hp : p.ok) (r : List Char) :
    minPutStr 0 (p.text ++ r) = (minPiece p).text ++ minPutStr 0 r := by
  cases p with
  | plain c =>
    simp only [StrPiece.ok, Bool.and_eq_true, bne_iff_ne] at hp
    rw [← escapeControl_eq]
    exact minPutStr_plain hp.2 r
  | escape c =>
    have hne : c ≠ '(' := (isSimpleEscape_ne hp).2
    simp [StrPiece.text, minPutStr, minPiece, hne]
  | hex a b =>
    simp only [StrPiece.ok, Bool.and_eq_true] at hp
    obtain ⟨ha, ha1, ha2, ha3, _⟩ := isHex_plain hp.1
    obtain ⟨hb, hb1, hb2, hb3, _⟩ := isHex_plain hp.2
    have hstart : minPutStr 0 ('\\' :: 'x' :: a :: b :: r)
        = '\\' :: 'x' :: minPutStr 0 (a :: b :: r) := by simp [minPutStr]
    show minPutStr 0 ('\\' :: 'x' :: a :: b :: r) = _
    rw [hstart, minPutStr_plain ha, minPutStr_plain hb]
    simp [escapeControl, minPiece, StrPiece.text, ha1, ha2, ha3, hb1, hb2, hb3]
  | interp body =>
    have hb : parenDepth (0 + 1) body = some (0 + 1) := by simpa [StrPiece.ok, balanced] using hp
    have hclose : minPutStr (0 + 1) (')' :: r) = ')' :: minPutStr 0 r := by
      simp [minPutStr, blankControl, isRawControl]
    have hstart : minPutStr 0 ('\\' :: '(' :: (body ++ ')' :: r))
        = '\\' :: '(' :: minPutStr (0 + 1) (body ++ ')' :: r) := by simp [minPutStr]
    show minPutStr 0 ('\\' :: '(' :: ((body ++ [')']) ++ r)) = _
    rw [append_assoc]
    show minPutStr 0 ('\\' :: '(' :: (body ++ ')' :: r)) = _
    rw [hstart, minPutStr_interp body _ 0 0 hb, hclose]
    simp [minPiece, StrPiece.text]

theorem minPutStr_body : ∀ (ps : List StrPiece) (r : List Char), (∀ p ∈ ps, p.ok) →
    minPutStr 0 (bodyText ps ++ r) = bodyText (ps.map minPiece) ++ minPutStr 0 r
  | [], r, _ => rfl
  | p :: ps, r, h => by
    rw [bodyText_cons, append_assoc, minPutStr_piece (h p (by simp)),
      minPutStr_body ps r (forall_mem_cons.mp h).2]
    simp

/-- **The rewritten literal is the literal of the rewritten pieces.** -/
theorem minPutStr_strText {ps : List StrPiece} (h : ∀ p ∈ ps, p.ok) :
    minPutStr 0 (strText ps) = strText (ps.map minPiece) := by
  unfold strText
  rw [minPutStr_plain (by decide), minPutStr_body ps ['"'] h]
  rfl

theorem minPieces_ok {ps : List StrPiece} (h : ∀ p ∈ ps, p.ok) :
    ∀ p ∈ ps.map minPiece, p.ok := by
  intro p hp
  obtain ⟨q, hq, rfl⟩ := mem_map.mp hp
  exact minPiece_ok (h q hq)

end Toke
