/-
  Toke.Lexer.Lexeme — **THE LEXICAL GRAMMAR OF THE DEFAULT PROFILE**, stated apart from the
  scanner that reads it.

  A lexeme is a token kind with its text.  `Lexeme.WF` lists the texts that
  make a token of each class, `Delimits x r` says that the scanner, having
  read `x`, stops there when `r` follows, and `Trivia s r` lists what it skips.
  `Scans cs xs` puts them together: the text `cs` is a sequence of lexemes
  `xs` with trivia between them, which `lex` decides (`Toke.Lexer.Scan`).
-/
import Toke.Lexer.Lex

namespace Toke

/-! ## §1. The inside of a string literal. -/

/-- The nesting of `(` … `)` behind a text entered at nesting `d`, or `none`
when the text itself closes the level it was entered at. -/
def parenDepth : Nat → List Char → Option Nat
  | d, [] => some d
  | d, c :: r =>
    if c = '(' then parenDepth (d + 1) r
    else if c = ')' then (if d ≤ 1 then none else parenDepth (d - 1) r)
    else parenDepth d r

/-- A text whose parentheses match, with no `)` of an enclosing level. -/
def balanced (b : List Char) : Bool := parenDepth 1 b == some 1

/-- One piece of a string literal as `lex_string` steps over it. -/
inductive StrPiece where
  /-- A byte that stands for itself. -/
  | plain (c : Char)
  /-- A backslash and one byte. -/
  | escape (c : Char)
  /-- `\xHH`. -/
  | hex (a b : Char)
  /-- `\(body)`. -/
  | interp (body : List Char)
  deriving Repr, DecidableEq

namespace StrPiece

/-- The characters of a piece. -/
def text : StrPiece → List Char
  | plain c => [c]
  | escape c => ['\\', c]
  | hex a b => ['\\', 'x', a, b]
  | interp body => '\\' :: '(' :: (body ++ [')'])

/-- The pieces `lex_string` accepts. -/
def ok : StrPiece → Bool
  | plain c => c != '"' && c != '\\'
  | escape c => isSimpleEscape c
  | hex a b => isHex a && isHex b
  | interp body => balanced body

end StrPiece

/-- The text between the quotes. -/
def bodyText (ps : List StrPiece) : List Char := ps.flatMap StrPiece.text

/-- The text of a string literal, quotes included. -/
def strText (ps : List StrPiece) : List Char := '"' :: (bodyText ps ++ ['"'])

@[simp] theorem bodyText_nil : bodyText [] = [] := rfl

@[simp] theorem bodyText_cons (p : StrPiece) (ps : List StrPiece) :
    bodyText (p :: ps) = p.text ++ bodyText ps := rfl

/-- Induction along a body whose parentheses lead from one depth to another. -/
@[elab_as_elim] theorem parenDepth_induct {d' : Nat} {motive : Nat → List Char → Prop}
    (nil : motive d' [])
    (cons : ∀ {c b d e}, (if c = '(' then d + 2 else if c = ')' then d else d + 1) = e + 1 →
      motive e b → motive d (c :: b)) {b : List Char} {d : Nat}
    (h : parenDepth (d + 1) b = some (d' + 1)) : motive d b := by
  induction b generalizing d with
  | nil =>
    simp only [parenDepth, Option.some.injEq, Nat.add_right_cancel_iff] at h
    exact h ▸ nil
  | cons c b ih =>
    rw [parenDepth] at h
    by_cases hc : c = '('
    · rw [if_pos hc] at h
      exact cons (if_pos hc) (ih h)
    rw [if_neg hc] at h
    by_cases hc' : c = ')'
    · rw [if_pos hc'] at h
      cases d with
      | zero => cases h
      | succ d => exact cons (by rw [if_neg hc, if_pos hc']) (ih (by simpa using h))
    · rw [if_neg hc'] at h
      exact cons (by rw [if_neg hc, if_neg hc']) (ih h)

/-- The interpolation loop runs over a balanced body one level at a time. -/
theorem interpLen_append (b r : List Char) (d d' : Nat) (h : parenDepth (d + 1) b = some (d' + 1)) :
    interpLen (d + 1) (b ++ r) = b.length + interpLen (d' + 1) r := by
  refine parenDepth_induct (by simp) (fun {c b d e} he ih => ?_) h
  have hstep : interpLen (d + 1) (c :: (b ++ r)) =
      interpLen (if c = '(' then d + 2 else if c = ')' then d else d + 1) (b ++ r) + 1 := by
    rw [interpLen]
    split_ifs <;> rfl
  rw [List.cons_append, hstep, he, ih, List.length_cons]
  omega

/-- A balanced body and its closing parenthesis are exactly what the loop
steps over. -/
theorem interpLen_balanced {b : List Char} (h : balanced b) (r : List Char) :
    interpLen 1 (b ++ ')' :: r) = b.length + 1 := by
  have hb : parenDepth (0 + 1) b = some (0 + 1) := by simpa [balanced] using h
  rw [interpLen_append b (')' :: r) 0 0 hb]
  simp [interpLen]

/-- Conversely the loop either finds such a body or runs to the end. -/
theorem interpLen_cases : ∀ (d : Nat) (s : List Char),
    (∃ b r, s = b ++ ')' :: r ∧ parenDepth (d + 1) b = some 1) ∨ interpLen (d + 1) s = s.length
  | _, [] => Or.inr rfl
  | d, c :: s => by
    by_cases hc : c = '('
    · rcases interpLen_cases (d + 1) s with ⟨b, r, rfl, hb⟩ | h
      · exact Or.inl ⟨c :: b, r, rfl, by simp [parenDepth, hc, hb]⟩
      · exact Or.inr (by simp [interpLen, hc, h])
    by_cases hc' : c = ')'
    · cases d with
      | zero => exact Or.inl ⟨[], s, by simp [hc'], rfl⟩
      | succ d =>
        rcases interpLen_cases d s with ⟨b, r, rfl, hb⟩ | h
        · exact Or.inl ⟨c :: b, r, rfl, by simp [parenDepth, hc', hb]⟩
        · exact Or.inr (by simp [interpLen, hc', h])
    · rcases interpLen_cases d s with ⟨b, r, rfl, hb⟩ | h
      · exact Or.inl ⟨c :: b, r, rfl, by simp [parenDepth, hc, hc', hb]⟩
      · exact Or.inr (by simp [interpLen, hc, hc', h])

/-! ## §2. Lexemes. -/

/-- A token kind with its text. -/
structure Lexeme where
  kind : TokenKind
  text : List Char
  deriving Repr, DecidableEq

/-- The symbols of the default profile. -/
def symbols : List Lexeme :=
  [⟨.lparen, ['(']⟩, ⟨.rparen, [')']⟩, ⟨.lbrace, ['{']⟩, ⟨.rbrace, ['}']⟩,
   ⟨.eq, ['=']⟩, ⟨.eqEq, ['=', '=']⟩, ⟨.colon, [':']⟩, ⟨.dot, ['.']⟩,
   ⟨.semi, [';']⟩, ⟨.plus, ['+']⟩, ⟨.minus, ['-']⟩, ⟨.star, ['*']⟩,
   ⟨.slash, ['/']⟩, ⟨.lt, ['<']⟩, ⟨.le, ['<', '=']⟩, ⟨.shl, ['<', '<']⟩,
   ⟨.gt, ['>']⟩, ⟨.ge, ['>', '=']⟩, ⟨.shr, ['>', '>']⟩, ⟨.bang, ['!']⟩,
   ⟨.ne, ['!', '=']⟩, ⟨.pipe, ['|']⟩, ⟨.or, ['|', '|']⟩, ⟨.amp, ['&']⟩,
   ⟨.and, ['&', '&']⟩, ⟨.caret, ['^']⟩, ⟨.tilde, ['~']⟩, ⟨.percent, ['%']⟩,
   ⟨.dollar, ['$']⟩, ⟨.at, ['@']⟩]

/-- The markers of a based number, with the digits of the base. -/
def baseDigits (m : Char) : Option (Char → Bool) :=
  if m = 'x' || m = 'X' then some isHex
  else if m = 'b' || m = 'B' then some isBin
  else none

/-- The texts that make a token of the default profile. -/
inductive Lexeme.WF : Lexeme → Prop where
  | word {c : Char} {cs : List Char} (hc : isLetter c = true)
      (hcs : ∀ d ∈ cs, isIdentCont d = true) :
      Lexeme.WF ⟨classifyIdent .default (c :: cs), c :: cs⟩
  | based {m : Char} {p : Char → Bool} {ds : List Char} (hm : baseDigits m = some p)
      (hne : ds ≠ []) (hds : ∀ d ∈ ds, p d = true) :
      Lexeme.WF ⟨.intLit, '0' :: m :: ds⟩
  | int {ds : List Char} (hne : ds ≠ []) (hds : ∀ d ∈ ds, isDigit d = true) :
      Lexeme.WF ⟨.intLit, ds⟩
  | float {ds es : List Char} (hne : ds ≠ []) (hds : ∀ d ∈ ds, isDigit d = true)
      (hes : es ≠ []) (hes' : ∀ d ∈ es, isDigit d = true) :
      Lexeme.WF ⟨.floatLit, ds ++ '.' :: es⟩
  | str {ps : List StrPiece} (hps : ∀ p ∈ ps, p.ok = true) : Lexeme.WF ⟨.strLit, strText ps⟩
  | sym {x : Lexeme} (hx : x ∈ symbols) : Lexeme.WF x

/-! ## §3. Where a lexeme ends. -/

/-- The text is empty or starts with a byte outside the class `p`. -/
def stopsAt (p : Char → Bool) : List Char → Bool
  | [] => true
  | c :: _ => !p c

/-- Behind a decimal integer: no digit, no letter and no fraction. -/
def decimalStops (r : List Char) : Bool :=
  stopsAt isIdentCont r &&
    match r with
    | '.' :: d :: _ => !isDigit d
    | _ => true

/-- Two symbol bytes that the scanner reads as one operator or as the start of
a comment. -/
def fusingBytes : List (Char × Char) :=
  [('=', '='), ('<', '='), ('<', '<'), ('>', '='), ('>', '>'), ('!', '='),
   ('|', '|'), ('&', '&'), ('/', '/'), ('(', '*')]

/-- Behind a symbol: only a symbol of one byte can grow. -/
def symbolStops : List Char → List Char → Bool
  | [c], d :: _ => !fusingBytes.contains (c, d)
  | _, _ => true

/-- The scanner reads the lexeme `x` and no more when `r` follows. -/
def Delimits (x : Lexeme) (r : List Char) : Bool :=
  match x.kind, x.text with
  | .strLit, _ => true
  | .floatLit, _ => stopsAt isIdentCont r
  | .intLit, '0' :: m :: _ =>
    match baseDigits m with
    | some p => stopsAt (fun c => p c || isLetter c) r
    | none => decimalStops r
  | .intLit, _ => decimalStops r
  | _, c :: cs =>
    if isLetter c then stopsAt isIdentContLegacy r && !upperKeyword .default (c :: cs) r
    else symbolStops (c :: cs) r
  | _, [] => true

/-! ## §4. Trivia and whole texts. -/

/-- What the scanner steps over without a token: `Trivia s r` says that it
skips `s` when `r` is what follows. -/
inductive Trivia : List Char → List Char → Prop where
  | space {c : Char} {r : List Char} (hc : isWhitespace c = true) : Trivia [c] r
  | hash {s r : List Char} (hs : ∀ d ∈ s, (d != '\n') = true)
      (hr : stopsAt (· != '\n') r = true) : Trivia ('#' :: s) r
  | line {s r : List Char} (hs : ∀ d ∈ s, (d != '\n') = true)
      (hr : stopsAt (· != '\n') r = true) : Trivia ('/' :: '/' :: s) r
  | block {s r : List Char} (hs : commentLen 1 (s ++ r) = s.length) : Trivia ('(' :: '*' :: s) r

/-- The text is the lexemes in order, each ending where it must, with trivia
anywhere between them. -/
inductive Scans : List Char → List Lexeme → Prop where
  | nil : Scans [] []
  | skip {s r : List Char} {xs : List Lexeme} (hs : Trivia s r) (h : Scans r xs) : Scans (s ++ r) xs
  | lexeme {x : Lexeme} {r : List Char} {xs : List Lexeme} (hx : x.WF)
      (hd : Delimits x r = true) (h : Scans r xs) : Scans (x.text ++ r) (x :: xs)

end Toke
