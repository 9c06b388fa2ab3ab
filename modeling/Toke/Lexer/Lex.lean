/-
  Toke.Lexer.Lex — **THE SCANNER** (`lexer.c`), as explicit state passing.

  The C scanner holds a buffer and an offset; the model holds the bytes that
  are left (`rest`) together with the offset, so that `src[pos]` is the head
  of `rest`.  Every function below follows the C function of the same name:
  the order of its tests, what it advances over, when it emits and when it
  only counts an error.  A function that returns `-1` in C returns `false`.
-/
import Toke.Lexer.Token

namespace Toke

/-! ## §1. Scanner state and primitives. -/

/-- An error diagnostic of the scanner: its code and where it points. -/
structure LexError where
  code : Nat
  offset : Nat
  line : Nat
  col : Nat
  deriving Repr, DecidableEq

/-- The `Lexer` record.  `out.length` is `out_n`; `outCap` and `profile` are
passed beside the state because nothing writes them. -/
structure Lexer where
  rest : List Char
  pos : Nat
  line : Nat
  col : Nat
  out : List Token
  errCount : Nat
  errors : List LexError
  deriving Repr, DecidableEq

/-- `LEX_MAX_ERRORS`. -/
def lexMaxErrors : Nat := 20

namespace Lexer

/-- `advance`: step over one byte, if there is one. -/
def advance (l : Lexer) : Lexer :=
  match l.rest with
  | [] => l
  | c :: r =>
    if c = '\n' then { l with rest := r, pos := l.pos + 1, line := l.line + 1, col := 1 }
    else { l with rest := r, pos := l.pos + 1, col := l.col + 1 }

/-- `n` calls of `advance`. -/
def advanceN : Nat → Lexer → Lexer
  | 0, l => l
  | n + 1, l => advanceN n l.advance

/-- `while (l->pos < l->len && p(l->src[l->pos])) advance(l)`. -/
def advanceWhile (p : Char → Bool) (l : Lexer) : Lexer :=
  l.advanceN (l.rest.takeWhile p).length

/-- `emit`: refuses a token when the output buffer is full. -/
def emit (cap : Nat) (k : TokenKind) (start len line col : Nat) (l : Lexer) : Lexer × Bool :=
  if l.out.length ≥ cap then (l, false)
  else ({ l with out := l.out ++ [⟨k, start, len, line, col⟩] }, true)

/-- `diag_emit(DIAG_ERROR, …)`. -/
def diag (code offset line col : Nat) (l : Lexer) : Lexer :=
  { l with errors := l.errors ++ [⟨code, offset, line, col⟩] }

/-- `record_error`: count one error; `true` when the limit is reached. -/
def recordError (l : Lexer) : Lexer × Bool :=
  ({ l with errCount := l.errCount + 1 }, l.errCount + 1 ≥ lexMaxErrors)

/-! Every path through the scanner is `advanceN` for some count followed by at
most one `push`: the lemmas below reduce all the others to these two. -/

/-- A successful `emit`. -/
def push (t : Token) (l : Lexer) : Lexer := { l with out := l.out ++ [t] }

@[simp] theorem push_rest (t : Token) (l : Lexer) : (l.push t).rest = l.rest := rfl
@[simp] theorem push_pos (t : Token) (l : Lexer) : (l.push t).pos = l.pos := rfl
@[simp] theorem push_out (t : Token) (l : Lexer) : (l.push t).out = l.out ++ [t] := rfl
@[simp] theorem push_errCount (t : Token) (l : Lexer) : (l.push t).errCount = l.errCount := rfl

@[simp] theorem diag_out (c o i j : Nat) (l : Lexer) : (l.diag c o i j).out = l.out := rfl
@[simp] theorem diag_errCount (c o i j : Nat) (l : Lexer) :
    (l.diag c o i j).errCount = l.errCount := rfl

@[simp] theorem advance_rest (l : Lexer) : l.advance.rest = l.rest.tail := by
  unfold advance
  cases h : l.rest with
  | nil => simp [h]
  | cons c r => dsimp only; split <;> rfl

@[simp] theorem advance_out (l : Lexer) : l.advance.out = l.out := by
  unfold advance
  split
  · rfl
  · split <;> rfl

@[simp] theorem advance_errCount (l : Lexer) : l.advance.errCount = l.errCount := by
  unfold advance
  split
  · rfl
  · split <;> rfl

theorem advance_pos {l : Lexer} {c : Char} {r : List Char} (h : l.rest = c :: r) :
    l.advance.pos = l.pos + 1 := by
  unfold advance
  rw [h]
  dsimp only
  split <;> rfl

@[simp] theorem advanceN_zero (l : Lexer) : l.advanceN 0 = l := rfl

theorem advanceN_succ (n : Nat) (l : Lexer) : l.advanceN (n + 1) = l.advance.advanceN n := rfl

theorem advance_eq (l : Lexer) : l.advance = l.advanceN 1 := rfl

@[simp] theorem advanceN_advanceN (m n : Nat) (l : Lexer) :
    (l.advanceN m).advanceN n = l.advanceN (m + n) := by
  induction m generalizing l with
  | zero => simp
  | succ m ih => rw [advanceN_succ, ih, Nat.succ_add, advanceN_succ]

@[simp] theorem advanceN_rest (n : Nat) (l : Lexer) : (l.advanceN n).rest = l.rest.drop n := by
  induction n generalizing l with
  | zero => simp
  | succ n ih => rw [advanceN_succ, ih, advance_rest, List.drop_tail]

@[simp] theorem advanceN_out (n : Nat) (l : Lexer) : (l.advanceN n).out = l.out := by
  induction n generalizing l with
  | zero => simp
  | succ n ih => rw [advanceN_succ, ih, advance_out]

@[simp] theorem advanceN_errCount (n : Nat) (l : Lexer) : (l.advanceN n).errCount = l.errCount := by
  induction n generalizing l with
  | zero => simp
  | succ n ih => rw [advanceN_succ, ih, advance_errCount]

theorem advanceN_pos {n : Nat} {l : Lexer} (h : n ≤ l.rest.length) :
    (l.advanceN n).pos = l.pos + n := by
  induction n generalizing l with
  | zero => simp
  | succ n ih =>
    cases hr : l.rest with
    | nil => rw [hr] at h; simp at h
    | cons c r =>
      rw [advanceN_succ, ih (by rw [advance_rest, hr]; rw [hr] at h; simpa using h), advance_pos hr]
      omega

@[simp] theorem advanceWhile_out (p : Char → Bool) (l : Lexer) :
    (l.advanceWhile p).out = l.out := advanceN_out _ _

@[simp] theorem advanceWhile_errCount (p : Char → Bool) (l : Lexer) :
    (l.advanceWhile p).errCount = l.errCount := advanceN_errCount _ _

theorem emit_eq {cap : Nat} {l : Lexer} (h : l.out.length < cap) (k : TokenKind)
    (start len line col : Nat) :
    l.emit cap k start len line col = (l.push ⟨k, start, len, line, col⟩, true) := by
  unfold emit push
  rw [if_neg (by omega)]

theorem emit_full {cap : Nat} {l : Lexer} (h : cap ≤ l.out.length) (k : TokenKind)
    (start len line col : Nat) : l.emit cap k start len line col = (l, false) := by
  unfold emit
  rw [if_pos h]

end Lexer

/-! ## §2. Numbers. -/

/-- The common tail of the three number forms: a letter right behind the
digits makes it a digit-initial identifier (E1004), which is skipped whole. -/
def lexNumberEnd (cap : Nat) (kind : TokenKind) (start line col : Nat) (l : Lexer) : Lexer × Bool :=
  match l.rest with
  | c :: _ =>
    if isLetter c then ((l.advanceWhile isIdentCont).diag 1004 start line col, false)
    else l.emit cap kind start (l.pos - start) line col
  | [] => l.emit cap kind start (l.pos - start) line col

/-- The `0x` and `0b` branches: both marker bytes, at least one digit of the
base (E1005 otherwise), then every further digit. -/
def lexNumberBase (cap : Nat) (isBaseDigit : Char → Bool) (start line col : Nat)
    (l : Lexer) : Lexer × Bool :=
  let l := l.advance.advance
  match l.rest with
  | c :: _ =>
    if isBaseDigit c then
      lexNumberEnd cap .intLit start line col (l.advanceWhile isBaseDigit)
    else (l.diag 1005 start line col, false)
  | [] => (l.diag 1005 start line col, false)

/-- The decimal branch: a `.` belongs to the number only when a digit follows. -/
def lexNumberDecimal (cap start line col : Nat) (l : Lexer) : Lexer × Bool :=
  let l := l.advanceWhile isDigit
  match l.rest with
  | '.' :: d :: _ =>
    if isDigit d then
      lexNumberEnd cap .floatLit start line col (l.advance.advanceWhile isDigit)
    else lexNumberEnd cap .intLit start line col l
  | _ => lexNumberEnd cap .intLit start line col l

/-- `lex_number`. -/
def lexNumber (cap start line col : Nat) (l : Lexer) : Lexer × Bool :=
  match l.rest with
  | '0' :: n :: _ =>
    if n = 'x' || n = 'X' then lexNumberBase cap isHex start line col l
    else if n = 'b' || n = 'B' then lexNumberBase cap isBin start line col l
    else lexNumberDecimal cap start line col l
  | _ => lexNumberDecimal cap start line col l

/-! ## §3. Strings. -/

/-- The number of bytes the interpolation loop of `lex_string` steps over,
starting at nesting `depth`: up to and including the `)` that closes it. -/
def interpLen : Nat → List Char → Nat
  | 0, _ => 0
  | _ + 1, [] => 0
  | d + 1, c :: r =>
    if c = '(' then interpLen (d + 2) r + 1
    else if c = ')' then interpLen d r + 1
    else interpLen (d + 1) r + 1

/-- The one-letter escapes. -/
def isSimpleEscape (c : Char) : Bool :=
  c == '"' || c == '\\' || c == 'n' || c == 't' || c == 'r' || c == '0'

/-- How one turn of the body loop of `lex_string` ends. -/
inductive StrTurn where
  /-- `return`, with the status. -/
  | done (l : Lexer) (ok : Bool)
  /-- Go on, with `had_error`. -/
  | more (hadError : Bool) (l : Lexer)
  deriving Repr, DecidableEq

/-- `had_error = 1; if (record_error(l)) return -1;` -/
def badEscape (l : Lexer) : StrTurn :=
  if l.recordError.2 then .done l.recordError.1 false else .more true l.recordError.1

/-- The exit below the loop: E1002. -/
def unterminated (start line col : Nat) (l : Lexer) : StrTurn :=
  .done (l.diag 1002 start line col).recordError.1 false

/-- The escape `\esc` at `l`, whose backslash is already stepped over. -/
def lexEscape (start line col : Nat) (hadError : Bool) (l : Lexer) : StrTurn :=
  match l.rest with
  | [] => unterminated start line col l
  | esc :: r =>
    if isSimpleEscape esc then .more hadError l.advance
    else if esc = 'x' then
      match r with
      | h1 :: h2 :: _ =>
        if isHex h1 && isHex h2 then .more hadError (l.advanceN 3)
        else badEscape (l.advance.diag 1001 l.advance.pos l.advance.line l.advance.col)
      | _ => badEscape (l.advance.diag 1001 l.advance.pos l.advance.line l.advance.col)
    else if esc = '(' then
      .more hadError (l.advance.advanceN (interpLen 1 r))
    else
      -- the bad escape character is skipped only when the scan goes on
      match badEscape (l.diag 1001 (l.pos - 1) l.line (l.col - 1)) with
      | .more b l => .more b l.advance
      | t => t

/-- One turn of `while (l->pos < l->len)` in `lex_string`. -/
def lexStringTurn (cap start line col : Nat) (hadError : Bool) (l : Lexer) : StrTurn :=
  match l.rest with
  | [] => unterminated start line col l
  | c :: _ =>
    if c = '"' then
      if hadError then .done l.advance false
      else
        let r := l.advance.emit cap .strLit start (l.advance.pos - start) line col
        .done r.1 r.2
    else if c = '\\' then lexEscape start line col hadError l.advance
    else .more hadError l.advance

/-- The body loop of `lex_string`; every turn that goes on has stepped over at
least one byte, so the number of bytes left is enough fuel. -/
def lexStringLoop (cap start line col : Nat) : Nat → Bool → Lexer → Lexer × Bool
  | 0, _, l => ((l.diag 1002 start line col).recordError.1, false)
  | f + 1, hadError, l =>
    match lexStringTurn cap start line col hadError l with
    | .done l ok => (l, ok)
    | .more hadError l => lexStringLoop cap start line col f hadError l

/-- `lex_string`, entered with the opening quote already stepped over. -/
def lexString (cap start line col : Nat) (l : Lexer) : Lexer × Bool :=
  lexStringLoop cap start line col (l.rest.length + 1) false l

/-! ## §4. Identifiers. -/

/-- E1006: an uppercase single-letter keyword directly before `=`. -/
def upperKeyword (profile : Profile) (word rest : List Char) : Bool :=
  match profile, word, rest with
  | .default, [c], '=' :: _ => upperKwMap.contains c
  | _, _, _ => false

/-- `lex_ident`, entered with the first byte already stepped over; `head` is
that byte. -/
def lexIdent (profile : Profile) (cap start line col : Nat) (head : Char) (l : Lexer) :
    Lexer × Bool :=
  let word := head :: l.rest.takeWhile isIdentCont
  let l := l.advanceWhile isIdentCont
  if profile = .default ∧ l.rest.head? = some '_' then
    ((l.advanceWhile isIdentContLegacy).diag 1003 start line col, false)
  else if upperKeyword profile word l.rest then
    (l.diag 1006 start line col, false)
  else l.emit cap (classifyIdent profile word) start word.length line col

/-! ## §5. Symbols and comments. -/

/-- Bytes of a `(* … *)` comment behind its opening mark, at nesting `depth`;
an unterminated comment runs to the end of the buffer. -/
def commentLen : Nat → List Char → Nat
  | 0, _ => 0
  | _ + 1, [] => 0
  | _ + 1, [_] => 1
  | d + 1, c :: c' :: r =>
    if c = '(' ∧ c' = '*' then commentLen (d + 2) r + 2
    else if c = '*' ∧ c' = ')' then commentLen d r + 2
    else commentLen (d + 1) (c' :: r) + 1

/-- What the `switch` of `lex` decides on a byte that starts no word, number,
string or `#` comment. -/
inductive SymAction where
  /-- One or two bytes make a token of this kind. -/
  | token (kind : TokenKind) (len : Nat)
  /-- Step over this many bytes of comment. -/
  | skip (len : Nat)
  /-- E1003. -/
  | bad
  deriving Repr, DecidableEq

/-- The `switch (c)` of `lex`: the longest operator first. -/
def symAction (profile : Profile) (c : Char) (r : List Char) : SymAction :=
  let next := r.head?
  match c with
  | '(' => if next = some '*' then .skip (2 + commentLen 1 r.tail) else .token .lparen 1
  | ')' => .token .rparen 1
  | '{' => .token .lbrace 1
  | '}' => .token .rbrace 1
  | '[' => if profile = .default then .bad else .token .lbracket 1
  | ']' => if profile = .default then .bad else .token .rbracket 1
  | '=' => if next = some '=' then .token .eqEq 2 else .token .eq 1
  | ':' => .token .colon 1
  | '.' => .token .dot 1
  | ';' => .token .semi 1
  | '+' => .token .plus 1
  | '-' => .token .minus 1
  | '*' => .token .star 1
  | '/' =>
    if next = some '/' then .skip (1 + (r.takeWhile (· != '\n')).length)
    else .token .slash 1
  | '<' =>
    if next = some '=' then .token .le 2
    else if next = some '<' then .token .shl 2
    else .token .lt 1
  | '>' =>
    if next = some '=' then .token .ge 2
    else if next = some '>' then .token .shr 2
    else .token .gt 1
  | '!' => if next = some '=' then .token .ne 2 else .token .bang 1
  | '|' => if next = some '|' then .token .or 2 else .token .pipe 1
  | '&' => if next = some '&' then .token .and 2 else .token .amp 1
  | '^' => .token .caret 1
  | '~' => .token .tilde 1
  | '%' => .token .percent 1
  | '$' => if profile = .legacy then .bad else .token .dollar 1
  | '@' => if profile = .legacy then .bad else .token .at 1
  | _ => .bad

/-! ## §6. The main loop. -/

/-- How one turn of the main loop ends: `continue`, `break` out of the loop, or
an immediate `return -1`. -/
inductive LexTurn where
  | next (l : Lexer)
  | stop (l : Lexer)
  | fail
  deriving Repr, DecidableEq

/-- `if (f(&l) < 0) { if (record_error(&l)) break; } continue;` -/
def countFailure (r : Lexer × Bool) : LexTurn :=
  if r.2 then .next r.1
  else if r.1.recordError.2 then .stop r.1.recordError.1
  else .next r.1.recordError.1

/-- What `lex` does with the outcome of its `switch`. -/
def lexSymbol (profile : Profile) (cap : Nat) (c : Char) (r : List Char) (l : Lexer) : LexTurn :=
  match symAction profile c r with
  | .skip n => .next (l.advanceN n)
  | .token kind n =>
    match (l.advanceN n).emit cap kind l.pos n l.line l.col with
    | (l, true) => .next l
    | (_, false) => .fail
  | .bad =>
    let e := (l.diag 1003 l.pos l.line l.col).recordError
    if e.2 then .stop e.1 else .next e.1.advance

/-- One turn of `while (l.pos < l.len)` in `lex`, at the byte `c`. -/
def lexStep (profile : Profile) (cap : Nat) (c : Char) (r : List Char) (l : Lexer) : LexTurn :=
  let start := l.pos
  let line := l.line
  let col := l.col
  if isWhitespace c then .next l.advance
  else if c = '_' ∧ profile = .default then
    countFailure ((l.advance.advanceWhile isIdentContLegacy).diag 1003 start line col, false)
  else if isLetter c || (c = '_' ∧ profile = .legacy) then
    countFailure (lexIdent profile cap start line col c l.advance)
  else if isDigit c then
    countFailure (lexNumber cap start line col l)
  else if c = '"' then
    let s := lexString cap start line col l.advance
    -- `lex_string` counts its own errors: only the limit is tested here
    if !s.2 && s.1.errCount ≥ lexMaxErrors then .stop s.1 else .next s.1
  else if c = '#' then .next (l.advanceWhile (· != '\n'))
  else lexSymbol profile cap c r l

/-- The main loop; every turn steps over at least one byte. -/
def lexLoop (profile : Profile) (cap : Nat) : Nat → Lexer → Option Lexer
  | 0, l => some l
  | f + 1, l =>
    match l.rest with
    | [] => some l
    | c :: r =>
      match lexStep profile cap c r l with
      | .next l => lexLoop profile cap f l
      | .stop l => some l
      | .fail => none

/-- The state `lex` starts from. -/
def Lexer.init (src : Source) : Lexer :=
  { rest := src, pos := 0, line := 1, col := 1, out := [], errCount := 0, errors := [] }

/-- `lex`: the token array, or `none` for the return value `-1`. -/
def lex (profile : Profile) (cap : Nat) (src : Source) : Option (List Token) :=
  match lexLoop profile cap src.length (Lexer.init src) with
  | none => none
  | some l =>
    match l.emit cap .eof l.pos 0 l.line l.col with
    | (_, false) => none
    | (l, true) => if l.errCount > 0 then none else some l.out

end Toke
