/-
  Toke.Lexer.Token — **TOKENS, PROFILES AND CHARACTER CLASSES** (`lexer.h`, head of `lexer.c`).

  A source buffer is a list of characters, one per byte.  A token names its
  text by byte offset and length, exactly as the C `Token` does; the text is
  recovered with `slice`.

    `TokenKind`, `Profile`, `Token`   — the enums and the record of `lexer.h`
    `isLetter` … `isWhitespace`       — the classification helpers
    `keywordsDefault/Legacy`          — the two keyword tables
    `classifyIdent`                   — keyword, type name or plain name
-/
import Toke.Library.Items

namespace Toke

/-! ## §1. Enumerations and the token record. -/

/-- The two syntax profiles (`PROFILE_DEFAULT`, `PROFILE_LEGACY`). -/
inductive Profile where
  | default
  | legacy
  deriving Repr, DecidableEq

/-- `TokenKind` of `lexer.h`, constructor by constructor. -/
inductive TokenKind where
  | kwF | kwT | kwI | kwM | kwIf | kwEl | kwLp | kwBr | kwLet | kwMut
  | kwAs | kwRt | kwSc | kwMt
  | boolLit | intLit | floatLit | strLit
  | ident | typeIdent
  | lparen | rparen | lbrace | rbrace | lbracket | rbracket
  | eq | eqEq | colon | dot | semi | plus | minus | star | slash
  | lt | gt | bang | pipe | dollar | at | and | or | amp | caret | tilde
  | shr | shl | percent | le | ge | ne
  | eof | error
  deriving Repr, DecidableEq

/-- A token: its kind, the byte span `[start, start + len)` and the 1-based
position of its first byte. -/
structure Token where
  kind : TokenKind
  start : Nat
  len : Nat
  line : Nat
  col : Nat
  deriving Repr, DecidableEq

/-- A source text, one `Char` per byte. -/
abbrev Source := List Char

/-- One instance under a name: every definition that looks a text up in a list
of texts then decides it in the same way. -/
instance lawfulBEqSource : LawfulBEq Source := inferInstanceAs (LawfulBEq (List Char))

/-- The bytes `[start, start + len)` of a source. -/
def slice (src : Source) (start len : Nat) : List Char :=
  (src.drop start).take len

/-- The text of a token. -/
def Token.text (src : Source) (t : Token) : List Char :=
  slice src t.start t.len

/-! ## §2. Character classification. -/

/-- `is_letter`. -/
def isLetter (c : Char) : Bool :=
  ('a' ≤ c && c ≤ 'z') || ('A' ≤ c && c ≤ 'Z')

/-- A capital letter. -/
def isUpper (c : Char) : Bool := 'A' ≤ c && c ≤ 'Z'

/-- A blank or a tab. -/
def isBlank (c : Char) : Bool := c == ' ' || c == '\t'

/-- `is_digit`. -/
def isDigit (c : Char) : Bool := '0' ≤ c && c ≤ '9'

/-- `is_ident_cont`. -/
def isIdentCont (c : Char) : Bool := isLetter c || isDigit c

/-- `is_ident_cont_legacy`. -/
def isIdentContLegacy (c : Char) : Bool := isLetter c || isDigit c || c == '_'

/-- `is_hex`. -/
def isHex (c : Char) : Bool :=
  isDigit c || ('a' ≤ c && c ≤ 'f') || ('A' ≤ c && c ≤ 'F')

/-- A binary digit. -/
def isBin (c : Char) : Bool := c == '0' || c == '1'

/-- `is_whitespace`. -/
def isWhitespace (c : Char) : Bool :=
  c == ' ' || c == '\t' || c == '\r' || c == '\n'

/-! ## §3. Keyword tables. -/

/-- `KEYWORDS_DEFAULT`. -/
def keywordsDefault : List (List Char × TokenKind) :=
  [(['i', 'f'], .kwIf), (['e', 'l'], .kwEl), (['l', 'p'], .kwLp),
   (['b', 'r'], .kwBr), (['l', 'e', 't'], .kwLet), (['m', 'u', 't'], .kwMut),
   (['a', 's'], .kwAs), (['r', 't'], .kwRt), (['s', 'c'], .kwSc),
   (['m', 't'], .kwMt), (['t', 'r', 'u', 'e'], .boolLit),
   (['f', 'a', 'l', 's', 'e'], .boolLit)]

/-- `KEYWORDS_LEGACY`: the declaration keywords are words of their own. -/
def keywordsLegacy : List (List Char × TokenKind) :=
  (['F'], .kwF) :: (['T'], .kwT) :: (['I'], .kwI) :: (['M'], .kwM) :: keywordsDefault

/-- The keywords of a profile. -/
def keywords : Profile → List (List Char × TokenKind)
  | .default => keywordsDefault
  | .legacy => keywordsLegacy

/-- The fallback of `classify_ident`: an uppercase initial makes a type name. -/
def identKind : List Char → TokenKind
  | c :: _ => if isUpper c then .typeIdent else .ident
  | [] => .ident

/-- `classify_ident`: words of 32 bytes and more are never looked up. -/
def classifyIdent (profile : Profile) (word : List Char) : TokenKind :=
  if word.length ≥ 32 then identKind word
  else match (keywords profile).lookup word with
    | some k => k
    | none => identKind word

/-- The single letters that E1006 refuses before a `=` (`UPPER_KW_MAP`). -/
def upperKwMap : List Char := ['M', 'F', 'T', 'I', 'C']

end Toke
