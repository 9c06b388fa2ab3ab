/-
  Toke.Stdlib.Json — **THE TWO JSON READERS** of `json.c`: the recursive skipper behind `json_dec`
  and the token reader `json_streamnext` with its explicit stack.

  A text is NUL-free, so its end is the end of the list for both.  What is left
  of the text stands for the position in it.
-/
import Toke.Lexer.Token

namespace Toke.Stdlib.Json

/-! ## §1. Lexical parts. -/

/-- White space. -/
def isWs (c : Char) : Bool := c = ' ' || c = '\t' || c = '\n' || c = '\r'

/-- `skip_ws`. -/
def skipWs (p : List Char) : List Char := p.dropWhile isWs

/-- Behind some digits. -/
def skipDigits (p : List Char) : List Char := p.dropWhile isDigit

/-- Behind a minus sign. -/
def skipMinus : List Char → List Char
  | '-' :: r => r
  | r => r

/-- Behind a fraction. -/
def skipFraction : List Char → List Char
  | '.' :: r => skipDigits r
  | r => r

/-- Behind the sign of an exponent. -/
def skipSign : List Char → List Char
  | '+' :: r => r
  | '-' :: r => r
  | r => r

/-- Behind an exponent. -/
def skipExponent : List Char → List Char
  | 'e' :: r => skipDigits (skipSign r)
  | 'E' :: r => skipDigits (skipSign r)
  | r => r

/-- What is left behind a number. -/
def numberEnd (p : List Char) : List Char :=
  skipExponent (skipFraction (skipDigits (skipMinus p)))

/-- What is left behind the closing quote; a backslash takes the next character
with it, if there is one. -/
def skipBody : List Char → Option (List Char)
  | [] => none
  | '\\' :: [] => none
  | '\\' :: _ :: r => skipBody r
  | '"' :: r => some r
  | _ :: r => skipBody r

/-- `skip_string`. -/
def skipString : List Char → Option (List Char)
  | '"' :: r => skipBody r
  | _ => none

/-- `strncmp(p, word, strlen(word)) == 0`, and what is left then. -/
def skipWord (word p : List Char) : Option (List Char) :=
  if word.isPrefixOf p then some (p.drop word.length) else none

/-! ## §2. The skipper. -/

/-- `JSON_STREAM_MAX_DEPTH`. -/
def maxDepth : Nat := 256

/-- The scalars of `skip_value_d`, from the first character on. -/
def skipScalar (p : List Char) : Option (List Char) :=
  match p with
  | [] => none
  | c :: _ =>
    if c = '"' then skipString p
    else if c = 't' then skipWord ['t', 'r', 'u', 'e'] p
    else if c = 'f' then skipWord ['f', 'a', 'l', 's', 'e'] p
    else if c = 'n' then skipWord ['n', 'u', 'l', 'l'] p
    else if c = '-' || isDigit c then some (numberEnd p)
    else none

mutual

/-- `skip_value_d`.  The recursion is bounded by the text; the fuel only makes
it structural. -/
def skipValueD : Nat → Nat → List Char → Option (List Char)
  | 0, _, _ => none
  | fuel + 1, depth, p =>
    if maxDepth < depth then none
    else
      match skipWs p with
      | '\x7b' :: r => skipObjectD fuel depth ('\x7b' :: r)
      | '[' :: r => skipArrayD fuel depth ('[' :: r)
      | q => skipScalar q

/-- `skip_array_d`. -/
def skipArrayD : Nat → Nat → List Char → Option (List Char)
  | 0, _, _ => none
  | fuel + 1, depth, p =>
    match p with
    | '[' :: r =>
      match skipWs r with
      | ']' :: q => some q
      | q => skipElements fuel depth q
    | _ => none

/-- The loop over the elements of an array. -/
def skipElements : Nat → Nat → List Char → Option (List Char)
  | 0, _, _ => none
  | fuel + 1, depth, p =>
    if p = [] then none
    else
      match skipValueD fuel (depth + 1) (skipWs p) with
      | none => none
      | some q =>
        match skipWs q with
        | ']' :: r => some r
        | ',' :: r => skipElements fuel depth r
        | _ => none

/-- `skip_object_d`. -/
def skipObjectD : Nat → Nat → List Char → Option (List Char)
  | 0, _, _ => none
  | fuel + 1, depth, p =>
    match p with
    | '\x7b' :: r =>
      match skipWs r with
      | '\x7d' :: q => some q
      | q => skipMembers fuel depth q
    | _ => none

/-- The loop over the members of an object. -/
def skipMembers : Nat → Nat → List Char → Option (List Char)
  | 0, _, _ => none
  | fuel + 1, depth, p =>
    if p = [] then none
    else
      match skipString (skipWs p) with
      | none => none
      | some q =>
        match skipWs q with
        | ':' :: r =>
          match skipValueD fuel (depth + 1) (skipWs r) with
          | none => none
          | some q =>
            match skipWs q with
            | '\x7d' :: r => some r
            | ',' :: r => skipMembers fuel depth r
            | _ => none
        | _ => none

end

/-- Each level of the recursion that uses up no character is followed by one
that does. -/
def skipFuel (p : List Char) : Nat := 3 * p.length + 3

/-- Whether `json_dec` accepts a text. -/
def jsonDec (s : List Char) : Bool :=
  match skipWs s with
  | '\x7b' :: r => (skipObjectD (skipFuel s) 0 ('\x7b' :: r)).isSome
  | '[' :: r => (skipArrayD (skipFuel s) 0 ('[' :: r)).isSome
  | _ => false

/-! ## §3. The token reader. -/

/-- The tokens of the stream. -/
inductive JsonToken where
  | objectStart | objectEnd | arrayStart | arrayEnd
  | key (s : List Char)
  | str (s : List Char)
  | u64 (n : Nat)
  | i64 (n : Int)
  /-- The text `strtod` is given. -/
  | f64 (text : List Char)
  | bool (b : Bool)
  | null
  | done
deriving DecidableEq

/-- The kinds of its errors. -/
inductive JsonStreamErrKind where
  | truncated | invalid | overflow
deriving DecidableEq

/-- An error of the stream. -/
structure JsonStreamErr where
  kind : JsonStreamErrKind
  msg : String
deriving DecidableEq

/-- What the stream expects. -/
inductive JsonStreamState where
  | value | objKeyOrEnd | objColon | objValue | objComma | arrValueOrEnd | arrComma | done
deriving DecidableEq

/-- The text that is left and the stack of states: `stack[depth]`, then the
entries below it down to `stack[0]`. -/
structure JsonStream where
  rest : List Char
  state : JsonStreamState
  below : List JsonStreamState

namespace JsonStream

/-- The open brackets. -/
def depth (s : JsonStream) : Nat := s.below.length

end JsonStream

/-- `json_streamparser`. -/
def jsonStreamparser (s : List Char) : JsonStream := ⟨s, .value, []⟩

/-- The character an escape stands for. -/
def unescape : Char → Char
  | 'b' => '\x08'
  | 'f' => '\x0c'
  | 'n' => '\n'
  | 'r' => '\r'
  | 't' => '\t'
  | c => c

/-- `stream_parse_string` behind the opening quote: the resolved text and what
is left. -/
def streamBody : List Char → Option (List Char × List Char)
  | [] => none
  | '\\' :: [] => none
  | '\\' :: c :: r => (streamBody r).map fun (s, q) => (unescape c :: s, q)
  | '"' :: r => some ([], r)
  | c :: r => (streamBody r).map fun (s, q) => (c :: s, q)

/-- The value of a run of digits. -/
def decimal (ds : List Char) : Nat := ds.foldl (fun n c => 10 * n + (c.toNat - '0'.toNat)) 0

/-- The token of a number: `strtoull` and `strtoll` stop at their limits. -/
def numberToken (text : List Char) (isNeg isFloat : Bool) : JsonToken :=
  if isFloat then .f64 text
  else if isNeg then .i64 (max (-(decimal (skipMinus text) : Int)) (-2 ^ 63))
  else .u64 (min (decimal text) (2 ^ 64 - 1))

/-- `stream_parse_number`. -/
def streamParseNumber (p : List Char) : Except JsonStreamErr JsonToken × List Char :=
  let isNeg := p.head? = some '-'
  let q := skipMinus p
  if (q.head?.map isDigit).getD false then
    let q := skipDigits q
    let isFloat := q.head? = some '.' || q.head? = some 'e' || q.head? = some 'E'
    let q := skipExponent (skipFraction q)
    let nlen := p.length - q.length
    if 64 ≤ nlen then (.error ⟨.overflow, "number too long"⟩, q)
    else (.ok (numberToken (p.take nlen) isNeg isFloat), q)
  else (.error ⟨.invalid, "bad number"⟩, q)

/-- The state behind a value in a container. -/
def afterValue : JsonStreamState → JsonStreamState
  | .objValue => .objComma
  | .arrValueOrEnd => .arrComma
  | s => s

namespace JsonStream

/-- The transition after a scalar. -/
def scalar (s : JsonStream) (rest : List Char) : JsonStream :=
  ⟨rest, if s.depth = 0 then .done else afterValue s.state, s.below⟩

/-- A container is opened: the current frame waits behind its value. -/
def opened (s : JsonStream) (rest : List Char) (state : JsonStreamState) : JsonStream :=
  ⟨rest, state, (if 0 < s.depth then afterValue s.state else s.state) :: s.below⟩

/-- A container is closed. -/
def closed (s : JsonStream) (rest : List Char) : JsonStream :=
  match s.below with
  | [] => { s with rest := rest }
  | [_] => ⟨rest, .done, []⟩
  | parent :: below => ⟨rest, parent, below⟩

end JsonStream

/-- An error with its message. -/
def streamErr {α : Type} (kind : JsonStreamErrKind) (msg : String) : Except JsonStreamErr α :=
  .error ⟨kind, msg⟩

/-- Opening a container, unless it is nested too deep. -/
def openContainer (s : JsonStream) (rest : List Char) (state : JsonStreamState)
    (token : JsonToken) : JsonStream × Except JsonStreamErr JsonToken :=
  (s.opened rest state,
    if maxDepth ≤ s.depth + 1 then streamErr .overflow "nesting too deep" else .ok token)

/-- A word of the language. -/
def streamWord (s : JsonStream) (word : List Char) (token : JsonToken) :
    JsonStream × Except JsonStreamErr JsonToken :=
  match skipWord word s.rest with
  | none => (s, streamErr .invalid "bad token")
  | some q => (s.scalar q, .ok token)

/-- The states that expect a value; `s.rest` is not empty. -/
def streamValue (s : JsonStream) : JsonStream × Except JsonStreamErr JsonToken :=
  match s.rest with
  | [] => (s, streamErr .truncated "unexpected end of input")
  | c :: r =>
    if s.state = .arrValueOrEnd ∧ c = ']' then
      match s.below with
      | [] => ({ s with rest := r }, streamErr .invalid "unexpected ']'")
      | _ =>
        let t := s.closed r
        ({ t with state := if t.depth = 0 then .done else afterValue t.state }, .ok .arrayEnd)
    else if c = '\x7b' then openContainer s r .objKeyOrEnd .objectStart
    else if c = '[' then openContainer s r .arrValueOrEnd .arrayStart
    else if c = '"' then
      match streamBody r with
      | none => (s, streamErr .invalid "bad string")
      | some (text, q) => (s.scalar q, .ok (.str text))
    else if c = 't' then streamWord s ['t', 'r', 'u', 'e'] (.bool true)
    else if c = 'f' then streamWord s ['f', 'a', 'l', 's', 'e'] (.bool false)
    else if c = 'n' then streamWord s ['n', 'u', 'l', 'l'] .null
    else if c = '-' || isDigit c then
      match streamParseNumber s.rest with
      | (.ok token, q) => (s.scalar q, .ok token)
      | (.error e, q) => ({ s with rest := q }, .error e)
    else (s, streamErr .invalid "unexpected character")

/-- `json_streamnext`, from behind the white space on.  A colon and a comma are
passed over to the token behind them; each uses up a character. -/
def streamnextLoop : Nat → JsonStream → JsonStream × Except JsonStreamErr JsonToken
  | 0, s => (s, streamErr .invalid "internal error")
  | fuel + 1, s =>
    let s := { s with rest := skipWs s.rest }
    if s.depth = 0 ∧ s.state = .done then (s, .ok .done)
    else
      match s.rest with
      | [] => (s, streamErr .truncated "unexpected end of input")
      | c :: r =>
        match s.state with
        | .value => streamValue s
        | .objValue => streamValue s
        | .arrValueOrEnd => streamValue s
        | .objKeyOrEnd =>
          if c = '\x7d' then (s.closed r, .ok .objectEnd)
          else if c = '"' then
            match streamBody r with
            | none => (s, streamErr .invalid "bad key")
            | some (text, q) => (⟨q, .objColon, s.below⟩, .ok (.key text))
          else (s, streamErr .invalid "expected key or '\x7d'")
        | .objColon =>
          if c = ':' then streamnextLoop fuel ⟨r, .objValue, s.below⟩
          else (s, streamErr .invalid "expected ':'")
        | .objComma =>
          if c = '\x7d' then (s.closed r, .ok .objectEnd)
          else if c = ',' then streamnextLoop fuel ⟨r, .objKeyOrEnd, s.below⟩
          else (s, streamErr .invalid "expected ',' or '\x7d'")
        | .arrComma =>
          if c = ']' then (s.closed r, .ok .arrayEnd)
          else if c = ',' then streamnextLoop fuel ⟨r, .arrValueOrEnd, s.below⟩
          else (s, streamErr .invalid "expected ',' or ']'")
        | .done => (s, .ok .done)

/-- `json_streamnext`. -/
def jsonStreamnext (s : JsonStream) : JsonStream × Except JsonStreamErr JsonToken :=
  streamnextLoop (s.rest.length + 1) s

/-- Calling `json_streamnext` again and again: whether `JSON_TOK_END` is reached
before an error.  Every other token uses up a character. -/
def readsToEnd : Nat → JsonStream → Bool
  | 0, _ => false
  | fuel + 1, s =>
    match jsonStreamnext s with
    | (_, .error _) => false
    | (_, .ok .done) => true
    | (s', .ok _) => readsToEnd fuel s'

/-- The stream reads the text to its end. -/
def streamAccepts (s : List Char) : Bool := readsToEnd (s.length + 1) (jsonStreamparser s)

end Toke.Stdlib.Json
