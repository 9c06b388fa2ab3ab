/-
  Toke.Compress.Json — **THE SCHEMA-AWARE COMPRESSOR** (`compress_json`, `compress.c`).

  The keys of the first object are written once, in a header line; every object
  then becomes a row of its values, separated by tabs.  Text that does not look
  like an object or an array of objects goes to `compress_text`.
-/
import Toke.Compress.Text

namespace Toke.Compress

/-! ## §1. Values. -/

/-- `while (pos < len && isspace(input[pos])) pos++`. -/
def skipSpace (s : List Char) : List Char := s.dropWhile isSpace

/-- `if (pos < len && input[pos] == ',') pos++`. -/
def skipComma : List Char → List Char
  | ',' :: s => s
  | s => s

/-- `extract_json_string_value`, from behind the opening quote, into a buffer
that takes `room` characters: the text copied and what is left of the input.
Whatever follows a backslash is copied as it is; when the buffer is full the
closing quote is not looked for. -/
def extractJsonString : Nat → List Char → List Char × List Char
  | 0, s => ([], s)
  | _ + 1, [] => ([], [])
  | n + 1, c :: s =>
    if c = '\\' then
      match s with
      | [] => ([], ['\\'])
      | e :: s => (e :: (extractJsonString n s).1, (extractJsonString n s).2)
    else if c = '"' then ([], s)
    else (c :: (extractJsonString n s).1, (extractJsonString n s).2)

/-- A number, a word or something nested: everything up to a comma or a brace
at depth 0. -/
def copyValue : Nat → Int → List Char → List Char × List Char
  | 0, _, s => ([], s)
  | _ + 1, _, [] => ([], [])
  | n + 1, depth, c :: s =>
    if depth = 0 ∧ (c = ',' ∨ c = '}') then ([], c :: s)
    else
      let depth := if c = '{' ∨ c = '[' then depth + 1 else depth
      let depth := if c = '}' ∨ c = ']' then depth - 1 else depth
      (c :: (copyValue n depth s).1, (copyValue n depth s).2)

/-- The trailing white space is trimmed. -/
def trimEnd (v : List Char) : List Char := (v.reverse.dropWhile isSpace).reverse

/-- The two branches for a value, into a buffer of 256 bytes. -/
def jsonValue : List Char → List Char × List Char
  | '"' :: s => extractJsonString 255 s
  | s => (trimEnd (copyValue 255 0 s).1, (copyValue 255 0 s).2)

/-! ## §2. Objects. -/

/-- A key and a value as they were copied. -/
abbrev Pair := List Char × List Char

/-- One member, and what is left behind it and its comma. -/
def jsonPair : List Char → Option (Pair × List Char)
  | '"' :: s =>
    let k := extractJsonString maxWordLen s
    match skipSpace k.2 with
    | ':' :: s =>
      let v := jsonValue (skipSpace s)
      some ((k.1, v.1), skipComma (skipSpace v.2))
    | _ => none
  | _ => none

/-- The members of an object, while there is room for `n` more; `none` where
`compress_json` gives up.  The test of the `while` is the one behind the white
space: a brace is not white space. -/
def jsonPairs : Nat → List Char → Option (List Pair × List Char)
  | 0, s => some ([], s)
  | n + 1, s =>
    match skipSpace s with
    | [] => some ([], [])
    | c :: r =>
      if c = '}' then some ([], c :: r)
      else
        match jsonPair (c :: r) with
        | none => none
        | some (p, rest) =>
          match jsonPairs n rest with
          | none => none
          | some (ps, rest) => some (p :: ps, rest)

/-- The size of the arrays of keys and values. -/
def maxPairs : Nat := 32

/-! ## §3. Header and rows. -/

/-- `JSON_MAGIC`. -/
def jsonMagic : List Char := "TK:JSON:".toList

/-- The header line. -/
def jsonHeader (keys : List (List Char)) : List Char :=
  jsonMagic ++ Nat.toDigits 10 keys.length ++ ' ' :: [','].intercalate keys ++ ['\n']

/-- A row of `nkeys` columns: the last one ends the line, the others are
followed by a tab; an object with fewer values writes no more than it has. -/
def jsonRow : Nat → List (List Char) → List Char
  | 0, _ => []
  | _ + 1, [] => []
  | n + 1, v :: vs => v ++ (if n = 0 then '\n' else '\t') :: jsonRow n vs

/-! ## §4. The whole text. -/

/-- The loop over the elements of an array: the number of keys once the header
is written, and what is written; `none` where `compress_json` gives up. -/
def jsonArrayLoop : Nat → Option Nat → List Char → List Char → Option (Option Nat × List Char)
  | 0, nkeys, out, _ => some (nkeys, out)
  | fuel + 1, nkeys, out, s =>
    match skipSpace s with
    | [] => some (nkeys, out)
    | c :: s =>
      if c = ']' then some (nkeys, out)
      else if c = '{' then
        match jsonPairs maxPairs s with
        | none => none
        | some (pairs, rest) =>
          let rest := if rest.head? = some '}' then rest.tail else rest
          let n := nkeys.getD pairs.length
          let header := if nkeys = none then jsonHeader (pairs.map (·.1)) else out
          jsonArrayLoop fuel (some n) (header ++ jsonRow n (pairs.map (·.2)))
            (skipComma (skipSpace rest))
      else none

/-- `compress_json`; `none` for the return value `-1`. -/
def compressJson (s : List Char) : Option (List Char) :=
  if s = [] then none
  else
    match skipSpace s with
    | '{' :: r =>
      match jsonPairs maxPairs r with
      | some (p :: ps, _) =>
        some (jsonHeader ((p :: ps).map (·.1)) ++ jsonRow (ps.length + 1) ((p :: ps).map (·.2)))
      | _ => some (compressText s)
    | '[' :: r =>
      if (skipSpace r).head? = some '{' then
        match jsonArrayLoop r.length none [] (skipSpace r) with
        | some (some _, out) => some out
        | _ => some (compressText s)
      else some (compressText s)
    | _ => some (compressText s)

/-- The format of the header comment. -/
example : compressJson "[\x7b\"a\":1,\"b\":\"x y\"\x7d, \x7b\"a\":2,\"b\":\"\"\x7d]".toList
    = some "TK:JSON:2 a,b\n1\tx y\n2\t\n".toList := by decide +kernel

end Toke.Compress
