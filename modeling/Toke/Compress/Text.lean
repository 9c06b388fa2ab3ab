/-
  Toke.Compress.Text — **THE TEXT COMPRESSOR** (`compress.c`).

  `compress_text` cuts a text into placeholder atoms, white space, words and
  single characters.  Frequent words become abbreviations behind a tilde, words
  seen before become references `@Rn` into a dictionary; `decompress_text`
  rebuilds the dictionary from the words it meets.
-/
import Toke.Lexer.Token

namespace Toke.Compress

/-! ## §1. Characters. -/

/-- `isspace`. -/
def isSpace (c : Char) : Bool := c = ' ' || ('\t' ≤ c && c ≤ '\r')

/-- `isalnum`. -/
def isAlnum (c : Char) : Bool := isLetter c || isDigit c

/-- The characters of a placeholder behind its dollar. -/
def isRun (c : Char) : Bool := isUpper c || isDigit c || c = '_'

/-- `tolower`, on a text. -/
def lower (s : List Char) : List Char := s.map Char.toLower

/-! ## §2. Placeholders. -/

/-- `is_placeholder_start`, of what is left of the text. -/
def isPlaceholderStart : List Char → Bool
  | '$' :: c :: rest => isUpper c && (rest.takeWhile isRun).getLast?.any isDigit
  | _ => false

/-- `placeholder_len`. -/
def placeholderLen (s : List Char) : Nat := 1 + (s.tail.takeWhile isRun).length

/-! ## §3. Words. -/

/-- `MAX_DICT_WORDS`. -/
def maxDictWords : Nat := 256
/-- `MAX_WORD_LEN`. -/
def maxWordLen : Nat := 128

/-- `ABBR_TABLE`. -/
def abbrTable : List (List Char × List Char) :=
  [(['t', 'h', 'e'], ['~', 't']), (['a', 'n', 'd'], ['~', 'a']),
   (['t', 'h', 'a', 't'], ['~', 't', 'h']),
   (['t', 'h', 'i', 's'], ['~', 't', 's']),
   (['w', 'i', 't', 'h'], ['~', 'w']),
   (['f', 'r', 'o', 'm'], ['~', 'f']),
   (['h', 'a', 'v', 'e'], ['~', 'h', 'v']),
   (['t', 'h', 'e', 'y'], ['~', 't', 'y']),
   (['w', 'i', 'l', 'l'], ['~', 'w', 'l']),
   (['b', 'e', 'e', 'n'], ['~', 'b', 'n']),
   (['w', 'e', 'r', 'e'], ['~', 'w', 'r']),
   (['y', 'o', 'u', 'r'], ['~', 'y', 'r']),
   (['w', 'h', 'i', 'c', 'h'], ['~', 'w', 'h']),
   (['t', 'h', 'e', 'i', 'r'], ['~', 't', 'r']),
   (['t', 'h', 'e', 'r', 'e'], ['~', 't', 'e']),
   (['a', 'b', 'o', 'u', 't'], ['~', 'a', 'b']),
   (['w', 'o', 'u', 'l', 'd'], ['~', 'w', 'o']),
   (['c', 'o', 'u', 'l', 'd'], ['~', 'c', 'o']),
   (['s', 'h', 'o', 'u', 'l', 'd'], ['~', 's', 'h']),
   (['p', 'l', 'e', 'a', 's', 'e'], ['~', 'p', 'l']),
   (['t', 'h', 'a', 'n', 'k'], ['~', 't', 'n']),
   (['h', 'e', 'l', 'l', 'o'], ['~', 'h', 'l']),
   (['w', 'o', 'r', 'l', 'd'], ['~', 'w', 'r', 'd']),
   (['m', 'e', 's', 's', 'a', 'g', 'e'], ['~', 'm', 's']),
   (['a', 'd', 'd', 'r', 'e', 's', 's'], ['~', 'a', 'd']),
   (['c', 'o', 'm', 'p', 'a', 'n', 'y'], ['~', 'c', 'p']),
   (['s', 'u', 'b', 'j', 'e', 'c', 't'], ['~', 's', 'b']),
   (['r', 'e', 'q', 'u', 'e', 's', 't'], ['~', 'r', 'q']),
   (['r', 'e', 's', 'p', 'o', 'n', 's', 'e'], ['~', 'r', 's']),
   (['f', 'o', 'l', 'l', 'o', 'w', 'i', 'n', 'g'], ['~', 'f', 'l']),
   (['a', 't', 't', 'a', 'c', 'h', 'e', 'd'], ['~', 'a', 't']),
   (['r', 'e', 'g', 'a', 'r', 'd', 's'], ['~', 'r', 'g']),
   (['s', 'i', 'n', 'c', 'e', 'r', 'e', 'l', 'y'], ['~', 's', 'c']),
   (['c', 'u', 's', 't', 'o', 'm', 'e', 'r'], ['~', 'c', 'u']),
   (['a', 'c', 'c', 'o', 'u', 'n', 't'], ['~', 'a', 'c']),
   (['b', 'e', 't', 'w', 'e', 'e', 'n'], ['~', 'b', 't']),
   (['b', 'e', 'c', 'a', 'u', 's', 'e'], ['~', 'b', 'c']),
   (['t', 'h', 'r', 'o', 'u', 'g', 'h'], ['~', 't', 'g']),
   (['i', 'm', 'p', 'o', 'r', 't', 'a', 'n', 't'], ['~', 'i', 'm']),
   (['r', 'e', 'c', 'e', 'i', 'v', 'e', 'd'], ['~', 'r', 'c']),
   (['p', 'r', 'o', 'v', 'i', 'd', 'e', 'd'], ['~', 'p', 'v']),
   (['a', 'c', 'c', 'o', 'r', 'd', 'i', 'n', 'g'], ['~', 'a', 'g']),
   (['t', 'h', 'e', 'r', 'e', 'f', 'o', 'r', 'e'], ['~', 't', 'f']),
   (['h', 'o', 'w', 'e', 'v', 'e', 'r'], ['~', 'h', 'w'])]

/-- `abbr_for_word`. -/
def abbrForWord (w : List Char) : Option (List Char) :=
  if w.length = 0 ∨ w.length > maxWordLen then none
  else (abbrTable.find? (·.1 = lower w)).map (·.2)

/-- `word_for_abbr`; the comparison ends at a NUL. -/
def wordForAbbr (a : List Char) : Option (List Char) :=
  (abbrTable.find? (·.2 = a.takeWhile (· ≠ '\x00'))).map (·.1)

/-- The words stored so far. -/
abbrev Dict := List (List Char)

/-- A word as it is stored. -/
def stored (w : List Char) : List Char := w.take maxWordLen

/-- A word is added while there is room. -/
def Dict.add (d : Dict) (w : List Char) : Dict := if d.length < maxDictWords then d ++ [stored w] else d

/-- `strcasecmp` with the entries, in order. -/
def Dict.find (d : Dict) (w : List Char) : Option Nat := d.findIdx? fun e => lower e = lower (stored w)

/-! ## §4. Compress. -/

/-- The character a run of white space becomes. -/
def collapsed (ws : List Char) : Char := if '\n' ∈ ws then '\n' else ws.headD ' '

/-- `@Rn` for the entry at `i`. -/
def reference (i : Nat) : List Char := '@' :: 'R' :: Nat.toDigits 10 (i + 1)

/-- A word: what is written for it, and the dictionary behind it. -/
def compressWord (d : Dict) (w : List Char) : List Char × Dict :=
  match abbrForWord w with
  | some a => (a, d)
  | none =>
    match d.find w with
    | some i => if (stored w).length ≥ 4 then (reference i, d) else (w, d.add w)
    | none => (w, d.add w)

/-- One turn of the loop of `compress_text`: what is written, the dictionary and
the text left. -/
def compressStep (d : Dict) (s : List Char) : List Char × Dict × List Char :=
  if isPlaceholderStart s then (s.take (placeholderLen s), d, s.drop (placeholderLen s))
  else
    match s with
    | [] => ([], d, [])
    | c :: rest =>
      if isSpace c then ([collapsed (s.takeWhile isSpace)], d, s.dropWhile isSpace)
      else if isLetter c then
        let (out, d) := compressWord d (s.takeWhile isAlnum)
        (out, d, s.dropWhile isAlnum)
      else ([c], d, rest)

/-- The loop of `compress_text`. -/
def compressLoop : Nat → Dict → List Char → List Char
  | 0, _, _ => []
  | _ + 1, _, [] => []
  | fuel + 1, d, s =>
    let (out, d, rest) := compressStep d s
    out ++ compressLoop fuel d rest

/-- `PROSE_MAGIC`. -/
def magic : List Char := ['T', 'K', ':', 'P']

/-- `compress_text`; every turn takes at least one character. -/
def compressText (s : List Char) : List Char :=
  if s = [] then [] else magic ++ compressLoop s.length [] s

/-! ## §5. Decompress. -/

/-- The index of a reference, in an `int`; one that overflows is taken to wrap,
and a negative one is no index. -/
def digitsIndex (ds : List Char) : Nat :=
  (ds.foldl (fun (n : Int32) c => n * 10 + Int32.ofNat (c.toNat - 48)) 0).toNatClampNeg

/-- One turn of the loop of `decompress_text`. -/
def decompressStep (d : Dict) (s : List Char) : List Char × Dict × List Char :=
  if isPlaceholderStart s then (s.take (placeholderLen s), d, s.drop (placeholderLen s))
  else
    match s with
    | [] => ([], d, [])
    | '@' :: 'R' :: rest =>
      -- an index that is not in the dictionary is dropped
      let idx := digitsIndex (rest.takeWhile isDigit)
      (if 1 ≤ idx ∧ idx ≤ d.length then d.getD (idx - 1) [] else [], d, rest.dropWhile isDigit)
    | '~' :: _ =>
      -- everything up to the next white space, whether or not it is an abbreviation
      let token := s.takeWhile (! isSpace ·)
      let full := if token.length < 16 then wordForAbbr token else none
      (full.getD token, d, s.dropWhile (! isSpace ·))
    | c :: rest =>
      if isSpace c then ([c], d, rest)
      else if isLetter c then
        (s.takeWhile isAlnum, d.add (s.takeWhile isAlnum), s.dropWhile isAlnum)
      else ([c], d, rest)

/-- `out` characters have been written; the loop ends when the next piece and a
NUL do not fit. -/
def decompressLoop (cap : Nat) : Nat → Nat → Dict → List Char → List Char
  | 0, _, _, _ => []
  | _ + 1, _, _, [] => []
  | fuel + 1, out, d, s =>
    let (piece, d, rest) := decompressStep d s
    if out + piece.length + 1 > cap then []
    else piece ++ decompressLoop cap fuel (out + piece.length) d rest

/-- `decompress_text` into a buffer of `cap` bytes. -/
def decompressText (s : List Char) (cap : Nat) : List Char :=
  if s = [] then []
  else if s.take 4 ≠ magic then
    if cap = 0 then [] else if s.length + 1 ≤ cap then s else s.take (cap - 1)
  else decompressLoop cap s.length 0 [] (s.drop 4)

end Toke.Compress
