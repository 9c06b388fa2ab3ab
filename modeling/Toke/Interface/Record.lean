/-
  Toke.Interface.Record — **READING AN INTERFACE BACK** (the `.tki` scanner of `names.c`).

  The C code works on pointer ranges `[p, end)`.  A range is a list here: a
  pointer into it is the list of bytes from there to `end`, and `NULL` is
  `none`.

    `scanValue`       — the position behind a JSON value
    `objKey`          — the value of a key of an object
    `strValue`        — a quoted string, cut at the buffer size
    `recordExports`   — the walk over the `"exports"` array
-/
import Toke.Library.Nesting
import Toke.Names.Scope

namespace Toke

/-! ## §1. Scanning. -/

/-- `TKC_MAX_TKI_FIELDS`. -/
def maxTkiFields : Nat := 64

/-- `TKC_MAX_TKI_PARAMS`. -/
def maxTkiParams : Nat := 64

/-- The brackets and the quote of JSON. -/
def jsonMarks : Nesting.Marks Char where
  opens := fun c => c == '\x7b' || c == '['
  closes := fun c => c == '\x7d' || c == ']'
  quote := '"'

/-- `memchr(p, '"')`: the bytes up to the quote and those behind it. -/
def untilQuote (p : List Char) : Option (List Char × List Char) :=
  match p.dropWhile (· ≠ '"') with
  | [] => none
  | _ :: r => some (p.takeWhile (· ≠ '"'), r)

/-- `tki_scan_value`. -/
def scanValue : List Char → Option (List Char)
  | [] => none
  | c :: r =>
    if c = '"' then (untilQuote r).map Prod.snd
    else if jsonMarks.opens c then Nesting.closing jsonMarks (false, 0) (c :: r)
    else some ((c :: r).dropWhile fun c => c ≠ ',' && c ≠ '\x7d' && c ≠ ']')

/-- The range from `p` to the later pointer `q`. -/
def upTo (p q : List Char) : List Char := p.take (p.length - q.length)

/-- What separates two items. -/
def isSeparator (c : Char) : Bool := isBlank c || c == '\n' || c == '\r' || c == ','

/-- The key and the value position of an object's next member, `none` at its
end or on a syntax error. -/
def nextMember (p : List Char) : Option (List Char × List Char) :=
  match p.dropWhile isSeparator with
  | '"' :: k =>
    match untilQuote k with
    | none => none
    | some (key, r) =>
      match r.dropWhile isBlank with
      | ':' :: v => some (key, v.dropWhile isBlank)
      | _ => none
  | _ => none

/-- The loop of `tki_obj_key`. -/
def objKeyLoop (key : List Char) : Nat → List Char → Option (List Char)
  | 0, _ => none
  | fuel + 1, p =>
    match nextMember p with
    | none => none
    | some (k, v) =>
      if k = key then some v
      else
        match scanValue v with
        | none => none
        | some p => objKeyLoop key fuel p

/-- `tki_obj_key`: the object's own keys only. -/
def objKey (obj : List Char) (key : String) : Option (List Char) :=
  match obj with
  | '\x7b' :: p => objKeyLoop key.toList obj.length p
  | _ => none

/-- `tki_str_value`. -/
def strValue (size : Nat) (p : List Char) : Option (List Char) :=
  match p.dropWhile isBlank with
  | '"' :: q => (untilQuote q).map fun s => s.1.take (size - 1)
  | _ => none

/-- `tki_str_value(tki_obj_key(…))`. -/
def strMember (size : Nat) (obj : List Char) (key : String) : Option (List Char) :=
  (objKey obj key).bind (strValue size)

/-! ## §2. The lists of a record. -/

/-- The loop over a parameter list. -/
def paramLoop : Nat → List Char → List (List Char)
  | 0, _ => []
  | fuel + 1, p =>
    match p.dropWhile isSeparator with
    | '"' :: q =>
      match strValue 128 ('"' :: q), scanValue ('"' :: q) with
      | some pt, some p => pt :: paramLoop fuel p
      | _, _ => []
    | _ => []

/-- The bare name of a field: `$` marks a variant. -/
def bareName : List Char → List Char
  | '$' :: s => s
  | s => s

/-- The loop over a field list. -/
def fieldLoop : Nat → List Char → List (List Char × List Char)
  | 0, _ => []
  | fuel + 1, p =>
    match p.dropWhile isSeparator with
    | '\x7b' :: q =>
      match scanValue ('\x7b' :: q) with
      | none => []
      | some p' =>
        let obj := upTo ('\x7b' :: q) p'
        match strMember 128 obj "name" with
        | some fn => (bareName fn, (strMember 128 obj "type").getD []) :: fieldLoop fuel p'
        | none => fieldLoop fuel p'
    | _ => []

/-- The items of the array under a key; `none` when there is no such array. -/
def arrayMember {α : Type} (obj : List Char) (key : String) (items : List Char → List α) :
    Option (List α) :=
  match objKey obj key with
  | some ('[' :: p) => (scanValue ('[' :: p)).map fun e => items (upTo p e)
  | _ => none

/-! ## §3. The exports. -/

/-- The part behind the last `.`. -/
def lastSegment (fn : List Char) : List Char := (fn.reverse.takeWhile (· ≠ '.')).reverse

/-- `nameenv_add_itype`: the first record of a name wins. -/
def NameEnv.addItype (env : NameEnv) (it : ImportedType) : NameEnv :=
  if env.itypes.any (·.name = it.name) then env else { env with itypes := env.itypes ++ [it] }

/-- `nameenv_add_ifunc`. -/
def NameEnv.addIfunc (env : NameEnv) (f : ImportedFunc) : NameEnv :=
  { env with ifuncs := env.ifuncs ++ [f] }

/-- The function of a record. -/
def recordFunc (aliasName name obj : List Char) : ImportedFunc where
  aliasName := aliasName
  fn := name
  member := lastSegment name
  params := arrayMember obj "params" fun p => paramLoop maxTkiParams p
  ret := if (objKey obj "error").isSome then [] else (strMember 128 obj "return").getD []

/-- The type of a record. -/
def recordType (name obj : List Char) : ImportedType where
  name := name
  fields := (arrayMember obj "fields" fun p => (fieldLoop p.length p).take maxTkiFields).getD []
  isSum := ((objKey obj "is_sum").map fun v => "true".toList.isPrefixOf v).getD false

/-- One record.  Without an alias functions are skipped. -/
def recordExport (aliasName : Option Name) (obj : List Char) (env : NameEnv) : NameEnv :=
  match strMember 32 obj "kind", strMember 128 obj "name" with
  | some kind, some name =>
    if kind = "func".toList then
      match aliasName with
      | none => env
      | some a => env.addIfunc (recordFunc a name obj)
    else if kind = "type".toList then env.addItype (recordType name obj)
    else env
  | _, _ => env

/-- The loop over the `"exports"` array. -/
def recordLoop (aliasName : Option Name) : Nat → List Char → NameEnv → NameEnv
  | 0, _, env => env
  | fuel + 1, p, env =>
    match p.dropWhile isSeparator with
    | '\x7b' :: q =>
      match scanValue ('\x7b' :: q) with
      | none => env
      | some p' => recordLoop aliasName fuel p' (recordExport aliasName (upTo ('\x7b' :: q) p') env)
    | _ => env

/-- `strstr`: the text from the first occurrence on. -/
def strstr (pat : List Char) : List Char → Option (List Char)
  | [] => if pat = [] then some [] else none
  | c :: s => if pat.isPrefixOf (c :: s) then some (c :: s) else strstr pat s

/-- `tki_record_exports`. -/
def recordExports (aliasName : Option Name) (buf : List Char) (env : NameEnv) : NameEnv :=
  match strstr "\"exports\"".toList buf with
  | none => env
  | some ex =>
    match ex.dropWhile (· ≠ '[') with
    | _ :: p => recordLoop aliasName buf.length p env
    | [] => env

end Toke
