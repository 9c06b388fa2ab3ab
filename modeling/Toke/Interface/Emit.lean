/-
  Toke.Interface.Emit — **THE INTERFACE EMITTER** (`ir.c`).

  `emit_interface` walks the top-level declarations and prints one JSON
  record for each of them.  Names and types are lifted from the source bytes
  of the nodes' tokens through fixed buffers, so every text is cut at the
  buffer's size; `snprintf` and `strlen` also stop at a NUL.
-/
import Toke.Names.Resolve

namespace Toke

/-! ## §1. Buffers. -/

/-- A text in a buffer of `size` bytes, read back as a C string. -/
def buffer (size : Nat) (s : List Char) : List Char :=
  (s.take (size - 1)).takeWhile (· != '\x00')

/-- `tok_copy`. -/
def tokCopy (src : Source) (size : Nat) (n : Node) : List Char := buffer size (n.text src)

/-- A digit of `%04x`. -/
def hexDigit (n : Nat) : Char := "0123456789abcdef".toList.getD n '0'

/-- One byte of `json_str`. -/
def jsonChar (c : Char) : List Char :=
  if c = '"' then ['\\', '"']
  else if c = '\\' then ['\\', '\\']
  else if c = '\n' then ['\\', 'n']
  else if c = '\r' then ['\\', 'r']
  else if c = '\t' then ['\\', 't']
  else if c.toNat < 0x20 then
    ['\\', 'u', '0', '0', hexDigit (c.toNat / 16), hexDigit (c.toNat % 16)]
  else [c]

/-- `json_str`. -/
def jsonStr (s : List Char) : List Char := s.flatMap jsonChar

/-- One path segment of `collect_module_path`. -/
def pathStep (src : Source) (size : Nat) (buf : List Char) (id : Node) : List Char :=
  if buf.length < size - 1 then
    let buf := if 0 < buf.length ∧ buf.length < size - 2 then buf ++ ['.'] else buf
    buf ++ (id.text src).take (size - 1 - buf.length)
  else buf

/-- `collect_module_path`: the first module path of the tree. -/
def collectModulePath (src : Source) (size : Nat) (ast : Node) : List Char :=
  match ((ast.children.filter (·.kind = .module)).flatMap Node.children).find?
      (·.kind = .modulePath) with
  | none => []
  | some mp => (mp.children.foldl (pathStep src size) []).takeWhile (· != '\x00')

/-! ## §2. Types. -/

/-- A leading sigil is not printed. -/
def dropSigil : List Char → List Char
  | '$' :: s => s
  | s => s

/-- `render_type_node` into a buffer of `size` bytes.  The parts of a compound
type go through buffers of 128 bytes. -/
def renderTypeNode (src : Source) (size : Nat) : Node → List Char
  | n@⟨kind, _, _, _, _, _, _, children⟩ =>
    match kind with
    | .arrayType => buffer size ('[' :: (part 0 children ++ [']']))
    | .mapType => buffer size ('[' :: (part 0 children ++ ':' :: (part 1 children ++ [']'])))
    | .ptrType => buffer size ('*' :: part 0 children)
    | _ => buffer size (dropSigil (tokCopy src 128 n))
where
  /-- Child `i`, or nothing. -/
  part : Nat → List Node → List Char
    | _, [] => []
    | 0, c :: _ => renderTypeNode src 128 c
    | i + 1, _ :: cs => part i cs

/-! ## §3. The records. -/

/-- `", "` between the items. -/
def commaSep (items : List (List Char)) : List Char := ", ".toList.intercalate items

/-- A string value. -/
def jsonString (s : List Char) : List Char := '"' :: (jsonStr s ++ ['"'])

/-- The type nodes of the parameters. -/
def paramTypes (fn : Node) : List Node :=
  (fn.children.drop 1).filterMap fun c =>
    if c.kind = .param then c.children[1]? else none

/-- The types of the first return specification that has one: the value type
and, for an error union, the error type. -/
def returnTypes (fn : Node) : Option (Node × Option Node) :=
  (fn.children.drop 1).findSome? fun c =>
    if c.kind = .returnSpec then c.children[0]?.map fun t => (t, c.children[1]?) else none

/-- `"return"` and `"error"`. -/
def emitReturn (src : Source) (fn : Node) : List Char :=
  match returnTypes fn with
  | none => "\"return\": ".toList ++ jsonString "void".toList
  | some (t, none) => "\"return\": ".toList ++ jsonString (renderTypeNode src 128 t)
  | some (t, some e) =>
    "\"return\": ".toList ++ jsonString (renderTypeNode src 128 t) ++
      ", \"error\": ".toList ++ jsonString (renderTypeNode src 256 e)

/-- The record of a function; one without a body is an extern. -/
def emitFunc (src : Source) (fn name : Node) : List Char :=
  "\x7b\"kind\": \"func\", \"name\": ".toList ++ jsonString (tokCopy src 128 name) ++ ", ".toList ++
    (if fn.children.any (·.kind = .stmtList) then [] else "\"extern\": true, ".toList) ++
    "\"params\": [".toList ++
    commaSep ((paramTypes fn).map fun t => jsonString (renderTypeNode src 128 t)) ++
    "], ".toList ++ emitReturn src fn ++ "\x7d".toList

/-- The fields that are exported. -/
def exportedFields (decl : Node) : List Node := (declFields decl).take 64

/-- A field has its type in child 0. -/
def fieldType (src : Source) (f : Node) : List Char :=
  match f.children with
  | t :: _ => renderTypeNode src 128 t
  | [] => "i64".toList

/-- The record of a field; `$` marks a variant. -/
def emitField (src : Source) (isSum : Bool) (f : Node) : List Char :=
  "\x7b\"name\": \"".toList ++ (if isSum && isVariant src f then ['$'] else []) ++
    jsonStr (tokCopy src 128 f) ++ "\", \"type\": ".toList ++ jsonString (fieldType src f) ++
    "\x7d".toList

/-- The record of a type. -/
def emitType (src : Source) (decl name : Node) : List Char :=
  let fields := exportedFields decl
  let isSum := fields.any (isVariant src)
  "\x7b\"kind\": \"type\", \"name\": ".toList ++ jsonString (tokCopy src 128 name) ++
    (if isSum then ", \"is_sum\": true, \"fields\": [".toList else ", \"fields\": [".toList) ++
    commaSep (fields.map (emitField src isSum)) ++ "]\x7d".toList

/-- The type of a constant: child 1, if it names a scalar type. -/
def constType (src : Source) (decl : Node) : List Char :=
  match decl.children[1]? with
  | some t => if t.kind = .typeExpr then tokCopy src 128 t else "unknown".toList
  | none => "unknown".toList

/-- The record of a constant. -/
def emitConst (src : Source) (decl name : Node) : List Char :=
  "\x7b\"kind\": \"const\", \"name\": ".toList ++ jsonString (tokCopy src 128 name) ++
    ", \"type\": ".toList ++ jsonString (constType src decl) ++ "\x7d".toList

/-- The record of a top-level node, if it is exported. -/
def emitDecl (src : Source) (top : Node) : Option (List Char) :=
  match top.kind, top.children with
  | .funcDecl, name :: _ => some (emitFunc src top name)
  | .typeDecl, name :: _ => some (emitType src top name)
  | .constDecl, name :: _ => some (emitConst src top name)
  | _, _ => none

/-! ## §4. The file. -/

/-- The text of the `.tki` file that `emit_interface` writes. -/
def emitInterface (src : Source) (ast : Node) : List Char :=
  let records := ast.children.filterMap (emitDecl src)
  "\x7b\n  \"schema_version\": \"1.0\",\n  \"module\": ".toList ++
    jsonString (collectModulePath src 256 ast) ++
    ",\n  \"version\": \"1.0.0\",\n  \"exports\": [".toList ++
    [','].intercalate (records.map ("\n    ".toList ++ ·)) ++
    (if records.isEmpty then [] else "\n  ".toList) ++ "]\n\x7d\n".toList

end Toke
