/-
  Toke.Tkir.Encode — **THE BINARY IR WRITER** (`emit_tkir` of `tkir.c`).

  Three prepasses fill the tables of types, functions and imports; then each
  function body is walked and its instructions are appended to one code
  buffer; then six sections are written behind the header.
-/
import Toke.Interface.Emit
import Toke.Stdlib.Number

namespace Toke.Tkir

/-! ## §1. Bytes, least significant first. -/

/-- One byte. -/
def u8 (v : Nat) : List UInt8 := [UInt8.ofNat v]

/-- Two bytes, the low one first. -/
def u16 (v : Nat) : List UInt8 := [UInt8.ofNat v, UInt8.ofNat (v / 2 ^ 8)]

/-- Four bytes. -/
def u32 (v : Nat) : List UInt8 :=
  [UInt8.ofNat v, UInt8.ofNat (v / 2 ^ 8), UInt8.ofNat (v / 2 ^ 16), UInt8.ofNat (v / 2 ^ 24)]

/-- Eight bytes. -/
def i64 (v : Int64) : List UInt8 :=
  (List.range 8).map fun i => UInt8.ofNat (v.toUInt64.toNat / 2 ^ (8 * i))

/-- The bytes of a source text. -/
def textBytes (s : List Char) : List UInt8 := s.map Char.toUInt8

/-- A text with its length in front. -/
def str (s : List Char) : List UInt8 := u16 s.length ++ textBytes s

/-! ## §2. The tables. -/

/-- `TKIR_TY_I64`. -/
def tyI64 : Nat := 0x01
/-- `TKIR_TY_F64`. -/
def tyF64 : Nat := 0x02
/-- `TKIR_TY_BOOL`. -/
def tyBool : Nat := 0x03
/-- `TKIR_TY_STR`. -/
def tyStr : Nat := 0x04
/-- `TKIR_TY_VOID`. -/
def tyVoid : Nat := 0x05
/-- `TKIR_TY_STRUCT`. -/
def tyStruct : Nat := 0x06
/-- `TKIR_TY_ARRAY`. -/
def tyArray : Nat := 0x07
/-- `TKIR_TY_FN_PTR`. -/
def tyFnPtr : Nat := 0x08
/-- `TKIR_TY_ERR_UNION`. -/
def tyErrUnion : Nat := 0x09

/-- `EncTypeEntry`. -/
structure EncTypeEntry where
  kind : Nat
  name : List Char
  fieldTypes : List Nat
  deriving DecidableEq

/-- `EncFunc`. -/
structure EncFunc where
  name : List Char
  paramTypes : List Nat
  retType : Nat
  flags : Nat
  body : Option Node

/-- `EncDataEntry`; no floating-point entry is ever made. -/
inductive EncDataEntry where
  | str (s : List Char)
  | i64 (v : Int64)
  deriving DecidableEq

/-- `EncImportEntry`. -/
structure EncImportEntry where
  module : List Char
  symbol : List Char
  typeIdx : Nat
  deriving DecidableEq

/-- The slots for types. -/
def maxTypes : Nat := 256
/-- The slots for constants. -/
def maxData : Nat := 1024
/-- The slots for functions. -/
def maxFuncs : Nat := 128
/-- The slots for parameters. -/
def maxParams : Nat := 16
/-- The slots for imports. -/
def maxImports : Nat := 32

/-- `Enc`.  The type entries are an array of slots, zeroed at first: a slot is
filled before it is counted. -/
structure Enc where
  types : List EncTypeEntry
  typeCount : Nat
  funcs : List EncFunc
  data : List EncDataEntry
  imports : List EncImportEntry
  reg : Nat
  code : List UInt8

/-- The encoder at the start. -/
def Enc.start : Enc := ⟨List.replicate maxTypes ⟨0, [], []⟩, 0, [], [], [], 0, []⟩

/-- The entries that count. -/
def Enc.liveTypes (e : Enc) : List EncTypeEntry := e.types.take e.typeCount

/-- The next slot is filled and counted. -/
def Enc.addType (e : Enc) (t : EncTypeEntry) : Nat × Enc :=
  if e.typeCount ≥ maxTypes then (0, e)
  else (e.typeCount, { e with types := e.types.set e.typeCount t, typeCount := e.typeCount + 1 })

/-- `enc_ensure_scalar`. -/
def encEnsureScalar (e : Enc) (kind : Nat) : Nat × Enc :=
  match e.liveTypes.findIdx? fun t => t.kind = kind && t.name = [] with
  | some i => (i, e)
  | none => e.addType ⟨kind, [], []⟩

/-- `enc_resolve_type_kind`; `none` is 0. -/
def encResolveTypeKind (name : List Char) : Option Nat :=
  if name ∈ ["i64".toList, "I64".toList, "Int".toList] then some tyI64
  else if name ∈ ["f64".toList, "F64".toList, "Float".toList] then some tyF64
  else if name ∈ ["bool".toList, "Bool".toList] then some tyBool
  else if name ∈ ["str".toList, "Str".toList, "String".toList] then some tyStr
  else if name ∈ ["void".toList, "Void".toList] then some tyVoid
  else none

/-- The struct of this name. -/
def encFindStruct (e : Enc) (name : List Char) : Option Nat :=
  e.liveTypes.findIdx? fun t => t.kind = tyStruct && t.name = name

/-- `enc_type_idx_from_name`. -/
def encTypeIdxFromName (e : Enc) (name : List Char) : Nat × Enc :=
  match encResolveTypeKind name with
  | some kind => encEnsureScalar e kind
  | none =>
    match encFindStruct e name with
    | some i => (i, e)
    | none => e.addType ⟨tyStruct, name, []⟩

/-- `enc_type_idx_from_node`. -/
def encTypeIdxFromNode (src : Source) (e : Enc) (n : Node) : Nat × Enc :=
  match n.kind with
  | .typeIdent | .typeExpr => encTypeIdxFromName e (tokCopy src 128 n)
  | .arrayType => encEnsureScalar e tyArray
  | .funcType => encEnsureScalar e tyFnPtr
  | _ => encEnsureScalar e tyVoid

/-- `enc_add_str`, `enc_add_i64`. -/
def encAddData (e : Enc) (d : EncDataEntry) : Nat × Enc :=
  match e.data.findIdx? (· = d) with
  | some i => (i, e)
  | none =>
    if e.data.length ≥ maxData then (0, e)
    else (e.data.length, { e with data := e.data ++ [d] })

/-! ## §3. The prepasses. -/

/-- The type of a field or parameter: its second child, an integer without one. -/
def encMemberType (src : Source) (e : Enc) (n : Node) : Nat × Enc :=
  match n.children with
  | _ :: t :: _ => encTypeIdxFromNode src e t
  | _ => encEnsureScalar e tyI64

/-- One field of the entry in slot `slot`.  A type that is new to the table
goes into the slot that is being filled. -/
def encField (src : Source) (slot : Nat) (e : Enc) (n : Node) : Enc :=
  if n.kind = .field ∧ (e.types.getD slot ⟨0, [], []⟩).fieldTypes.length < maxParams then
    let (idx, e) := encMemberType src e n
    let t := e.types.getD slot ⟨0, [], []⟩
    { e with types := e.types.set slot { t with fieldTypes := t.fieldTypes ++ [idx] } }
  else e

/-- The fields of a declaration, directly below it or in a list. -/
def encFields (src : Source) (slot : Nat) (e : Enc) (c : Node) : Enc :=
  match c.kind with
  | .stmtList => c.children.foldl (encField src slot) e
  | _ => encField src slot e c

/-- One type declaration of `enc_prepass_types`. -/
def encTypeDecl (src : Source) (e : Enc) (decl : Node) : Enc :=
  match decl.kind, decl.children with
  | .typeDecl, id :: rest =>
    let name := tokCopy src 128 id
    if (encFindStruct e name).isSome ∨ e.typeCount ≥ maxTypes then e
    else
      let slot := e.typeCount
      let e := { e with types := e.types.set slot ⟨tyStruct, name, []⟩ }
      let e := rest.foldl (encFields src slot) e
      { e with typeCount := e.typeCount + 1 }
  | _, _ => e

/-- `enc_prepass_types`. -/
def encPrepassTypes (src : Source) (ast : Node) (e : Enc) : Enc :=
  let e := [tyI64, tyF64, tyBool, tyStr, tyVoid].foldl (fun e k => (encEnsureScalar e k).2) e
  ast.children.foldl (encTypeDecl src) e

/-- The parameters of a function, up to the limit. -/
def encParams (src : Source) (acc : List Nat × Enc) (c : Node) : List Nat × Enc :=
  if c.kind = .param ∧ acc.1.length < maxParams then
    let (idx, e) := encMemberType src acc.2 c
    (acc.1 ++ [idx], e)
  else acc

/-- `TKIR_FN_EXPORTED`. -/
def fnExported : Nat := 0x01
/-- `TKIR_FN_EXTERN`. -/
def fnExtern : Nat := 0x02

/-- One declaration of `enc_prepass_funcs`; the last return type and the last
body count. -/
def encFuncDecl (src : Source) (e : Enc) (decl : Node) : Enc :=
  match decl.kind, decl.children with
  | .funcDecl, id :: rest =>
    if e.funcs.length ≥ maxFuncs then e
    else
      let name := tokCopy src 128 id
      let (params, e) := rest.foldl (encParams src) ([], e)
      let body := rest.reverse.find? (·.kind = .stmtList)
      let (ret, e) :=
        match (rest.reverse.find? (·.kind = .returnSpec)).bind (·.children.head?) with
        | some t => encTypeIdxFromNode src e t
        | none => encEnsureScalar e tyVoid
      let flags := (if body.isNone then fnExtern else 0) +
        (if name = "main".toList then fnExported else 0)
      { e with funcs := e.funcs ++ [⟨name, params, ret, flags, body⟩] }
  | _, _ => e

/-- `enc_prepass_funcs`. -/
def encPrepassFuncs (src : Source) (ast : Node) (e : Enc) : Enc :=
  ast.children.foldl (encFuncDecl src) e

/-- One import of `enc_prepass_imports`. -/
def encImport (src : Source) (e : Enc) (decl : Node) : Enc :=
  if decl.kind = .import ∧ e.imports.length < maxImports then
    let imp : EncImportEntry :=
      match decl.children with
      | s :: m :: _ => ⟨tokCopy src 64 m, tokCopy src 128 s, 0⟩
      | [m] => ⟨tokCopy src 64 m, tokCopy src 64 m, 0⟩
      | [] => ⟨[], [], 0⟩
    { e with imports := e.imports ++ [imp] }
  else e

/-- `enc_prepass_imports`. -/
def encPrepassImports (src : Source) (ast : Node) (e : Enc) : Enc :=
  ast.children.foldl (encImport src) e

/-! ## §4. The code. -/

/-- `TKIR_OP_ADD`. -/
def opAdd : Nat := 0x01
/-- `TKIR_OP_SUB`. -/
def opSub : Nat := 0x02
/-- `TKIR_OP_MUL`. -/
def opMul : Nat := 0x03
/-- `TKIR_OP_DIV`. -/
def opDiv : Nat := 0x04
/-- `TKIR_OP_MOD`. -/
def opMod : Nat := 0x05
/-- `TKIR_OP_NEG`. -/
def opNeg : Nat := 0x06
/-- `TKIR_OP_LT`. -/
def opLt : Nat := 0x12
/-- `TKIR_OP_GT`. -/
def opGt : Nat := 0x14
/-- `TKIR_OP_BR`. -/
def opBr : Nat := 0x20
/-- `TKIR_OP_BR_IF`. -/
def opBrIf : Nat := 0x21
/-- `TKIR_OP_CALL`. -/
def opCall : Nat := 0x22
/-- `TKIR_OP_RET`. -/
def opRet : Nat := 0x23
/-- `TKIR_OP_ALLOCA`. -/
def opAlloca : Nat := 0x30
/-- `TKIR_OP_LOAD`. -/
def opLoad : Nat := 0x31
/-- `TKIR_OP_STORE`. -/
def opStore : Nat := 0x32
/-- `TKIR_OP_CONST_DATA`. -/
def opConstData : Nat := 0x33
/-- `TKIR_OP_CAST`. -/
def opCast : Nat := 0x40
/-- `TKIR_OP_FIELD_GET`. -/
def opFieldGet : Nat := 0x41
/-- `TKIR_OP_FIELD_SET`. -/
def opFieldSet : Nat := 0x42

/-- An opcode and its 16-bit operands, at the end of the code. -/
def Enc.put (e : Enc) (op : Nat) (operands : List Nat) : Enc :=
  { e with code := e.code ++ u8 op ++ operands.flatMap u16 }

/-- `enc_next_reg`; the counter is a `uint16_t`. -/
def encNextReg (e : Enc) : Nat × Enc := (e.reg, { e with reg := (e.reg + 1) % 2 ^ 16 })

/-- `enc_emit_const_data`. -/
def encEmitConstData (e : Enc) (idx : Nat) : Nat × Enc :=
  let (dest, e) := encNextReg e
  (dest, e.put opConstData [dest, idx])

/-- A constant in a register. -/
def encConst (e : Enc) (d : EncDataEntry) : Nat × Enc :=
  let (idx, e) := encAddData e d
  encEmitConstData e idx

/-- An emitted expression: the register of its value. -/
abbrev Emit := Enc → Nat × Enc

/-- The values of a list of expressions, left to right. -/
def emitAll : List Emit → Enc → List Nat × Enc
  | [], e => ([], e)
  | f :: fs, e =>
    let (r, e) := f e
    let (rs, e) := emitAll fs e
    (r :: rs, e)

/-- The opcode of a binary operator; the operators without one are added. -/
def binaryOp : TokenKind → Nat
  | .plus => opAdd
  | .minus => opSub
  | .star => opMul
  | .slash => opDiv
  | .percent => opMod
  | .lt => opLt
  | .gt => opGt
  | _ => opAdd

section Emit

-- `truncate` is `(int64_t)strtod`.
variable (src : Source) (truncate : List Char → Int64)

/-- One case of `enc_emit_expr`, over the emitters of the children. -/
def encExprNode (n : Node) (kids : List Emit) : Emit := fun e =>
  match n.kind, kids with
  | .intLit, _ => encConst e (.i64 ((Stdlib.strtoll (textBytes (tokCopy src 128 n))).getD 0))
  | .strLit, _ => encConst e (.str (slice src (n.tokStart + 1) (n.tokLen - 2)))
  | .boolLit, _ =>
    encConst e (.i64 (if tokCopy src 128 n ∈ ["true".toList, "TRUE".toList] then 1 else 0))
  | .floatLit, _ => encConst e (.i64 (truncate (tokCopy src 128 n)))
  | .ident, _ =>
    let (dest, e) := encNextReg e
    (dest, e.put opLoad [dest, 0])
  | .binaryExpr, a :: b :: _ =>
    let (lhs, e) := a e
    let (rhs, e) := b e
    let (dest, e) := encNextReg e
    (dest, e.put (binaryOp n.op) [dest, lhs, rhs])
  | .unaryExpr, a :: _ =>
    let (r, e) := a e
    let (dest, e) := encNextReg e
    (dest, e.put opNeg [dest, r])
  | .callExpr, _ :: args =>
    let callee := (n.children.head?.map (tokCopy src 128)).getD []
    let fidx := (e.funcs.findIdx? (·.name = callee)).getD 0
    let (regs, e) := emitAll (args.take maxParams) e
    let (dest, e) := encNextReg e
    -- past the sixteenth argument the operands are whatever the stack holds
    let operands := regs ++ List.replicate (args.length - maxParams) 0
    (dest, e.put opCall ([dest, fidx, args.length] ++ operands))
  | .fieldExpr, a :: _ :: _ =>
    let (base, e) := a e
    let (dest, e) := encNextReg e
    (dest, e.put opFieldGet [dest, base, 0])
  | .castExpr, a :: _ :: _ =>
    let (r, e) := a e
    let (dest, e) := encNextReg e
    let e := e.put opCast [dest, r]
    let (ty, e) :=
      match n.children with
      | _ :: t :: _ => encTypeIdxFromNode src e t
      | _ => (0, e)
    (dest, { e with code := e.code ++ u16 ty })
  | _, _ => (0, e)

/-- `enc_emit_expr`. -/
def encEmitExpr : Node → Emit
  | n@⟨_, _, _, _, _, _, _, children⟩ => encExprNode src truncate n (emitters children)
where
  emitters : List Node → List Emit
    | [] => []
    | c :: cs => encEmitExpr c :: emitters cs

/-- One case of `enc_emit_stmt`, over the emitters of the children. -/
def encStmtNode (n : Node) (kids : List (Enc → Enc)) (e : Enc) : Enc :=
  match n.kind, n.children with
  | .stmtList, _ => kids.foldl (fun e k => k e) e
  | .returnStmt, c :: _ =>
    let (r, e) := encEmitExpr src truncate c e
    e.put opRet [r]
  | .returnStmt, [] => e.put opRet [0]
  | .bindStmt, _ :: c :: cs | .mutBindStmt, _ :: c :: cs =>
    let (val, e) := encEmitExpr src truncate ((c :: cs).getLast (List.cons_ne_nil c cs)) e
    let (slot, e) := encNextReg e
    let e := e.put opAlloca [slot]
    let (ty, e) := encEnsureScalar e tyI64
    { e with code := e.code ++ u16 ty }.put opStore [slot, val]
  | .assignStmt, _ :: c :: _ =>
    let (val, e) := encEmitExpr src truncate c e
    e.put opStore [0, val]
  | .ifStmt, c :: _ :: _ =>
    let (cond, e) := encEmitExpr src truncate c e
    ((kids.drop 1).take 2).foldl (fun e k => k e) (e.put opBrIf [cond, 0, 0])
  | .loopStmt, _ => kids.foldl (fun e k => k e) (e.put opBr [0])
  | .exprStmt, c :: _ => (encEmitExpr src truncate c e).2
  | _, _ => e

/-- `enc_emit_stmt`. -/
def encEmitStmt : Node → Enc → Enc
  | n@⟨_, _, _, _, _, _, _, children⟩ => encStmtNode src truncate n (emitters children)
where
  emitters : List Node → List (Enc → Enc)
    | [] => []
    | c :: cs => encEmitStmt c :: emitters cs

/-- `enc_emit_func_body`. -/
def encEmitFuncBody (e : Enc) (fn : EncFunc) : Enc :=
  match fn.body with
  | none => e
  | some body =>
    let off := e.code.length
    let e := encEmitStmt src truncate body { e with reg := fn.paramTypes.length }
    -- a return is recognised by the third byte from the end
    if e.code.length = off ∨ e.code.getD (e.code.length - 3) 0 ≠ UInt8.ofNat opRet then
      e.put opRet [0]
    else e

/-- The tables and the code of a program. -/
def encode (ast : Node) : Enc :=
  let e := encPrepassImports src ast (encPrepassFuncs src ast (encPrepassTypes src ast .start))
  e.funcs.foldl (encEmitFuncBody src truncate) e

end Emit

/-! ## §5. The sections. -/

/-- `TKIR_SEC_TYPE`. -/
def secType : Nat := 0x01
/-- `TKIR_SEC_FUNC`. -/
def secFunc : Nat := 0x02
/-- `TKIR_SEC_CODE`. -/
def secCode : Nat := 0x03
/-- `TKIR_SEC_DATA`. -/
def secData : Nat := 0x04
/-- `TKIR_SEC_IMPORT`. -/
def secImport : Nat := 0x05
/-- `TKIR_SEC_EXPORT`. -/
def secExport : Nat := 0x06

/-- A section behind its tag and its length. -/
def sectionBytes (tag : Nat) (sec : List UInt8) : List UInt8 := u8 tag ++ u32 sec.length ++ sec

/-- `enc_write_header`: the magic is written as text. -/
def encWriteHeader : List UInt8 := textBytes "TKIR".toList ++ u8 1 ++ u8 0 ++ u8 0x02 ++ u16 6

/-- The bytes of a type. -/
def encTypeBytes (t : EncTypeEntry) : List UInt8 :=
  u8 t.kind ++ if t.kind = tyStruct then
      str t.name ++ u16 t.fieldTypes.length ++ t.fieldTypes.flatMap u16
    else []

/-- `enc_write_type_section`. -/
def encWriteTypeSection (e : Enc) : List UInt8 :=
  sectionBytes secType (u16 e.typeCount ++ e.liveTypes.flatMap encTypeBytes)

/-- Every function gets the register count of the last one. -/
def encFuncBytes (reg : Nat) (fn : EncFunc) : List UInt8 :=
  str fn.name ++ u8 fn.flags ++ u16 fn.retType ++ u16 reg ++ u16 fn.paramTypes.length

/-- `enc_write_func_section`. -/
def encWriteFuncSection (e : Enc) : List UInt8 :=
  sectionBytes secFunc (u16 e.funcs.length ++ e.funcs.flatMap (encFuncBytes e.reg))

/-- `enc_write_code_section`: the code of all functions, without a frame. -/
def encWriteCodeSection (e : Enc) : List UInt8 := sectionBytes secCode e.code

/-- `TKIR_DATA_STR`. -/
def dataStr : Nat := 0x01
/-- `TKIR_DATA_I64`. -/
def dataI64 : Nat := 0x02

/-- The bytes of a constant. -/
def encDataBytes : EncDataEntry → List UInt8
  | .str s => u8 dataStr ++ u32 s.length ++ textBytes s
  | .i64 v => u8 dataI64 ++ u32 8 ++ i64 v

/-- `enc_write_data_section`. -/
def encWriteDataSection (e : Enc) : List UInt8 :=
  sectionBytes secData (u16 e.data.length ++ e.data.flatMap encDataBytes)

/-- The bytes of an import. -/
def encImportBytes (imp : EncImportEntry) : List UInt8 :=
  str imp.symbol ++ str imp.module ++ u8 0 ++ u16 imp.typeIdx

/-- `enc_write_import_section`. -/
def encWriteImportSection (e : Enc) : List UInt8 :=
  sectionBytes secImport (u16 e.imports.length ++ e.imports.flatMap encImportBytes)

/-- The exported functions with their numbers. -/
def Enc.exports (e : Enc) : List (EncFunc × Nat) :=
  e.funcs.zipIdx.filter fun p => p.1.flags % 2 = fnExported

/-- The bytes of an export. -/
def encExportBytes (p : EncFunc × Nat) : List UInt8 := str p.1.name ++ u8 0 ++ u16 p.2

/-- `enc_write_export_section`. -/
def encWriteExportSection (e : Enc) : List UInt8 :=
  sectionBytes secExport (u16 e.exports.length ++ e.exports.flatMap encExportBytes)

/-- The file written from the encoder's tables. -/
def encWrite (e : Enc) : List UInt8 :=
  encWriteHeader ++ encWriteTypeSection e ++ encWriteFuncSection e ++ encWriteCodeSection e ++
    encWriteDataSection e ++ encWriteImportSection e ++ encWriteExportSection e

/-- `emit_tkir`: the bytes of the output file. -/
def emitTkir (src : Source) (truncate : List Char → Int64) (ast : Node) : List UInt8 :=
  encWrite (encode src truncate ast)

end Toke.Tkir
