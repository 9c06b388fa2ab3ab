/-
  Toke.Tkir.Decode — **THE BINARY IR READER** (`tkir_decode` of `tkir.c`).

  A cursor runs over the bytes.  The header is checked first; then every
  section is parsed from its own position, and the cursor is set to the
  section's end whatever the parser consumed.
-/
import Toke.Tkir.Encode

namespace Toke.Tkir

/-! ## §1. The cursor. -/

/-- A position in the bytes; a failure carries the text for the error buffer. -/
abbrev Reader := StateT Nat (Except String)

/-- `snprintf` into a buffer of `size` bytes. -/
def msgBuf (size : Nat) (s : String) : String := String.ofList (s.toList.take (size - 1))

/-- `%02x` of a byte. -/
def hex2 (n : Nat) : String := String.ofList [hexDigit (n / 16), hexDigit (n % 16)]

/-- `cur_read_bytes`; the caller gives the message. -/
def curReadBytes (data : List UInt8) (n : Nat) (msg : String) : Reader (List UInt8) := do
  let pos ← get
  if pos + n > data.length then throw msg
  set (pos + n)
  return (data.drop pos).take n

/-- The number whose bytes stand least significant first. -/
def littleEndian : List UInt8 → Nat
  | [] => 0
  | b :: bs => b.toNat + 256 * littleEndian bs

/-- `cur_read_u8`, `cur_read_u16`, `cur_read_u32`: one, two or four bytes. -/
def curReadNat (data : List UInt8) (n : Nat) (msg : String) : Reader Nat := do
  return littleEndian (← curReadBytes data n msg)

/-- `cur_read_u8`. -/
def curReadU8 (data : List UInt8) (msg : String) : Reader Nat := curReadNat data 1 msg

/-- `cur_read_u16`. -/
def curReadU16 (data : List UInt8) (msg : String) : Reader Nat := curReadNat data 2 msg

/-- `cur_read_u32`. -/
def curReadU32 (data : List UInt8) (msg : String) : Reader Nat := curReadNat data 4 msg

/-- `cur_read_str` into a buffer of `size` bytes; the cursor passes the whole text. -/
def curReadStr (data : List UInt8) (size : Nat) (msg : String) : Reader (List UInt8) := do
  let len ← curReadU16 data msg
  let s ← curReadBytes data len msg
  return s.take (size - 1)

/-- `count` entries in a row. -/
def readMany {α : Type} (count : Nat) (f : Nat → Reader α) : Reader (List α) :=
  (List.range count).mapM f

/-! ## §2. The sections. -/

/-- `TkirTypeEntry`. -/
structure TkirTypeEntry where
  kind : Nat
  name : List UInt8
  elemTypeIdx : Nat
  fieldTypes : List Nat
  deriving DecidableEq

/-- `TkirInstr`. -/
structure TkirInstr where
  opcode : Nat
  dst : Nat
  src : Nat
  rhs : Nat
  imm : Nat
  args : List Nat
  deriving DecidableEq

/-- `TkirFuncDef`. -/
structure TkirFuncDef where
  name : List UInt8
  flags : Nat
  typeIdx : Nat
  regCount : Nat
  paramCount : Nat
  instrs : List TkirInstr
  deriving DecidableEq

/-- `TkirDataEntry`. -/
structure TkirDataEntry where
  kind : Nat
  bytes : List UInt8
  deriving DecidableEq

/-- `TkirImportEntry`. -/
structure TkirImportEntry where
  name : List UInt8
  module : List UInt8
  kind : Nat
  typeIdx : Nat
  deriving DecidableEq

/-- `TkirExportEntry`. -/
structure TkirExportEntry where
  name : List UInt8
  kind : Nat
  index : Nat
  deriving DecidableEq

/-- `TkirModule`. -/
structure TkirModule where
  types : List TkirTypeEntry
  funcs : List TkirFuncDef
  data : List TkirDataEntry
  imports : List TkirImportEntry
  exports : List TkirExportEntry
  versionMajor : Nat
  versionMinor : Nat
  headerFlags : Nat
  deriving DecidableEq

section Sections

variable (data : List UInt8)

/-- The name of a type entry: only structures and function pointers have one. -/
def parseTypeName (kind : Nat) : Reader (List UInt8) :=
  if kind = tyStruct ∨ kind = tyFnPtr then curReadStr data 128 "type section: truncated name"
  else pure []

/-- The element type of a compound type. -/
def parseElemType (kind : Nat) : Reader Nat :=
  if kind = tyArray ∨ kind = tyErrUnion ∨ kind = tyFnPtr then
    curReadU16 data "type section: truncated elem_type_idx"
  else pure 0

/-- The field types of a structure, the parameter types of a function pointer. -/
def parseFieldTypes (kind : Nat) : Reader (List Nat) :=
  if kind = tyStruct then do
    let n ← curReadU16 data "type section: truncated field_count"
    readMany n fun _ => curReadU16 data "type section: truncated field type"
  else if kind = tyFnPtr then do
    let n ← curReadU16 data "type section: truncated param_count"
    readMany n fun _ => curReadU16 data "type section: truncated param type"
  else pure []

/-- One entry of `parse_type_section`. -/
def parseTypeEntry (i : Nat) : Reader TkirTypeEntry := do
  let kind ← curReadU8 data "type section: truncated kind"
  if kind < 0x01 ∨ kind > 0x09 then
    throw (msgBuf 128 s!"type section: unknown type kind 0x{hex2 kind} at index {i}")
  let name ← parseTypeName data kind
  let elem ← parseElemType data kind
  let fields ← parseFieldTypes data kind
  return ⟨kind, name, elem, fields⟩

/-- `parse_type_section`. -/
def parseTypeSection (mod : TkirModule) : Reader TkirModule := do
  let count ← curReadU16 data "type section: truncated count"
  return { mod with types := ← readMany count (parseTypeEntry data) }

/-- One entry of `parse_func_section`; the type index is checked once there are types. -/
def parseFuncEntry (typeCount : Nat) (_ : Nat) : Reader TkirFuncDef := do
  let name ← curReadStr data 128 "func section: truncated name"
  let flags ← curReadU8 data "func section: truncated header"
  let typeIdx ← curReadU16 data "func section: truncated header"
  let regCount ← curReadU16 data "func section: truncated header"
  let paramCount ← curReadU16 data "func section: truncated header"
  if typeCount > 0 ∧ typeIdx ≥ typeCount then
    let text := String.ofList (name.map fun b => Char.ofNat b.toNat)
    throw (msgBuf 128 s!"func '{text}': type_idx {typeIdx} exceeds type count {typeCount}")
  return ⟨name, flags, typeIdx, regCount, paramCount, []⟩

/-- `parse_func_section`. -/
def parseFuncSection (mod : TkirModule) : Reader TkirModule := do
  let count ← curReadU16 data "func section: truncated count"
  return { mod with funcs := ← readMany count (parseFuncEntry data mod.types.length) }

/-- `opcode_valid`. -/
def opcodeValid (op : Nat) : Bool :=
  (0x01 ≤ op && op ≤ 0x06) || (0x10 ≤ op && op ≤ 0x15) || (0x20 ≤ op && op ≤ 0x23) ||
    (0x30 ≤ op && op ≤ 0x33) || (0x40 ≤ op && op ≤ 0x42)

/-- What follows the three operands of an opcode: an immediate and, for a
call, the argument registers. -/
def parseImmediate (op : Nat) : Reader (Nat × List Nat) := do
  if op = opConstData then
    return (← curReadU32 data "code section: truncated CONST_DATA imm", [])
  else if op = opAlloca then
    return (← curReadU32 data "code section: truncated ALLOCA imm", [])
  else if op = opBr ∨ op = opBrIf then
    return (← curReadU32 data "code section: truncated branch imm", [])
  else if op = opCall then
    let callee ← curReadU16 data "code section: truncated CALL func_idx"
    let n ← curReadU16 data "code section: truncated CALL arg_count"
    return (callee, ← readMany n fun _ => curReadU16 data "code section: truncated CALL arg")
  else if op = opFieldGet ∨ op = opFieldSet then
    return (← curReadU16 data "code section: truncated field index", [])
  else if op = opCast then
    return (← curReadU16 data "code section: truncated CAST type", [])
  else return (0, [])

/-- One instruction of `parse_code_section`: always three operands. -/
def parseInstr (fn : TkirFuncDef) (i : Nat) : Reader TkirInstr := do
  let text := String.ofList (fn.name.map fun b => Char.ofNat b.toNat)
  let op ← curReadU8 data "code section: truncated opcode"
  if !opcodeValid op then
    throw (msgBuf 128
      s!"code section: invalid opcode 0x{hex2 op} in func '{text}' at instr {i}")
  let dst ← curReadU16 data "code section: truncated operands"
  let src ← curReadU16 data "code section: truncated operands"
  let rhs ← curReadU16 data "code section: truncated operands"
  if fn.regCount > 0 ∧ (dst ≥ fn.regCount ∨ src ≥ fn.regCount ∨ rhs ≥ fn.regCount) then
    throw (msgBuf 196
      (s!"code section: register out of range in func '{text}' instr {i} " ++
        s!"(dst={dst} src={src} rhs={rhs}, reg_count={fn.regCount})"))
  let (imm, args) ← parseImmediate data op
  return ⟨op, dst, src, rhs, imm, args⟩

/-- The loop of `parse_code_section`; every round passes a frame of four bytes,
so `secEnd` rounds are enough. -/
def parseCodeLoop (secEnd : Nat) : Nat → List TkirFuncDef → Reader (List TkirFuncDef)
  | 0, funcs => pure funcs
  | fuel + 1, funcs => do
      if (← get) ≥ secEnd then return funcs
      let idx ← curReadU16 data "code section: truncated func header"
      let n ← curReadU16 data "code section: truncated func header"
      match funcs[idx]? with
      | none => throw (msgBuf 128 s!"code section: func_idx {idx} >= func_count {funcs.length}")
      | some fn =>
        let instrs ← readMany n (parseInstr data fn)
        parseCodeLoop secEnd fuel (funcs.set idx { fn with instrs })

/-- `parse_code_section`. -/
def parseCodeSection (secEnd : Nat) (mod : TkirModule) : Reader TkirModule := do
  return { mod with funcs := ← parseCodeLoop data secEnd secEnd mod.funcs }

/-- One entry of `parse_data_section`. -/
def parseDataEntry (secEnd : Nat) (i : Nat) : Reader TkirDataEntry := do
  let kind ← curReadU8 data "data section: truncated kind"
  let size ← curReadU32 data "data section: truncated size"
  if (← get) + size > secEnd then
    throw (msgBuf 128 s!"data section: entry {i} size {size} exceeds section bounds")
  return ⟨kind, ← curReadBytes data size "data section: truncated payload"⟩

/-- `parse_data_section`. -/
def parseDataSection (secEnd : Nat) (mod : TkirModule) : Reader TkirModule := do
  let count ← curReadU16 data "data section: truncated count"
  return { mod with data := ← readMany count (parseDataEntry data secEnd) }

/-- One entry of `parse_import_section`. -/
def parseImportEntry (_ : Nat) : Reader TkirImportEntry := do
  let name ← curReadStr data 128 "import section: truncated name"
  let module ← curReadStr data 256 "import section: truncated module"
  let kind ← curReadU8 data "import section: truncated entry"
  let typeIdx ← curReadU16 data "import section: truncated entry"
  return ⟨name, module, kind, typeIdx⟩

/-- `parse_import_section`. -/
def parseImportSection (mod : TkirModule) : Reader TkirModule := do
  let count ← curReadU16 data "import section: truncated count"
  return { mod with imports := ← readMany count (parseImportEntry data) }

/-- One entry of `parse_export_section`. -/
def parseExportEntry (_ : Nat) : Reader TkirExportEntry := do
  let name ← curReadStr data 128 "export section: truncated name"
  let kind ← curReadU8 data "export section: truncated entry"
  let index ← curReadU16 data "export section: truncated entry"
  return ⟨name, kind, index⟩

/-- `parse_export_section`. -/
def parseExportSection (mod : TkirModule) : Reader TkirModule := do
  let count ← curReadU16 data "export section: truncated count"
  return { mod with exports := ← readMany count (parseExportEntry data) }

/-! ## §3. The file. -/

/-- The parser of a section; an unknown section is skipped. -/
def parseBody (tag secEnd : Nat) (mod : TkirModule) : Reader TkirModule :=
  if tag = secType then parseTypeSection data mod
  else if tag = secFunc then parseFuncSection data mod
  else if tag = secCode then parseCodeSection data secEnd mod
  else if tag = secData then parseDataSection data secEnd mod
  else if tag = secImport then parseImportSection data mod
  else if tag = secExport then parseExportSection data mod
  else pure mod

/-- The header of a section: its tag and its end. -/
def readFrame (si : Nat) : Reader (Nat × Nat) := do
  let tag ← curReadU8 data "truncated section header (tag)"
  let len ← curReadU32 data "truncated section header (length)"
  let pos ← get
  if pos + len > data.length then
    throw (msgBuf 128 s!"section {si} (tag 0x{hex2 tag}): length {len} exceeds file size")
  return (tag, pos + len)

/-- One round of the section loop. -/
def parseSection (si : Nat) (mod : TkirModule) : Reader TkirModule := do
  let frame ← readFrame data si
  let mod ← parseBody data frame.1 frame.2 mod
  set frame.2
  return mod

/-- The section loop. -/
def parseSections (count : Nat) (mod : TkirModule) : Reader TkirModule :=
  (List.range count).foldlM (fun mod si => parseSection data si mod) mod

/-- `TKIR_MAGIC`. -/
def tkirMagic : Nat := 0x544B4952

/-- The header of the file: the module without tables and the section count. -/
def readHeader : Reader (TkirModule × Nat) := do
  if data.length < 9 then throw "file too small for TKIR header (need >= 9 bytes)"
  let magic ← curReadU32 data "invalid magic bytes (expected 'TKIR')"
  if magic ≠ tkirMagic then throw "invalid magic bytes (expected 'TKIR')"
  let vmaj ← curReadU8 data "truncated version"
  let vmin ← curReadU8 data "truncated version"
  if vmaj ≠ 1 then throw s!"unsupported TKIR version {vmaj}.{vmin} (expected 1.x)"
  let flags ← curReadU8 data "truncated header flags"
  let count ← curReadU16 data "truncated section count"
  return (⟨[], [], [], [], [], vmaj, vmin, flags⟩, count)

/-- The body of `tkir_decode`. -/
def decodeFile : Reader TkirModule := do
  let header ← readHeader data
  parseSections data header.2 header.1

end Sections

/-- `tkir_decode`. -/
def tkirDecode (data : List UInt8) : Except String TkirModule := (decodeFile data).run' 0

end Toke.Tkir
