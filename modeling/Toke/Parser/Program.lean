/-
  Toke.Parser.Program — **DECLARATIONS AND THE ENTRY POINT** (`parse` of `parser.c`).

  Upper-case (legacy) and lower-case (default) declaration keywords lead to
  the same code after the keyword, so each declaration is one definition that
  starts behind its keyword token; only the type name differs.

  `parse` bounds the recursion depth and the loop length by `fuel`, and the
  nesting of interpolations by `INTERP_MAX_DEPTH` as the C does.  `none` is a
  run that `fuel` cuts short; `some none` is a `NULL` result.
-/
import Toke.Parser.Grammar

namespace Toke

open Progress

namespace Parse

/-! ## §1. Declarations. -/

/-- `xp_seg`: a segment of a module path. -/
def seg : Parse (Option Token) := do
  match ← eatIf [.ident, .typeIdent] (fun _ => true) with
  | some t => return some t
  | none =>
    let t ← cur
    errGot (if t.kind = .eof then 2004 else 2002) t "unexpected token in type declaration"
    return none

/-- One part of a module path. -/
def modulePathTurn (n : Node) : Parse (Turn Node Node) := do
  match ← eat .dot with
  | none => return .done n
  | some _ =>
  match ← seg with
  | none => return .done n
  | some s => return .again (n.ch (some (.ofToken .ident s)))

/-- `parse_module_path`. -/
def modulePath (r : Knot) : Parse (Option Node) := do
  match ← seg with
  | none => return none
  | some t =>
    let n := (Node.ofToken .modulePath t).ch (some (.ofToken .ident t))
    return some (← iter modulePathTurn r.fuel n)

/-- `parse_module_decl` after its keyword. -/
def moduleDecl (r : Knot) (t : Token) : Parse Node := do
  let n := Node.ofToken .module t
  match ← xp .eq "'='" with
  | none =>
    sync
    return n
  | some _ =>
    let n := n.ch (← modulePath r)
    optSemi
    return n

/-- `parse_import_decl` after its keyword. -/
def importDecl (r : Knot) (t : Token) : Parse Node := do
  let n := Node.ofToken .import t
  match ← xp .eq "'='" with
  | none =>
    sync
    return n
  | some _ =>
  match ← xp .ident "import alias" with
  | none =>
    sync
    return n
  | some at_ =>
  let n := n.ch (some (.ofToken .ident at_))
  match ← xp .colon "':'" with
  | none =>
    sync
    return n
  | some _ =>
    let n := n.ch (← modulePath r)
    let n := n.ch ((← eat .strLit).map (.ofToken .strLit))
    optSemi
    return n

/-- The name of a declared type: `TYPE_IDENT` after `T=`. -/
def typeNameLegacy : Parse (Option Token) := xp .typeIdent "type name"

/-- The name of a declared type after `t=`: `$name`, or a plain name. -/
def typeNameDefault : Parse (Option Token) := do
  match ← eat .dollar with
  | some _ => xp .ident "type name"
  | none =>
  match ← eatIf [.ident, .typeIdent] (fun _ => true) with
  | some nt => return some nt
  | none =>
    let _ ← xp .ident "type name"
    return none

/-- The field list under construction and the names seen so far. -/
structure FieldAcc where
  list : Node
  seen : List (List Char)

/-- 64 field names are remembered. -/
def FieldAcc.see (acc : FieldAcc) (name : List Char) : FieldAcc :=
  if acc.seen.length < 64 then { acc with seen := acc.seen ++ [name] } else acc

/-- E2015 on a field name that was seen before. -/
def seeField (ft : Token) (acc : FieldAcc) : Parse FieldAcc := fun p =>
  if ft.text p.src ∈ acc.seen then
    (err 2015 ft "duplicate field name in struct declaration" p).map fun q =>
      (acc.see (ft.text p.src), q.2)
  else some (acc.see (ft.text p.src), p)

/-- The `;` between two fields: consumed unless `}` follows it. -/
def fieldSep : Parse Bool := do
  match ← eatIf [.semi] (fun p => !p.ahead.head?.any (·.kind = .rbrace)) with
  | none => return false
  | some _ =>
    let k ← peek
    return k ≠ .rbrace ∧ k ≠ .eof

/-- One turn of the loop of `parse_field_list`. -/
def fieldTurn (r : Knot) (acc : FieldAcc) : Parse (Turn FieldAcc Node) := do
  let variant := (← eat .dollar).isSome
  match ← eatIf [.ident, .typeIdent] (fun _ => true) with
  | none =>
    errGot 2002 (← cur) "expected field name"
    return .done acc.list
  | some ft =>
  let acc ← seeField ft acc
  let f := { Node.ofToken .field ft with op := if variant then .dollar else .eof }
  match ← xp .colon "':'" with
  | none =>
    sync
    return .done acc.list
  | some _ =>
    let list := acc.list.ch (some (f.ch (← r.typeExpr)))
    if ← fieldSep then return .again { acc with list }
    else return .done list

/-- `parse_field_list`. -/
def fieldList (r : Knot) : Parse Node := do
  iter (fieldTurn r) r.fuel ⟨.ofToken .stmtList (← cur), []⟩

/-- `parse_type_decl` after its keyword. -/
def typeDecl (r : Knot) (name : Parse (Option Token)) (t : Token) : Parse Node := do
  let n := Node.ofToken .typeDecl t
  match ← xp .eq "'='" with
  | none =>
    sync
    return n
  | some _ =>
  match ← name with
  | none =>
    sync
    return n
  | some nt =>
  let n := n.ch (some (.ofToken .typeIdent nt))
  match ← xp .lbrace "'\x7b'" with
  | none =>
    sync
    return n
  | some _ =>
    let n := n.ch (some (← fieldList r))
    close .rbrace "'\x7d'"
    optSemi
    return n

/-- `parse_const_decl`. -/
def constDecl (r : Knot) : Parse (Option Node) := do
  match ← xp .ident "constant name" with
  | none => return none
  | some nt =>
  let n := (Node.ofToken .constDecl nt).ch (some (.ofToken .ident nt))
  match ← xp .eq "'='" with
  | none =>
    sync
    return some n
  | some _ =>
  let n := n.ch (← literal r)
  match ← xp .colon "':'" with
  | none =>
    sync
    return some n
  | some _ =>
    let n := n.ch (← r.typeExpr)
    optSemi
    return some n

/-- `parse_func_decl` after its keyword.  Without a body it is an extern. -/
def funcDecl (r : Knot) (t : Token) : Parse Node := do
  let n := Node.ofToken .funcDecl t
  match ← xp .eq "'='" with
  | none =>
    sync
    return n
  | some _ =>
  match ← xp .ident "function name" with
  | none =>
    sync
    return n
  | some nt =>
  let n := n.ch (some (.ofToken .ident nt))
  match ← xp .lparen "'('" with
  | none =>
    sync
    return n
  | some _ =>
  let n ← params r n
  close .rparen "')'"
  match ← xp .colon "':'" with
  | none =>
    sync
    return n
  | some _ =>
  let n := n.ch (some (← returnSpec r))
  match ← eat .lbrace with
  | some _ =>
    let n ← block r t n
    optSemi
    return n
  | none =>
    optSemi
    return n

/-! ## §2. The program. -/

/-- `is_decl_ident`: 1 = `i`, 2 = `t`, 4 = `f`, 5 = `m`, 0 = none of them. -/
def isDeclIdent (p : Parser) : Nat :=
  if p.profile = .default ∧ p.cur.kind = .ident ∧ p.peekAt 1 = .eq ∧ p.cur.len = 1 then
    match (p.src.drop p.cur.start).head? with
    | some 'm' => 5
    | some 'i' => 1
    | some 't' => 2
    | some 'f' => 4
    | _ => 0
  else 0

/-- The phase of the declaration at the current token: 1 import, 2 type,
3 const, 4 global, 5 function; 0 for anything else. -/
def declPhase (p : Parser) : Nat :=
  let di := isDeclIdent p
  if p.cur.kind = .kwI ∨ di = 1 then 1
  else if p.cur.kind = .kwT ∨ di = 2 then 2
  else if p.cur.kind = .ident ∧ di = 0 then 3
  else if p.cur.kind = .kwLet then 4
  else if p.cur.kind = .kwF ∨ di = 4 then 5
  else 0

/-- The declaration of a phase. -/
def declaration (r : Knot) (phase : Nat) : Parse (Option Node) :=
  match phase with
  | 1 => do return some (← importDecl r (← adv))
  | 2 => do
      let t ← adv
      return some (← typeDecl r (if t.kind = .kwT then typeNameLegacy else typeNameDefault) t)
  | 3 => constDecl r
  | 4 => stmt r
  | _ => do return some (← funcDecl r (← adv))

/-- The body of the declaration loop.  The accumulator is the root and the
phase reached. -/
def declStep (r : Knot) (acc : Node × Nat) : Parse (Node × Nat) := do
  let t ← cur
  let cp ← (fun p => some (declPhase p, p) : Parse Nat)
  if cp = 0 then
    err 2002 t "unexpected token"
    sync
    return acc
  else
    let _ ← (if cp < acc.2 then err 2001 t "declaration ordering violation" else pure ())
    let d ← declaration r cp
    return (acc.1.ch d, max cp acc.2)

/-- One turn of the declaration loop. -/
def declTurn (r : Knot) (acc : Node × Nat) : Parse (Turn (Node × Nat) Node) := do
  if (← peek) = .eof then return .done acc.1
  else if ← test (fun p => p.errors.length ≥ maxParseErrors) then return .done acc.1
  else return .again (← declStep r acc)

/-- The module declaration, or E2001. -/
def moduleFirst (r : Knot) (root : Node) : Parse Node := do
  match ← eatIf [.kwM, .ident] (fun p => p.cur.kind = .kwM || isDeclIdent p = 5) with
  | some t => return root.ch (some (← moduleDecl r t))
  | none =>
    err 2001 (← cur) "module declaration must appear first"
    return root

/-- The body of `parse`. -/
def program (r : Knot) : Parse Node := do
  let root ← moduleFirst r (.ofToken .program (← cur))
  iter (declTurn r) r.fuel (root, 1)

end Parse

/-- What `parse` leaves behind: the root and the errors reported. -/
structure Parsed where
  root : Node
  errors : List ParseError

/-- `parse` with the parse of an interpolation segment as a parameter. -/
def parseWith (interp : List Char → Option (Option Node)) (fuel : Nat)
    (toks : List Token) (src : Source) (profile : Profile) : Option (Option Parsed) :=
  match toks with
  | [] => some none
  | t :: ts =>
    (Parse.program (prods interp fuel) ⟨t, ts, src, profile, [], false⟩).map
      fun out => some ⟨out.1, out.2.errors.reverse⟩

/-- Lex and parse a wrapped segment, and take its expression. -/
def interpParse (parse : List Token → Source → Profile → Option (Option Parsed))
    (seg : List Char) : Option (Option Node) :=
  match lex .default (seg.length + 32) (interpText seg) with
  | none => some none
  | some toks =>
    (parse toks (interpText seg) .default).map fun o => o.bind fun out => interpUnwrap out.root

/-- `parse` with `depth` levels of interpolation left. -/
def parseAt (fuel : Nat) : Nat → List Token → Source → Profile → Option (Option Parsed)
  | 0 => parseWith (fun _ => some none) fuel
  | depth + 1 => parseWith (interpParse (parseAt fuel depth)) fuel

/-- `parse`. -/
def parse (fuel : Nat) (toks : List Token) (src : Source) (profile : Profile) :
    Option (Option Parsed) := parseAt fuel interpMaxDepth toks src profile

end Toke
