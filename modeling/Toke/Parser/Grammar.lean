/-
  Toke.Parser.Grammar
  **TYPES, EXPRESSIONS AND STATEMENTS** (`parser.c`), production by production.

  The C productions are mutually recursive.  Here a production takes the
  entry points it re-enters as a parameter (`Knot`), so each of them is a
  plain definition that reads like its C counterpart; `prods` ties the knot.
  A call that the C makes before any token is consumed goes to the production
  itself, a call made after that goes through the knot.
-/
import Toke.Parser.Interp

namespace Toke

open Progress

/-! ## §1. The knot and the list loops. -/

/-- The entry points of the recursion, the number of turns a loop may take,
and the parse of an interpolation segment. -/
structure Knot where
  fuel : Nat
  interp : List Char → Option (Option Node)
  expr : Parse (Option Node)
  stmtList : Token → Parse Node
  typeExpr : Parse (Option Node)
  unary : Parse (Option Node)
  ifCore : Bool → Parse (Option Node)

namespace Parse

/-- `while (peek(p) == TK_SEMICOLON) { adv(p); ch(p, n, item(p)); }` -/
def semiTurn (item : Parse (Option Node)) (n : Node) : Parse (Turn Node Node) := do
  match ← eat .semi with
  | none => return .done n
  | some _ => return .again (n.ch (← item))

/-- Items behind semicolons. -/
def semiItems (r : Knot) (item : Parse (Option Node)) (n : Node) : Parse Node :=
  iter (semiTurn item) r.fuel n

/-- The same loop, left when `closer` follows a semicolon. -/
def semiUntilTurn (closer : TokenKind) (item : Parse (Option Node)) (n : Node) :
    Parse (Turn Node Node) := do
  match ← eat .semi with
  | none => return .done n
  | some _ =>
    if (← peek) = closer then return .done n
    else return .again (n.ch (← item))

/-- The same up to a closing token. -/
def semiItemsUntil (r : Knot) (closer : TokenKind) (item : Parse (Option Node)) (n : Node) :
    Parse Node := iter (semiUntilTurn closer item) r.fuel n

/-- `if (peek(p) != closer) { item; while (';') item }` -/
def itemList (r : Knot) (closer : TokenKind) (item : Parse (Option Node)) (n : Node) :
    Parse Node := do
  if (← peek) = closer then return n
  else semiItems r item (n.ch (← item))

/-! ## §2. Type expressions. -/

/-- `parse_func_type`. -/
def funcType (r : Knot) : Parse (Option Node) := do
  match ← xp .lparen "'('" with
  | none => return none
  | some t =>
    let n ← itemList r .rparen r.typeExpr (.ofToken .funcType t)
    close .rparen "')'"
    match ← xp .colon "':'" with
    | some _ => return some (n.ch (← r.typeExpr))
    | none => return some n

/-- The names of the built-in scalar types. -/
def scalarNames : List String :=
  ["u8", "u16", "u32", "u64", "i8", "i16", "i32", "i64", "f32", "f64", "bool",
   "str", "byte", "Str", "Byte", "void"]

/-- `is_scalar`, on the current token. -/
def isScalar (p : Parser) : Bool := scalarNames.any (p.teq p.cur)

/-- The type name after a `$`. -/
def dollarType (at_ : Option Token) (op : TokenKind) : Parse (Option Node) := do
  let nt ← cur
  match ← xp .ident "type name after '$'" with
  | some _ => return some { Node.ofToken .typeIdent nt with op }
  | none =>
    err 2002 (at_.getD nt) "unexpected token"
    return none

/-- `first` or `first : second`, then `closer`: an array or a map type. -/
def elemTypes (r : Knot) (t : Token) (closer : TokenKind) (mapMsg arrMsg : String) :
    Parse (Option Node) := do
  let first ← r.typeExpr
  match ← eat .colon with
  | some _ =>
    let n := ((Node.ofToken .mapType t).ch first).ch (← r.typeExpr)
    close closer mapMsg
    return some n
  | none =>
    close closer arrMsg
    return some ((Node.ofToken .arrayType t).ch first)

/-- `parse_type_expr`. -/
def typeExpr (r : Knot) : Parse (Option Node) := do
  match ← eat .star with
  | some t => return some ((Node.ofToken .ptrType t).ch (← r.typeExpr))
  | none =>
  -- qualified type: module.$name
  match ← eatIf [.ident] (fun p => p.peekAt 1 = .dot && p.peekAt 2 = .dollar) with
  | some _ =>
    let _ ← adv
    let _ ← adv
    dollarType none .dot
  | none =>
  match ← eat .dollar with
  | some dt => dollarType (some dt) .eof
  | none =>
  match ← eat .at with
  | some t =>
    match ← eat .lparen with
    | some _ => elemTypes r t .rparen "')' to close map type" "')' to close array type"
    | none => return some ((Node.ofToken .arrayType t).ch (← r.typeExpr))
  | none =>
  match ← eat .lbracket with
  | some t => elemTypes r t .rbracket "']'" "']'"
  | none =>
  if (← peek) = .lparen then funcType r
  else
    match ← eatIf [.ident, .typeIdent] isScalar with
    | some t => return some (.ofToken .typeExpr t)
    | none =>
    match ← eat .typeIdent with
    | some t => return some (.ofToken .typeIdent t)
    | none =>
      errGot 2005 (← cur) "unexpected token in type position"
      return none

/-! ## §3. Literals, primaries and postfixes. -/

/-- The node kind of a literal token. -/
def literalKind : TokenKind → NodeKind
  | .intLit => .intLit
  | .floatLit => .floatLit
  | .strLit => .strLit
  | _ => .boolLit

/-- `parse_literal`.  A string literal gets its interpolation segments. -/
def literal (r : Knot) : Parse (Option Node) := do
  match ← eatIf [.intLit, .floatLit, .strLit, .boolLit] (fun _ => true) with
  | some t =>
    let n := Node.ofToken (literalKind t.kind) t
    if t.kind = .strLit then
      fun p => (attachInterp r.interp p.src p.profile n).map fun n => (some n, p)
    else return some n
  | none =>
    errGot 2002 (← cur) "unexpected token in expression"
    return none

/-- `parse_one_param`: append a parameter to `fn`. -/
def oneParam (r : Knot) (fn : Node) : Parse Node := do
  match ← xp .ident "parameter name" with
  | none => return fn
  | some pt =>
    let pm := (Node.ofToken .param pt).ch (some (.ofToken .ident pt))
    match ← xp .colon "':'" with
    | some _ => return fn.ch (some (pm.ch (← r.typeExpr)))
    | none => return fn.ch (some pm)

/-- `while (peek(p)==';' && the next token is not ')') { adv(p); param }` -/
def paramTurn (r : Knot) (fn : Node) : Parse (Turn Node Node) := do
  match ← eatIf [.semi] (fun p => p.ahead.head?.any (·.kind ≠ .rparen)) with
  | none => return .done fn
  | some _ => return .again (← oneParam r fn)

/-- The parameters up to `)`. -/
def params (r : Knot) (fn : Node) : Parse Node := do
  if (← peek) = .rparen then return fn
  else iter (paramTurn r) r.fuel (← oneParam r fn)

/-- `ReturnSpec = TypeExpr ('!' TypeExpr)?` -/
def returnSpec (r : Knot) : Parse Node := do
  let rspec := (Node.ofToken .returnSpec (← cur)).ch (← r.typeExpr)
  match ← eat .bang with
  | some _ => return rspec.ch (← r.typeExpr)
  | none => return rspec

/-- `StmtList '}'`, the opening brace being consumed. -/
def block (r : Knot) (t : Token) (n : Node) : Parse Node := do
  let n := n.ch (some (← r.stmtList t))
  close .rbrace "'\x7d'"
  return n

/-- The rest of a closure after `fn`. -/
def closure (r : Knot) (ft : Token) : Parse (Option Node) := do
  let _ ← xp .lparen "'('"
  let n ← params r (.ofToken .closure ft)
  close .rparen "')'"
  let n ← (do
    match ← eat .colon with
    | some _ => return n.ch (some (← returnSpec r))
    | none => return n)
  match ← xp .lbrace "'\x7b' for closure body" with
  | none =>
    sync
    return some n
  | some _ => return some (← block r ft n)

/-- The rest of a function reference after `&`: `&name` or `&alias.method`. -/
def funcRef : Parse (Option Node) := do
  let ref := Node.ofToken .funcRef (← adv)
  match ← eatIf [.dot] (fun p => p.peekAt 1 = .ident) with
  | some _ => return some (ref.ch (some (.ofToken .ident (← adv))))
  | none => return some ref

/-- One `name : expr` of a struct literal.  Only the default-mode loop takes a
`$` before the name. -/
def fieldInitTurn (r : Knot) (dollar : Bool) (n : Node) : Parse (Turn Node Node) := do
  let k ← peek
  if k = .rbrace ∨ k = .eof then return .done n
  else
    let _ ← (if dollar then eat .dollar else pure none)
    match ← eatIf [.ident, .typeIdent] (fun _ => true) with
    | none =>
      let _ ← xp .ident "field name"
      sync
      return .done n
    | some ft =>
      match ← xp .colon "':'" with
      | none =>
        sync
        return .done n
      | some _ =>
        let n := n.ch (some ((Node.ofToken .fieldInit ft).ch (← r.expr)))
        match ← eat .semi with
        | some _ => return .again n
        | none => return .done n

/-- A struct literal, or the bare type name. -/
def structOrType (r : Knot) (dollar : Bool) (t : Token) : Parse (Option Node) := do
  match ← eat .lbrace with
  | none => return some (.ofToken .typeIdent t)
  | some _ =>
    let n ← iter (fieldInitTurn r dollar) r.fuel (.ofToken .structLit t)
    close .rbrace "'\x7d'"
    return some n

/-- `while (';') { if (closer) break; key ':' value }` of a map literal. -/
def mapEntryTurn (r : Knot) (closer : TokenKind) (n : Node) : Parse (Turn Node Node) := do
  match ← eat .semi with
  | none => return .done n
  | some _ =>
    if (← peek) = closer then return .done n
    else
      let entry := (Node.ofToken .mapEntry (← cur)).ch (← r.expr)
      match ← xp .colon "':'" with
      | none => return .done n
      | some _ => return .again (n.ch (some (entry.ch (← r.expr))))

/-- An array or map literal after its opening token.  `@( … )` lets an array
end in a semicolon, `[ … ]` does not. -/
def collection (r : Knot) (t : Token) (closer : TokenKind) (trailing : Bool)
    (mapMsg arrMsg : String) : Parse (Option Node) := do
  match ← eat closer with
  | some _ => return some (.ofToken .arrayLit t)
  | none =>
    let first ← r.expr
    match ← eat .colon with
    | some _ =>
      let entry := ((Node.ofToken .mapEntry t).ch first).ch (← r.expr)
      let n ← iter (mapEntryTurn r closer) r.fuel ((Node.ofToken .mapLit t).ch (some entry))
      close closer mapMsg
      return some n
    | none =>
      let n := (Node.ofToken .arrayLit t).ch first
      let n ← (if trailing then semiItemsUntil r closer r.expr n else semiItems r r.expr n)
      close closer arrMsg
      return some n

/-- `parse_primary`. -/
def primary (r : Knot) : Parse (Option Node) := do
  match ← eatIf [.amp] (fun p => p.peekAt 1 = .ident) with
  | some _ => funcRef
  | none =>
  match ← eatIf [.ident] (fun p => p.peekAt 1 = .lparen && p.teq p.cur "fn") with
  | some ft => closure r ft
  | none =>
  match ← eatIf [.ident] (fun p => p.inSc && p.teq p.cur "spawn") with
  | some st => return some ((Node.ofToken .spawnExpr st).ch (← r.expr))
  | none =>
  match ← eat .ident with
  | some t => return some (.ofToken .ident t)
  | none =>
  match ← eat .typeIdent with
  | some t => structOrType r false t
  | none =>
  match ← eat .dollar with
  | some _ =>
    match ← eat .ident with
    | some nt => structOrType r true nt
    | none =>
      err 2002 (← cur) "expected identifier after '$'"
      return none
  | none =>
  match ← eat .at with
  | some t =>
    match ← xp .lparen "'(' after '@'" with
    | none => return none
    | some _ => collection r t .rparen true "')' to close map literal" "')' to close array literal"
  | none =>
  match ← eat .lparen with
  | some _ =>
    let e ← r.expr
    close .rparen "')'"
    return e
  | none =>
  match ← eat .lbracket with
  | some t => collection r t .rbracket false "']'" "']'"
  | none => literal r

/-- `parse_get_postfix` after `get`: one argument is an index, any other
number a method call. -/
def getPostfix (r : Knot) (base : Node) (d f : Token) : Parse Node := do
  let _ ← adv
  let first ← (do if (← peek) = .rparen then return none else r.expr)
  match ← (match first with | some _ => eat .rparen | none => pure none) with
  | some _ => return ((Node.ofToken .indexExpr d).ch (some base)).ch first
  | none =>
    let fld := ((Node.ofToken .fieldExpr d).ch (some base)).ch (some (.ofToken .ident f))
    let call := ((Node.ofToken .callExpr f).ch (some fld)).ch first
    let call ← semiItems r r.expr call
    close .rparen "')'"
    return call

/-- What follows a `.`; `none` where the C loop breaks. -/
def dotPostfix (r : Knot) (l : Node) (d : Token) : Parse (Option Node) := do
  match ← eatIf [.ident] (fun p => p.teq p.cur "get" && p.peekAt 1 = .lparen) with
  | some f => return some (← getPostfix r l d f)
  | none =>
  match ← eat .intLit with
  | some f => return some (((Node.ofToken .indexExpr d).ch (some l)).ch (some (.ofToken .intLit f)))
  | none =>
  match ← xp .ident "field" with
  | some f => return some (((Node.ofToken .fieldExpr d).ch (some l)).ch (some (.ofToken .ident f)))
  | none => return none

/-- `[ Expr ]` after its opening bracket. -/
def indexPostfix (r : Knot) (l : Node) (d : Token) : Parse Node := do
  let n := ((Node.ofToken .indexExpr d).ch (some l)).ch (← r.expr)
  close .rbracket "']'"
  return n

/-- One postfix operator, shared by `parse_postfix` and `parse_call`. -/
def postfixTurn (r : Knot) (l : Node) : Parse (Turn Node Node) := do
  match ← eat .dot with
  | some d =>
    match ← dotPostfix r l d with
    | some n => return .again n
    | none => return .done l
  | none =>
  match ← eat .lbracket with
  | some d => return .again (← indexPostfix r l d)
  | none => return .done l

/-- `parse_postfix`. -/
def postfixExpr (r : Knot) : Parse (Option Node) := do
  match ← primary r with
  | none => return none
  | some l => return some (← iter (postfixTurn r) r.fuel l)

/-- One operator of `parse_call`: a call, or one of the postfixes. -/
def callTurn (r : Knot) (l : Node) : Parse (Turn Node Node) := do
  match ← eat .lparen with
  | some op =>
    let c ← itemList r .rparen r.expr ((Node.ofToken .callExpr op).ch (some l))
    close .rparen "')'"
    return .again c
  | none => postfixTurn r l

/-- `parse_call`. -/
def call (r : Knot) : Parse (Option Node) := do
  match ← postfixExpr r with
  | none => return none
  | some l => return some (← iter (callTurn r) r.fuel l)

/-! ## §4. The precedence chain. -/

/-- An optional `k TypeExpr` after `l`. -/
def typeSuffix (r : Knot) (k : TokenKind) (kind : NodeKind) (l : Node) : Parse Node := do
  match ← eat k with
  | some t => return ((Node.ofToken kind t).ch (some l)).ch (← r.typeExpr)
  | none => return l

/-- `parse_cast_prop`. -/
def castProp (r : Knot) : Parse (Option Node) := do
  match ← call r with
  | none => return none
  | some l =>
    let l ← typeSuffix r .kwAs .castExpr l
    return some (← typeSuffix r .bang .propagateExpr l)

/-- A `!` before a struct literal does not raise; it is reported. -/
def bangOnStruct (t : Token) (operand : Option Node) : Parse Unit :=
  if t.kind = .bang ∧ operand.any (·.kind = .structLit) then
    err 2002 t "leading '!' on a struct value does not raise an error (it is discarded as logical-NOT)"
  else pure ()

/-- `parse_unary`. -/
def unary (r : Knot) : Parse (Option Node) := do
  match ← eatIf [.minus, .bang, .tilde] (fun _ => true) with
  | some t =>
    let operand ← r.unary
    bangOnStruct t operand
    return some ({ Node.ofToken .unaryExpr t with op := t.kind }.ch operand)
  | none => castProp r

/-- `BINARY(op, l, rhs)`. -/
def binary (t : Token) (op : TokenKind) (l : Node) (rhs : Option Node) : Node :=
  ({ Node.ofToken .binaryExpr t with op }.ch (some l)).ch rhs

/-- `while (peek(p) is one of ops) { adv(p); l = BINARY(op, l, next(p)); }` -/
def binaryTurn (ops : List TokenKind) (next : Parse (Option Node)) (l : Node) :
    Parse (Turn Node Node) := do
  match ← eatIf ops (fun _ => true) with
  | none => return .done l
  | some t => return .again (binary t t.kind l (← next))

/-- A left-associative level of the chain. -/
def binaryLevel (r : Knot) (ops : List TokenKind) (next : Parse (Option Node)) :
    Parse (Option Node) := do
  match ← next with
  | none => return none
  | some l => return some (← iter (binaryTurn ops next) r.fuel l)

/-- `parse_mul`. -/
def mul (r : Knot) : Parse (Option Node) := binaryLevel r [.star, .slash, .percent] (unary r)

/-- `parse_add`. -/
def add (r : Knot) : Parse (Option Node) := binaryLevel r [.plus, .minus] (mul r)

/-- `parse_shift`. -/
def shift (r : Knot) : Parse (Option Node) := binaryLevel r [.shl, .shr] (add r)

/-- `parse_compare`: at most one operator, and a bare `=` is an error. -/
def compare (r : Knot) : Parse (Option Node) := do
  match ← shift r with
  | none => return none
  | some l =>
  match ← eatIf [.lt, .gt, .eqEq, .le, .ge, .ne] (fun _ => true) with
  | some t =>
    let op := if t.kind = .eqEq then .eq else t.kind
    return some (binary t op l (← shift r))
  | none =>
  match ← eat .eq with
  | some t =>
    err 2002 t "`=` is assignment; use `==` for equality"
    return some (binary t .eq l (← shift r))
  | none => return some l

/-- `parse_bitand`. -/
def bitand (r : Knot) : Parse (Option Node) := binaryLevel r [.amp] (compare r)

/-- `parse_bitxor`. -/
def bitxor (r : Knot) : Parse (Option Node) := binaryLevel r [.caret] (bitand r)

/-- `parse_bitor`. -/
def bitor (r : Knot) : Parse (Option Node) := binaryLevel r [.pipe] (bitxor r)

/-- `parse_and`. -/
def andExpr (r : Knot) : Parse (Option Node) := binaryLevel r [.and] (bitor r)

/-- `parse_or`. -/
def orExpr (r : Knot) : Parse (Option Node) := binaryLevel r [.or] (andExpr r)

/-! ## §5. Match and `if`. -/

/-- The value of a `return`, unless `;`, `}` or the end follows. -/
def returnValue (r : Knot) : Parse (Option (Option Node)) := do
  let k ← peek
  if k = .semi ∨ k = .rbrace ∨ k = .eof then return none
  else return some (← r.expr)

/-- `parse_match_arm_body`: an expression, or an early return `<expr`. -/
def matchArmBody (r : Knot) : Parse (Option Node) := do
  match ← eat .lt with
  | some t =>
    let n := Node.ofToken .returnStmt t
    match ← returnValue r with
    | some none =>
      sync
      return some n
    | some (some val) => return some (n.ch (some val))
    | none => return some n
  | none => r.expr

/-- `':' IDENT body` of a match arm. -/
def matchArmRest (r : Knot) (arm : Node) : Parse (Option Node) := do
  match ← xp .colon "':'" with
  | none =>
    sync
    return some arm
  | some _ =>
  match ← xp .ident "binding name" with
  | none =>
    sync
    return some arm
  | some bt => return some ((arm.ch (some (.ofToken .ident bt))).ch (← matchArmBody r))

/-- `parse_match_arm`. -/
def matchArm (r : Knot) : Parse (Option Node) := do
  let pt ← cur
  match ← eat .dollar with
  | some _ =>
    match ← xp .ident "variant name after '$'" with
    | none => return none
    | some nt =>
      matchArmRest r ((Node.ofToken .matchArm pt).ch (some (.ofToken .typeIdent nt)))
  | none =>
  match ← eatIf [.typeIdent, .ident] (fun _ => true) with
  | none =>
    let _ ← xp .typeIdent "match pattern"
    return none
  | some _ => matchArmRest r ((Node.ofToken .matchArm pt).ch (some (.ofToken .typeIdent pt)))

/-- `mt` after its keyword. -/
def matchExpr (r : Knot) (t : Token) : Parse (Option Node) := do
  let n := (Node.ofToken .matchStmt t).ch (← orExpr r)
  match ← xp .lbrace "'\x7b'" with
  | none =>
    sync
    return some n
  | some _ =>
    let n ← semiItemsUntil r .rbrace (matchArm r) (n.ch (← matchArm r))
    close .rbrace "'\x7d'"
    return some n

/-- The `el` branch of an `if`, after `el`. -/
def elseBranch (r : Knot) (exprForm : Bool) (t : Token) (n : Node) : Parse Node := do
  if (← peek) = .kwIf then return n.ch (← r.ifCore exprForm)
  else
    match ← xp .lbrace "'\x7b'" with
    | none =>
      sync
      return n
    | some _ =>
      let n ← block r t n
      let _ ← (if exprForm then pure none else eat .semi)
      return n

/-- `parse_if_core` after the condition: the branches. -/
def ifBranches (r : Knot) (exprForm : Bool) (t : Token) (n : Node) : Parse Node := do
  -- a Python-style ':' is only warned about
  let _ ← eat .colon
  match ← xp .lbrace "'\x7b'" with
  | none =>
    sync
    return n
  | some _ =>
    let n ← block r t n
    match ← eat .kwEl with
    | some _ => elseBranch r exprForm t n
    | none =>
      if exprForm then
        errGot 2002 (← cur) "`if` used as an expression requires an `el` branch"
        return n
      else
        let _ ← eat .semi
        return n

/-- `parse_if_core`. -/
def ifCore (r : Knot) (exprForm : Bool) : Parse (Option Node) := do
  match ← xp .kwIf "'if'" with
  | none => return none
  | some t =>
    let n := Node.ofToken .ifStmt t
    match ← xp .lparen "'('" with
    | none =>
      sync
      return some n
    | some _ =>
      let n := n.ch (← r.expr)
      close .rparen "')'"
      return some (← ifBranches r exprForm t n)

/-- The v0.2 match syntax `expr|{` is reported. -/
def oldMatch : Parse Unit := do
  if ← test (fun p => p.cur.kind = .pipe && p.peekAt 1 = .lbrace) then
    errGot 2002 (← cur)
      ("v0.2 match syntax '|\x7b' is no longer supported; use 'mt expr \x7b...\x7d' instead, " ++
        "or run `toke --migrate`")
    sync
  else return ()

/-- `parse_expr`. -/
def expr (r : Knot) : Parse (Option Node) := do
  if (← peek) = .kwIf then ifCore r true
  else
    match ← eat .kwMt with
    | some t => matchExpr r t
    | none =>
      let l ← orExpr r
      oldMatch
      return l

/-! ## §6. Statements. -/

/-- A value, then the separator; a value that is missing is recovered from. -/
def valueThenSemi (r : Knot) (n : Node) : Parse Node := do
  match ← r.expr with
  | some val =>
    optSemi
    return n.ch (some val)
  | none =>
    sync
    return n

/-- The three clauses of `lp(init; cond; step)`.  An `.error` is the partial
node with which `parse_loop_stmt` returns early. -/
def loopClauses (r : Knot) (n : Node) : Parse (Except Node Node) := do
  let ini := Node.ofToken .loopInit (← cur)
  let ini ← (do
    match ← eat .kwLet with
    | some _ => return { ini with op := .kwLet }
    | none => return ini)
  let ini := ini.ch ((← xp .ident "identifier").map (.ofToken .ident))
  match ← xp .eq "'='" with
  | none =>
    sync
    return .error n
  | some _ =>
  let n := n.ch (some (ini.ch (← r.expr)))
  match ← xp .semi "';'" with
  | none =>
    sync
    return .error n
  | some _ =>
  let n := n.ch (← r.expr)
  match ← xp .semi "';'" with
  | none =>
    sync
    return .error n
  | some _ =>
  match ← xp .ident "identifier" with
  | none =>
    sync
    return .error n
  | some st =>
  let step := (Node.ofToken .assignStmt st).ch (some (.ofToken .ident st))
  match ← xp .eq "'='" with
  | none =>
    sync
    return .error n
  | some _ =>
    let n := n.ch (some (step.ch (← r.expr)))
    close .rparen "')'"
    return .ok n

/-- Does a loop head start with `let IDENT =` or `IDENT =`? -/
def isThreeClause (p : Parser) : Bool :=
  (p.cur.kind = .kwLet && p.peekAt 1 = .ident && p.peekAt 2 = .eq) ||
    (p.cur.kind = .ident && p.peekAt 1 = .eq)

/-- The head of a loop after `(`. -/
def loopHead (r : Knot) (n : Node) : Parse (Except Node Node) := do
  if ← test isThreeClause then loopClauses r n
  else
    let n := n.ch (← r.expr)
    close .rparen "')'"
    return .ok n

/-- `parse_loop_stmt`. -/
def loopStmt (r : Knot) : Parse (Option Node) := do
  match ← xp .kwLp "'lp'" with
  | none => return none
  | some t =>
  match ← xp .lparen "'('" with
  | none =>
    sync
    return some (.ofToken .loopStmt t)
  | some _ =>
  match ← loopHead r (.ofToken .loopStmt t) with
  | .error n => return some n
  | .ok n =>
  let _ ← eat .colon
  match ← xp .lbrace "'\x7b'" with
  | none =>
    sync
    return some n
  | some _ =>
    let n ← block r t n
    let _ ← eat .semi
    return some n

/-- The tokens that may follow `mut` without its dot. -/
def mutStarts : List TokenKind :=
  [.intLit, .floatLit, .strLit, .ident, .boolLit, .lparen, .lbracket]

/-- After `mut`: the dot, or one of the tokens that only get a warning. -/
def mutDot : Parse Bool := do
  match ← eat .dot with
  | some _ => return true
  | none =>
    if (← peek) ∈ mutStarts then return true
    else return (← xp .dot "'.'").isSome

/-- The initialiser of a binding. -/
def bindInit (r : Knot) (n : Node) : Parse Node := do
  match ← eatIf [.ident] (fun p => p.inSc && p.teq p.cur "spawn") with
  | some st =>
    let sp := (Node.ofToken .spawnExpr st).ch (← r.expr)
    optSemi
    return n.ch (some sp)
  | none => valueThenSemi r n

/-- `'=' init` of a binding.  The node is anchored at `let`. -/
def bindRest (r : Knot) (t nt : Token) (typeAnn : Option Node) : Parse (Option Node) := do
  match ← xp .eq "'='" with
  | none =>
    sync
    return none
  | some _ =>
  let parts := fun kind => ((Node.ofToken kind t).ch (some (.ofToken .ident nt))).ch typeAnn
  match ← eat .kwMut with
  | none => return some (← bindInit r (parts .bindStmt))
  | some _ =>
    if ← mutDot then return some (← bindInit r (parts .mutBindStmt))
    else
      sync
      return some (parts .mutBindStmt)

/-- A `let` statement after its keyword. -/
def letStmt (r : Knot) (t : Token) : Parse (Option Node) := do
  -- Rust-style `let mut x` is only warned about
  let _ ← eatIf [.kwMut] (fun p => p.peekAt 1 = .ident)
  if (← peek) = .boolLit then
    err 1010 (← cur) "reserved literal cannot be used as an identifier"
    sync
    return none
  else
    match ← xp .ident "identifier" with
    | none =>
      sync
      return none
    | some nt =>
    match ← eat .colon with
    | some _ => bindRest r t nt (← r.typeExpr)
    | none => bindRest r t nt none

/-- A `return` statement after `<` or `rt`. -/
def returnStmt (r : Knot) (t : Token) : Parse (Option Node) := do
  let n := Node.ofToken .returnStmt t
  match ← returnValue r with
  | some none =>
    sync
    return some n
  | some (some val) =>
    optSemi
    return some (n.ch (some val))
  | none =>
    optSemi
    return some n

/-- Set `in_sc`, returning its old value. -/
def setInSc (b : Bool) : Parse Bool := fun p => some (p.inSc, { p with inSc := b })

/-- `sc { … }` after its keyword. -/
def scopeStmt (r : Knot) (t : Token) : Parse (Option Node) := do
  match ← xp .lbrace "'\x7b'" with
  | none =>
    sync
    return none
  | some _ =>
    let prev ← setInSc true
    let body ← r.stmtList t
    let _ ← setInSc prev
    close .rbrace "'\x7d'"
    optSemi
    return some ((Node.ofToken .scopeStmt t).ch (some body))

/-- Does `arena` follow the current `{`? -/
def arenaAhead (p : Parser) : Bool :=
  p.ahead.head?.any fun t => t.kind = .ident && p.teq t "arena"

/-- `parse_stmt`. -/
def stmt (r : Knot) : Parse (Option Node) := do
  match ← eat .kwLet with
  | some t => letStmt r t
  | none =>
  match ← eat .kwBr with
  | some t =>
    optSemi
    return some (.ofToken .breakStmt t)
  | none =>
  match ← eatIf [.kwRt, .lt] (fun _ => true) with
  | some t => returnStmt r t
  | none =>
  match ← eat .kwSc with
  | some t => scopeStmt r t
  | none =>
  let k ← peek
  if k = .kwIf then ifCore r false
  else if k = .kwLp then loopStmt r
  else
  match ← eatIf [.lbrace] arenaAhead with
  | some t =>
    let _ ← adv
    return some (← block r t (.ofToken .arenaStmt t))
  | none =>
  if (← peek) = .lbrace then
    errGot 2002 (← cur) "unexpected token at statement level"
    sync
    return none
  else
  match ← eatIf [.ident] (fun p => p.ahead.head?.any (·.kind = .eq)) with
  | some t =>
    let _ ← adv
    return some (← valueThenSemi r ((Node.ofToken .assignStmt t).ch (some (.ofToken .ident t))))
  | none =>
    let n := Node.ofToken .exprStmt (← cur)
    match ← expr r with
    | some val =>
      optSemi
      return some (n.ch (some val))
    | none =>
      sync
      return some n

/-- One turn of `parse_stmt_list`.  The turn that did not move is followed by
`sync`, which may not move either; then only the error count grew. -/
def stmtTurn (r : Knot) (n : Node) : Parse (Turn Node Node) := do
  let k ← peek
  if k = .rbrace ∨ k = .eof then return .done n
  else if ← test (fun p => p.errors.length ≥ maxParseErrors) then return .done n
  else
    let sv ← remaining
    let n := n.ch (← stmt r)
    if (← remaining) = sv then
      sync
      return .again n
    else return .again n

/-- `parse_stmt_list`. -/
def stmtList (r : Knot) (ref : Token) : Parse Node :=
  iter (stmtTurn r) r.fuel (.ofToken .stmtList ref)

end Parse

/-- The knot of depth 0 diverges at every entry point. -/
def Knot.bottom (interp : List Char → Option (Option Node)) : Knot where
  fuel := 0
  interp := interp
  expr := fun _ => none
  stmtList := fun _ _ => none
  typeExpr := fun _ => none
  unary := fun _ => none
  ifCore := fun _ _ => none

/-- One unfolding of the recursion. -/
def Knot.step (fuel : Nat) (r : Knot) : Knot :=
  let r' := { r with fuel := fuel }
  { r' with
    expr := Parse.expr r'
    stmtList := Parse.stmtList r'
    typeExpr := Parse.typeExpr r'
    unary := Parse.unary r'
    ifCore := Parse.ifCore r' }

/-- The productions with recursion depth and loop length bounded by `fuel`. -/
def prods (interp : List Char → Option (Option Node)) (fuel : Nat) : Knot :=
  fuelFix (Knot.bottom interp) Knot.step fuel

end Toke
