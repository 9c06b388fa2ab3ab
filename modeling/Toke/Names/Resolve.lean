/-
  Toke.Names.Resolve — **NAME RESOLUTION** (`resolve_ident` … `resolve_names` of `names.c`).

  The scope chain is passed through the walk; opening a block pushes a frame
  and leaving it pops that frame.  What the imported interfaces contribute is
  a parameter (`Imports`): reading `.tki` files is not part of the walk.

  The resolver only reports; the model also records what every identifier
  occurrence resolved to (`uses`), which is the meaning of the name there.
-/
import Toke.Names.Scope

namespace Toke

/-! ## §1. Resolver state. -/

/-- An error diagnostic of the resolver. -/
structure NameError where
  code : Nat
  at_ : Path
  deriving Repr, DecidableEq

/-- The state of the walk.  `errors` is newest first; E3012 is reported
without setting `hadError` where the C ignores the result of the insertion. -/
structure Resolver where
  scope : Scope
  errors : List NameError
  hadError : Bool
  uses : List (Path × Decl)

namespace Resolver

/-- A new frame. -/
def push (st : Resolver) : Resolver := { st with scope := [] :: st.scope }

/-- The frame is left. -/
def pop (st : Resolver) : Resolver := { st with scope := st.scope.tail }

/-- An error is reported. -/
def fail (st : Resolver) (code : Nat) (path : Path) : Resolver :=
  { st with errors := ⟨code, path⟩ :: st.errors, hadError := true }

/-- `scope_insert` into the current scope.  `fatal` is whether the caller sets
`had_error` on a duplicate. -/
def insert (st : Resolver) (fatal : Bool) (at_ : Path) (name : Name) (kind : DeclKind)
    (defNode : Option Loc) : Resolver :=
  match st.scope with
  | [] => st
  | f :: fs =>
    match f.insert name kind defNode with
    | some f' => { st with scope := f' :: fs }
    | none => { st with errors := ⟨3012, at_⟩ :: st.errors, hadError := st.hadError || fatal }

/-- `resolve_ident`.  E4033 for a bare type name in value position; an unknown
name is E3011 and is then declared in the current scope. -/
def resolveIdent (st : Resolver) (src : Source) (path : Path) (n : Node) : Resolver :=
  let name := n.text src
  match st.scope.lookup name with
  | some d =>
    if d.kind = .type ∧ n.kind = .ident then st.fail 4033 path
    else { st with uses := (path, d) :: st.uses }
  | none =>
    let st := st.fail 3011 path
    match st.scope with
    | [] => st
    | f :: fs => { st with scope := f.seed name :: fs }

end Resolver

/-! ## §2. The walk. -/

/-- What a parent makes of a child: an ordinary node, the initialiser of a
loop head, or a parameter of the given kind. -/
inductive Role where
  | plain
  | init
  | param (kind : DeclKind)
  deriving DecidableEq

/-- Declare the name held by child 0 of a binding. -/
def declareName (src : Source) (fatal : Bool) (kind : DeclKind) (n : Node) (path : Path)
    (st : Resolver) : Resolver :=
  match n.children with
  | [] => st
  | name :: _ => st.insert fatal (0 :: path) (name.text src) kind (some ⟨path, n⟩)

/-- A parameter's name is declared only if it is an identifier. -/
def declareParam (src : Source) (kind : DeclKind) (n : Node) (path : Path) (st : Resolver) :
    Resolver :=
  match n.children with
  | name :: _ =>
    if name.kind = .ident ∨ name.kind = .typeIdent then
      st.insert false (0 :: path) (name.text src) kind (some ⟨path, n⟩)
    else st
  | [] => st

/-- The binder of a match arm, child 1. -/
def declareBinder (src : Source) (n : Node) (path : Path) (st : Resolver) : Resolver :=
  match n.children with
  | _ :: name :: _ =>
    if name.kind = .ident then
      st.insert true (1 :: path) (name.text src) .let (some ⟨path, n⟩)
    else st
  | _ => st

/-- `resolve_node`, with `resolve_func` and `resolve_closure`.  `go` visits
the children that `roleAt` gives a role. -/
def resolveNode (src : Source) (role : Role) : Node → Path → Resolver → Resolver
  | n@⟨kind, _, _, _, _, _, op, children⟩, path, st =>
    match role, kind with
    | .param dk, .param =>
      go (fun i => if i = 1 then some .plain else none) 0 children path
        (declareParam src dk n path st)
    | .init, .loopInit =>
      let st := go (fun i => if i = 1 then some .plain else none) 0 children path st
      if op = .kwLet ∨ op = .kwMut then declareName src true .mut n path st else st
    | _, .ident => st.resolveIdent src path n
    | _, .typeIdent => if op = .dot then st else st.resolveIdent src path n
    | _, .fieldExpr => go (fun i => if i = 0 then some .plain else none) 0 children path st
    | _, .funcDecl => (go (fun _ => some (.param .param)) 0 children path st.push).pop
    | _, .closure => (go (fun _ => some (.param .closureParam)) 0 children path st.push).pop
    | _, .bindStmt =>
      -- the right-hand side first: no self-reference
      declareName src true .let n path
        (go (fun i => if i = 0 then none else some .plain) 0 children path st)
    | _, .mutBindStmt =>
      declareName src true .mut n path
        (go (fun i => if i = 0 then none else some .plain) 0 children path st)
    | _, .stmtList => (go (fun _ => some .plain) 0 children path st.push).pop
    | _, .matchArm =>
      (go (fun i => if i = 2 then some .plain else none) 0 children path
        (declareBinder src n path st.push)).pop
    | _, .loopStmt =>
      (go (fun i => if i = 0 then some .init else some .plain) 0 children path st.push).pop
    | _, .scopeStmt => (go (fun _ => some .plain) 0 children path st.push).pop
    | _, _ => go (fun _ => some .plain) 0 children path st
where
  go (roleAt : Nat → Option Role) : Nat → List Node → Path → Resolver → Resolver
    | _, [], _, st => st
    | i, c :: cs, path, st =>
      match roleAt i with
      | some role => go roleAt (i + 1) cs path (resolveNode src role c (i :: path) st)
      | none => go roleAt (i + 1) cs path st

/-! ## §3. The module scope and the two passes. -/

/-- What the resolved imports bring into the module scope, and the records of
their interfaces.  `std` has, for each `std.*` import in order, the type names
of its interface and the sub-namespaces of its function names. -/
structure Imports where
  aliases : List Name
  typeNames : List Name
  std : List (List Name × List Name)
  itypes : List ImportedType
  ifuncs : List ImportedFunc

/-- No imports. -/
def Imports.none : Imports := ⟨[], [], [], [], []⟩

/-- The names that are always in scope. -/
def predefinedNames : List Name :=
  ["true", "false", "bool", "i64", "u64", "f64", "str", "void", "ok", "err", "none"].map
    String.toList

/-- A sub-namespace is an alias unless its name is taken. -/
def seedSubNamespace (f : Frame) (name : Name) : Frame :=
  match f.lookup name with
  | some _ => f
  | none => ⟨name, .importAlias, none⟩ :: f

/-- The module scope before any declaration of the program. -/
def seedModule (imports : Imports) : Frame :=
  let f := predefinedNames.foldl Frame.seed []
  let f := imports.aliases.foldl (fun f a => ⟨a, .importAlias, none⟩ :: f) f
  let f := imports.typeNames.foldl Frame.seed f
  imports.std.foldl (fun f s => s.2.foldl seedSubNamespace (s.1.foldl Frame.seed f)) f

/-- The fields of a type declaration: its `NODE_FIELD` children, directly or
inside the field list. -/
def declFields (decl : Node) : List Node :=
  (decl.children.drop 1).flatMap fun c =>
    if c.kind = .field then [c]
    else if c.kind = .stmtList then c.children.filter (·.kind = .field)
    else []

/-- Is the byte before the field's name a `$`? -/
def isVariant (src : Source) (f : Node) : Bool :=
  0 < f.tokStart && (src.drop (f.tokStart - 1)).head? = some '$'

/-- The kind under which a top-level node is declared. -/
def topKind : NodeKind → Option DeclKind
  | .funcDecl => some .func
  | .typeDecl => some .type
  | .constDecl => some .const
  | _ => none

/-- One declaration of the first pass; a sum type also seeds its variants. -/
def registerDecl (src : Source) (st : Resolver) (i : Nat) (d : Node) : Resolver :=
  match topKind d.kind, d.children with
  | some kind, name :: _ =>
    let st := st.insert false [0, i] (name.text src) kind (some ⟨[i], d⟩)
    if kind = .type then
      ((declFields d).filter (isVariant src)).foldl (fun st f =>
        { st with scope := match st.scope with
            | [] => []
            | fr :: frs => fr.seed (f.tokstr src) :: frs }) st
    else st
  | _, _ => st

/-- The first pass: forward declarations. -/
def registerDecls (src : Source) : Nat → List Node → Resolver → Resolver
  | _, [], st => st
  | i, d :: ds, st => registerDecls src (i + 1) ds (registerDecl src st i d)

/-- The second pass: references inside each declaration. -/
def resolveDecls (src : Source) : Nat → List Node → Resolver → Resolver
  | _, [], st => st
  | i, d :: ds, st =>
    if d.kind = .module ∨ d.kind = .import then resolveDecls src (i + 1) ds st
    else resolveDecls src (i + 1) ds (resolveNode src .plain d [i] st)

/-- `resolve_names`: the final state of the walk. -/
def resolveNames (imports : Imports) (src : Source) (ast : Node) : Resolver :=
  let st : Resolver := ⟨[seedModule imports], [], false, []⟩
  resolveDecls src 0 ast.children (registerDecls src 0 ast.children st)

/-- `resolve_names` returned 0 and reported nothing. -/
def Resolver.accepts (st : Resolver) : Bool := !st.hadError && st.errors.isEmpty

/-- The `NameEnv` that `resolve_names` fills. -/
def nameEnv (imports : Imports) (src : Source) (ast : Node) : NameEnv where
  moduleScope := (resolveNames imports src ast).scope.getLastD []
  itypes := imports.itypes
  ifuncs := imports.ifuncs

end Toke
