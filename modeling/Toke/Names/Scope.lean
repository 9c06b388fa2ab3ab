/-
  Toke.Names.Scope — **DECLARATIONS AND THE SCOPE CHAIN** (`names.h`, scope functions of
  `names.c`).

  A scope chain is the list of its frames, innermost first; the last frame is
  the module scope.  A frame lists its declarations newest first, as the C
  linked list does.  A declaration points at the node that defines it
  together with its place in the tree.
-/
import Toke.Ast.Node

namespace Toke

/-- A name, byte by byte. -/
abbrev Name := List Char

/-- The place of a node: child indices from the node up to the root. -/
abbrev Path := List Nat

/-- A node and its place. -/
structure Loc where
  path : Path
  node : Node
  deriving Repr, DecidableEq

/-- `DeclKind`. -/
inductive DeclKind where
  | func
  | type
  | const
  | param
  | let
  | mut
  | predefined
  | importAlias
  | closureParam
  deriving Repr, DecidableEq

/-- `Decl`; `defNode` is absent for predefined names and import aliases. -/
structure Decl where
  name : Name
  kind : DeclKind
  defNode : Option Loc
  deriving Repr, DecidableEq

/-- The names of one block. -/
abbrev Frame := List Decl

/-- The innermost frame first. -/
abbrev Scope := List Frame

/-- `scope_lookup_local`. -/
def Frame.lookup (f : Frame) (name : Name) : Option Decl := f.find? (·.name = name)

/-- `scope_lookup`: innermost frame first. -/
def Scope.lookup (s : Scope) (name : Name) : Option Decl := s.findSome? (Frame.lookup · name)

/-- Overwrite the first declaration of a name. -/
def Frame.replace (f : Frame) (name : Name) (kind : DeclKind) (defNode : Option Loc) : Frame :=
  match f with
  | [] => []
  | d :: ds =>
    if d.name = name then { d with kind, defNode } :: ds
    else d :: Frame.replace ds name kind defNode

/-- `scope_insert` into a frame.  A `let` replaces what the frame has under
that name, and anything replaces a predefined name; `none` is E3012. -/
def Frame.insert (f : Frame) (name : Name) (kind : DeclKind) (defNode : Option Loc) :
    Option Frame :=
  match f.lookup name with
  | none => some (⟨name, kind, defNode⟩ :: f)
  | some d =>
    if kind = .let ∨ kind = .mut ∨ d.kind = .predefined then
      some (f.replace name kind defNode)
    else none

/-- `seed_predefined`: always a new declaration, in front of the others. -/
def Frame.seed (f : Frame) (name : Name) : Frame := ⟨name, .predefined, none⟩ :: f

/-- `ImportedType`: a `"kind":"type"` record of an imported interface. -/
structure ImportedType where
  name : Name
  fields : List (Name × List Char)
  isSum : Bool
  deriving Repr, DecidableEq

/-- `ImportedFunc`: a `"kind":"func"` record; `ret` is empty for an error
union, `params` is missing when the record has no parameter list. -/
structure ImportedFunc where
  aliasName : Name
  fn : Name
  member : Name
  params : Option (List (List Char))
  ret : List Char
  deriving Repr, DecidableEq

/-- `NameEnv`: the module scope and what the imported interfaces export. -/
structure NameEnv where
  moduleScope : Frame
  itypes : List ImportedType
  ifuncs : List ImportedFunc

end Toke
