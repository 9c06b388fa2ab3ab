/-
  Toke.Ast.Node — **THE SYNTAX TREE** (`parser.h`).

  One node type serves every construct, as in the C: a kind, the span of the
  anchor token, an operator and the children.  A node never holds its text;
  `Node.text` reads it from the source buffer.  A `NULL` child cannot occur:
  `ch` drops it (`Node.ch`).
-/
import Toke.Lexer.Lex

namespace Toke

/-- `NodeKind` of `parser.h`, constructor by constructor. -/
inductive NodeKind where
  | program | module | import | funcDecl | typeDecl | constDecl | param | field
  | stmtList | bindStmt | mutBindStmt | assignStmt | returnStmt | ifStmt
  | loopStmt | breakStmt | arenaStmt | matchStmt | exprStmt
  | binaryExpr | unaryExpr | callExpr | castExpr | propagateExpr | indexExpr
  | fieldExpr | ident | typeIdent | intLit | floatLit | strLit | boolLit
  | arrayLit | structLit | fieldInit
  | typeExpr | arrayType | funcType | ptrType
  | matchArm | returnSpec | modulePath | loopInit
  | mapType | mapLit | mapEntry | funcRef | closure | scopeStmt | spawnExpr
  deriving Repr, DecidableEq

/-- The AST node.  `start`/`line`/`col` locate the node for diagnostics,
`tokStart`/`tokLen` span the lexeme of its anchor token; `op` is `.eof` where
the node has no operator. -/
structure Node where
  kind : NodeKind
  start : Nat
  line : Nat
  col : Nat
  tokStart : Nat
  tokLen : Nat
  op : TokenKind
  children : List Node
  deriving Repr

namespace Node

mutual

/-- Equality of trees is decidable, subtree by subtree. -/
def decEq : (a b : Node) → Decidable (a = b)
  | ⟨k, s, l, c, ts, tl, o, cs⟩, ⟨k', s', l', c', ts', tl', o', cs'⟩ =>
    if h : (k, s, l, c, ts, tl, o) = (k', s', l', c', ts', tl', o') then
      match decEqList cs cs' with
      | isTrue hcs => isTrue (by simp_all)
      | isFalse hcs => isFalse (by simp_all)
    else isFalse (by simp_all)

/-- Equality of lists of nodes. -/
def decEqList : (as bs : List Node) → Decidable (as = bs)
  | [], [] => isTrue rfl
  | [], _ :: _ => isFalse (by simp)
  | _ :: _, [] => isFalse (by simp)
  | a :: as, b :: bs =>
    match decEq a b with
    | isFalse h => isFalse (by simp [h])
    | isTrue h =>
      match decEqList as bs with
      | isTrue h' => isTrue (by rw [h, h'])
      | isFalse h' => isFalse (by simp [h'])

end

instance : DecidableEq Node := decEq

/-- `mk`: a childless node anchored at a token. -/
def ofToken (kind : NodeKind) (t : Token) : Node :=
  { kind, start := t.start, line := t.line, col := t.col,
    tokStart := t.start, tokLen := t.len, op := .eof, children := [] }

/-- `ch`: append a child; a production that returned `NULL` adds nothing. -/
def ch (n : Node) (c : Option Node) : Node :=
  { n with children := n.children ++ c.toList }

/-- The lexeme of the anchor token. -/
def text (src : Source) (n : Node) : List Char :=
  slice src n.tokStart n.tokLen

/-- `TOKSTR` into a 128-byte buffer, read back as a C string. -/
def tokstr (src : Source) (n : Node) : List Char :=
  ((n.text src).take 127).takeWhile (· != '\x00')

/-- A node and all nodes below it, in preorder. -/
def subnodes : Node → List Node
  | n@⟨_, _, _, _, _, _, _, children⟩ => n :: go children
where
  go : List Node → List Node
    | [] => []
    | c :: cs => subnodes c ++ go cs

/-- A value for every node, from those of its children. -/
def fold {α : Type} (f : Node → List α → α) : Node → α
  | n@⟨_, _, _, _, _, _, _, children⟩ => f n (go children)
where
  go : List Node → List α
    | [] => []
    | c :: cs => fold f c :: go cs

/-- Induction over the tree. -/
theorem induction {P : Node → Prop} (step : ∀ n : Node, (∀ c ∈ n.children, P c) → P n) (n : Node) :
    P n :=
  step n fun c hc =>
    have : sizeOf c < sizeOf n := by
      have hlt := List.sizeOf_lt_of_mem hc
      obtain ⟨k, s, l, co, ts, tl, o, cs⟩ := n
      simp only [Node.mk.sizeOf_spec]
      simp only at hlt
      omega
    induction step c
termination_by sizeOf n

theorem fold_go {α : Type} (f : Node → List α → α) (cs : List Node) :
    fold.go f cs = cs.map (fold f) := by
  induction cs with
  | nil => rfl
  | cons c cs ih => rw [fold.go, ih, List.map_cons]

theorem fold_eq {α : Type} (f : Node → List α → α) (n : Node) :
    n.fold f = f n (n.children.map (fold f)) := by
  obtain ⟨k, s, l, co, ts, tl, o, cs⟩ := n
  rw [fold, fold_go]

theorem subnodes_eq (n : Node) : n.subnodes = n :: subnodes.go n.children := by
  obtain ⟨k, s, l, co, ts, tl, o, cs⟩ := n
  rfl

theorem mem_subnodes_self (n : Node) : n ∈ n.subnodes := by
  rw [subnodes_eq]
  exact List.mem_cons_self

theorem mem_subnodes_go {m : Node} {cs : List Node} :
    m ∈ subnodes.go cs ↔ ∃ c ∈ cs, m ∈ c.subnodes := by
  induction cs with
  | nil => simp [subnodes.go]
  | cons c cs ih => simp [subnodes.go, ih]

/-- The nodes below a node contain the children of each of them. -/
theorem mem_subnodes_child {n m c : Node} (hm : m ∈ n.subnodes) (hc : c ∈ m.children) :
    c ∈ n.subnodes := by
  induction n using Node.induction with
  | step n ih =>
    rw [subnodes_eq, List.mem_cons] at hm
    rw [subnodes_eq, List.mem_cons, mem_subnodes_go]
    rcases hm with rfl | hm
    · exact Or.inr ⟨c, hc, mem_subnodes_self c⟩
    · obtain ⟨d, hd, hm⟩ := mem_subnodes_go.mp hm
      exact Or.inr ⟨d, hd, ih d hd hm⟩

@[simp] theorem ofToken_kind (k : NodeKind) (t : Token) : (ofToken k t).kind = k := rfl
@[simp] theorem ofToken_children (k : NodeKind) (t : Token) : (ofToken k t).children = [] := rfl
@[simp] theorem ch_kind (n : Node) (c : Option Node) : (n.ch c).kind = n.kind := rfl
@[simp] theorem ch_children (n : Node) (c : Option Node) :
    (n.ch c).children = n.children ++ c.toList := rfl

end Node

end Toke
