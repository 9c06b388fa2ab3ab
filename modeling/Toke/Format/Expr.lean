/-
  Toke.Format.Expr — **PRINTING EXPRESSIONS** (`fmt.c`: `op_str`, `op_prec`, `needs_paren`,
  `fmt_type_expr`, `fmt_expr`).

  The parser keeps no node for parentheses, so the printer has to put back
  those that the precedence of the operators needs:

      BINARY(-, 0, BINARY(-, 0, v))   ↦   0-(0-v)

  `Expr` are the trees of identifiers, integers, operators and casts;
  `Shows src n e` says that the node `n` of the source `src` is the tree `e`.
  `fmtExpr_text` gives the text of a node from its tree alone, and
  `Expr.scans` the tokens in which that text is read back.
-/
import Toke.Format.MinifyTokens
import Toke.Parser.Grammar

namespace Toke

open List

/-! ## §1. The printer. -/

/-- `op_str`. -/
def opStr : TokenKind → List Char
  | .plus => ['+']
  | .minus => ['-']
  | .star => ['*']
  | .slash => ['/']
  | .lt => ['<']
  | .gt => ['>']
  | .eq => ['=', '=']
  | .eqEq => ['=', '=']
  | .ne => ['!', '=']
  | .le => ['<', '=']
  | .ge => ['>', '=']
  | .and => ['&', '&']
  | .or => ['|', '|']
  | .bang => ['!']
  | .pipe => ['|']
  | .percent => ['%']
  | .caret => ['^']
  | .amp => ['&']
  | .shl => ['<', '<']
  | .shr => ['>', '>']
  | .tilde => ['~']
  | _ => ['?']

/-- `op_prec`. -/
def opPrec : TokenKind → Nat
  | .or => 1
  | .and => 2
  | .pipe => 3
  | .caret => 4
  | .amp => 5
  | .lt | .gt | .le | .ge | .eq | .eqEq | .ne => 6
  | .shl | .shr => 7
  | .plus | .minus => 8
  | .star | .slash | .percent => 9
  | _ => 10

/-- `needs_paren`; the parent operator is `.error` below a unary operator. -/
def needsParen (child : Node) (parent : TokenKind) (isRight : Bool) : Bool :=
  if child.kind ≠ .binaryExpr then false
  else if parent = .error then true
  else
    let pc := opPrec child.op
    let pp := opPrec parent
    pc < pp || (pc = pp && (isRight || pp = 6))

/-- `emit_type_ident`: the name with the sigil and the qualifier that stand
before it in the source. -/
def emitTypeIdent (src : Source) (n : Node) : List Char :=
  let p := n.tokStart - 1
  if 0 < n.tokStart ∧ src[p]? = some '$' then
    (if n.op = .dot ∧ 2 ≤ p ∧ src[p - 1]? = some '.' then
      ((src.take (p - 1)).reverse.takeWhile fmtIsWord).reverse ++ ['.']
    else []) ++ '$' :: n.text src
  else n.text src

/-- `fmt_type_expr`, given the texts of the children. -/
def fmtTypeNode (src : Source) (n : Node) (parts : List (List Char)) : List Char :=
  match n.kind with
  | .typeExpr | .typeIdent => emitTypeIdent src n
  | .ptrType => '*' :: parts.headD []
  | .arrayType =>
    if src[n.tokStart]? = some '@' ∧ src[n.tokStart + 1]? = some '(' then
      '@' :: '(' :: (parts.headD [] ++ [')'])
    else '@' :: parts.headD []
  | .mapType => '@' :: '(' :: (parts.headD [] ++ ':' :: (parts.getD 1 [] ++ [')']))
  | .funcType => '(' :: ([';', ' '].intercalate parts.dropLast ++ ')' :: ':' :: parts.getLastD [])
  | _ => n.text src

/-- `fmt_type_expr`. -/
def fmtTypeExpr (src : Source) : Node → List Char := Node.fold (fmtTypeNode src)

/-- A text in parentheses, if they are needed. -/
def paren (b : Bool) (text : List Char) : List Char := if b then '(' :: (text ++ [')']) else text

/-- `fmt_expr_inner` on literals, names, operators, casts, calls and postfixes,
given the texts of the children.  `layers` is `src_paren_layers`, and `other`
prints the remaining kinds. -/
def fmtExprInner (src : Source) (layers : Node → Nat) (other : Node → List (List Char) → List Char)
    (n : Node) (parts : List (List Char)) : List Char :=
  match n.kind with
  | .intLit | .floatLit | .strLit | .boolLit | .ident => n.text src
  | .typeIdent => emitTypeIdent src n
  | .funcRef => '&' :: n.text src
  | .binaryExpr =>
    match n.children, parts with
    | l :: r :: _, a :: b :: _ =>
      paren (needsParen l n.op false && layers l = 0) a ++ opStr n.op ++
        paren (needsParen r n.op true && layers r = 0) b
    | _, _ => []
  | .unaryExpr =>
    opStr n.op ++ match n.children, parts with
      | c :: _, a :: _ => paren (needsParen c .error false && layers c = 0) a
      | _, _ => []
  | .callExpr => parts.headD [] ++ '(' :: ([';', ' '].intercalate parts.tail ++ [')'])
  | .castExpr =>
    (match n.children, parts with
      | c :: _, a :: _ => paren ((c.kind = .binaryExpr || c.kind = .unaryExpr) && layers c = 0) a
      | _, _ => []) ++
    " as ".toList ++
    match n.children with
    | _ :: ty :: _ => fmtTypeExpr src ty
    | _ => []
  | .propagateExpr =>
    parts.headD [] ++ '!' :: match n.children with
      | _ :: ty :: _ => fmtTypeExpr src ty
      | _ => []
  | .indexExpr => parts.headD [] ++ ".get(".toList ++ parts.getD 1 [] ++ [')']
  | .fieldExpr =>
    parts.headD [] ++ '.' :: match n.children with
      | _ :: f :: _ => f.text src
      | _ => []
  | .arrayLit => '@' :: '(' :: ([';', ' '].intercalate parts ++ [')'])
  | _ => other n parts

/-- `fmt_expr`: the text in the parentheses the source had around it. -/
def fmtExpr (src : Source) (layers : Node → Nat) (other : Node → List (List Char) → List Char) :
    Node → List Char :=
  Node.fold fun n parts =>
    List.replicate (layers n) '(' ++ fmtExprInner src layers other n parts ++
      List.replicate (layers n) ')'

/-! ## §2. Operator trees. -/

/-- The binary operators. -/
inductive BinOp where
  | or | and | bitor | bitxor | bitand | lt | gt | le | ge | eq | ne | shl | shr
  | add | sub | mul | div | rem
  deriving Repr, DecidableEq

namespace BinOp

/-- The operator of the node: the parser stores `==` as `TK_EQ`. -/
def op : BinOp → TokenKind
  | or => .or
  | and => .and
  | bitor => .pipe
  | bitxor => .caret
  | bitand => .amp
  | lt => .lt
  | gt => .gt
  | le => .le
  | ge => .ge
  | eq => .eq
  | ne => .ne
  | shl => .shl
  | shr => .shr
  | add => .plus
  | sub => .minus
  | mul => .star
  | div => .slash
  | rem => .percent

theorem op_ne_error (o : BinOp) : o.op ≠ .error := by
  cases o <;> decide

/-- The token of the operator. -/
def token : BinOp → TokenKind
  | eq => .eqEq
  | o => o.op

/-- Its precedence. -/
def prec (o : BinOp) : Nat := opPrec o.op

/-- The operator as it is printed and read back. -/
def lexeme (o : BinOp) : Lexeme := ⟨o.token, opStr o.op⟩

theorem lexeme_mem (o : BinOp) : o.lexeme ∈ symbols := by
  cases o <;> decide

end BinOp

/-- The prefix operators. -/
inductive UnOp where
  | neg | not | compl
  deriving Repr, DecidableEq

namespace UnOp

/-- Its token. -/
def op : UnOp → TokenKind
  | neg => .minus
  | not => .bang
  | compl => .tilde

/-- Its lexeme. -/
def lexeme (o : UnOp) : Lexeme := ⟨o.op, opStr o.op⟩

theorem lexeme_mem (o : UnOp) : o.lexeme ∈ symbols := by
  cases o <;> decide

end UnOp

/-- An identifier of the default profile. -/
structure IdentText where
  text : List Char
  wf : (⟨.ident, text⟩ : Lexeme).WF

/-- An integer literal. -/
structure IntText where
  text : List Char
  wf : (⟨.intLit, text⟩ : Lexeme).WF

/-- A scalar type: one of the names that `is_scalar` lists. -/
structure Scalar where
  text : List Char
  mem : text ∈ Parse.scalarNames.map String.toList

/-- The lexeme of a scalar type. -/
def Scalar.lexeme (ty : Scalar) : Lexeme := ⟨classifyIdent .default ty.text, ty.text⟩

/-- Every scalar type is a word of at least two letters. -/
theorem Scalar.word (ty : Scalar) :
    (∃ c cs, ty.text = c :: cs ∧ isLetter c ∧ ∀ d ∈ cs, isIdentCont d) ∧
      ∀ d ∈ upperKwMap, ty.text ≠ [d] := by
  have hall : ∀ t ∈ Parse.scalarNames.map String.toList,
      (isLetter (t.headD '0') ∧ (∀ d ∈ t.tail, isIdentCont d)) ∧ 2 ≤ t.length := by
    intro t ht
    fin_cases ht <;> simp [isLetter, isIdentCont, isDigit]
  obtain ⟨⟨hhead, htail⟩, hlen⟩ := hall ty.text ty.mem
  cases htext : ty.text with
  | nil =>
    rw [htext] at hlen
    simp at hlen
  | cons c cs =>
    rw [htext] at hhead htail hlen
    refine ⟨⟨c, cs, rfl, hhead, htail⟩, ?_⟩
    rintro d hd heq
    rw [heq] at hlen
    simp at hlen

theorem Scalar.kind (ty : Scalar) : ty.lexeme.kind ∈ [TokenKind.ident, .typeIdent] := by
  have hall : ∀ t ∈ Parse.scalarNames.map String.toList,
      classifyIdent .default t ∈ [TokenKind.ident, .typeIdent] := by
    intro t ht
    fin_cases ht <;> simp [classifyIdent, keywords, keywordsDefault, lookup, identKind]
  exact hall ty.text ty.mem

/-- Trees of identifiers, integers, operators and casts to scalar types. -/
inductive Expr where
  | ident (x : IdentText)
  | int (i : IntText)
  | unary (o : UnOp) (e : Expr)
  | binary (o : BinOp) (l r : Expr)
  | cast (e : Expr) (ty : Scalar)

namespace Expr

variable {src : Source} {n : Node} {r t : List Char} {xs : List Lexeme}

/-- The node is this tree, whatever its positions. -/
def Shows (src : Source) : Node → Expr → Prop
  | n, ident x => n.kind = .ident ∧ n.text src = x.text ∧ n.children = []
  | n, int i => n.kind = .intLit ∧ n.text src = i.text ∧ n.children = []
  | n, unary o e => n.kind = .unaryExpr ∧ n.op = o.op ∧ ∃ c, n.children = [c] ∧ Shows src c e
  | n, binary o l r =>
    n.kind = .binaryExpr ∧ n.op = o.op ∧ ∃ a b, n.children = [a, b] ∧ Shows src a l ∧ Shows src b r
  | n, cast e ty =>
    n.kind = .castExpr ∧
      ∃ a b, n.children = [a, b] ∧ Shows src a e ∧ b.kind = .typeExpr ∧ b.text src = ty.text ∧
        b.children = [] ∧ ¬ SigilBefore src b.tokStart

/-- The level of the chain at which the parser makes the node. -/
def prec : Expr → Nat
  | binary o _ _ => o.prec
  | _ => 10

/-- A binary expression. -/
def isBinary : Expr → Bool
  | binary _ _ _ => true
  | _ => false

/-- `needs_paren` below a binary operator. -/
def grouped (parent : BinOp) (isRight : Bool) : Expr → Bool
  | binary o _ _ => o.prec < parent.prec || (o.prec = parent.prec && (isRight || parent.prec = 6))
  | _ => false

/-- The operand of a cast that needs parentheses. -/
def isOperator : Expr → Bool
  | binary _ _ _ => true
  | unary _ _ => true
  | _ => false

/-- What is printed without recovered parentheses. -/
def text : Expr → List Char
  | ident x => x.text
  | int i => i.text
  | unary o e => opStr o.op ++ paren e.isBinary e.text
  | binary o l r => paren (l.grouped o false) l.text ++ opStr o.op ++ paren (r.grouped o true) r.text
  | cast e ty => paren e.isOperator e.text ++ " as ".toList ++ ty.text

/-! ## §3. The text of a node is the text of its tree. -/

variable {e : Expr}

theorem Shows.kind_operator (h : Shows src n e) :
    (n.kind = .binaryExpr || n.kind = .unaryExpr) = e.isOperator := by
  cases e <;> simp_all [Shows, isOperator]

/-- `needs_paren` on a node and on its tree. -/
theorem Shows.needsParen (h : Shows src n e) (o : BinOp)
    (isRight : Bool) : needsParen n o.op isRight = e.grouped o isRight := by
  cases e with
  | binary o' l r =>
    simp only [Toke.needsParen, h.1, h.2.1, o.op_ne_error]
    rfl
  | ident x | int i | unary o' e | cast e ty => simp_all [Shows, Toke.needsParen, grouped]

theorem Shows.needsParen_unary (h : Shows src n e) :
    Toke.needsParen n .error false = e.isBinary := by
  cases e <;> simp_all [Shows, Toke.needsParen, isBinary]

theorem fmtExpr_eq (src : Source) (other : Node → List (List Char) → List Char) (n : Node) :
    fmtExpr src (fun _ => 0) other n =
      fmtExprInner src (fun _ => 0) other n (n.children.map (fmtExpr src (fun _ => 0) other)) := by
  rw [fmtExpr, Node.fold_eq]
  simp only [replicate_zero, nil_append, append_nil]

/-- A type name without a sigil is its text. -/
theorem fmtTypeExpr_scalar (hkind : n.kind = .typeExpr)
    (hsigil : ¬ SigilBefore src n.tokStart) : fmtTypeExpr src n = n.text src := by
  have hplain : ¬ (0 < n.tokStart ∧ src[n.tokStart - 1]? = some '$') := by
    rwa [SigilBefore, head?_drop] at hsigil
  rw [fmtTypeExpr, Node.fold_eq, fmtTypeNode, hkind]
  exact if_neg hplain

theorem fmtExpr_text (other : Node → List (List Char) → List Char)
    (h : Shows src n e) : fmtExpr src (fun _ => 0) other n = e.text := by
  induction e generalizing n with
  | ident x | int i =>
    obtain ⟨hkind, htext, -⟩ := h
    rw [fmtExpr_eq]
    simp only [fmtExprInner, hkind]
    exact htext
  | unary o e ih =>
    obtain ⟨hkind, hop, c, hchildren, hc⟩ := h
    rw [fmtExpr_eq]
    simp [fmtExprInner, hkind, hop, hchildren, ih hc, hc.needsParen_unary, text]
  | binary o l r ihl ihr =>
    obtain ⟨hkind, hop, a, b, hchildren, ha, hb⟩ := h
    rw [fmtExpr_eq]
    simp [fmtExprInner, hkind, hop, hchildren, ihl ha, ihr hb, ha.needsParen o false,
      hb.needsParen o true, text]
  | cast e ty ih =>
    obtain ⟨hkind, a, b, hchildren, ha, hbkind, hbtext, hbchildren, hsigil⟩ := h
    have htype : fmtTypeExpr src b = ty.text := by rw [fmtTypeExpr_scalar hbkind hsigil, hbtext]
    rw [fmtExpr_eq]
    simp only [fmtExprInner, hkind, hchildren, map_cons, ih ha, ha.kind_operator, htype, text,
      decide_true, Bool.and_true]

/-! ## §4. The tokens of the text. -/

/-- An opening parenthesis. -/
def lparen : Lexeme := ⟨.lparen, ['(']⟩

/-- A closing parenthesis. -/
def rparen : Lexeme := ⟨.rparen, [')']⟩

/-- The keyword `as`. -/
def asLexeme : Lexeme := ⟨.kwAs, ['a', 's']⟩

/-- The tokens in parentheses, if they are needed. -/
def parenLexemes (b : Bool) (xs : List Lexeme) : List Lexeme :=
  if b then lparen :: (xs ++ [rparen]) else xs

/-- The lexemes of an expression. -/
def lexemes : Expr → List Lexeme
  | ident x => [⟨.ident, x.text⟩]
  | int i => [⟨.intLit, i.text⟩]
  | unary o e => o.lexeme :: parenLexemes e.isBinary e.lexemes
  | binary o l r =>
    parenLexemes (l.grouped o false) l.lexemes ++
      o.lexeme :: parenLexemes (r.grouped o true) r.lexemes
  | cast e ty => parenLexemes e.isOperator e.lexemes ++ [asLexeme, ty.lexeme]

/-- What may follow a word, a number or a parenthesis. -/
def Separates (r : List Char) : Prop :=
  stopsAt (fun c => isIdentContLegacy c || c == '.') r = true

/-- What a printed operand starts with. -/
def startBytes (c : Char) : Bool :=
  isLetter c || isDigit c || c == '(' || c == '-' || c == '!' || c == '~'

/-- The text begins like a lexeme. -/
def Starts (r : List Char) : Prop := ∃ c s, r = c :: s ∧ startBytes c = true

theorem Starts.append (h : Starts r) (s : List Char) : Starts (r ++ s) := by
  obtain ⟨c, t, rfl, hc⟩ := h
  exact ⟨c, t ++ s, rfl, hc⟩

theorem WF_ident (h : (⟨.ident, t⟩ : Lexeme).WF) :
    ∃ c cs, t = c :: cs ∧ isLetter c ∧ classifyIdent .default t = .ident := by
  generalize hx : (⟨.ident, t⟩ : Lexeme) = y at h
  cases h with
  | @word c cs hc hcs =>
    injection hx with hkind htext
    exact ⟨c, cs, htext, hc, htext ▸ hkind.symm⟩
  | sym hy =>
    have hall : ∀ z ∈ symbols, z.kind ≠ .ident := by decide
    exact absurd (congrArg Lexeme.kind hx).symm (hall y hy)
  | based | int | float | str => exact absurd (congrArg Lexeme.kind hx) (by simp)

theorem WF_intLit (h : (⟨.intLit, t⟩ : Lexeme).WF) :
    (∃ m p ds, t = '0' :: m :: ds ∧ baseDigits m = some p) ∨
      (t ≠ [] ∧ ∀ d ∈ t, isDigit d) := by
  generalize hx : (⟨.intLit, t⟩ : Lexeme) = y at h
  cases h with
  | @word c cs hc hcs =>
    have hall : ∀ k ∈ wordKinds, k ≠ .intLit := by decide
    exact absurd (congrArg Lexeme.kind hx).symm (hall _ (classifyIdent_mem _))
  | sym hy =>
    have hall : ∀ z ∈ symbols, z.kind ≠ .intLit := by decide
    exact absurd (congrArg Lexeme.kind hx).symm (hall y hy)
  | @based m p ds hm hne hds =>
    injection hx with _ htext
    exact .inl ⟨m, p, ds, htext, hm⟩
  | int hne hds =>
    cases hx
    exact .inr ⟨hne, hds⟩
  | float | str => exact absurd (congrArg Lexeme.kind hx) (by simp)

theorem Separates.stops (h : Separates r) {p : Char → Bool}
    (hp : ∀ c, p c → isIdentContLegacy c) : stopsAt p r := by
  cases r with
  | nil => rfl
  | cons c s =>
    simp only [Separates, stopsAt, Bool.not_eq_true', Bool.or_eq_false_iff] at h ⊢
    by_contra hc
    have hcont := hp c (by simpa using hc)
    rw [h.1] at hcont
    cases hcont

theorem isIdentContLegacy_of {c : Char} (h : isIdentCont c) : isIdentContLegacy c := by
  simp only [isIdentCont, isIdentContLegacy] at h ⊢
  rw [h]
  rfl

theorem Separates.fraction (h : Separates r) : fraction r = false := by
  unfold Toke.fraction
  split
  · simp [Separates, stopsAt] at h
  · rfl

theorem delimits_intLit (hx : (⟨.intLit, t⟩ : Lexeme).WF) (hr : Separates r) :
    Delimits ⟨.intLit, t⟩ r := by
  rcases WF_intLit hx with ⟨m, p, ds, rfl, hm⟩ | ⟨hne, hds⟩
  · rw [delimits_based hm, hr.stops fun c hc => isIdentContLegacy_of (baseDigits_isIdentCont hm hc),
      hr.stops fun c hc => isIdentContLegacy_of (isLetter_isIdentCont hc)]
    rfl
  · rw [delimits_int hds, decimalStops_eq, hr.fraction,
      hr.stops fun c hc => isIdentContLegacy_of hc]
    rfl

/-- A word that is not a single uppercase letter. -/
theorem delimits_wordKind {c : Char} {cs : List Char} (ht : t = c :: cs) (hc : isLetter c)
    (hupper : ∀ d ∈ upperKwMap, t ≠ [d]) (hr : Separates r) :
    Delimits ⟨classifyIdent .default t, t⟩ r := by
  subst ht
  rw [delimits_word hc, hr.stops fun c hc => hc]
  unfold upperKeyword
  split
  · next heq =>
      rw [cons.injEq] at heq
      by_contra hmem
      have hd : c ∈ upperKwMap := by
        rw [heq.1]
        simpa using hmem
      exact hupper c hd (by rw [heq.2])
  · rfl

theorem ident_not_upper (h : classifyIdent .default t = .ident) : ∀ d ∈ upperKwMap, t ≠ [d] := by
  rintro d hd rfl
  simp only [upperKwMap, mem_cons, not_mem_nil, or_false] at hd
  rcases hd with rfl | rfl | rfl | rfl | rfl <;>
    simp [classifyIdent, keywords, keywordsDefault, lookup, identKind, isUpper] at h

theorem delimits_start {x : Lexeme} (hx : x ∈ symbols) (hr : Starts r) : Delimits x r := by
  obtain ⟨d, s, rfl, hd⟩ := hr
  rw [delimits_symbol hx]
  unfold symbolStops
  split
  · next c d' s' heq hcons =>
      obtain ⟨rfl, rfl⟩ := hcons
      have hall : ∀ p ∈ fusingBytes, startBytes p.2 = false := by decide
      by_contra hmem
      have hstart := hall (c, d) (by simpa using hmem)
      rw [hd] at hstart
      cases hstart
  · rfl

/-- A printed operand is read in these tokens wherever it can end. -/
def Reads (t : List Char) (xs : List Lexeme) : Prop :=
  Starts t ∧ ∀ {r ys}, Separates r → Scans r ys → Scans (t ++ r) (xs ++ ys)

/-- Whatever is read after a symbol starts an operand. -/
theorem scans_symbol {x : Lexeme} (hx : x ∈ symbols) (hr : Starts r)
    (h : Scans r xs) : Scans (x.text ++ r) (x :: xs) := .lexeme (.sym hx) (delimits_start hx hr) h

theorem scans_rparen (h : Scans r xs) : Scans (')' :: r) (rparen :: xs) := by
  have hx : rparen ∈ symbols := by decide
  have hd : Delimits rparen r := by
    rw [delimits_symbol hx]
    cases r with
    | nil => rfl
    | cons c r => simp [symbolStops, rparen, fusingBytes]
  exact .lexeme (.sym hx) hd h

theorem separates_rparen (r : List Char) : Separates (')' :: r) := by
  simp [Separates, stopsAt, isIdentContLegacy, isLetter, isDigit]

theorem Reads.paren (h : Reads t xs) (b : Bool) : Reads (paren b t) (parenLexemes b xs) := by
  cases b with
  | false => exact h
  | true =>
    obtain ⟨hstart, hscan⟩ := h
    refine ⟨⟨'(', t ++ [')'], rfl, by decide⟩, ?_⟩
    intro r ys hr hys
    have hinner := hscan (separates_rparen r) (scans_rparen hys)
    have hx : lparen ∈ symbols := by decide
    have hall := scans_symbol hx (hstart.append (')' :: r)) hinner
    simpa [Toke.paren, parenLexemes, lparen] using hall

theorem reads_ident (x : IdentText) : Reads x.text [⟨.ident, x.text⟩] := by
  obtain ⟨c, cs, htext, hc, hkind⟩ := WF_ident x.wf
  refine ⟨⟨c, cs, htext, by simp [startBytes, hc]⟩, ?_⟩
  intro r ys hr hys
  have hd := delimits_wordKind htext hc (ident_not_upper hkind) hr
  rw [hkind] at hd
  exact .lexeme x.wf hd hys

theorem reads_int (i : IntText) : Reads i.text [⟨.intLit, i.text⟩] := by
  refine ⟨?_, fun hr hys => .lexeme i.wf (delimits_intLit i.wf hr) hys⟩
  rcases WF_intLit i.wf with ⟨m, p, ds, htext, -⟩ | ⟨hne, hds⟩
  · exact ⟨'0', m :: ds, htext, by decide⟩
  · cases htext : i.text with
    | nil => exact absurd htext hne
    | cons c cs =>
      have hc := hds c (by simp [htext])
      exact ⟨c, cs, rfl, by simp [startBytes, hc]⟩

theorem reads_unary (o : UnOp) (h : Reads t xs) : Reads (opStr o.op ++ t) (o.lexeme :: xs) := by
  obtain ⟨hstart, hscan⟩ := h
  refine ⟨?_, ?_⟩
  · cases o with
    | neg => exact ⟨'-', t, rfl, by decide⟩
    | not => exact ⟨'!', t, rfl, by decide⟩
    | compl => exact ⟨'~', t, rfl, by decide⟩
  · intro r ys hr hys
    rw [append_assoc]
    exact scans_symbol o.lexeme_mem (hstart.append r) (hscan hr hys)

theorem separates_op (o : BinOp) (r : List Char) : Separates (opStr o.op ++ r) := by
  cases o <;>
    simp [Separates, stopsAt, isIdentContLegacy, isLetter, isDigit, opStr, BinOp.op]

theorem reads_binary (o : BinOp) {u : List Char} {ys : List Lexeme} (ht : Reads t xs)
    (hu : Reads u ys) : Reads (t ++ opStr o.op ++ u) (xs ++ o.lexeme :: ys) := by
  refine ⟨(ht.1.append _).append _, ?_⟩
  intro r zs hr hzs
  have hright := scans_symbol o.lexeme_mem (hu.1.append r) (hu.2 hr hzs)
  have hleft := ht.2 (separates_op o (u ++ r)) hright
  simpa using hleft

theorem separates_space (r : List Char) : Separates (' ' :: r) := by
  simp [Separates, stopsAt, isIdentContLegacy, isLetter, isDigit]

theorem scans_space (h : Scans r xs) : Scans (' ' :: r) xs :=
  .skip (s := [' ']) (.space (by decide)) h

/-- The cast needs the blanks: `as` is a word. -/
theorem reads_cast (ht : Reads t xs) (ty : Scalar) :
    Reads (t ++ " as ".toList ++ ty.text) (xs ++ [asLexeme, ty.lexeme]) := by
  refine ⟨(ht.1.append _).append _, ?_⟩
  intro r ys hr hys
  obtain ⟨⟨c, cs, htext, hc, hcs⟩, hupper⟩ := ty.word
  have hwf : (ty.lexeme).WF := by
    rw [Scalar.lexeme, htext]
    exact .word hc hcs
  have htype : Scans (ty.text ++ r) (ty.lexeme :: ys) :=
    .lexeme hwf (delimits_wordKind htext hc hupper hr) hys
  have hkind : classifyIdent .default ['a', 's'] = .kwAs := by
    simp [classifyIdent, keywords, keywordsDefault, lookup]
  have has : asLexeme = ⟨classifyIdent .default ['a', 's'], ['a', 's']⟩ := by
    rfl
  have hword : Scans (asLexeme.text ++ ' ' :: (ty.text ++ r)) (asLexeme :: ty.lexeme :: ys) := by
    rw [has]
    refine .lexeme (.word (by simp [isLetter]) (by simp [isIdentCont, isLetter])) ?_
      (scans_space htype)
    exact delimits_wordKind rfl (by simp [isLetter]) (by simp) (separates_space _)
  have hall := ht.2 (separates_space _) (scans_space hword)
  simpa [asLexeme] using hall

/-- **The printed text of a tree is read in the tree's tokens.** -/
theorem reads (e : Expr) : Reads e.text e.lexemes := by
  induction e with
  | ident x => exact reads_ident x
  | int i => exact reads_int i
  | unary o e ih => exact reads_unary o (ih.paren e.isBinary)
  | binary o l r ihl ihr =>
    exact reads_binary o (ihl.paren (l.grouped o false)) (ihr.paren (r.grouped o true))
  | cast e ty ih => exact reads_cast (ih.paren e.isOperator) ty

/-- The whole text. -/
theorem scans (e : Expr) : Scans e.text e.lexemes := by
  have h : Scans (e.text ++ []) (e.lexemes ++ []) := e.reads.2 rfl .nil
  rwa [append_nil, append_nil] at h

end Expr

end Toke
