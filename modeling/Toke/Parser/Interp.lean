/-
  Toke.Parser.Interp — **STRING INTERPOLATION → AST** (`attach_interp` of `parser.c`).

  A literal `"…\(EXPR)…"` gets one child per segment that parses.  The
  segment is cut out of the literal, wrapped into the program
  `m=i;f=e():$str{<EXPR;};`, lexed and parsed again, and the expression is
  relocated into source coordinates.  How a wrapped segment is parsed is a
  parameter here (`interp`): it is `parse` itself, one level deeper.
-/
import Toke.Parser.State

namespace Toke

open List

/-! ## §1. Cutting the segments. -/

/-- The inner scan of `attach_interp`: the length of the expression up to the
`)` that closes it.  A backslash hides the next byte, and parentheses inside a
nested string do not count. -/
def attachClose : Nat → Bool → List Char → Option Nat
  | _, _, [] => none
  | depth, instr, '\\' :: _ :: cs => (attachClose depth instr cs).map (· + 2)
  | depth, true, c :: cs => (attachClose depth (c != '"') cs).map (· + 1)
  | depth, false, c :: cs =>
    if c = '"' then (attachClose depth true cs).map (· + 1)
    else if c = '(' then (attachClose (depth + 1) false cs).map (· + 1)
    else if c = ')' then
      if depth ≤ 1 then some 0 else (attachClose (depth - 1) false cs).map (· + 1)
    else (attachClose depth false cs).map (· + 1)

/-- `INTERP_WRAP`. -/
def interpWrap : List Char := "m=i;f=e():$str\x7b<".toList

/-- `INTERP_MAX_SEGS`. -/
def interpMaxSegs : Nat := 128

/-- `INTERP_MAX_DEPTH`. -/
def interpMaxDepth : Nat := 8

/-- `"%s%.*s;};"`: the wrapped segment.  `%.*s` stops at a NUL byte. -/
def interpText (seg : List Char) : Source :=
  interpWrap ++ seg.takeWhile (· != '\x00') ++ ";\x7d;".toList

/-! ## §2. Unwrapping and relocating. -/

/-- `interp_reloc` with `delta = (tok_start + i + 2) - INTERP_WRAP_LEN`, where
`base` is `tok_start + i + 2`. -/
def interpReloc (base line strStart strCol : Nat) : Node → Node
  | ⟨kind, start, _, _, tokStart, tokLen, op, children⟩ =>
    let tokStart := tokStart + base - interpWrap.length
    { kind, op, tokStart, tokLen, line
      start := start + base - interpWrap.length
      col := strCol + (tokStart - strStart)
      children := go children }
where
  go : List Node → List Node
    | [] => []
    | c :: cs => interpReloc base line strStart strCol c :: go cs

/-- The first function declaration at the top or inside a module node. -/
def interpFunc (ast : Node) : Option Node :=
  ast.children.findSome? fun c =>
    if c.kind = .funcDecl then some c
    else if c.kind = .module then c.children.find? (·.kind = .funcDecl)
    else none

/-- `interp_unwrap`: the value of the first `return` in the function's body. -/
def interpUnwrap (ast : Node) : Option Node :=
  (interpFunc ast).bind fun fn =>
    (fn.children.filter (·.kind = .stmtList)).findSome? fun body =>
      body.children.findSome? fun st =>
        if st.kind = .returnStmt then st.children.head? else none

/-! ## §3. The attaching loop. -/

/-- One turn per `\(` and per ordinary escape of the loop of `attach_interp`.
`cs` is what is left of the literal before its closing quote, `i` the offset
of `cs` in the literal, `nseg` the number of segments attached so far.  A turn
drops a byte or more, so `fuel` above the length of `cs` is never used up. -/
def attachLoop (interp : List Char → Option (Option Node)) (sn : Node) :
    Nat → Nat → Nat → List Char → Option (List Node)
  | 0, _, _, _ => some []
  | fuel + 1, i, nseg, cs =>
    if nseg ≥ interpMaxSegs then some []
    else match cs with
      | '\\' :: '(' :: rest =>
        match attachClose 1 false rest with
        | none => some []
        | some 0 => attachLoop interp sn fuel (i + 3) nseg (rest.drop 1)
        | some (len + 1) =>
          match interp (rest.take (len + 1)) with
          | none => none
          | some none => attachLoop interp sn fuel (i + len + 4) nseg (rest.drop (len + 2))
          | some (some e) =>
            (attachLoop interp sn fuel (i + len + 4) (nseg + 1)
              (rest.drop (len + 2))).map
              (interpReloc (sn.tokStart + i + 2) sn.line sn.tokStart sn.col e :: ·)
      | '\\' :: _ :: rest => attachLoop interp sn fuel (i + 2) nseg rest
      | _ :: c :: rest => attachLoop interp sn fuel (i + 1) nseg (c :: rest)
      | _ => some []

/-- `attach_interp`: hang the segments of a string literal below it.  `none`
is a segment whose parse does not return. -/
def attachInterp (interp : List Char → Option (Option Node)) (src : Source)
    (profile : Profile) (sn : Node) : Option Node :=
  if profile ≠ .default then some sn
  else
    let content := ((sn.text src).drop 1).dropLast
    (attachLoop interp sn (content.length + 1) 1 0 content).map fun segs =>
      { sn with children := sn.children ++ segs }

/-- Attaching returns when the parse of every segment of the literal does. -/
theorem attachLoop_returns {interp : List Char → Option (Option Node)} {sn : Node}
    {bound : Nat} (hi : ∀ seg, seg.length ≤ bound → (interp seg).isSome)
    (fuel i nseg : Nat) (cs : List Char) (hcs : cs.length ≤ bound) :
    (attachLoop interp sn fuel i nseg cs).isSome := by
  induction fuel generalizing i nseg cs with
  | zero => rfl
  | succ fuel ih =>
    unfold attachLoop
    split
    · rfl
    · split
      · next rest =>
          have hrest : rest.length ≤ bound := by
            simp only [length_cons] at hcs
            omega
          split
          · rfl
          · exact ih _ _ _ (by simp only [length_drop]; omega)
          · next len hlen =>
              have hseg := hi (rest.take (len + 1)) (by
                simp only [length_take]
                omega)
              have hdrop : (rest.drop (len + 2)).length ≤ bound := by
                simp only [length_drop]
                omega
              split
              · next h => simp [h] at hseg
              · exact ih _ _ _ hdrop
              · simpa using ih _ _ _ hdrop
      · exact ih _ _ _ (by simp only [length_cons] at hcs; omega)
      · exact ih _ _ _ (by simp only [length_cons] at hcs ⊢; omega)
      · rfl

theorem attachInterp_returns {interp : List Char → Option (Option Node)} {src : Source}
    (hi : ∀ seg, seg.length ≤ src.length → (interp seg).isSome)
    (profile : Profile) (sn : Node) : (attachInterp interp src profile sn).isSome := by
  unfold attachInterp
  split
  · rfl
  · have hlen : (((sn.text src).drop 1).dropLast).length ≤ src.length := by
      simp only [Node.text, slice, length_dropLast, length_drop, length_take]
      omega
    simpa using attachLoop_returns hi _ _ _ _ hlen

end Toke
