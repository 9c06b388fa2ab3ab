/-
  Toke.Format.ExprRoundTrip — **OPERATOR PRECEDENCE SURVIVES PRINTING**, up to casts of casts.

  `tree` reads every printed tree at the level of its operator, by induction
  on the tree; `knotParses` does so for the entry points of the recursion.
  The printer never puts parentheses around a cast, and the parser reads one
  `as` per operand: `x as i64 as u8` does not come back.
-/
import Toke.Format.ExprParse
import Toke.Lexer.Tiling

namespace Toke

open List Progress Parse

namespace Expr

variable {inp : Input} {n : Nat} {r : Knot}

/-! ## §1. Trees. -/

theorem parenLexemes_ne_nil (b : Bool) {xs : List Lexeme} (h : xs ≠ []) : parenLexemes b xs ≠ [] := by
  cases b with
  | false => exact h
  | true => exact cons_ne_nil _ _

/-- A printed tree starts with an operand or a prefix operator. -/
theorem lexemes_start (e : Expr) : ∃ x xs, e.lexemes = x :: xs ∧ x.kind ∈ startKinds := by
  have hparen : ∀ (b : Bool) {xs ys : List Lexeme}, (∃ x zs, xs = x :: zs ∧ x.kind ∈ startKinds) →
      ∃ x zs, parenLexemes b xs ++ ys = x :: zs ∧ x.kind ∈ startKinds := by
    rintro b xs ys ⟨x, zs, rfl, hx⟩
    cases b with
    | false => exact ⟨x, zs ++ ys, rfl, hx⟩
    | true => exact ⟨lparen, _, rfl, by decide⟩
  induction e with
  | ident x | int i => exact ⟨_, _, rfl, by simp [startKinds]⟩
  | unary o e ih => exact ⟨o.lexeme, _, rfl, by cases o <;> decide⟩
  | binary o l r ihl ihr => exact hparen _ ihl
  | cast e ty ih => exact hparen _ ih

theorem lexemes_ne_nil (e : Expr) : e.lexemes ≠ [] := by
  obtain ⟨x, xs, hxs, -⟩ := e.lexemes_start
  rw [hxs]
  exact cons_ne_nil _ _

theorem BinOp.prec_range (o : BinOp) : 1 ≤ o.prec ∧ o.prec < 10 := by
  cases o <;> decide

theorem BinOp.mem_levelOps {o : BinOp} (h : o.prec ≠ 6) : o.token ∈ levelOps o.prec ∧ o ≠ .eq := by
  cases o <;> first | decide | exact absurd rfl h

/-- A left operand without parentheses binds at least as tightly, and more
tightly than a comparison. -/
theorem prec_of_not_grouped_left {o : BinOp} {l : Expr} (h : l.grouped o false = false) :
    o.prec ≤ l.prec ∧ (o.prec = 6 → 7 ≤ l.prec) := by
  have hrange := BinOp.prec_range o
  cases l with
  | binary o' a b =>
    simp only [grouped, Bool.or_eq_false_iff, decide_eq_false_iff_not, Bool.and_eq_false_iff] at h
    simp only [prec]
    omega
  | ident x | int i | unary o' a | cast a ty =>
    exact ⟨by simp only [prec]; omega, fun _ => by simp [prec]⟩

/-- A right operand without parentheses binds more tightly. -/
theorem prec_of_not_grouped_right {o : BinOp} {r : Expr} (h : r.grouped o true = false) :
    o.prec + 1 ≤ r.prec := by
  have hrange := BinOp.prec_range o
  cases r with
  | binary o' a b =>
    simp only [grouped, Bool.or_eq_false_iff, decide_eq_false_iff_not, Bool.true_or,
      Bool.and_true] at h
    simp only [prec]
    omega
  | ident x => simp only [prec]; omega
  | int i => simp only [prec]; omega
  | unary o' a => simp only [prec]; omega
  | cast a ty => simp only [prec]; omega

theorem prec_le (e : Expr) : 1 ≤ e.prec ∧ e.prec ≤ 10 := by
  cases e with
  | binary o l r =>
    have hrange := BinOp.prec_range o
    simp only [prec]
    omega
  | ident x => simp [prec]
  | int i => simp [prec]
  | unary o e => simp [prec]
  | cast e ty => simp [prec]

section Trees

variable (hr : r.At inp n) (hlex : Lexical inp) (hknot : KnotParses inp n r)

include hr hknot

theorem parses_paren (e : Expr) {k : Nat} (hpos : 1 ≤ k) (hle : k ≤ 10) :
    Parses inp (n + 1) k (level r k) (parenLexemes true e.lexemes) e := by
  refine parses_level hr (le_refl 10) ?_ hpos hle
  exact parses_unary hr (x := lparen) (by decide) (call_paren hr hknot e)

/-- An operand, in parentheses where it needs them. -/
theorem parses_operand {e : Expr} {k : Nat} {b : Bool} (hpos : 1 ≤ k) (hle : k ≤ 10)
    (h : b = false → Parses inp (n + 1) k (level r k) e.lexemes e) :
    Parses inp (n + 1) k (level r k) (parenLexemes b e.lexemes) e := by
  cases b with
  | true => exact parses_paren hr hknot e hpos hle
  | false => exact h rfl

/-- What a tree is read as, at the levels up to its own and in a chain. -/
def Tree (inp : Input) (n : Nat) (r : Knot) (e : Expr) : Prop :=
  (∀ k, 1 ≤ k → k ≤ e.prec → Parses inp (n + 1) k (level r k) e.lexemes e) ∧
    ∀ k, 1 ≤ k → k < 10 → k ≠ 6 → k ≤ e.prec →
      Chains inp (n + 1) k (levelOps k) (level r (k + 1)) e.lexemes e

omit hknot in
/-- A tree that is read at its own level is read below it, and starts chains. -/
theorem tree_of_parses {e : Expr} (h : Parses inp (n + 1) e.prec (level r e.prec) e.lexemes e)
    (hchain : e.prec < 10 → e.prec ≠ 6 →
      Chains inp (n + 1) e.prec (levelOps e.prec) (level r (e.prec + 1)) e.lexemes e) :
    Tree inp n r e := by
  have hread : ∀ k, 1 ≤ k → k ≤ e.prec → Parses inp (n + 1) k (level r k) e.lexemes e :=
    fun k hpos hle => parses_level hr e.prec_le.2 h hpos hle
  refine ⟨hread, fun k hpos hlt hne hle => ?_⟩
  rcases Nat.lt_or_eq_of_le hle with hk | rfl
  · obtain ⟨-, hops⟩ := level_chain r hpos hlt hne
    exact chains_of_parses hops (level_runs hr (k + 1)) (hread (k + 1) (by omega) hk)
  · exact hchain hlt hne

/-- A binary operator, from its operands. -/
theorem tree_binary (o : BinOp) {a b : Expr} (ha : Tree inp n r a) (hb : Tree inp n r b) :
    Tree inp n r (binary o a b) := by
  obtain ⟨hpos, hlt⟩ := BinOp.prec_range o
  have hright : Parses inp (n + 1) (o.prec + 1) (level r (o.prec + 1))
      (parenLexemes (b.grouped o true) b.lexemes) b :=
    parses_operand hr hknot (by omega) (by omega) fun hg =>
      hb.1 _ (by omega) (prec_of_not_grouped_right hg)
  have hne : parenLexemes (b.grouped o true) b.lexemes ≠ [] :=
    parenLexemes_ne_nil _ b.lexemes_ne_nil
  by_cases hsix : o.prec = 6
  · have hleft : Parses inp (n + 1) 7 (level r 7) (parenLexemes (a.grouped o false) a.lexemes) a :=
      parses_operand hr hknot (by omega) (by omega) fun hg =>
        ha.1 _ (by omega) ((prec_of_not_grouped_left hg).2 hsix)
    rw [hsix] at hright
    refine tree_of_parses hr ?_ fun _ h => absurd hsix h
    show Parses inp (n + 1) o.prec (level r o.prec) (binary o a b).lexemes (binary o a b)
    rw [hsix]
    exact parses_compare hr hsix hleft hright hne
  · obtain ⟨heq, hops⟩ := level_chain r hpos hlt hsix
    obtain ⟨htok, hneq⟩ := BinOp.mem_levelOps hsix
    have hleft : Chains inp (n + 1) o.prec (levelOps o.prec) (level r (o.prec + 1))
        (parenLexemes (a.grouped o false) a.lexemes) a := by
      cases hg : a.grouped o false with
      | true =>
        exact chains_of_parses hops (level_runs hr _)
          (parses_paren hr hknot a (by omega) (by omega))
      | false => exact ha.2 _ hpos hlt hsix (prec_of_not_grouped_left hg).1
    have hchain := hleft.binary hops (level_runs hr _) htok hneq hright hne
    refine tree_of_parses hr ?_ fun _ _ => hchain
    show Parses inp (n + 1) o.prec (level r o.prec) (binary o a b).lexemes (binary o a b)
    rw [heq]
    exact hchain.parses hops

include hlex

/-- **Every tree is read at its level**, by induction on the tree. -/
theorem tree (e : Expr) : Tree inp n r e := by
  -- what is not binary is read at level 10, where no chain starts
  have hten : ∀ {e : Expr}, e.prec = 10 →
      Parses inp (n + 1) 10 (Parse.unary r) e.lexemes e → Tree inp n r e := by
    intro e hprec h
    refine tree_of_parses hr ?_ fun hlt => absurd hprec (by omega)
    rw [hprec]
    exact h
  induction e with
  | ident x => exact hten rfl (parses_unary hr (by simp [operandKinds]) (call_ident hr x))
  | int i => exact hten rfl (parses_unary hr (by simp [operandKinds]) (call_int hr i))
  | unary o e ih => exact hten rfl (parses_operator hknot o e)
  | cast e ty ih => exact hten rfl (parses_casts hr hknot hlex e ty)
  | binary o a b iha ihb => exact tree_binary hr hknot o iha ihb

end Trees

/-! ## §2. The entry points. -/

theorem oldMatch_stops {p : Parser} (h : p.cur.kind ≠ .pipe) : oldMatch p = some ((), p) := by
  have htest : test (fun p => p.cur.kind = .pipe && p.peekAt 1 = .lbrace) p = some (false, p) := by
    simp [test, h]
  exact bind_run htest

/-- `parse_expr` on a printed tree. -/
theorem parses_expr (hr : r.At inp n) (hlex : Lexical inp) (hknot : KnotParses inp n r) (e : Expr) :
    Parses inp (n + 1) 1 (Parse.expr r) e.lexemes e := by
  intro y ys p hfresh htight
  have hor : Leads (orExpr r) p (Outcome inp (n + 1) 1 e (y :: ys)) :=
    (tree hr hlex hknot e).1 1 (le_refl 1) e.prec_le.1 hfresh htight
  obtain ⟨x, xs, hxs, hx⟩ := e.lexemes_start
  rw [hxs] at hfresh
  have hkinds : ∀ k ∈ startKinds, k ≠ .kwIf ∧ k ≠ .kwMt := by decide
  obtain ⟨hif, hmt⟩ := hkinds _ hx
  refine leads_step (show _ = some (p.cur.kind, p) from rfl) ?_
  rw [if_neg (by rw [hfresh.kind]; exact hif)]
  refine leads_step (eat_miss (by rw [hfresh.kind]; exact hmt)) ?_
  refine Outcome.bind hor ?_ ?_
  · intro hapart m p' hrest hm
    rw [← hrest.kind] at htight
    refine leads_step (oldMatch_stops (ne_of_tightness htight)) ?_
    exact leads_pure (outcome_good hapart hrest hm)
  · intro hapart o p' hfail
    have hold : Leads oldMatch p' fun _ p'' => Failed inp (n + 1) 1 p'' := by
      by_cases herr : p'.errors = []
      · exact leads_of_run (oldMatch_stops (by simp [hfail.kwAs herr])) hfail
      · exact Failed.runs oldMatch_runs hfail.ok hfail.size herr
    exact .bind hold fun _ p'' h => leads_pure (outcome_bad hapart h)

/-- `parse_unary` on an operand in its parentheses. -/
theorem parses_unaryOperand (hr : r.At inp n) (hlex : Lexical inp) (hknot : KnotParses inp n r)
    (e : Expr) :
    Parses inp (n + 1) 10 (Parse.unary r) (parenLexemes e.isBinary e.lexemes) e := by
  refine parses_operand hr hknot (k := 10) (by decide) (le_refl 10) fun hb => ?_
  refine (tree hr hlex hknot e).1 10 (by decide) ?_
  cases e with
  | binary o l r => simp [isBinary] at hb
  | ident x => exact le_refl 10
  | int i => exact le_refl 10
  | unary o e => exact le_refl 10
  | cast e ty => exact le_refl 10

/-- `parse_type_expr` on a scalar type. -/
theorem typeExpr_scalar (hlen : ∀ t ∈ inp.toks, (t.text inp.src).length = t.len) (ty : Scalar)
    {y : Lexeme} {ys : List Lexeme} {p : Parser} (h : Fresh inp n (ty.lexeme :: y :: ys) p)
    (hy : y.kind ≠ .dot) :
    Leads (Parse.typeExpr r) p fun o p' =>
      Fresh inp n (y :: ys) p' ∧ o = some (.ofToken .typeExpr p.cur) := by
  have hkind : p.cur.kind ∈ [TokenKind.ident, .typeIdent] := by
    rw [h.kind]
    exact ty.kind
  have hne : ∀ k ∉ [TokenKind.ident, .typeIdent], p.cur.kind ≠ k := by
    rintro k hk rfl
    exact hk hkind
  have hscalar : isScalar p := by
    obtain ⟨s, hs, hstext⟩ := mem_map.mp ty.mem
    refine any_eq_true.mpr ⟨s, hs, ?_⟩
    have htext : p.cur.text p.src = s.toList := by
      rw [h.ok.2.1, h.text, hstext]
      rfl
    have hmem : p.cur ∈ inp.toks := h.ok.2.2.subset mem_cons_self
    have hlength : p.cur.len = s.toList.length := by rw [← hlen p.cur hmem, ← h.ok.2.1, htext]
    simp [Parser.teq, htext, hlength]
  refine leads_step (eat_miss (hne _ (by decide))) ?_
  refine leads_step (eatIf_miss (by simp [h.next, hy])) ?_
  refine leads_step (eat_miss (hne _ (by decide))) ?_
  refine leads_step (eat_miss (hne _ (by decide))) ?_
  refine leads_step (eat_miss (hne _ (by decide))) ?_
  refine leads_step (show _ = some (p.cur.kind, p) from rfl) ?_
  rw [if_neg (hne _ (by decide))]
  refine leads_step (eatIf_hit hkind hscalar) ?_
  exact leads_pure ⟨h.adv.mono (Nat.sub_le n 1), rfl⟩

/-- **Every unfolding of the recursion reads printed trees.** -/
theorem knotParses {interp : List Char → Option (Option Node)} (hlex : Lexical inp)
    (hlen : ∀ t ∈ inp.toks, (t.text inp.src).length = t.len)
    (hi : ∀ seg : List Char, seg.length ≤ inp.src.length → (interp seg).isSome) (n : Nat) :
    Knot.At inp n { prods interp n with fuel := n + 1 } ∧ KnotParses inp n (prods interp n) := by
  refine fuelFix_induction
    (P := fun n (k : Knot) => Knot.At inp n { k with fuel := n + 1 } ∧ KnotParses inp n k) ?_ ?_ n
  · refine ⟨prods_at hi 0, ?_, ?_, ?_⟩
    · exact fun e _ _ _ _ _ _ _ h => absurd h (by simp [Knot.bottom])
    · exact fun e _ _ _ _ _ _ _ h => absurd h (by simp [Knot.bottom])
    · exact fun ty _ _ _ _ _ _ _ h => absurd h (by simp [Knot.bottom])
  · intro n k hk
    obtain ⟨hat, hknot⟩ := hk
    have hknot' : KnotParses inp n { k with fuel := n + 1 } :=
      ⟨hknot.expr, hknot.unary, hknot.typeExpr⟩
    refine ⟨hat.step, ?_, ?_, ?_⟩
    · exact fun e => parses_expr hat hlex hknot' e
    · exact fun e => parses_unaryOperand hat hlex hknot' e
    · exact fun ty _ _ _ h hy => typeExpr_scalar hlen ty h hy

/-! ## §3. The round trip. -/

/-- Lex a text and parse it as one expression that reaches to its end.  No
string literal is in it, so the parse of segments is never used. -/
def parseText (text : List Char) : Option Node :=
  match lex .default (text.length + 16) text with
  | some (t :: ts) =>
    match (prods (fun _ => some none) (ts.length + maxParseErrors + 1)).expr
      ⟨t, ts, text, .default, [], false⟩ with
    | some (n, p) => if p.errors.isEmpty && p.cur.kind = .eof then n else none
    | none => none
  | _ => none

/-- The tokens of a printed tree, and the state in which they are all ahead. -/
theorem lex_text (e : Expr) :
    ∃ t ts eof, lex .default (e.text.length + 16) e.text = some (t :: ts) ∧ eof.kind = .eof ∧
      Fresh ⟨e.text, t :: ts⟩ (ts.length + maxParseErrors + 1) (e.lexemes ++ [eof])
        ⟨t, ts, e.text, .default, [], false⟩ := by
  have hcap : e.lexemes.length < e.text.length + 16 := by
    have hle := e.scans.length_le
    omega
  obtain ⟨body, eof, hlex, hbody⟩ := lex_of_scans _ e.scans hcap
  obtain ⟨t, ts, hts⟩ : ∃ t ts, body ++ [eof] = t :: ts := by
    cases body with
    | nil => exact ⟨_, _, rfl⟩
    | cons t ts => exact ⟨_, _, rfl⟩
  rw [hts] at hlex
  obtain ⟨last, hlast, hkind⟩ := (lex_ends hlex).1
  have heof : eof = last := by
    rw [← hts, getLast?_concat] at hlast
    exact Option.some.inj hlast
  refine ⟨t, ts, eof.lexeme e.text, hlex, by rw [heof]; exact hkind, ?_, ?_, ?_, rfl, rfl⟩
  · refine ⟨EndsInEof.ended ⟨last, hlast, hkind⟩, rfl, suffix_refl _⟩
  · simp only [Rank.size, parserRank]
    omega
  · show (t :: ts).map (Token.lexeme e.text) = _
    rw [← hts, map_append, hbody]
    rfl

/-- **What `parse_expr` makes of the text of a tree.** -/
theorem parseText_text (e : Expr) :
    if e.castsApart then ∃ m, parseText e.text = some m ∧ Shows e.text m e
    else parseText e.text = none := by
  obtain ⟨t, ts, eof, hlex, heof, hfresh⟩ := e.lex_text
  have hi : ∀ seg : List Char, seg.length ≤ (Input.mk e.text (t :: ts)).src.length →
      ((fun _ => some none : List Char → Option (Option Node)) seg).isSome := fun _ _ => rfl
  obtain ⟨hat, hknot⟩ := knotParses (lex_lexical hlex) (lex_text_length hlex) hi
    (ts.length + maxParseErrors + 1)
  have htight : tightness eof.kind < 1 := by
    rw [heof]
    decide
  obtain ⟨o, p, hrun, -, -⟩ := hat.expr _ hfresh.ok hfresh.size
  have hout := hknot.expr e hfresh htight o p hrun
  have hparse : parseText e.text = if p.errors.isEmpty && p.cur.kind = .eof then o else none := by
    unfold parseText
    rw [hlex]
    dsimp only
    rw [show (prods (fun _ => some none) (ts.length + maxParseErrors + 1)).expr
      ⟨t, ts, e.text, .default, [], false⟩ = some (o, p) from hrun]
  rw [hparse]
  unfold Outcome at hout
  split at hout
  · next hapart =>
      obtain ⟨hrest, m, rfl, hm⟩ := hout
      rw [if_pos hapart, if_pos (by simp [hrest.errors, hrest.kind, heof])]
      exact ⟨m, rfl, hm⟩
  · next hapart =>
      rw [if_neg hapart, if_neg]
      rintro hend
      simp only [Bool.and_eq_true, List.isEmpty_iff, decide_eq_true_eq] at hend
      rcases hout.stuck with herr | ⟨-, hcur⟩
      · exact herr hend.1
      · rw [hend.2] at hcur
        cases hcur

/-- **Printing and parsing back.**  A node that is the tree `e` is printed, with
no recovered parentheses, as a text that parses back to `e` exactly when no
cast of `e` is the operand of another cast. -/
theorem fmtExpr_parses_iff (src : Source) (other : Node → List (List Char) → List Char) (n : Node)
    (e : Expr) (h : Shows src n e) :
    (∃ m, parseText (fmtExpr src (fun _ => 0) other n) = some m ∧
        Shows (fmtExpr src (fun _ => 0) other n) m e) ↔ e.castsApart = true := by
  have hback := e.parseText_text
  rw [fmtExpr_text other h]
  constructor
  · rintro ⟨m, hm, -⟩
    by_contra hapart
    rw [if_neg hapart, hm] at hback
    simp at hback
  · intro hapart
    rwa [if_pos hapart] at hback

theorem wf_letter {c : Char} (hc : isLetter c) (hlow : isUpper c = false) :
    (⟨.ident, [c]⟩ : Lexeme).WF := by
  have hkind : classifyIdent .default [c] = .ident := by
    simp [classifyIdent, keywords, keywordsDefault, lookup, identKind, hlow]
  have hwf : (⟨classifyIdent .default [c], [c]⟩ : Lexeme).WF := .word hc (by simp)
  rwa [hkind] at hwf

/-- The tree of `0-(0-v)`. -/
def subOfSub : Expr :=
  binary .sub (int ⟨['0'], .int (by simp) (by simp [isDigit])⟩)
    (binary .sub (int ⟨['0'], .int (by simp) (by simp [isDigit])⟩)
      (ident ⟨['v'], wf_letter (by simp [isLetter]) (by simp [isUpper])⟩))

/-- Its node, as `parse_expr` builds it. -/
def subOfSubNode : Node :=
  Parse.binary ⟨.minus, 1, 1, 1, 2⟩ .minus (.ofToken .intLit ⟨.intLit, 0, 1, 1, 1⟩)
    (some (Parse.binary ⟨.minus, 4, 1, 1, 5⟩ .minus (.ofToken .intLit ⟨.intLit, 3, 1, 1, 4⟩)
      (some (.ofToken .ident ⟨.ident, 5, 1, 1, 6⟩))))

/-- `0-(0-v)` keeps its parentheses. -/
theorem fmtExpr_parses_subOfSub : Shows "0-(0-v)".toList subOfSubNode subOfSub ∧
      ((∃ m, parseText (fmtExpr "0-(0-v)".toList (fun _ => 0) (fun _ _ => []) subOfSubNode) =
            some m ∧
          Shows (fmtExpr "0-(0-v)".toList (fun _ => 0) (fun _ _ => []) subOfSubNode) m subOfSub) ↔
        subOfSub.castsApart = true) := by
  have hshows : Shows "0-(0-v)".toList subOfSubNode subOfSub :=
    ⟨rfl, rfl, _, _, rfl, ⟨rfl, rfl, rfl⟩, rfl, rfl, _, _, rfl, ⟨rfl, rfl, rfl⟩, rfl, rfl, rfl⟩
  exact ⟨hshows, fmtExpr_parses_iff _ _ _ _ hshows⟩

/-- The tree of `(x as i64) as u8`. -/
def castOfCast : Expr :=
  cast (cast (ident ⟨['x'], wf_letter (by simp [isLetter]) (by simp [isUpper])⟩)
    ⟨"i64".toList, by simp [Parse.scalarNames]⟩) ⟨"u8".toList, by simp [Parse.scalarNames]⟩

/-- **A cast of a cast does not come back**: it is printed without its
parentheses, and the second `as` is not read. -/
theorem fmtExpr_drops_cast : ∃ n, Shows "(x as i64) as u8".toList n castOfCast ∧
      fmtExpr "(x as i64) as u8".toList (fun _ => 0) (fun _ _ => []) n = "x as i64 as u8".toList ∧
      parseText "x as i64 as u8".toList = none := by
  refine ⟨((Node.ofToken .castExpr ⟨.kwAs, 11, 2, 1, 12⟩).ch
    (some (((Node.ofToken .castExpr ⟨.kwAs, 3, 2, 1, 4⟩).ch
      (some (.ofToken .ident ⟨.ident, 1, 1, 1, 2⟩))).ch
      (some (.ofToken .typeExpr ⟨.ident, 6, 3, 1, 7⟩))))).ch
    (some (.ofToken .typeExpr ⟨.ident, 14, 2, 1, 15⟩)), ?_, by decide +kernel, by decide +kernel⟩
  refine ⟨rfl, _, _, rfl, ⟨rfl, _, _, rfl, ⟨rfl, rfl, rfl⟩, rfl, rfl, rfl, ?_⟩, rfl, rfl, rfl, ?_⟩
  · simp [SigilBefore, Node.ofToken]
  · simp [SigilBefore, Node.ofToken]

end Expr

end Toke
