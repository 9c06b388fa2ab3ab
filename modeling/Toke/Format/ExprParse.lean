/-
  Toke.Format.ExprParse — **READING A PRINTED EXPRESSION BACK** (`parse_cast_prop` … `parse_or`).

  The tokens of a printed tree are known (`Expr.lexemes`), so the chain of
  productions is followed over them.  `Parses k x xs e` says that `x`, the
  production of level `k`, reads the tokens `xs` as the tree `e` whenever what
  follows binds less tightly than `k`:

      1 or   2 and   3 |   4 ^   5 &   6 compare   7 shift   8 add   9 mul
      10 unary and cast   11 call

  A cast takes one `as`; a second one is left over, and then either the end of
  the text or the `)` that was expected is not there.  `Failed` is that
  outcome, and no production recovers from it.
-/
import Toke.Format.Expr
import Toke.Parser.Layout

namespace Toke

open List Progress Parse

namespace Expr

variable {xs rest ys : List Lexeme} {p : Parser} {k : Nat} {x y : Lexeme} {e : Expr}
    {Q : Option Node → Parser → Prop}

/-! ## §1. States. -/

/-- A cast. -/
def isCast : Expr → Bool
  | cast _ _ => true
  | _ => false

/-- No cast is the operand of a cast. -/
def castsApart : Expr → Bool
  | ident _ => true
  | int _ => true
  | unary _ e => e.castsApart
  | binary _ l r => l.castsApart && r.castsApart
  | cast e _ => e.castsApart && !e.isCast

/-- How tightly a token binds to the operand before it: 0 ends every
expression, 10 is a cast, 11 is read with the operand itself. -/
def tightness : TokenKind → Nat
  | .rparen => 0
  | .eof => 0
  | .kwAs => 10
  | .or => 1
  | .and => 2
  | .pipe => 3
  | .caret => 4
  | .amp => 5
  | .lt | .gt | .le | .ge | .eqEq | .ne => 6
  | .shl | .shr => 7
  | .plus | .minus => 8
  | .star | .slash | .percent => 9
  | _ => 11

theorem ne_of_tightness {j t : TokenKind} (h : tightness j < k)
    (ht : k ≤ tightness t := by decide) : j ≠ t := by
  rintro rfl
  omega

variable {inp : Input} {n : Nat} {r : Knot}

/-- Nothing has gone wrong, and these are the tokens ahead. -/
structure Fresh (inp : Input) (n : Nat) (xs : List Lexeme) (p : Parser) : Prop where
  ok : (parserRank inp).ok p
  size : (parserRank inp).size p < n
  sees : (p.cur :: p.ahead).map (Token.lexeme inp.src) = xs
  errors : p.errors = []
  inSc : p.inSc = false

/-- An error is reported; up to level 10, or an `as` is left over. -/
structure Failed (inp : Input) (n k : Nat) (p : Parser) : Prop where
  ok : (parserRank inp).ok p
  size : (parserRank inp).size p < n
  stuck : p.errors ≠ [] ∨ (k < 11 ∧ p.cur.kind = .kwAs)

theorem Fresh.mono {m : Nat} (h : Fresh inp n xs p) (hle : n ≤ m) : Fresh inp m xs p :=
  ⟨h.ok, lt_of_lt_of_le h.size hle, h.sees, h.errors, h.inSc⟩

theorem Failed.mono {m j : Nat} (h : Failed inp n k p) (hle : n ≤ m)
    (hk : k < 11 → j < 11) : Failed inp m j p :=
  ⟨h.ok, lt_of_lt_of_le h.size hle, h.stuck.imp_right fun hs => ⟨hk hs.1, hs.2⟩⟩

theorem Failed.kwAs (h : Failed inp n k p) (herr : p.errors = []) : p.cur.kind = .kwAs :=
  (h.stuck.resolve_left fun hne => hne herr).2

theorem Failed.reported (h : Failed inp n 11 p) : p.errors ≠ [] := h.stuck.resolve_right (by omega)

theorem Fresh.cur (h : Fresh inp n (x :: xs) p) : p.cur.lexeme inp.src = x := by
  have hsees := h.sees
  rw [map_cons, cons.injEq] at hsees
  exact hsees.1

theorem Fresh.kind (h : Fresh inp n (x :: xs) p) : p.cur.kind = x.kind := by
  rw [← h.cur]
  rfl

theorem Fresh.text (h : Fresh inp n (x :: xs) p) : p.cur.text inp.src = x.text := by
  rw [← h.cur]
  rfl

theorem Fresh.ahead (h : Fresh inp n (x :: y :: xs) p) :
    ∃ t ts, p.ahead = t :: ts ∧ (t :: ts).map (Token.lexeme inp.src) = y :: xs := by
  have hsees := h.sees
  rw [map_cons, cons.injEq] at hsees
  obtain ⟨t, ts, hahead, -⟩ := map_eq_cons_iff.mp hsees.2
  rw [hahead] at hsees
  exact ⟨t, ts, hahead, hsees.2⟩

theorem Fresh.next (h : Fresh inp n (x :: y :: xs) p) : p.peekAt 1 = y.kind := by
  obtain ⟨t, ts, hahead, hsees⟩ := h.ahead
  rw [map_cons, cons.injEq] at hsees
  rw [Parser.peekAt, hahead, ← hsees.1]
  rfl

/-- Stepping over a token leaves a smaller state. -/
theorem Fresh.adv (h : Fresh inp n (x :: y :: xs) p) : Fresh inp (n - 1) (y :: xs) p.adv := by
  obtain ⟨t, ts, hahead, hsees⟩ := h.ahead
  have hsize := h.size
  have hok := adv_ok h.ok
  have hadv : p.adv = { p with cur := t, ahead := ts } := by rw [Parser.adv, hahead]
  rw [hadv] at hok ⊢
  refine ⟨hok, ?_, hsees, h.errors, h.inSc⟩
  simp only [Rank.size, parserRank, hahead, length_cons] at hsize ⊢
  omega

/-- The token stepped over stands directly behind the state. -/
theorem Fresh.behind (h : Fresh inp n (x :: y :: xs) p) : Behind inp p.cur p.adv := by
  obtain ⟨t, ts, hahead, -⟩ := h.ahead
  obtain ⟨pre, hpre⟩ := h.ok.2.2
  refine ⟨pre, ?_⟩
  rw [← hpre, Parser.adv, hahead]

theorem eatIf_hit {ks : List TokenKind} {also : Parser → Bool} (hk : p.cur.kind ∈ ks)
    (ha : also p) : eatIf ks also p = some (some p.cur, p.adv) := if_pos ⟨hk, ha⟩

theorem eatIf_miss {ks : List TokenKind} {also : Parser → Bool}
    (h : ¬ (p.cur.kind ∈ ks ∧ also p) := by simp [*]) :
    eatIf ks also p = some (none, p) := if_neg h

theorem eat_hit {k : TokenKind} (hk : p.cur.kind = k) : eat k p = some (some p.cur, p.adv) :=
  eatIf_hit (by simp [hk]) rfl

theorem eat_miss {k : TokenKind} (hk : p.cur.kind ≠ k := by simp [*]) :
    eat k p = some (none, p) :=
  eatIf_miss (by simp [hk])

/-- An error that is reported stays reported. -/
theorem Failed.runs {α : Type} {g : α → Gain} {x : Parse α} (hx : Runs (parserRank inp) n g x)
    (hok : (parserRank inp).ok p) (hsize : (parserRank inp).size p < n) (herr : p.errors ≠ []) :
    Leads x p fun _ p' => Failed inp n k p' := by
  refine (hx.leads hok hsize).post fun a p' h => ?_
  obtain ⟨hok', hm⟩ := h
  refine ⟨hok', lt_of_le_of_lt hm.size_le hsize, .inl ?_⟩
  have hle := hm.2.1
  simp only [parserRank] at hle
  intro hnil
  rw [hnil] at hle
  exact herr (length_eq_zero_iff.mp (Nat.le_zero.mp hle))

/-- The outcome of reading the tree `e` at level `k` before `rest`. -/
def Outcome (inp : Input) (n k : Nat) (e : Expr) (rest : List Lexeme) (o : Option Node)
    (p : Parser) : Prop :=
  if e.castsApart then Fresh inp n rest p ∧ ∃ m, o = some m ∧ Shows inp.src m e
  else Failed inp n k p

/-- The production `x` of level `k` reads `xs` as the tree `e`. -/
def Parses (inp : Input) (n k : Nat) (x : Parse (Option Node)) (xs : List Lexeme) (e : Expr) :
    Prop :=
  ∀ {y ys p}, Fresh inp n (xs ++ y :: ys) p → tightness y.kind < k →
    Leads x p (Outcome inp n k e (y :: ys))

/-- Going on from an outcome: only the good one has a node to go on with. -/
theorem Outcome.bind {α : Type} {x : Parse (Option Node)} {f : Option Node → Parse α}
    {Q : α → Parser → Prop} (hx : Leads x p (Outcome inp n k e rest))
    (hgood : e.castsApart → ∀ m p', Fresh inp n rest p' → Shows inp.src m e →
      Leads (f (some m)) p' Q)
    (hbad : e.castsApart = false → ∀ o p', Failed inp n k p' → Leads (f o) p' Q) :
    Leads (x >>= f) p Q := by
  refine .bind hx fun o p' h => ?_
  cases hapart : e.castsApart with
  | true =>
    rw [Outcome, if_pos hapart] at h
    obtain ⟨hfresh, m, rfl, hm⟩ := h
    exact hgood hapart m p' hfresh hm
  | false =>
    rw [Outcome, if_neg (by simp [hapart])] at h
    exact hbad hapart o p' h

theorem outcome_good {m : Node} (hapart : e.castsApart) (hfresh : Fresh inp n rest p)
    (hm : Shows inp.src m e) :
    Outcome inp n k e rest (some m) p := by
  rw [Outcome, if_pos hapart]
  exact ⟨hfresh, m, rfl, hm⟩

theorem outcome_bad {o : Option Node} (hapart : e.castsApart = false)
    (h : Failed inp n k p) : Outcome inp n k e rest o p := by
  rw [Outcome, if_neg (by simp [hapart])]
  exact h

/-! ## §2. Operands. -/

/-- The contract of the entry points at level `n`. -/
structure KnotParses (inp : Input) (n : Nat) (r : Knot) : Prop where
  expr : ∀ e : Expr, Parses inp n 1 r.expr e.lexemes e
  unary : ∀ e : Expr, Parses inp n 10 r.unary (parenLexemes e.isBinary e.lexemes) e
  typeExpr : ∀ (ty : Scalar) {y ys p}, Fresh inp n (ty.lexeme :: y :: ys) p → y.kind ≠ .dot →
    Leads r.typeExpr p fun o p' => Fresh inp n (y :: ys) p' ∧ o = some (.ofToken .typeExpr p.cur)

theorem close_hit {k : TokenKind} {w : String} (hk : p.cur.kind = k) :
    close k w p = some ((), p.adv) := by
  have hxp : xp k w p = some (some p.cur, p.adv) := bind_run (eat_hit hk)
  exact bind_run hxp

/-- A closer that is not there is reported. -/
theorem close_miss {k : TokenKind} {w : String} (hok : (parserRank inp).ok p)
    (hsize : (parserRank inp).size p < n) (hcur : p.cur.kind ≠ k)
    (hk : (TokenKind.eof == k) = false) :
    Leads (close k w) p fun _ p' => Failed inp n 11 p' := by
  have hruns : Returns inp n (close k w) := close_runs hk
  have herr : Leads (close k w) p fun _ p' => p'.errors ≠ [] := by
    have hnone : Leads (xp k w) p fun o _ => o = none := by
      refine leads_step (eat_miss hcur) ?_
      exact .bind (P := fun _ _ => True) (fun _ _ _ => trivial) fun _ _ _ => leads_pure rfl
    refine .bind hnone fun o p' ho => ?_
    subst ho
    exact leads_step rfl (leads_of_run rfl (by simp))
  intro a p' hrun
  obtain ⟨hok', hm⟩ := hruns.leads hok hsize a p' hrun
  exact ⟨hok', lt_of_le_of_lt hm.size_le hsize, .inl (herr a p' hrun)⟩

/-- The token kinds that start a printed operand. -/
def startKinds : List TokenKind := [.ident, .intLit, .lparen, .minus, .bang, .tilde]

theorem primary_ident {t : List Char} (h : Fresh inp n (⟨.ident, t⟩ :: y :: ys) p)
    (hy : y.kind ≠ .lparen) :
    Leads (primary r) p fun o p' =>
      Fresh inp n (y :: ys) p' ∧ o = some (.ofToken .ident p.cur) := by
  have hk : p.cur.kind = .ident := h.kind
  refine leads_step eatIf_miss ?_
  -- `fn` is a closure only before a parenthesis, `spawn` a task only in `sc`
  refine leads_step (eatIf_miss (by simp [h.next, hy])) ?_
  refine leads_step (eatIf_miss (by simp [h.inSc])) ?_
  refine leads_step (eat_hit hk) ?_
  exact leads_pure ⟨h.adv.mono (Nat.sub_le n 1), rfl⟩

theorem primary_int {t : List Char} (h : Fresh inp n (⟨.intLit, t⟩ :: y :: ys) p) :
    Leads (primary r) p fun o p' =>
      Fresh inp n (y :: ys) p' ∧ o = some (.ofToken .intLit p.cur) := by
  have hk : p.cur.kind = .intLit := h.kind
  refine leads_step eatIf_miss ?_
  refine leads_step eatIf_miss ?_
  refine leads_step eatIf_miss ?_
  refine leads_step eat_miss ?_
  refine leads_step eat_miss ?_
  refine leads_step eat_miss ?_
  refine leads_step eat_miss ?_
  refine leads_step eat_miss ?_
  refine leads_step eat_miss ?_
  refine leads_step (eatIf_hit (by simp [hk]) rfl) ?_
  simp only [hk]
  exact leads_pure ⟨h.adv.mono (Nat.sub_le n 1), rfl⟩

/-- A tree in parentheses is read, or the closing one is missed. -/
theorem primary_paren (hknot : KnotParses inp n r) (e : Expr)
    (h : Fresh inp (n + 1) (lparen :: (e.lexemes ++ rparen :: y :: ys)) p) :
    Leads (primary r) p (Outcome inp (n + 1) 11 e (y :: ys)) := by
  have hk : p.cur.kind = .lparen := h.kind
  obtain ⟨z, zs, hz⟩ : ∃ z zs, e.lexemes ++ rparen :: y :: ys = z :: zs := by
    cases e.lexemes with
    | nil => exact ⟨_, _, rfl⟩
    | cons z zs => exact ⟨_, _, rfl⟩
  rw [hz] at h
  have hadv : Fresh inp n (z :: zs) p.adv := h.adv
  rw [← hz] at hadv
  refine leads_step eatIf_miss ?_
  refine leads_step eatIf_miss ?_
  refine leads_step eatIf_miss ?_
  refine leads_step eat_miss ?_
  refine leads_step eat_miss ?_
  refine leads_step eat_miss ?_
  refine leads_step eat_miss ?_
  refine leads_step (eat_hit hk) ?_
  refine Outcome.bind (hknot.expr e hadv (by decide)) ?_ ?_
  · intro hapart m p' hfresh hm
    refine leads_step (close_hit hfresh.kind) ?_
    have hrest : Fresh inp (n + 1) (y :: ys) p'.adv := hfresh.adv.mono (by omega)
    exact leads_pure (outcome_good hapart hrest hm)
  · intro hapart o p' hfail
    have hclose : Leads (close .rparen "')'") p' fun _ p'' => Failed inp n 11 p'' := by
      by_cases herr : p'.errors = []
      · have hcur := hfail.kwAs herr
        exact close_miss hfail.ok hfail.size (by simp [hcur]) rfl
      · exact Failed.runs (close_runs rfl) hfail.ok hfail.size herr
    refine .bind hclose fun _ p'' h' => ?_
    exact leads_pure (outcome_bad hapart (h'.mono (Nat.le_succ n) id))

/-- After an operand, what does not bind to it ends the loops of
`parse_postfix` and `parse_call`. -/
theorem postfixTurn_stops (h : tightness p.cur.kind < 11) (l : Node) :
    postfixTurn r l p = some (.done l, p) := by
  have hdot : p.cur.kind ≠ .dot := ne_of_tightness h
  have hbracket : p.cur.kind ≠ .lbracket := ne_of_tightness h
  exact (bind_run (eat_miss hdot)).trans (bind_run (eat_miss hbracket))

theorem callTurn_stops (h : tightness p.cur.kind < 11) (l : Node) :
    callTurn r l p = some (.done l, p) := by
  have hparen : p.cur.kind ≠ .lparen := ne_of_tightness h
  exact (bind_run (eat_miss hparen)).trans (postfixTurn_stops h l)

/-! ### Suffixes, casts and prefix operators. -/

/-- The kinds that start an operand of level 11. -/
def operandKinds : List TokenKind := [.ident, .intLit, .lparen]

/-- `as TypeExpr` makes a cast; the type name has no sigil, since an `as`
stands before it. -/
theorem typeSuffix_cast (hlex : Lexical inp) (hknot : KnotParses inp n r) (ty : Scalar) {l : Node}
    (h : Fresh inp (n + 1) (asLexeme :: ty.lexeme :: y :: ys) p) (hy : y.kind ≠ .dot)
    (hl : Shows inp.src l e) :
    Leads (typeSuffix r .kwAs .castExpr l) p fun m p' =>
      Fresh inp (n + 1) (y :: ys) p' ∧ Shows inp.src m (cast e ty) := by
  have hk : p.cur.kind = .kwAs := h.kind
  have hadv : Fresh inp n (ty.lexeme :: y :: ys) p.adv := h.adv
  refine leads_step (eat_hit hk) ?_
  refine .bind (hknot.typeExpr ty hadv hy) fun o p' h' => ?_
  obtain ⟨hrest, rfl⟩ := h'
  refine leads_pure ⟨hrest.mono (Nat.le_succ n), ?_⟩
  refine ⟨rfl, l, .ofToken .typeExpr p.adv.cur, rfl, hl, rfl, hadv.text, rfl, ?_⟩
  intro hsigil
  obtain ⟨pre, hpre⟩ := h.behind
  have hne : p.adv.cur.kind ≠ .eof := by
    rw [hadv.kind]
    intro heof
    have hall : ∀ k ∈ wordKinds, k ≠ .eof := by decide
    exact hall _ (classifyIdent_mem _) heof
  have hdollar := hlex.sigil pre p.cur p.adv.cur p.adv.ahead hpre hne hsigil
  rw [hk] at hdollar
  cases hdollar

theorem typeSuffix_stops {k : TokenKind} {kind : NodeKind} (hk : p.cur.kind ≠ k)
    (l : Node) : typeSuffix r k kind l p = some (l, p) := bind_run (eat_miss hk)

/-- `parse_unary` on what starts without a prefix operator. -/
theorem unary_castProp (h : Fresh inp n (x :: xs) p) (hx : x.kind ∈ operandKinds)
    (hq : Leads (castProp r) p Q) :
    Leads (Parse.unary r) p Q := by
  refine leads_step (eatIf_miss ?_) hq
  rintro ⟨hmem, -⟩
  rw [h.kind] at hmem
  have hall : ∀ k ∈ operandKinds, k ∉ [TokenKind.minus, .bang, .tilde] := by decide
  exact hall _ hx hmem

section

variable (hr : r.At inp n)

include hr

/-- An operand, then a loop that has nothing to read. -/
theorem operandLoop_leads {x : Parse (Option Node)} {turn : Node → Parse (Turn Node Node)}
    (hturn : ∀ l, Turns inp (n + 1) (turn l))
    (hstop : ∀ {q : Parser} l, q.cur.kind = y.kind → turn l q = some (.done l, q))
    (hx : Leads x p (Outcome inp (n + 1) 11 e (y :: ys))) :
    Leads (do
      match ← x with
      | none => return none
      | some l => return some (← iter turn r.fuel l)) p (Outcome inp (n + 1) 11 e (y :: ys)) := by
  refine Outcome.bind hx ?_ ?_
  · intro hapart m p' hfresh hm
    have hloop : Leads (iter turn r.fuel m) p' fun l p'' => l = m ∧ p'' = p' :=
      leads_iter (leads_of_run (hstop m hfresh.kind) ⟨rfl, rfl⟩) r.fuel
    refine .bind hloop fun l p'' h => ?_
    obtain ⟨rfl, rfl⟩ := h
    exact leads_pure (outcome_good hapart hfresh hm)
  · intro hapart o p' hfail
    cases o with
    | none => exact leads_pure (outcome_bad hapart hfail)
    | some l =>
      have herr := hfail.reported
      refine .bind (Failed.runs (k := 11) (loop_runs hr hturn l) hfail.ok hfail.size herr) ?_
      exact fun _ p'' h => leads_pure (outcome_bad hapart h)

/-- What `parse_primary` reads, `parse_call` reads. -/
theorem parses_call (h : ∀ {y ys p}, Fresh inp (n + 1) (xs ++ y :: ys) p → tightness y.kind < 11 →
      Leads (primary r) p (Outcome inp (n + 1) 11 e (y :: ys))) :
    Parses inp (n + 1) 11 (call r) xs e := by
  intro y ys p hfresh htight
  have hpostfix : Leads (postfixExpr r) p (Outcome inp (n + 1) 11 e (y :: ys)) := by
    refine operandLoop_leads hr (postfixTurn_runs hr) ?_ (h hfresh htight)
    intro q l hq
    exact postfixTurn_stops (by rw [hq]; exact htight) l
  refine operandLoop_leads hr (callTurn_runs hr) ?_ hpostfix
  intro q l hq
  exact callTurn_stops (by rw [hq]; exact htight) l

theorem call_ident (x : IdentText) :
    Parses inp (n + 1) 11 (call r) (ident x).lexemes (ident x) := by
  refine parses_call hr fun {y ys p} hfresh htight => ?_
  have hy : y.kind ≠ .lparen := ne_of_tightness htight
  refine (primary_ident hfresh hy).post fun o p' h => ?_
  obtain ⟨hrest, rfl⟩ := h
  exact outcome_good rfl hrest ⟨rfl, hfresh.text, rfl⟩

theorem call_int (i : IntText) :
    Parses inp (n + 1) 11 (call r) (int i).lexemes (int i) := by
  refine parses_call hr fun {y ys p} hfresh htight => ?_
  refine (primary_int hfresh).post fun o p' h => ?_
  obtain ⟨hrest, rfl⟩ := h
  exact outcome_good rfl hrest ⟨rfl, hfresh.text, rfl⟩

theorem suffix_runs {k : TokenKind} (hk : (TokenKind.eof == k) = false) (kind : NodeKind)
    (l : Node) : Returns inp (n + 1) (typeSuffix r k kind l) :=
  Runs.try (eat_runs hk) (Safe.pure l) fun _ => Runs.then hr.typeExpr.safe fun _ => Safe.pure _

/-- `parse_cast_prop` after its operand. -/
theorem castProp_leads (hcall : Leads (call r) p (Outcome inp (n + 1) 11 e rest))
    (hgood : e.castsApart → ∀ m p', Fresh inp (n + 1) rest p' → Shows inp.src m e → Leads (do
        let l ← typeSuffix r .kwAs .castExpr m
        return some (← typeSuffix r .bang .propagateExpr l)) p' Q)
    (hbad : e.castsApart = false → ∀ o p', Failed inp (n + 1) 10 p' → Q o p') :
    Leads (castProp r) p Q := by
  refine Outcome.bind hcall hgood ?_
  intro hapart o p' hfail
  cases o with
  | none => exact leads_pure (hbad hapart none p' (hfail.mono (le_refl _) (by omega)))
  | some l =>
    have herr := hfail.reported
    have hruns : Returns inp (n + 1) (do
        let l ← typeSuffix r .kwAs .castExpr l
        return some (← typeSuffix r .bang .propagateExpr l) : Parse (Option Node)) := by
      refine .then (suffix_runs hr rfl _ l) fun l' => ?_
      exact Runs.then (suffix_runs hr rfl _ l') fun _ => Safe.pure _
    exact (Failed.runs hruns hfail.ok hfail.size herr).post fun o p'' h => hbad hapart o p'' h

/-- What stands without a suffix. -/
theorem parses_unary (hx : x.kind ∈ operandKinds) (h : Parses inp (n + 1) 11 (call r) (x :: xs) e) :
    Parses inp (n + 1) 10 (Parse.unary r) (x :: xs) e := by
  intro y ys p hfresh htight
  refine unary_castProp hfresh hx ?_
  refine castProp_leads hr (h hfresh (by omega)) ?_ fun hapart o p' hfail => outcome_bad hapart hfail
  intro hapart m p' hrest hm
  rw [← hrest.kind] at htight
  have has : p'.cur.kind ≠ .kwAs := ne_of_tightness htight
  have hbang : p'.cur.kind ≠ .bang := ne_of_tightness htight
  refine leads_step (typeSuffix_stops has m) (leads_step (typeSuffix_stops hbang m) ?_)
  exact leads_pure (outcome_good hapart hrest hm)

variable (hknot : KnotParses inp n r)

include hknot

theorem call_paren (e : Expr) :
    Parses inp (n + 1) 11 (call r) (parenLexemes true e.lexemes) e := by
  refine parses_call hr fun {y ys p} hfresh htight => ?_
  have hsees : parenLexemes true e.lexemes ++ y :: ys =
      lparen :: (e.lexemes ++ rparen :: y :: ys) := by simp [parenLexemes]
  rw [hsees] at hfresh
  exact primary_paren hknot e hfresh

/-- The operand of a cast that is not a cast is read at level 11. -/
theorem parses_castOperand (e : Expr) (hcast : e.isCast = false) :
    Parses inp (n + 1) 11 (call r) (parenLexemes e.isOperator e.lexemes) e ∧
      ∃ x xs, parenLexemes e.isOperator e.lexemes = x :: xs ∧ x.kind ∈ operandKinds := by
  cases e with
  | ident x => exact ⟨call_ident hr x, _, _, rfl, by simp [operandKinds]⟩
  | int i => exact ⟨call_int hr i, _, _, rfl, by simp [operandKinds]⟩
  | unary o e | binary o l r => exact ⟨call_paren hr hknot _, _, _, rfl, by decide⟩
  | cast e ty => simp [isCast] at hcast

variable (hlex : Lexical inp)

include hlex

/-- An operand and its cast, whatever follows. -/
theorem castProp_cast (h : Parses inp (n + 1) 11 (call r) xs e) (ty : Scalar) (hdot : y.kind ≠ .dot)
    (hbang : y.kind ≠ .bang)
    (hfresh : Fresh inp (n + 1) (xs ++ asLexeme :: ty.lexeme :: y :: ys) p) :
    Leads (castProp r) p fun o p' =>
      if e.castsApart then
        Fresh inp (n + 1) (y :: ys) p' ∧ ∃ m, o = some m ∧ Shows inp.src m (cast e ty)
      else Failed inp (n + 1) 10 p' := by
  refine castProp_leads hr (h hfresh (by decide)) ?_ ?_
  · intro hapart m p' hrest hm
    refine .bind (typeSuffix_cast hlex hknot ty hrest hdot hm) fun m' p'' h' => ?_
    obtain ⟨hrest', hm'⟩ := h'
    refine leads_step (typeSuffix_stops (by rw [hrest'.kind]; exact hbang) m') ?_
    refine leads_pure ?_
    rw [if_pos hapart]
    exact ⟨hrest', m', rfl, hm'⟩
  · intro hapart o p' hfail
    rw [if_neg (by simp [hapart])]
    exact hfail

/-- A cast of something that is not a cast. -/
theorem parses_cast
    (hx : x.kind ∈ operandKinds) (h : Parses inp (n + 1) 11 (call r) (x :: xs) e) (ty : Scalar)
    (hcast : e.isCast = false) :
    Parses inp (n + 1) 10 (Parse.unary r) (x :: xs ++ [asLexeme, ty.lexeme]) (cast e ty) := by
  intro y ys p hfresh htight
  have hdot : y.kind ≠ .dot := ne_of_tightness htight
  have hbang : y.kind ≠ .bang := ne_of_tightness htight
  have hsees : x :: xs ++ [asLexeme, ty.lexeme] ++ y :: ys =
      (x :: xs) ++ asLexeme :: ty.lexeme :: y :: ys := by simp
  rw [hsees] at hfresh
  refine unary_castProp hfresh hx ?_
  refine (castProp_cast hr hknot hlex h ty hdot hbang hfresh).post fun o p' h' => ?_
  have hapart : (cast e ty).castsApart = e.castsApart := by simp [castsApart, hcast]
  rw [Outcome, hapart]
  exact h'

/-- **A second `as` is left over**: whatever the casts before it hold. -/
theorem cast_stuck (hcast : e.isCast) (hy : y.kind = .kwAs)
    (hfresh : Fresh inp (n + 1) (e.lexemes ++ y :: ys) p) :
    Leads (Parse.unary r) p fun _ p' => Failed inp (n + 1) 10 p' := by
  induction e generalizing y ys with
  | ident x => simp [isCast] at hcast
  | int i => simp [isCast] at hcast
  | unary o e => simp [isCast] at hcast
  | binary o l r => simp [isCast] at hcast
  | cast e ty ih =>
    have hsees : (cast e ty).lexemes ++ y :: ys =
        parenLexemes e.isOperator e.lexemes ++ asLexeme :: ty.lexeme :: y :: ys := by simp [lexemes]
    rw [hsees] at hfresh
    cases hinner : e.isCast with
    | true =>
      -- the inner cast already leaves its `as`
      have hop : e.isOperator = false := by cases e <;> simp_all [isCast, isOperator]
      rw [hop] at hfresh
      exact ih hinner rfl hfresh
    | false =>
      obtain ⟨hparses, x, xs, hxs, hx⟩ := parses_castOperand hr hknot e hinner
      rw [hxs] at hfresh hparses
      refine unary_castProp hfresh hx ?_
      have hne : y.kind ≠ .dot ∧ y.kind ≠ .bang := by simp [hy]
      refine (castProp_cast hr hknot hlex hparses ty hne.1 hne.2 hfresh).post fun o p' h' => ?_
      split at h'
      · obtain ⟨hrest, -⟩ := h'
        exact ⟨hrest.ok, hrest.size, .inr ⟨by decide, hrest.kind.trans hy⟩⟩
      · exact h'

/-- **Casts are read at level 10.** -/
theorem parses_casts (e : Expr)
    (ty : Scalar) : Parses inp (n + 1) 10 (Parse.unary r) (cast e ty).lexemes (cast e ty) := by
  cases hinner : e.isCast with
  | false =>
    obtain ⟨hparses, x, xs, hxs, hx⟩ := parses_castOperand hr hknot e hinner
    show Parses inp (n + 1) 10 (Parse.unary r)
      (parenLexemes e.isOperator e.lexemes ++ [asLexeme, ty.lexeme]) (cast e ty)
    rw [hxs] at hparses ⊢
    exact parses_cast hr hknot hlex hx hparses ty hinner
  | true =>
    intro y ys p hfresh htight
    have hop : e.isOperator = false := by cases e <;> simp_all [isCast, isOperator]
    have hsees : (cast e ty).lexemes ++ y :: ys = e.lexemes ++ asLexeme :: ty.lexeme :: y :: ys := by
      simp [lexemes, hop, parenLexemes]
    rw [hsees] at hfresh
    refine (cast_stuck hr hknot hlex hinner rfl hfresh).post fun o p' h => ?_
    exact outcome_bad (by simp [castsApart, hinner]) h

end

/-- **Prefix operators**, through the entry point. -/
theorem parses_operator (hknot : KnotParses inp n r) (o : UnOp) (e : Expr) :
    Parses inp (n + 1) 10 (Parse.unary r) (unary o e).lexemes (unary o e) := by
  intro y ys p hfresh htight
  have hk : p.cur.kind = o.op := hfresh.kind
  have hne : ∃ z zs, parenLexemes e.isBinary e.lexemes ++ y :: ys = z :: zs := by
    cases parenLexemes e.isBinary e.lexemes with
    | nil => exact ⟨_, _, rfl⟩
    | cons z zs => exact ⟨_, _, rfl⟩
  have hadv : Fresh inp n (parenLexemes e.isBinary e.lexemes ++ y :: ys) p.adv := by
    obtain ⟨z, zs, hz⟩ := hne
    have hsees : (unary o e).lexemes ++ y :: ys = o.lexeme :: z :: zs := by
      rw [← hz]
      rfl
    rw [hsees] at hfresh
    rw [hz]
    exact hfresh.adv
  refine leads_step (eatIf_hit (by rw [hk]; cases o <;> decide) rfl) ?_
  refine Outcome.bind (hknot.unary e hadv htight) ?_ ?_
  · intro hapart m p' hrest hm
    have hstruct : bangOnStruct p.cur (some m) p' = some ((), p') := by
      refine congrFun (if_neg ?_) p'
      cases e <;> simp_all [Shows]
    refine leads_step hstruct (leads_pure ?_)
    exact outcome_good hapart (hrest.mono (Nat.le_succ n)) ⟨rfl, hk, m, rfl, hm⟩
  · intro hapart operand p' hfail
    have hfail : Failed inp (n + 1) 10 p' := hfail.mono (Nat.le_succ n) id
    have hbang : Leads (bangOnStruct p.cur operand) p' fun _ p'' => Failed inp (n + 1) 10 p'' := by
      unfold bangOnStruct
      split
      · refine leads_of_run rfl ⟨hfail.ok, ?_, .inl (by simp)⟩
        have hsize := hfail.size
        simp only [Rank.size, parserRank, length_cons] at hsize ⊢
        omega
      · exact leads_pure hfail
    exact .bind hbang fun _ p'' h => leads_pure (outcome_bad hapart h)

/-! ## §3. Left-associative levels.

A chain `a - b - c` is one operand and a loop, so the tree `(a - b) - c` is
read with what is left of the loop as a continuation. -/

/-- A left-associative level whose loop may take `fuel` turns. -/
def chain (fuel : Nat) (ops : List TokenKind) (next : Parse (Option Node)) :
    Parse (Option Node) := do
  match ← next with
  | none => return none
  | some l => return some (← iter (binaryTurn ops next) fuel l)

/-- The chain reads `xs` as the tree `e`, and its loop goes on from there. -/
def Chains (inp : Input) (n k : Nat) (ops : List TokenKind) (next : Parse (Option Node))
    (xs : List Lexeme) (e : Expr) : Prop :=
  ∀ (fuel : Nat) {y ys p Q}, Fresh inp n (xs ++ y :: ys) p → tightness y.kind < k + 1 →
    (e.castsApart = true → ∀ m p', Fresh inp n (y :: ys) p' → Shows inp.src m e →
      ∀ fuel, Leads (iter (binaryTurn ops next) fuel m) p' fun l p'' => Q (some l) p'') →
    (e.castsApart = false → ∀ o p', Failed inp n 10 p' → Q o p') →
    Leads (chain fuel ops next) p Q

/-- A level of the chain: its operators bind as tightly as the level says. -/
structure LevelOps (k : Nat) (ops : List TokenKind) : Prop where
  pos : 1 ≤ k
  lt : k < 10
  mem : ∀ t ∈ ops, tightness t = k

section

variable {k : Nat} {ops : List TokenKind} {next : Parse (Option Node)}

variable {xs : List Lexeme}

theorem LevelOps.not_mem (hops : LevelOps k ops) {t : TokenKind} (ht : tightness t ≠ k) : t ∉ ops :=
  fun hmem => ht (hops.mem t hmem)

theorem LevelOps.eof (hops : LevelOps k ops) : ops.contains TokenKind.eof = false := by
  have hpos := hops.pos
  have hmem : TokenKind.eof ∉ ops := hops.not_mem (by show 0 ≠ k; omega)
  simpa using hmem

theorem LevelOps.kwAs (hops : LevelOps k ops) : TokenKind.kwAs ∉ ops := by
  refine hops.not_mem ?_
  have hlt := hops.lt
  show 10 ≠ k
  omega

theorem binaryTurn_stops {p : Parser} (hk : p.cur.kind ∉ ops) (l : Node) :
    binaryTurn ops next l p = some (.done l, p) := bind_run (eatIf_miss fun h => hk h.1)

/-- No turn recovers from a failure. -/
theorem failed_loop (hops : LevelOps k ops) (hnext : Advances inp (n + 1) next) {p : Parser}
    (hfail : Failed inp (n + 1) 10 p) (fuel : Nat) (l : Node) :
    Leads (iter (binaryTurn ops next) fuel l) p fun _ p' => Failed inp (n + 1) 10 p' := by
  refine iter_leads (I := fun q => Failed inp (n + 1) 10 q) ?_ fuel l hfail
  intro l q hq
  by_cases herr : q.errors = []
  · have hcur := hq.kwAs herr
    exact leads_of_run (binaryTurn_stops (by rw [hcur]; exact hops.kwAs) l) hq
  · have hturn : Turns inp (n + 1) (binaryTurn ops next l) := by
      refine .try (eatIf_runs hops.eof) (.pure _ rfl) fun t => ?_
      exact Runs.then (hnext.safe.level (Nat.le_succ n)) fun _ => Safe.pure _
    exact Failed.runs hturn hq.ok hq.size herr

theorem chains_of_parses (hops : LevelOps k ops) (hnext : Advances inp (n + 1) next) {e : Expr}
    (h : Parses inp (n + 1) (k + 1) next xs e) : Chains inp (n + 1) k ops next xs e := by
  intro fuel y ys p Q hfresh htight hgo hfailed
  refine Outcome.bind (h hfresh htight) ?_ ?_
  · intro hapart m p' hrest hm
    exact .bind (hgo hapart m p' hrest hm fuel) fun l p'' hq => leads_pure hq
  · intro hapart o p' hfail
    have hfail : Failed inp (n + 1) 10 p' := hfail.mono (le_refl _) (by omega)
    cases o with
    | none => exact leads_pure (hfailed hapart none p' hfail)
    | some l =>
      refine .bind (failed_loop hops hnext hfail fuel l) fun l' p'' h' => ?_
      exact leads_pure (hfailed hapart (some l') p'' h')

/-- One more operator of the level. -/
theorem Chains.binary (hops : LevelOps k ops)
    (hnext : Advances inp (n + 1) next) {o : BinOp} (ho : o.token ∈ ops)
    (hne : o ≠ .eq) {ys : List Lexeme} {l r : Expr} (hl : Chains inp (n + 1) k ops next xs l)
    (hr : Parses inp (n + 1) (k + 1) next ys r) (hys : ys ≠ []) :
    Chains inp (n + 1) k ops next (xs ++ o.lexeme :: ys) (Expr.binary o l r) := by
  intro fuel y zs p Q hfresh htight hgo hfailed
  have htok : tightness o.lexeme.kind < k + 1 := by
    have := hops.mem o.token ho
    show tightness o.token < k + 1
    omega
  have hsees : xs ++ o.lexeme :: ys ++ y :: zs = xs ++ o.lexeme :: (ys ++ y :: zs) := by simp
  rw [hsees] at hfresh
  refine hl fuel hfresh htok ?_ fun hapart q p' hfail => hfailed (by simp [castsApart, hapart]) q p' hfail
  intro hlapart a p' hrest ha
  have hcur : p'.cur.kind = o.token := hrest.kind
  obtain ⟨z, ys', rfl⟩ := exists_cons_of_ne_nil hys
  have hadv : Fresh inp (n + 1) (z :: ys' ++ y :: zs) p'.adv := hrest.adv.mono (by omega)
  refine leads_iter ?_
  refine leads_step (eatIf_hit (by rw [hcur]; exact ho) rfl) ?_
  refine Outcome.bind (hr hadv htight) ?_ ?_
  · intro hrapart b p'' hrest' hb
    refine leads_pure fun fuel => hgo (by simp [castsApart, hlapart, hrapart]) _ p'' hrest' ?_ fuel
    have hop : o.token = o.op := by cases o <;> first | rfl | exact absurd rfl hne
    exact ⟨rfl, hcur.trans hop, a, b, rfl, ha, hb⟩
  · intro hrapart q p'' hfail
    have hfail : Failed inp (n + 1) 10 p'' := hfail.mono (le_refl _) (by omega)
    refine leads_pure fun fuel => (failed_loop hops hnext hfail fuel _).post fun l' p₃ h' => ?_
    exact hfailed (by simp [castsApart, hrapart]) (some l') p₃ h'

/-- What the chain reads is read at its level. -/
theorem Chains.parses (hops : LevelOps k ops) {e : Expr} {r : Knot}
    (h : Chains inp (n + 1) k ops next xs e) :
    Parses inp (n + 1) k (binaryLevel r ops next) xs e := by
  intro y ys p hfresh htight
  have hlt := hops.lt
  refine h r.fuel hfresh (by omega) ?_ ?_
  · intro hapart m p' hrest hm
    refine leads_iter (leads_of_run (binaryTurn_stops ?_ m) (outcome_good hapart hrest hm))
    rw [hrest.kind]
    exact hops.not_mem (by omega)
  · exact fun hapart o p' hfail => outcome_bad hapart (hfail.mono (le_refl _) (by omega))

end

/-! ## §4. The levels. -/

/-- The comparisons. -/
def compareOps : List TokenKind := [.lt, .gt, .eqEq, .le, .ge, .ne]

/-- `parse_compare` after its first operand. -/
def compareRest (r : Knot) (l : Node) : Parse (Option Node) := do
  match ← eatIf compareOps (fun _ => true) with
  | some t =>
    let op := if t.kind = .eqEq then .eq else t.kind
    return some (Parse.binary t op l (← shift r))
  | none =>
  match ← eat .eq with
  | some t =>
    err 2002 t "`=` is assignment; use `==` for equality"
    return some (Parse.binary t .eq l (← shift r))
  | none => return some l

theorem compareRest_stops (hk : p.cur.kind ∉ compareOps) (heq : p.cur.kind ≠ .eq)
    (l : Node) : compareRest r l p = some (some l, p) :=
  (bind_run (eatIf_miss fun h => hk h.1)).trans (bind_run (eat_miss heq))

/-- The production of each level. -/
def level (r : Knot) : Nat → Parse (Option Node)
  | 1 => orExpr r
  | 2 => andExpr r
  | 3 => bitor r
  | 4 => bitxor r
  | 5 => bitand r
  | 6 => compare r
  | 7 => shift r
  | 8 => add r
  | 9 => mul r
  | 10 => Parse.unary r
  | _ => call r

/-- The operators of each left-associative level. -/
def levelOps : Nat → List TokenKind
  | 1 => [.or]
  | 2 => [.and]
  | 3 => [.pipe]
  | 4 => [.caret]
  | 5 => [.amp]
  | 7 => [.shl, .shr]
  | 8 => [.plus, .minus]
  | 9 => [.star, .slash, .percent]
  | _ => []

/-- The levels that are not the comparison. -/
theorem level_chain (r : Knot) (hpos : 1 ≤ k) (hlt : k < 10) (hne : k ≠ 6) :
    level r k = binaryLevel r (levelOps k) (level r (k + 1)) ∧ LevelOps k (levelOps k) := by
  interval_cases k
  all_goals first
    | exact absurd rfl hne
    | exact ⟨rfl, by decide, by decide, by decide⟩

section

variable (hr : r.At inp n)

include hr

theorem failed_compareRest (hfail : Failed inp (n + 1) 10 p)
    (l : Node) : Leads (compareRest r l) p fun _ p' => Failed inp (n + 1) 10 p' := by
  by_cases herr : p.errors = []
  · have hcur := hfail.kwAs herr
    refine leads_of_run (compareRest_stops ?_ ?_ l) hfail
    · rw [hcur]
      decide
    · rw [hcur]
      decide
  · have hshift : Returns inp n (shift r) := (shift_runs hr).safe.level (Nat.le_succ n)
    have hruns : Returns inp (n + 1) (compareRest r l) := by
      refine Runs.try (eatIf_runs rfl) ?_ fun t => Runs.then hshift fun _ => Safe.pure _
      refine Runs.try (eat_runs rfl) (Safe.pure _) fun t => ?_
      exact Runs.then err_runs.safe fun _ => Runs.then hshift fun _ => Safe.pure _
    exact Failed.runs hruns hfail.ok hfail.size herr

/-- `parse_compare`, from what its first operand leads to. -/
theorem compare_leads (hshift : Leads (shift r) p (Outcome inp (n + 1) 7 e rest))
    (hgood : e.castsApart → ∀ m p', Fresh inp (n + 1) rest p' → Shows inp.src m e →
      Leads (compareRest r m) p' Q)
    (hbad : e.castsApart = false → ∀ o p', Failed inp (n + 1) 10 p' → Q o p') :
    Leads (compare r) p Q := by
  refine Outcome.bind hshift hgood ?_
  intro hapart o p' hfail
  have hfail : Failed inp (n + 1) 10 p' := hfail.mono (le_refl _) (by omega)
  cases o with
  | none => exact leads_pure (hbad hapart none p' hfail)
  | some l => exact (failed_compareRest hr hfail l).post fun o p'' h => hbad hapart o p'' h

theorem compare_of_shift
    (h : Parses inp (n + 1) 7 (shift r) xs e) : Parses inp (n + 1) 6 (compare r) xs e := by
  intro y ys p hfresh htight
  refine compare_leads hr (h hfresh (by omega)) ?_ fun hapart o p' hfail =>
    outcome_bad hapart (hfail.mono (le_refl _) (by omega))
  intro hapart m p' hrest hm
  refine leads_of_run (compareRest_stops ?_ ?_ m) (outcome_good hapart hrest hm)
  · rw [hrest.kind]
    intro hmem
    have hall : ∀ t ∈ compareOps, tightness t = 6 := by decide
    have := hall _ hmem
    omega
  · rw [hrest.kind]
    exact ne_of_tightness htight

/-- **A comparison takes two operands of the next level.** -/
theorem parses_compare {o : BinOp} (ho : o.prec = 6) {a b : Expr}
    (ha : Parses inp (n + 1) 7 (shift r) xs a) (hb : Parses inp (n + 1) 7 (shift r) ys b)
    (hys : ys ≠ []) :
    Parses inp (n + 1) 6 (compare r) (xs ++ o.lexeme :: ys) (binary o a b) := by
  intro y zs p hfresh htight
  have htok : o.token ∈ compareOps ∧ tightness o.token = 6 ∧
      (if o.token = .eqEq then TokenKind.eq else o.token) = o.op := by
    cases o <;> first | decide | cases ho
  have hsees : xs ++ o.lexeme :: ys ++ y :: zs = xs ++ o.lexeme :: (ys ++ y :: zs) := by simp
  rw [hsees] at hfresh
  have hfollow : tightness o.lexeme.kind < 7 := by
    show tightness o.token < 7
    omega
  refine compare_leads hr (ha hfresh hfollow) ?_ fun hapart q p' hfail =>
    outcome_bad (by simp [castsApart, hapart]) (hfail.mono (le_refl _) (by omega))
  intro haapart l p' hrest hl
  have hcur : p'.cur.kind = o.token := hrest.kind
  obtain ⟨z, ys', rfl⟩ := exists_cons_of_ne_nil hys
  have hadv : Fresh inp (n + 1) (z :: ys' ++ y :: zs) p'.adv := hrest.adv.mono (by omega)
  refine leads_step (eatIf_hit (by rw [hcur]; exact htok.1) rfl) ?_
  refine Outcome.bind (hb hadv (by omega)) ?_ ?_
  · intro hbapart m p'' hrest' hm
    refine leads_pure (outcome_good (by simp [castsApart, haapart, hbapart]) hrest' ?_)
    refine ⟨rfl, ?_, l, m, rfl, hl, hm⟩
    show (if p'.cur.kind = .eqEq then TokenKind.eq else p'.cur.kind) = o.op
    rw [hcur]
    exact htok.2.2
  · intro hbapart q p'' hfail
    exact leads_pure (outcome_bad (by simp [castsApart, hbapart]) (hfail.mono (le_refl _) (by omega)))

theorem level_runs (k : Nat) : Advances inp (n + 1) (level r k) := by
  have h9 : Advances inp (n + 1) (mul r) := binaryLevel_runs hr rfl (unary_runs hr)
  have h8 : Advances inp (n + 1) (add r) := binaryLevel_runs hr rfl h9
  have h5 : Advances inp (n + 1) (bitand r) := binaryLevel_runs hr rfl (compare_runs hr)
  have h4 : Advances inp (n + 1) (bitxor r) := binaryLevel_runs hr rfl h5
  have h3 : Advances inp (n + 1) (bitor r) := binaryLevel_runs hr rfl h4
  have h2 : Advances inp (n + 1) (andExpr r) := binaryLevel_runs hr rfl h3
  unfold level
  split
  · exact orExpr_runs hr
  · exact h2
  · exact h3
  · exact h4
  · exact h5
  · exact compare_runs hr
  · exact shift_runs hr
  · exact h8
  · exact h9
  · exact unary_runs hr
  · exact call_runs hr

/-- **A tree is read one level down**, by the loop that has nothing to add. -/
theorem parses_down (hpos : 1 ≤ k) (hlt : k < 10)
    (h : Parses inp (n + 1) (k + 1) (level r (k + 1)) xs e) :
    Parses inp (n + 1) k (level r k) xs e := by
  by_cases hk : k = 6
  · subst hk
    exact compare_of_shift hr h
  · obtain ⟨heq, hops⟩ := level_chain r hpos hlt hk
    rw [heq]
    exact (chains_of_parses hops (level_runs hr (k + 1)) h).parses hops

theorem parses_level {top : Nat} (htop : top ≤ 10)
    (h : Parses inp (n + 1) top (level r top) xs e) (hpos : 1 ≤ k) (hle : k ≤ top) :
    Parses inp (n + 1) k (level r k) xs e := by
  induction hle using Nat.decreasingInduction with
  | self => exact h
  | of_succ j hj ih => exact parses_down hr hpos (by omega) (ih (by omega))

end

end Expr

end Toke
