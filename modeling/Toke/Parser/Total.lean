/-
  Toke.Parser.Total — **EVERY PRODUCTION RETURNS.**

  `Knot.At inp n r`: the entry points of `r` return from every state with
  fewer than `n` tokens and errors to go, and its loops may take `n + 1`
  turns.  Under that contract each production returns one level up, and says
  how far it moved: an expression or a type either consumes a token or
  reports an error (`optGain .move`), a statement list only returns.

  The one argument repeated below: a production first eats a token
  (`Runs.try`, `Runs.opt`), which lowers the level by one, and everything
  after that token, recursive calls included, runs at the lower level.
-/
import Toke.Parser.Program

namespace Toke

open Progress Parse

/-- The contract of the entry points at level `n`. -/
structure Knot.At (inp : Input) (n : Nat) (r : Knot) : Prop where
  fuel : r.fuel = n + 1
  interp : ∀ seg : List Char, seg.length ≤ inp.src.length → (r.interp seg).isSome
  expr : Runs (parserRank inp) n (optGain .move) r.expr
  stmtList : ∀ t, Safe (parserRank inp) n (r.stmtList t)
  typeExpr : Runs (parserRank inp) n (optGain .move) r.typeExpr
  unary : Runs (parserRank inp) n (optGain .move) r.unary
  ifCore : ∀ b, Runs (parserRank inp) n (optGain .move) (r.ifCore b)

/-- Returns from every state with fewer than `n` tokens and errors to go. -/
abbrev Returns {α : Type} (inp : Input) (n : Nat) (x : Parse α) : Prop := Safe (parserRank inp) n x

/-- Returns, and has consumed a token or reported an error. -/
abbrev Advances {α : Type} (inp : Input) (n : Nat) (x : Parse (Option α)) : Prop :=
  Runs (parserRank inp) n (optGain .move) x

/-- Returns, and is smaller than before when the loop goes on. -/
abbrev Turns {α β : Type} (inp : Input) (n : Nat) (x : Parse (Turn α β)) : Prop :=
  Runs (parserRank inp) n turnGain x

section

variable {inp : Input} {n : Nat} {r : Knot}

variable {α β : Type} {item : Parse (Option Node)}

theorem semiTurn_runs (hi : Returns inp n item)
    (m : Node) : Turns inp (n + 1) (semiTurn item m) := by
  refine .try (eat_runs rfl) (.pure _ rfl) fun _ => ?_
  exact hi.finish

theorem semiUntilTurn_runs (closer : TokenKind) (hi : Returns inp n item) (m : Node) :
    Turns inp (n + 1) (semiUntilTurn closer item m) := by
  refine .try (eat_runs rfl) (.pure _ rfl) fun _ => ?_
  refine .then peek_runs fun k => ?_
  exact Runs.ite (fun _ => Safe.pure _) fun _ => hi.finish

theorem dollarType_runs (at_ : Option Token) (op : TokenKind) :
    Returns inp n (dollarType at_ op) := by
  refine .then cur_runs fun nt => ?_
  refine Safe.opt (xp_runs rfl) ?_ fun _ => Safe.pure _
  exact err_runs.finish

theorem funcRef_runs : Returns inp n funcRef := by
  refine .then adv_runs fun nt => ?_
  refine Safe.opt (eatIf_runs rfl) (Safe.pure _) fun _ => ?_
  exact adv_runs.finish

/-- Recovery, then whatever is returned. -/
theorem syncThen_runs (a : α) : Returns inp n (do sync; return a) :=
  Runs.then sync_runs fun _ => Safe.pure a

/-- A token that has to be there; without it the production recovers. -/
theorem expect_runs {kind : TokenKind} {msg : String} {k : Option Token → Parse α} {a : α}
    (hkind : (TokenKind.eof == kind) = false) (hnone : k none = do sync; return a)
    (hsome : ∀ t, Returns inp n (k (some t))) : Returns inp n (xp kind msg >>= k) :=
  Safe.opt (xp_runs hkind) (hnone ▸ syncThen_runs a) hsome

theorem oldMatch_runs : Returns inp n oldMatch := by
  refine Runs.then (test_runs _) fun b => Runs.ite (fun _ => ?_) fun _ => Safe.pure _
  refine .then cur_runs fun t => ?_
  exact .then errGot_runs.safe fun _ => sync_runs

theorem mutDot_runs : Returns inp n mutDot := by
  refine .opt (eat_runs rfl) ?_ fun _ => .pure _
  refine Runs.then peek_runs fun k => Runs.ite (fun _ => Safe.pure _) fun _ => ?_
  exact (xp_runs rfl).finish

theorem setInSc_runs (b : Bool) : Returns inp n (setInSc b) :=
  fun p hok _ => ⟨p.inSc, { p with inSc := b }, rfl, hok, le_refl _, le_refl _, trivial⟩

/-- A production that eats or reports has moved. -/
theorem moves_of_opt {m : Nat} {x : Parse (Option Node)}
    (hx : Runs (parserRank inp) m (optGain .move) x) :
    Runs (parserRank inp) m (fun _ => .move) x :=
  hx.weaken fun o => by cases o <;> simp [optGain, Gain.rank]

/-- The check on the error cap: behind it, moving is shrinking. -/
theorem underBudget_runs {m : Nat} {g : α → Gain} {x y : Parse α} (hx : Runs (parserRank inp) m g x)
    (hy : Runs (parserRank inp) m (fun _ => .move) y) (hg : ∀ a, (g a).rank ≤ Gain.shrink.rank) :
    Runs (parserRank inp) m g (do
      if ← test (fun p => p.errors.length ≥ maxParseErrors) then x else y) := by
  intro p hok hs
  by_cases hb : p.errors.length ≥ maxParseErrors
  · obtain ⟨a, p', hrun, hrest⟩ := hx p hok hs
    refine ⟨a, p', (bind_run (a := true) ?_).trans hrun, hrest⟩
    simp [test, hb]
  · obtain ⟨a, p', hrun, hok', hm⟩ := hy p hok hs
    have hlt : (parserRank inp).spent p < (parserRank inp).cap := Nat.lt_of_not_le hb
    refine ⟨a, p', (bind_run (a := false) ?_).trans hrun, hok', (hm.shrink hlt).weaken (hg a)⟩
    simp [test, hb]

theorem turnGain_le (t : Turn α β) : (turnGain t).rank ≤ Gain.shrink.rank := by
  cases t <;> simp [turnGain, Gain.rank]

variable (hr : r.At inp n)

include hr

/-- A loop of a production: each turn that goes on has made progress. -/
theorem loop_runs {body : α → Parse (Turn α β)} (hb : ∀ a, Turns inp (n + 1) (body a)) (a : α) :
    Returns inp (n + 1) (iter body r.fuel a) := by
  rw [hr.fuel]
  exact iter_runs hb (n + 1) (le_refl _) a

/-- The same loop where a token has been eaten before it. -/
theorem loop_runs_below {body : α → Parse (Turn α β)}
    (hb : ∀ a, Turns inp (n + 1) (body a)) (a : α) :
    Returns inp n (iter body r.fuel a) := (loop_runs hr hb a).level (Nat.le_succ n)

/-! ## §1. List loops. -/

theorem semiItems_runs (hi : Returns inp n item) (m : Node) :
    Returns inp n (semiItems r item m) := loop_runs_below hr (semiTurn_runs hi) m

theorem semiItemsUntil_runs (closer : TokenKind) (hi : Returns inp n item) (m : Node) :
    Returns inp n (semiItemsUntil r closer item m) :=
  loop_runs_below hr (semiUntilTurn_runs closer hi) m

theorem itemList_runs (closer : TokenKind) (hi : Returns inp n item) (m : Node) :
    Returns inp n (itemList r closer item m) := by
  refine .then peek_runs fun k => ?_
  refine Runs.ite (fun _ => Safe.pure _) fun _ => ?_
  exact .then hi fun _ => semiItems_runs hr hi _

/-! ## §2. Type expressions. -/

theorem funcType_runs : Advances inp (n + 1) (funcType r) := by
  refine .opt (xp_runs rfl) (.pure none rfl) fun t => ?_
  refine .then (itemList_runs hr _ hr.typeExpr.safe _) fun m => ?_
  refine .then (close_runs rfl) fun _ => ?_
  refine Safe.opt (xp_runs rfl) (Safe.pure _) fun _ => ?_
  exact hr.typeExpr.finish

theorem elemTypes_runs (t : Token) {closer : TokenKind}
    (hc : (TokenKind.eof == closer) = false) (mapMsg arrMsg : String) :
    Returns inp n (elemTypes r t closer mapMsg arrMsg) := by
  refine .then hr.typeExpr.safe fun first => ?_
  refine Safe.opt (eat_runs rfl) ?_ fun _ => ?_
  · exact (close_runs hc).finish
  · refine .then hr.typeExpr.safe fun second => ?_
    exact (close_runs hc).finish

theorem typeExpr_runs : Advances inp (n + 1) (typeExpr r) := by
  refine .try (eat_runs rfl) ?_ fun t => hr.typeExpr.finish
  -- module.$name
  refine .try (eatIf_runs rfl) ?_ fun _ =>
    Runs.then adv_runs fun _ => .then adv_runs fun _ => dollarType_runs _ _
  refine .try (eat_runs rfl) ?_ fun dt => dollarType_runs _ _
  -- @type, @(type), @(key:value)
  refine .try (eat_runs rfl) ?_ fun t => ?_
  rotate_left
  · refine .opt (eat_runs rfl) ?_ fun _ => elemTypes_runs hr t rfl _ _
    exact hr.typeExpr.finish
  refine .try (eat_runs rfl) ?_ fun t => elemTypes_runs hr t rfl _ _
  refine .then peek_runs fun k => .ite (fun _ => funcType_runs hr) fun _ => ?_
  refine .try (eatIf_runs rfl) ?_ fun t => .pure _
  refine .try (eat_runs rfl) ?_ fun t => .pure _
  refine .then cur_runs fun t => ?_
  exact .bind errGot_runs fun _ => .pure none rfl

/-! ## §3. Literals, primaries and postfixes. -/

/-- A string literal returns because each of its segments does. -/
theorem attach_runs (m : Node) : Returns inp n (fun p =>
      (attachInterp r.interp p.src p.profile m).map fun m => (some m, p) : Parse (Option Node)) := by
  intro p hok _
  have hseg : ∀ seg : List Char, seg.length ≤ p.src.length → (r.interp seg).isSome :=
    fun seg hlen => hr.interp seg (hok.2.1 ▸ hlen)
  have hi := attachInterp_returns hseg p.profile m
  obtain ⟨m', hm'⟩ := Option.isSome_iff_exists.mp hi
  exact ⟨some m', p, by simp only [hm', Option.map_some], hok, Rank.Moves.refl _ p⟩

theorem literal_runs : Advances inp (n + 1) (literal r) := by
  refine .try (eatIf_runs rfl) ?_ fun t => ?_
  · refine .then cur_runs fun t => ?_
    exact .bind errGot_runs fun _ => .pure none rfl
  · exact Runs.ite (fun _ => attach_runs hr _) fun _ => Safe.pure _

theorem oneParam_runs (fn : Node) : Returns inp n (oneParam r fn) := by
  refine .opt (xp_runs rfl) (.pure _) fun pt => ?_
  refine .opt (xp_runs rfl) (.pure _) fun _ => ?_
  exact hr.typeExpr.finish

theorem params_runs (fn : Node) : Returns inp n (params r fn) := by
  have turn : ∀ fn, Turns inp (n + 1) (paramTurn r fn) := by
    intro fn
    refine .try (eatIf_runs rfl) (.pure _ rfl) fun _ => ?_
    exact (oneParam_runs hr fn).finish
  refine Runs.then peek_runs fun k => Runs.ite (fun _ => Safe.pure _) fun _ => ?_
  exact .then (oneParam_runs hr fn) fun _ => loop_runs_below hr turn _

theorem returnSpec_runs : Returns inp n (returnSpec r) := by
  refine .then cur_runs fun t => ?_
  refine .then hr.typeExpr.safe fun ty => ?_
  refine Safe.opt (eat_runs rfl) (Safe.pure _) fun _ => ?_
  exact hr.typeExpr.finish

theorem block_runs (t : Token) (m : Node) : Returns inp n (block r t m) := by
  refine .then (hr.stmtList t) fun body => ?_
  exact (close_runs rfl).finish

theorem closure_runs (ft : Token) : Returns inp n (closure r ft) := by
  refine .then (xp_runs rfl).safe fun _ => ?_
  refine .then (params_runs hr _) fun m => ?_
  refine .then (close_runs rfl) fun _ => ?_
  refine .then ?_ fun m => ?_
  · refine .opt (eat_runs rfl) (.pure _) fun _ => ?_
    exact (returnSpec_runs hr).finish
  · refine Safe.opt (xp_runs rfl) ?_ fun _ => ?_
    · exact sync_runs.finish
    · exact (block_runs hr ft m).finish

theorem fieldInitTurn_runs (dollar : Bool) (m : Node) :
    Turns inp (n + 1) (fieldInitTurn r dollar m) := by
  refine .then peek_runs fun k => .ite (fun _ => .pure _ rfl) fun _ => ?_
  refine .then ?_ fun _ => ?_
  · exact Runs.ite (fun _ => (eat_runs rfl).safe) fun _ => Safe.pure _
  refine .try (eatIf_runs rfl) ?_ fun ft => ?_
  · -- no name: recover and leave the loop
    refine .then (xp_runs rfl).safe fun _ => ?_
    exact .then sync_runs fun _ => .pure _ rfl
  · refine .opt (xp_runs rfl) ?_ fun _ => ?_
    · exact sync_runs.finish
    · refine .then hr.expr.safe fun e => ?_
      exact Safe.opt (eat_runs rfl) (Safe.pure _) fun _ => Safe.pure _

theorem structOrType_runs (dollar : Bool) (t : Token) :
    Returns inp n (structOrType r dollar t) := by
  refine .opt (eat_runs rfl) (.pure _) fun _ => ?_
  refine .then (loop_runs_below hr (fieldInitTurn_runs hr dollar) _) fun m => ?_
  exact (close_runs rfl).finish

theorem mapEntryTurn_runs (closer : TokenKind) (m : Node) :
    Turns inp (n + 1) (mapEntryTurn r closer m) := by
  refine .try (eat_runs rfl) (.pure _ rfl) fun _ => ?_
  refine Runs.then peek_runs fun k => Runs.ite (fun _ => Safe.pure _) fun _ => ?_
  refine .then cur_runs fun et => ?_
  refine .then hr.expr.safe fun key => ?_
  refine Safe.opt (xp_runs rfl) (Safe.pure _) fun _ => ?_
  exact hr.expr.finish

theorem collection_runs (t : Token) {closer : TokenKind}
    (hc : (TokenKind.eof == closer) = false) (trailing : Bool) (mapMsg arrMsg : String) :
    Returns inp n (collection r t closer trailing mapMsg arrMsg) := by
  refine .opt (eat_runs hc) ?_ fun _ => .pure _
  refine .then hr.expr.safe fun first => ?_
  refine Safe.opt (eat_runs rfl) ?_ fun _ => ?_
  · -- an array literal
    refine .then ?_ fun m => ?_
    · exact .ite (fun _ => semiItemsUntil_runs hr _ hr.expr.safe _)
        fun _ => semiItems_runs hr hr.expr.safe _
    · exact (close_runs hc).finish
  · -- a map literal
    refine .then hr.expr.safe fun value => ?_
    refine .then (loop_runs_below hr (mapEntryTurn_runs hr closer) _) fun m => ?_
    exact (close_runs hc).finish

theorem primary_runs : Advances inp (n + 1) (primary r) := by
  refine .try (eatIf_runs rfl) ?_ fun _ => funcRef_runs
  refine .try (eatIf_runs rfl) ?_ fun ft => closure_runs hr ft
  refine .try (eatIf_runs rfl) ?_ fun st => hr.expr.finish
  refine .try (eat_runs rfl) ?_ fun t => .pure _
  refine .try (eat_runs rfl) ?_ fun t => structOrType_runs hr _ t
  refine .try (eat_runs rfl) ?_ fun _ => ?_
  rotate_left
  · refine .opt (eat_runs rfl) ?_ fun nt => structOrType_runs hr _ nt
    refine .then cur_runs fun t => ?_
    exact err_runs.finish
  refine .try (eat_runs rfl) ?_ fun t => ?_
  rotate_left
  · exact .opt (xp_runs rfl) (.pure _) fun _ => collection_runs hr t rfl _ _ _
  refine .try (eat_runs rfl) ?_ fun _ => ?_
  rotate_left
  · refine .then hr.expr.safe fun e => ?_
    exact (close_runs rfl).finish
  refine .try (eat_runs rfl) ?_ fun t => collection_runs hr t rfl _ _ _
  exact literal_runs hr

theorem getPostfix_runs (base : Node) (d f : Token) :
    Returns inp n (getPostfix r base d f) := by
  refine .then adv_runs fun _ => ?_
  refine .then ?_ fun first => ?_
  · exact Runs.then peek_runs fun k => Runs.ite (fun _ => Safe.pure _) fun _ => hr.expr.safe
  refine Safe.opt (g := fun _ => .stay) ?_ ?_ fun _ => Safe.pure _
  · cases first with
    | none => exact Safe.pure none
    | some e => exact (eat_runs rfl).safe
  · refine .then (semiItems_runs hr hr.expr.safe _) fun c => ?_
    exact (close_runs rfl).finish

theorem dotPostfix_runs (l : Node) (d : Token) :
    Returns inp n (dotPostfix r l d) := by
  refine .opt (eatIf_runs rfl) ?_ fun f =>
    Runs.then (getPostfix_runs hr l d f) fun _ => Safe.pure _
  refine .opt (eat_runs rfl) ?_ fun f => .pure _
  exact .opt (xp_runs rfl) (.pure _) fun f => .pure _

theorem indexPostfix_runs (l : Node) (d : Token) :
    Returns inp n (indexPostfix r l d) := by
  refine .then hr.expr.safe fun e => ?_
  exact (close_runs rfl).finish

theorem postfixTurn_runs (l : Node) :
    Turns inp (n + 1) (postfixTurn r l) := by
  refine .try (eat_runs rfl) ?_ fun d =>
    Safe.opt (dotPostfix_runs hr l d) (.pure _) fun _ => .pure _
  refine .try (eat_runs rfl) (.pure _ rfl) fun d => ?_
  exact (indexPostfix_runs hr l d).finish

/-- An operand, then a loop over what may follow it. -/
theorem operandLoop_runs {x : Parse (Option Node)} {turn : Node → Parse (Turn Node Node)}
    (hx : Advances inp (n + 1) x) (ht : ∀ l, Turns inp (n + 1) (turn l)) :
    Advances inp (n + 1) (do
      match ← x with
      | none => return none
      | some l => return some (← iter turn r.fuel l)) := by
  refine .opt hx (.pure none rfl) fun l => ?_
  exact (loop_runs_below hr ht l).finish

theorem postfixExpr_runs : Advances inp (n + 1) (postfixExpr r) :=
  operandLoop_runs hr (primary_runs hr) (postfixTurn_runs hr)

theorem callTurn_runs (l : Node) :
    Turns inp (n + 1) (callTurn r l) := by
  refine .try (eat_runs rfl) (postfixTurn_runs hr l) fun op => ?_
  refine .then (itemList_runs hr _ hr.expr.safe _) fun c => ?_
  exact (close_runs rfl).finish

theorem call_runs : Advances inp (n + 1) (call r) :=
  operandLoop_runs hr (postfixExpr_runs hr) (callTurn_runs hr)

/-! ## §4. The precedence chain. -/

theorem typeSuffix_runs {k : TokenKind} (hk : (TokenKind.eof == k) = false)
    (kind : NodeKind) (l : Node) : Returns inp n (typeSuffix r k kind l) := by
  refine .opt (eat_runs hk) (.pure _) fun t => ?_
  exact hr.typeExpr.finish

theorem castProp_runs : Advances inp (n + 1) (castProp r) := by
  refine .opt (call_runs hr) (.pure none rfl) fun l => ?_
  refine .then (typeSuffix_runs hr rfl _ _) fun l => ?_
  exact (typeSuffix_runs hr rfl _ _).finish

theorem unary_runs : Advances inp (n + 1) (unary r) := by
  refine .try (eatIf_runs rfl) (castProp_runs hr) fun t => ?_
  refine .then hr.unary.safe fun operand => ?_
  refine Runs.then ?_ fun _ => Safe.pure _
  exact Runs.ite (fun _ => err_runs.safe) fun _ => Safe.pure _

/-- A left-associative level returns because the level above it does. -/
theorem binaryLevel_runs {ops : List TokenKind}
    (hops : ops.contains TokenKind.eof = false) {next : Parse (Option Node)} (hnext : Advances inp (n + 1) next) :
    Advances inp (n + 1) (binaryLevel r ops next) := by
  refine operandLoop_runs hr hnext fun l => ?_
  refine .try (eatIf_runs hops) (.pure _ rfl) fun t => ?_
  exact (hnext.safe.level (Nat.le_succ n)).finish

theorem shift_runs : Advances inp (n + 1) (shift r) := by
  refine binaryLevel_runs hr rfl ?_
  refine binaryLevel_runs hr rfl ?_
  exact binaryLevel_runs hr rfl (unary_runs hr)

theorem compare_runs : Advances inp (n + 1) (compare r) := by
  have below : Returns inp n (shift r) := (shift_runs hr).safe.level (Nat.le_succ n)
  refine .opt (shift_runs hr) (.pure none rfl) fun l => ?_
  refine .opt (eatIf_runs rfl) ?_ fun t => below.finish
  refine .opt (eat_runs rfl) (.pure _) fun t => ?_
  refine .then err_runs.safe fun _ => ?_
  exact below.finish

theorem orExpr_runs : Advances inp (n + 1) (orExpr r) := by
  refine binaryLevel_runs hr rfl ?_
  refine binaryLevel_runs hr rfl ?_
  refine binaryLevel_runs hr rfl ?_
  refine binaryLevel_runs hr rfl ?_
  exact binaryLevel_runs hr rfl (compare_runs hr)

/-! ## §5. Match and `if`. -/

theorem returnValue_runs : Returns inp n (returnValue r) := by
  refine Runs.then peek_runs fun k => Runs.ite (fun _ => Safe.pure _) fun _ => ?_
  exact hr.expr.finish

theorem matchArmBody_runs : Returns inp n (matchArmBody r) := by
  refine .opt (eat_runs rfl) hr.expr.safe fun t => ?_
  refine .opt (returnValue_runs hr) (.pure _) fun val => ?_
  cases val with
  | none => exact syncThen_runs _
  | some e => exact .pure _

theorem matchArmRest_runs (arm : Node) : Returns inp n (matchArmRest r arm) := by
  refine expect_runs rfl rfl fun _ => ?_
  refine expect_runs rfl rfl fun bt => ?_
  exact (matchArmBody_runs hr).finish

theorem matchArm_runs : Returns inp n (matchArm r) := by
  refine .then cur_runs fun pt => ?_
  refine Safe.opt (eat_runs rfl) ?_ fun _ =>
    Safe.opt (xp_runs rfl) (Safe.pure _) fun nt => matchArmRest_runs hr _
  refine .opt (eatIf_runs rfl) ?_ fun _ => matchArmRest_runs hr _
  exact (xp_runs rfl).finish

theorem matchExpr_runs (t : Token) : Returns inp n (matchExpr r t) := by
  refine .then ((orExpr_runs hr).safe.level (Nat.le_succ n)) fun scrutinee => ?_
  refine expect_runs rfl rfl fun _ => ?_
  refine .then (matchArm_runs hr) fun arm => ?_
  refine .then (semiItemsUntil_runs hr _ (matchArm_runs hr) _) fun m => ?_
  exact (close_runs rfl).finish

theorem elseBranch_runs (exprForm : Bool) (t : Token) (m : Node) :
    Returns inp n (elseBranch r exprForm t m) := by
  refine .then peek_runs fun k => .ite (fun _ => ?_) fun _ => ?_
  · exact (hr.ifCore exprForm).finish
  · refine expect_runs rfl rfl fun _ => ?_
    refine .then (block_runs hr t m) fun m => ?_
    refine Runs.then ?_ fun _ => Safe.pure _
    exact Runs.ite (fun _ => Safe.pure _) fun _ => (eat_runs rfl).safe

theorem ifBranches_runs (exprForm : Bool) (t : Token) (m : Node) :
    Returns inp n (ifBranches r exprForm t m) := by
  refine .then (eat_runs rfl).safe fun _ => ?_
  refine expect_runs rfl rfl fun _ => ?_
  refine .then (block_runs hr t m) fun m => ?_
  refine Safe.opt (eat_runs rfl) ?_ fun _ => elseBranch_runs hr exprForm t m
  refine .ite (fun _ => ?_) fun _ => ?_
  · refine .then cur_runs fun t => ?_
    exact errGot_runs.finish
  · exact (eat_runs rfl).finish

theorem ifCore_runs (exprForm : Bool) :
    Advances inp (n + 1) (ifCore r exprForm) := by
  refine .opt (xp_runs rfl) (.pure none rfl) fun t => ?_
  refine expect_runs rfl rfl fun _ => ?_
  refine .then hr.expr.safe fun c => ?_
  refine .then (close_runs rfl) fun _ => ?_
  exact (ifBranches_runs hr exprForm t _).finish

theorem expr_runs : Advances inp (n + 1) (expr r) := by
  refine .then peek_runs fun k => .ite (fun _ => ifCore_runs hr true) fun _ => ?_
  refine .try (eat_runs rfl) ?_ fun t => matchExpr_runs hr t
  refine .opt (orExpr_runs hr) ?_ fun l => ?_
  · exact .then oldMatch_runs fun _ => .pure none rfl
  · exact oldMatch_runs.finish

/-! ## §6. Statements. -/

theorem valueThenSemi_runs (m : Node) : Returns inp n (valueThenSemi r m) := by
  refine .opt hr.expr (syncThen_runs _) fun val => ?_
  exact optSemi_runs.finish

theorem loopClauses_runs (m : Node) : Returns inp n (loopClauses r m) := by
  refine .then cur_runs fun it => ?_
  refine .then (.opt (eat_runs rfl) (.pure _) fun _ => .pure _)
    fun ini => ?_
  refine .then (xp_runs rfl).safe fun nt => ?_
  refine expect_runs rfl rfl fun _ => ?_
  refine .then hr.expr.safe fun init => ?_
  refine expect_runs rfl rfl fun _ => ?_
  refine .then hr.expr.safe fun cond => ?_
  refine expect_runs rfl rfl fun _ => ?_
  refine expect_runs rfl rfl fun st => ?_
  refine expect_runs rfl rfl fun _ => ?_
  refine .then hr.expr.safe fun step => ?_
  exact (close_runs rfl).finish

theorem loopHead_runs (m : Node) : Returns inp n (loopHead r m) := by
  refine .then (test_runs _) fun b => .ite (fun _ => loopClauses_runs hr m) fun _ => ?_
  refine .then hr.expr.safe fun cond => ?_
  exact (close_runs rfl).finish

theorem loopStmt_runs : Advances inp (n + 1) (loopStmt r) := by
  refine .opt (xp_runs rfl) (.pure none rfl) fun t => ?_
  refine expect_runs rfl rfl fun _ => ?_
  refine .then (loopHead_runs hr _) fun head => ?_
  cases head with
  | error m => exact Safe.pure _
  | ok m =>
    refine .then (eat_runs rfl).safe fun _ => ?_
    refine expect_runs rfl rfl fun _ => ?_
    refine .then (block_runs hr t m) fun m => ?_
    exact (eat_runs rfl).finish

theorem bindInit_runs (m : Node) : Returns inp n (bindInit r m) := by
  refine .opt (eatIf_runs rfl) (valueThenSemi_runs hr m) fun st => ?_
  refine .then hr.expr.safe fun e => ?_
  exact optSemi_runs.finish

theorem bindRest_runs (t nt : Token) (typeAnn : Option Node) :
    Returns inp n (bindRest r t nt typeAnn) := by
  refine expect_runs rfl rfl fun _ => ?_
  refine .opt (eat_runs rfl) ?_ fun _ => ?_
  · exact (bindInit_runs hr _).finish
  · refine .then mutDot_runs fun dot => .ite (fun _ => ?_) fun _ => syncThen_runs _
    exact (bindInit_runs hr _).finish

theorem letStmt_runs (t : Token) : Returns inp n (letStmt r t) := by
  refine .then (eatIf_runs rfl).safe fun _ => ?_
  refine .then peek_runs fun k => .ite (fun _ => ?_) fun _ => ?_
  · refine .then cur_runs fun nt => ?_
    exact .then err_runs.safe fun _ => syncThen_runs _
  · refine expect_runs rfl rfl fun nt => ?_
    refine .opt (eat_runs rfl) (bindRest_runs hr _ _ _) fun _ => ?_
    exact .then hr.typeExpr.safe fun _ => bindRest_runs hr _ _ _

theorem returnStmt_runs (t : Token) : Returns inp n (returnStmt r t) := by
  refine .opt (returnValue_runs hr) ?_ fun val => ?_
  · exact optSemi_runs.finish
  · cases val with
    | none => exact syncThen_runs _
    | some e => exact optSemi_runs.finish

theorem scopeStmt_runs (t : Token) : Returns inp n (scopeStmt r t) := by
  refine expect_runs rfl rfl fun _ => ?_
  refine .then (setInSc_runs true) fun prev => ?_
  refine .then (hr.stmtList t) fun body => ?_
  refine .then (setInSc_runs prev) fun _ => ?_
  refine .then (close_runs rfl) fun _ => ?_
  exact optSemi_runs.finish

/-- **A statement always moves**: it consumes a token or reports an error. -/
theorem stmt_runs : Runs (parserRank inp) (n + 1) (fun _ => .move) (stmt r) := by
  refine .try (eat_runs rfl) ?_ fun t => letStmt_runs hr t
  refine .try (eat_runs rfl) ?_ fun t => optSemi_runs.finish
  refine .try (eatIf_runs rfl) ?_ fun t => returnStmt_runs hr t
  refine .try (eat_runs rfl) ?_ fun t => scopeStmt_runs hr t
  refine .then peek_runs fun k => ?_
  refine .ite (fun _ => moves_of_opt (ifCore_runs hr false)) fun _ => ?_
  refine .ite (fun _ => moves_of_opt (loopStmt_runs hr)) fun _ => ?_
  refine .try (eatIf_runs rfl) ?_ fun t =>
    Runs.then adv_runs fun _ => (block_runs hr t _).finish
  refine .then peek_runs fun k => .ite (fun _ => ?_) fun _ => ?_
  · refine .then cur_runs fun t => ?_
    exact .bind errGot_runs fun _ => syncThen_runs _
  refine .try (eatIf_runs rfl) ?_ fun t =>
    Runs.then adv_runs fun _ => (valueThenSemi_runs hr _).finish
  refine .then cur_runs fun t => ?_
  refine .opt (expr_runs hr) (syncThen_runs _) fun val => ?_
  exact optSemi_runs.finish

theorem stmtTurn_runs (m : Node) :
    Turns inp (n + 1) (stmtTurn r m) := by
  refine .then peek_runs fun k => .ite (fun _ => .pure _ rfl) fun _ => ?_
  refine underBudget_runs (.pure _ rfl) ?_ turnGain_le
  refine .then remaining_runs fun sv => ?_
  refine .bind (stmt_runs hr) fun s => ?_
  refine .then remaining_runs fun now => ?_
  exact Runs.ite (fun _ => syncThen_runs _) fun _ => Safe.pure _

theorem stmtList_runs (ref : Token) : Returns inp (n + 1) (stmtList r ref) :=
  loop_runs hr (stmtTurn_runs hr) _

end

/-! ## §7. Tying the knot. -/

theorem Knot.At.step {inp : Input} {n : Nat} {k : Knot} (h : Knot.At inp n { k with fuel := n + 1 }) :
    Knot.At inp (n + 1) { Knot.step (n + 1) k with fuel := n + 1 + 1 } :=
  ⟨rfl, h.interp, expr_runs h, stmtList_runs h, typeExpr_runs h, unary_runs h, ifCore_runs h⟩

/-- **Every entry point returns** at every level: the induction is on the
depth of the recursion, and each level is reached through an eaten token. -/
theorem prods_at {inp : Input} {interp : List Char → Option (Option Node)}
    (hi : ∀ seg : List Char, seg.length ≤ inp.src.length → (interp seg).isSome) (n : Nat) :
    Knot.At inp n { prods interp n with fuel := n + 1 } := by
  refine fuelFix_induction (P := fun n (k : Knot) => Knot.At inp n { k with fuel := n + 1 }) ?_ ?_ n
  · have void : ∀ {α : Type} {g : α → Gain} {x : Parse α}, Runs (parserRank inp) 0 g x :=
      fun p _ hs => absurd hs (Nat.not_lt_zero _)
    exact ⟨rfl, hi, void, fun _ => void, void, void, fun _ => void⟩
  · exact fun n k hk => hk.step

end Toke
