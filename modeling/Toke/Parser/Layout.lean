/-
  Toke.Parser.Layout — **THE SHAPE OF AN ERROR-FREE TREE.**

  A production that reports no error has built the node its grammar rule
  describes.  The contracts here (`Meets`) say so for types and declarations:
  from the tokens the lexer hands over (`Lexical`), up to the children of the
  program node (`parse_layout`).
-/
import Toke.Parser.Terminates
import Toke.Lexer.Scan

namespace Toke

open List Progress Parse

variable {src : Source} {toks : List Token} {inp : Input}
    {interp : List Char → Option (Option Node)}

/-! ## §1. Tokens. -/

/-- A name: letters and digits. -/
def Word (s : List Char) : Prop := s ≠ [] ∧ ∀ c ∈ s, isIdentCont c = true

/-- The kinds of a name. -/
def nameKinds : List TokenKind := [.ident, .typeIdent]

/-- What the layout needs to know about the tokens. -/
structure Lexical (inp : Input) : Prop where
  word : ∀ t ∈ inp.toks, t.kind ∈ nameKinds → Word (t.text inp.src)
  paren : ∀ t ∈ inp.toks, t.kind = .lparen → t.text inp.src = ['(']
  sigil : ∀ pre u t post, inp.toks = pre ++ u :: t :: post → t.kind ≠ .eof →
    SigilBefore inp.src t.start → u.kind = .dollar

theorem WF_word {x : Lexeme} (h : x.WF) (hk : x.kind ∈ nameKinds) : Word x.text := by
  cases h with
  | word hc hcs =>
    exact ⟨cons_ne_nil _ _, forall_mem_cons.mpr ⟨isLetter_isIdentCont hc, hcs⟩⟩
  | based => simp [nameKinds] at hk
  | int => simp [nameKinds] at hk
  | float => simp [nameKinds] at hk
  | str => simp [nameKinds] at hk
  | sym hx =>
    have hall : ∀ y ∈ symbols, y.kind ∉ nameKinds := by decide
    exact absurd hk (hall _ hx)

theorem WF_paren {x : Lexeme} (h : x.WF) (hk : x.kind = .lparen) : x.text = ['('] := by
  have hwords : ∀ k ∈ wordKinds, k ≠ .lparen := by decide
  have hsyms : ∀ y ∈ symbols, y.kind = .lparen → y.text = ['('] := by decide
  obtain ⟨-, -, -, ⟨-, hw⟩ | ⟨-, hw⟩ | ⟨-, hw⟩ | hs⟩ := WF_first h
  · exact absurd hk (hwords _ hw)
  · simp [hk] at hw
  · simp [hk] at hw
  · exact hsyms x hs hk

theorem AfterSigil.pair {prev : Option TokenKind} {u t : Token} {pre post : List Token}
    (h : AfterSigil src prev (pre ++ u :: t :: post))
    (hs : SigilBefore src t.start) : u.kind = .dollar := by
  induction pre generalizing prev with
  | nil => exact Option.some.inj (h.2.1 hs)
  | cons v pre ih => exact ih h.2

/-- **What `lex` hands over in the default profile.** -/
theorem lex_lexical {cap : Nat} (h : lex .default cap src = some toks) : Lexical ⟨src, toks⟩ := by
  obtain ⟨body, eof, rfl, hkind, -, -, -, hplaced⟩ := lex_placed h
  have hwf : ∀ t ∈ body ++ [eof], t.kind ≠ .eof → (t.lexeme src).WF := by
    intro t ht hne
    rcases mem_append.mp ht with ht | ht
    · exact hplaced.scans.wf _ (mem_map_of_mem ht)
    · exact absurd (mem_singleton.mp ht ▸ hkind) hne
  refine ⟨fun t ht hk => ?_, fun t ht hk => ?_, fun pre u t post htoks hne hs => ?_⟩
  · have hne : t.kind ≠ .eof := by
      intro he
      rw [he] at hk
      exact absurd hk (by decide)
    exact WF_word (hwf t ht hne) hk
  · exact WF_paren (hwf t ht (by rw [hk]; decide)) hk
  · have hsig : AfterSigil src none body :=
      hplaced.afterSigil none fun hs => absurd hs.1 (Nat.lt_irrefl 0)
    -- the end marker is the last token, so `t` stands before it
    rcases eq_nil_or_concat' post with rfl | ⟨post, e, rfl⟩
    · have htoks : body ++ [eof] = (pre ++ [u]) ++ [t] := by simpa using htoks
      have hlast := (append_inj' htoks rfl).2
      injection hlast with hlast
      exact absurd (hlast ▸ hkind) hne
    · have htoks : body ++ [eof] = (pre ++ u :: t :: post) ++ [e] := by simpa using htoks
      rw [(append_inj' htoks rfl).1] at hsig
      exact hsig.pair hs

/-- `t` is the token directly behind the state. -/
def Behind (inp : Input) (t : Token) (p : Parser) : Prop :=
  ∃ pre, inp.toks = pre ++ t :: p.cur :: p.ahead

theorem Behind.mem {t : Token} {p : Parser} (h : Behind inp t p) : t ∈ inp.toks := by
  obtain ⟨pre, hpre⟩ := h
  rw [hpre]
  exact mem_append_right _ mem_cons_self

/-- After an optional token: it was the current one of a state with `P`. -/
def atePost (inp : Input) (ks : List TokenKind) (P : Parser → Prop) : Option Token → Parser → Prop
  | some t, p => t.kind ∈ ks ∧ Behind inp t p ∧ ∃ q, P q ∧ q.cur = t
  | none, p => P p

/-- After a token that had to be there. -/
def xpPost (inp : Input) (k : TokenKind) (P : Parser → Prop) : Option Token → Parser → Prop
  | some t, p => t.kind = k ∧ Behind inp t p ∧ ∃ q, P q ∧ q.cur = t
  | none, _ => False

/-- Returns, and without an error takes `P` to `Q`. -/
abbrev Builds {α : Type} (inp : Input) (n : Nat) (P : Parser → Prop) (x : Parse α)
    (Q : α → Parser → Prop) : Prop := Meets (parserRank inp) n (fun _ => .stay) P x Q

section

variable {inp : Input} {n : Nat} {r : Knot} {P : Parser → Prop}

variable {Q : Unit → Parser → Prop}

theorem eatIf_meets {ks : List TokenKind} {also : Parser → Bool}
    (hks : ks.contains TokenKind.eof = false) :
    Meets (parserRank inp) n (optGain .stay) P (eatIf ks also) (atePost inp ks P) := by
  intro p hok hs hP
  obtain ⟨o, p', hrun, hok', hm⟩ := eatIf_runs hks p hok hs
  refine ⟨o, p', hrun, hok', hm, fun h0 => ?_⟩
  have hp : P p := hP (hm.spent_zero h0)
  unfold eatIf at hrun
  split at hrun
  · next hc =>
      cases hrun
      have hk : p.cur.kind ≠ .eof := fun h => by simp [← h, hc.1] at hks
      obtain ⟨pre, hpre⟩ := hok.2.2
      refine ⟨hc.1, ⟨pre, ?_⟩, p, hp, rfl⟩
      rw [← hpre]
      have hne := hok.1.ahead_ne_nil hk
      unfold Parser.adv
      split
      · next h => exact absurd h hne
      · next t ts h => rw [h]
  · cases hrun
    exact hp

/-- A token that was not eaten is of another kind. -/
theorem eatIf_refuses {ks : List TokenKind} (hks : ks.contains TokenKind.eof = false) :
    Meets (parserRank inp) n (optGain .stay) P (eatIf ks fun _ => true)
      (fun o p => atePost inp ks P o p ∧ (o = none → p.cur.kind ∉ ks)) := by
  intro p hok hs hP
  obtain ⟨o, p', hrun, hok', hm, hpost⟩ := eatIf_meets hks p hok hs hP
  refine ⟨o, p', hrun, hok', hm, fun h0 => ⟨hpost h0, fun ho => ?_⟩⟩
  subst ho
  unfold eatIf at hrun
  split at hrun
  · injection hrun with hrun
    exact absurd (congrArg Prod.fst hrun) (by simp)
  · next hc =>
      injection hrun with hrun
      cases hrun
      exact fun hk => hc ⟨hk, rfl⟩

theorem eat_meets {k : TokenKind} (hk : (TokenKind.eof == k) = false) :
    Meets (parserRank inp) n (optGain .stay) P (eat k) (atePost inp [k] P) :=
  eatIf_meets (by simpa using hk)

/-- Reporting ends every obligation. -/
theorem err_meets {code : Nat} {t : Token} {msg : String} :
    Meets (parserRank inp) n (fun _ => .move) P (err code t msg) Q := by
  intro p hok hs _
  obtain ⟨a, p', hrun, hok', hm⟩ := err_runs p hok hs
  refine ⟨a, p', hrun, hok', hm, fun h0 => ?_⟩
  injection hrun with hrun
  cases hrun
  simp [parserRank] at h0

theorem errGot_meets {code : Nat} {t : Token} {msg : String} :
    Meets (parserRank inp) n (fun _ => .move) P (errGot code t msg) Q :=
  fun p hok hs hP => err_meets p hok hs hP

theorem err_ends {α : Type} {x : Parse Unit} {a : α} {S : α → Parser → Prop} {h : α → Gain}
    (hx : Meets (parserRank inp) n (fun _ => .move) P x (fun _ _ => False)) (ha : h a = .stay) :
    Meets (parserRank inp) n h P (do x; return a) S :=
  .then hx.safe fun _ => .pure ha fun _ h => h.elim

theorem read_meets {α : Type} (f : Parser → α) :
    Builds inp n P (fun p => some (f p, p) : Parse α) (fun a p => P p ∧ a = f p) :=
  fun p hok _ hP => ⟨f p, p, rfl, hok, Rank.Moves.refl _ p, fun h0 => ⟨hP h0, rfl⟩⟩

theorem missing_meets {w : String} : Meets (parserRank inp) n (fun _ => .move) P (missing w) Q :=
  Meets.then (read_meets _) fun _ =>
    Meets.ite (fun _ => err_meets) (fun _ => errGot_meets)

theorem xp_meets {k : TokenKind} {w : String} (hk : (TokenKind.eof == k) = false) :
    Meets (parserRank inp) n (optGain .move) P (xp k w) (xpPost inp k P) := by
  refine .bind (eat_meets hk) fun o => ?_
  cases o with
  | some t =>
    refine .pure (Gain.eat_after _) fun p h => ⟨?_, h.2⟩
    exact mem_singleton.mp h.1
  | none =>
    refine .bind (missing_meets (Q := fun _ _ => False)) fun _ => .pure ?_ ?_
    · rfl
    · exact fun _ h => h

/-- A token that has to be there and says nothing by itself. -/
theorem expect_meets {α : Type} {F : Prop} {k : TokenKind} {w : String} {a : α}
    {f : Option Token → Parse α} {S : α → Parser → Prop} (hk : (TokenKind.eof == k) = false)
    (hnone : f none = do sync; return a) (hsome : ∀ t, Builds inp n (fun _ => F) (f (some t)) S) :
    Builds inp n (fun _ => F) (xp k w >>= f) S := by
  refine .opt (xp_meets hk) (hnone ▸ (syncThen_runs a).failed) fun t => (hsome t).pre fun _ h => ?_
  obtain ⟨-, -, q, hF, -⟩ := h
  exact hF

/-- A loop of a production keeps what its turns keep. -/
theorem loop_meets {α β : Type} (hr : r.At inp n) {body : α → Parse (Turn α β)}
    {I : α → Parser → Prop} {S : β → Parser → Prop}
    (hb : ∀ a, Meets (parserRank inp) (n + 1) turnGain (I a) (body a) (turnPost I S)) (a : α) :
    Builds inp n (I a) (iter body r.fuel a) S := by
  rw [hr.fuel]
  exact (iter_meets hb (n + 1) (le_refl _) a).level (Nat.le_succ n)

end

/-! ## §2. Type expressions. -/

/-- The type nodes the parser builds. -/
inductive TypeNode (src : Source) : Node → Prop where
  | named {t : Node} (hk : t.kind = .typeExpr ∨ t.kind = .typeIdent) (hw : Word (t.text src)) :
      TypeNode src t
  | array {t e : Node} (hk : t.kind = .arrayType) (hc : t.children = [e]) (he : TypeNode src e) :
      TypeNode src t
  | map {t k v : Node} (hk : t.kind = .mapType) (hc : t.children = [k, v]) (hkey : TypeNode src k)
      (hval : TypeNode src v) : TypeNode src t
  | ptr {t e : Node} (hk : t.kind = .ptrType) (hc : t.children = [e]) (he : TypeNode src e) :
      TypeNode src t
  | func {t : Node} (hk : t.kind = .funcType) (ht : t.text src = ['('])
      (hc : ∀ c ∈ t.children, TypeNode src c) : TypeNode src t

/-- A type production without an error. -/
def TypeOut (src : Source) (o : Option Node) (_ : Parser) : Prop := ∃ t, o = some t ∧ TypeNode src t

/-- The contract of the entry points: they return, types are type nodes, and a
statement list is one. -/
structure Knot.Lays (inp : Input) (n : Nat) (r : Knot) : Prop where
  runs : r.At inp n
  typeExpr : Meets (parserRank inp) n (optGain .move) (fun _ => True) r.typeExpr (TypeOut inp.src)
  stmtList : ∀ t, Gives (r.stmtList t) (·.kind = .stmtList)

section

variable {inp : Input} {n : Nat} {r : Knot} {F : Prop}

/-- A type in the middle of a production that has established `F`. -/
theorem Knot.Lays.type (hr : r.Lays inp n) (F : Prop) :
    Meets (parserRank inp) n (optGain .move) (fun _ => F) r.typeExpr
      (fun o p => F ∧ TypeOut inp.src o p) := (hr.typeExpr.frame F).pre fun _ h => ⟨h, trivial⟩

/-- The loop over a list keeps what every item keeps. -/
theorem itemList_meets (hr : r.At inp n) {item : Parse (Option Node)} {J : Node → Prop}
    (closer : TokenKind) (hi : ∀ m, Builds inp n (fun _ => J m) item
      (fun o _ => J (m.ch o))) (m : Node) :
    Builds inp n (fun _ => J m) (itemList r closer item m) (fun m' _ => J m') := by
  have turn : ∀ m, Meets (parserRank inp) (n + 1) turnGain (fun _ => J m) (semiTurn item m)
      (turnPost (fun m' _ => J m') (fun m' _ => J m')) := by
    intro m
    refine .try ((eat_runs rfl).keeps _) (.pure rfl fun _ h => h) fun t => ?_
    exact .then (hi m) fun o => .pure rfl fun _ h => h
  refine .then (read_meets _) fun k => .ite (fun _ => ?_) fun _ => ?_
  · exact .pure rfl fun _ h => h.1
  · refine .then ((hi m).pre fun _ h => h.1) fun o => ?_
    exact loop_meets hr turn (m.ch o)

/-- A function type under construction. -/
def FuncShape (src : Source) (m : Node) : Prop :=
  m.kind = .funcType ∧ m.text src = ['('] ∧ ∀ c ∈ m.children, TypeNode src c

theorem FuncShape.ch {src : Source} {m : Node} {o : Option Node} {p : Parser}
    (h : FuncShape src m) (ho : TypeOut src o p) : FuncShape src (m.ch o) := by
  obtain ⟨t, rfl, ht⟩ := ho
  obtain ⟨hk, htext, hc⟩ := h
  exact ⟨hk, htext, forall_mem_append.mpr ⟨hc, forall_mem_singleton.mpr ht⟩⟩

theorem FuncShape.out {src : Source} {m : Node} (h : FuncShape src m) (p : Parser) :
    TypeOut src (some m) p := ⟨m, rfl, .func h.1 h.2.1 h.2.2⟩

theorem funcType_meets (hl : Lexical inp) (hr : r.Lays inp n) :
    Meets (parserRank inp) (n + 1) (optGain .move) (fun _ => True) (funcType r)
      (TypeOut inp.src) := by
  refine .bind (xp_meets rfl) fun o => ?_
  cases o with
  | none => exact .pure rfl fun _ h => h.elim
  | some t =>
    simp only [optGain, Gain.eat_after]
    refine .then (Q := fun m _ => FuncShape inp.src m) ?_ fun m => ?_
    · refine (itemList_meets hr.runs (J := FuncShape inp.src) _ (fun m => ?_)
        (.ofToken .funcType t)).pre fun p h => ?_
      · exact (hr.type (FuncShape inp.src m)).safe.post fun o p h => h.1.ch h.2
      · exact ⟨rfl, hl.paren t h.2.1.mem h.1, by simp⟩
    · refine .then ((close_runs rfl).keeps (FuncShape inp.src m)) fun _ => ?_
      refine .opt (xp_meets rfl) (.pure rfl fun _ h => h.elim) fun _ => ?_
      refine .then ((hr.type (FuncShape inp.src m)).safe.pre fun _ h => ?_) fun o => ?_
      · obtain ⟨-, -, q, hJ, -⟩ := h
        exact hJ
      · exact .pure rfl fun p h => (h.1.ch h.2).out p

theorem dollarType_meets (hl : Lexical inp) (at_ : Option Token) (op : TokenKind) :
    Builds inp n (fun _ => True) (dollarType at_ op) (TypeOut inp.src) := by
  refine .then (read_meets Parser.cur) fun nt => ?_
  refine .opt (xp_meets rfl) ?_ fun t => ?_
  · exact err_ends err_meets rfl
  · refine .pure rfl fun p h => ?_
    obtain ⟨hk, hb, q, ⟨-, hnt⟩, hq⟩ := h
    refine ⟨_, rfl, .named (.inr rfl) ?_⟩
    rw [hnt, hq]
    exact hl.word t hb.mem (by rw [hk]; decide)

theorem elemTypes_meets (hr : r.Lays inp n) (t : Token) {closer : TokenKind}
    (hc : (TokenKind.eof == closer) = false) (mapMsg arrMsg : String) :
    Builds inp n (fun _ => True) (elemTypes r t closer mapMsg arrMsg) (TypeOut inp.src) := by
  refine .then hr.typeExpr.safe fun first => ?_
  refine .opt ((eat_runs rfl).keeps (∃ e, first = some e ∧ TypeNode inp.src e)) ?_ fun _ => ?_
  · refine .then ((close_runs hc).keeps _) fun _ => .pure rfl fun p h => ?_
    obtain ⟨e, rfl, he⟩ := h
    exact ⟨_, rfl, .array rfl rfl he⟩
  · refine .then (hr.type _).safe fun second => ?_
    refine .then ((close_runs hc).keeps ((∃ e, first = some e ∧ TypeNode inp.src e) ∧
      ∃ e, second = some e ∧ TypeNode inp.src e)) fun _ => .pure rfl fun p h => ?_
    obtain ⟨⟨k, rfl, hk⟩, v, rfl, hv⟩ := h
    exact ⟨_, rfl, .map rfl rfl hk hv⟩

/-- **A type production without an error builds a type node.** -/
theorem typeExpr_meets (hl : Lexical inp) (hr : r.Lays inp n) :
    Meets (parserRank inp) (n + 1) (optGain .move) (fun _ => True) (typeExpr r)
      (TypeOut inp.src) := by
  have any : ∀ {P : Parser → Prop} (p : Parser), P p → True := fun _ _ => trivial
  refine .try (eat_meets rfl) ?_ fun t => ?_
  rotate_left
  · refine .then (hr.typeExpr.safe.pre any) fun o => .pure rfl fun p h => ?_
    obtain ⟨e, rfl, he⟩ := h
    exact ⟨_, rfl, .ptr rfl rfl he⟩
  -- module.$name
  refine .try (eatIf_meets rfl) ?_ fun _ => ?_
  rotate_left
  · refine .then ((adv_runs.keeps True).pre any) fun _ => ?_
    refine .then (adv_runs.keeps True) fun _ => dollarType_meets hl _ _
  refine .try (eat_meets rfl) ?_ fun dt => (dollarType_meets hl _ _).pre any
  -- @type, @(type), @(key:value)
  refine .try (eat_meets rfl) ?_ fun t => ?_
  rotate_left
  · refine .opt (eat_meets rfl) ?_ fun _ => (elemTypes_meets hr t rfl _ _).pre any
    refine .then (hr.typeExpr.safe.pre any) fun o => .pure rfl fun p h => ?_
    obtain ⟨e, rfl, he⟩ := h
    exact ⟨_, rfl, .array rfl rfl he⟩
  refine .try (eat_meets rfl) ?_ fun t => (elemTypes_meets hr t rfl _ _).pre any
  refine .then (read_meets _) fun k => .ite (fun _ => ?_) fun _ => ?_
  · exact (funcType_meets hl hr).pre any
  refine .try (eatIf_meets rfl) ?_ fun t => ?_
  rotate_left
  · exact .pure rfl fun p h => ⟨_, rfl, .named (.inl rfl) (hl.word t h.2.1.mem h.1)⟩
  refine .try (eat_meets rfl) ?_ fun t => ?_
  rotate_left
  · refine .pure rfl fun p h => ⟨_, rfl, .named (.inr rfl) (hl.word t h.2.1.mem ?_)⟩
    exact mem_cons_of_mem _ h.1
  refine .then (read_meets _) fun t => ?_
  exact .bind (errGot_meets (Q := fun _ _ => False)) fun _ => Meets.pure rfl fun _ h => h.elim

end

/-! ## §3. Functions. -/

theorem stmtTurn_gives (r : Knot) (m : Node) (hm : m.kind = .stmtList) :
    Gives (stmtTurn r m) (turnGives (·.kind = .stmtList) (·.kind = .stmtList)) := by
  refine .last fun k => .ite (.pure hm) ?_
  refine .last fun full => .ite (.pure hm) ?_
  refine .last fun sv => .last fun o => .last fun now => ?_
  exact .ite (.last fun _ => .pure hm) (.pure hm)

theorem stmtList_gives (r : Knot) (t : Token) : Gives (stmtList r t) (·.kind = .stmtList) :=
  iter_gives (stmtTurn_gives r) _ _ rfl

/-- **The contract holds at every level.** -/
theorem prods_lays (hl : Lexical inp)
    (hi : ∀ seg : List Char, seg.length ≤ inp.src.length → (interp seg).isSome) (n : Nat) :
    Knot.Lays inp n { prods interp n with fuel := n + 1 } := by
  refine fuelFix_induction (P := fun n (k : Knot) => Knot.Lays inp n { k with fuel := n + 1 })
    ?_ ?_ n
  · refine ⟨prods_at (n := 0) hi, ?_, ?_⟩
    · exact fun p _ hs => absurd hs (Nat.not_lt_zero _)
    · exact fun t p a p' h => absurd h (by simp [Knot.bottom])
  · intro n k hk
    exact ⟨hk.runs.step, typeExpr_meets hl hk, fun t => stmtList_gives _ t⟩

theorem prods_succ_lays (hl : Lexical inp)
    (hi : ∀ seg : List Char, seg.length ≤ inp.src.length → (interp seg).isSome) (n : Nat) :
    Knot.Lays inp n (prods interp (n + 1)) := by
  have h := prods_lays hl hi (n + 1)
  exact ⟨prods_succ_at hi n, h.typeExpr.level (Nat.le_succ n), h.stmtList⟩

/-- A parameter: its name and its type. -/
def ParamNode (src : Source) (c : Node) : Prop :=
  c.kind = .param ∧ ∃ i t, c.children = [i, t] ∧ TypeNode src t

/-- A return specification: a type, or an error union. -/
def ReturnNode (src : Source) (c : Node) : Prop :=
  c.kind = .returnSpec ∧ ∃ t, TypeNode src t ∧
    (c.children = [t] ∨ ∃ e, TypeNode src e ∧ c.children = [t, e])

/-- A function: name, parameters, return specification, body if any. -/
def FuncLayout (src : Source) (fn : Node) : Prop :=
  fn.kind = .funcDecl ∧ ∃ name ps ret body, fn.children = name :: (ps ++ ret :: body) ∧
    Word (name.text src) ∧ (∀ c ∈ ps, ParamNode src c) ∧ ReturnNode src ret ∧
    ∀ c ∈ body, c.kind = .stmtList

section

variable {inp : Input} {n : Nat} {r : Knot}

theorem oneParam_meets (hr : r.Lays inp n) {J : Node → Prop}
    (hJ : ∀ m c, J m → ParamNode inp.src c → J (m.ch (some c))) (m : Node) :
    Builds inp n (fun _ => J m) (oneParam r m) (fun m' _ => J m') := by
  refine .opt (xp_meets rfl) (.pure rfl fun _ h => h.elim) fun pt => ?_
  refine .opt (xp_meets rfl) (.pure rfl fun _ h => h.elim) fun _ => ?_
  refine .then ((hr.type (J m)).safe.pre fun _ h => ?_) fun o => ?_
  · obtain ⟨-, -, q, ⟨-, -, q', hJm, -⟩, -⟩ := h
    exact hJm
  · refine .pure rfl fun p h => ?_
    obtain ⟨hJm, t, rfl, ht⟩ := h
    exact hJ m _ hJm ⟨rfl, _, t, rfl, ht⟩

theorem params_meets (hr : r.Lays inp n) {J : Node → Prop}
    (hJ : ∀ m c, J m → ParamNode inp.src c → J (m.ch (some c))) (m : Node) :
    Builds inp n (fun _ => J m) (params r m) (fun m' _ => J m') := by
  have turn : ∀ m, Meets (parserRank inp) (n + 1) turnGain (fun _ => J m) (paramTurn r m)
      (turnPost (fun m' _ => J m') (fun m' _ => J m')) := by
    intro m
    refine .try ((eatIf_runs rfl).keeps _) (.pure rfl fun _ h => h) fun t => ?_
    exact .then (oneParam_meets hr hJ m) fun o => .pure rfl fun _ h => h
  refine .then (read_meets _) fun k => .ite (fun _ => ?_) fun _ => ?_
  · exact .pure rfl fun _ h => h.1
  · refine .then ((oneParam_meets hr hJ m).pre fun _ h => h.1) fun m' => ?_
    exact loop_meets hr.runs turn m'

theorem returnSpec_meets (hr : r.Lays inp n) (F : Prop) :
    Builds inp n (fun _ => F) (returnSpec r) (fun m _ => F ∧ ReturnNode inp.src m) := by
  refine .then ((cur_runs.keeps F)) fun t => ?_
  refine .then (hr.type F).safe fun o => ?_
  refine .opt ((eat_runs rfl).keeps (F ∧ ∃ t, o = some t ∧ TypeNode inp.src t)) ?_ fun _ => ?_
  · refine .pure rfl fun p h => ⟨h.1, rfl, ?_⟩
    obtain ⟨ty, rfl, hty⟩ := h.2
    exact ⟨ty, hty, .inl rfl⟩
  · refine .then (hr.type _).safe fun e => .pure rfl fun p h => ?_
    obtain ⟨⟨hF, ty, rfl, hty⟩, er, rfl, her⟩ := h
    exact ⟨hF, rfl, ty, hty, .inr ⟨er, her, rfl⟩⟩

/-- Name and parameters. -/
def FuncHead (src : Source) (fn : Node) : Prop :=
  fn.kind = .funcDecl ∧ ∃ name ps, fn.children = name :: ps ∧ Word (name.text src) ∧
    ∀ c ∈ ps, ParamNode src c

theorem FuncHead.ch {src : Source} {fn c : Node} (h : FuncHead src fn) (hc : ParamNode src c) :
    FuncHead src (fn.ch (some c)) := by
  obtain ⟨hk, name, ps, hch, hw, hps⟩ := h
  exact ⟨hk, name, ps ++ [c], by simp [hch], hw,
    forall_mem_append.mpr ⟨hps, forall_mem_singleton.mpr hc⟩⟩

theorem Node.ch_none (m : Node) : m.ch none = m := by
  cases m
  simp [Node.ch]

/-- Head, return specification and body. -/
theorem FuncHead.layout {src : Source} {fn ret : Node} (h : FuncHead src fn)
    (hret : ReturnNode src ret) (body : Option Node) (hbody : ∀ b ∈ body, b.kind = .stmtList) :
    FuncLayout src ((fn.ch (some ret)).ch body) := by
  obtain ⟨hk, name, ps, hch, hw, hps⟩ := h
  refine ⟨hk, name, ps, ret, body.toList, by simp [hch], hw, hps, hret, fun c hc => ?_⟩
  exact hbody c (Option.mem_toList.mp hc)

theorem funcDecl_meets (hl : Lexical inp) (hr : r.Lays inp n) (t : Token) :
    Builds inp n (fun _ => True) (funcDecl r t) (fun m _ => FuncLayout inp.src m) := by
  refine expect_meets rfl rfl fun _ => ?_
  refine .opt (xp_meets rfl) (syncThen_runs _).failed fun nt => ?_
  refine .given (fun _ => FuncHead inp.src
    ((Node.ofToken .funcDecl t).ch (some (.ofToken .ident nt)))) (fun p h => ?_) ?_
  · refine ⟨rfl, _, [], rfl, hl.word nt h.2.1.mem ?_, by simp⟩
    rw [h.1]
    decide
  refine expect_meets rfl rfl fun _ => ?_
  refine .then (params_meets hr (J := FuncHead inp.src) (fun _ _ => FuncHead.ch) _) fun m => ?_
  refine .then ((close_runs rfl).keeps (FuncHead inp.src m)) fun _ => ?_
  refine expect_meets rfl rfl fun _ => ?_
  refine .then (returnSpec_meets hr (FuncHead inp.src m)) fun ret => ?_
  refine .opt ((eat_runs rfl).keeps (FuncHead inp.src m ∧ ReturnNode inp.src ret)) ?_ fun _ => ?_
  · refine .then (optSemi_runs.keeps _) fun _ => .pure rfl fun p h => ?_
    rw [← Node.ch_none (m.ch (some ret))]
    exact h.1.layout h.2 none (by simp)
  · refine .then (Q := fun m' _ => FuncLayout inp.src m') ?_ fun m' => ?_
    · refine .then ((hr.runs.stmtList t).gives (hr.stmtList t) _) fun body => ?_
      refine .then ((close_runs rfl).keeps _) fun _ => .pure rfl fun p h => ?_
      refine h.1.1.layout h.1.2 (some body) fun b hb => ?_
      rw [← Option.mem_some.mp hb]
      exact h.2
    · exact .then (optSemi_runs.keeps (FuncLayout inp.src m')) fun _ => Meets.pure rfl fun _ h => h

end

/-! ## §4. Type declarations. -/

/-- A field: its name, its type, and the mark of a variant wherever the byte
before the name is a `$`. -/
def FieldNode (src : Source) (f : Node) : Prop :=
  f.kind = .field ∧ Word (f.text src) ∧ (∃ t, f.children = [t] ∧ TypeNode src t) ∧
    (SigilBefore src f.tokStart → f.op = .dollar)

/-- A list of fields. -/
def FieldsShape (src : Source) (l : Node) : Prop :=
  l.kind = .stmtList ∧ ∀ f ∈ l.children, FieldNode src f

/-- A type: its name and its fields. -/
def TypeLayout (src : Source) (d : Node) : Prop :=
  d.kind = .typeDecl ∧ ∃ name l, d.children = [name, l] ∧ Word (name.text src) ∧ FieldsShape src l

theorem FieldsShape.ch {l f : Node} (h : FieldsShape src l)
    (hf : FieldNode src f) : FieldsShape src (l.ch (some f)) :=
  ⟨h.1, forall_mem_append.mpr ⟨h.2, forall_mem_singleton.mpr hf⟩⟩

section

variable {inp : Input} {n : Nat} {r : Knot}

theorem seeField_gives (ft : Token) (acc : FieldAcc) :
    Gives (seeField ft acc) (·.list = acc.list) := by
  have hsee : ∀ name, (acc.see name).list = acc.list := by
    intro name
    unfold FieldAcc.see
    split <;> rfl
  intro p a p' hrun
  unfold seeField at hrun
  split at hrun
  · injection hrun with hrun
    injection hrun with ha
    rw [← ha]
    exact hsee _
  · injection hrun with hrun
    injection hrun with ha
    rw [← ha]
    exact hsee _

/-- The token behind the state is one that a field can follow. -/
def AtField (inp : Input) (p : Parser) : Prop :=
  ∃ u, Behind inp u p ∧ u.kind ∈ [TokenKind.lbrace, .semi]

theorem fieldSep_meets (F : Prop) : Builds inp n (fun _ => F) fieldSep
      (fun more p => F ∧ (more → AtField inp p)) := by
  refine .opt (eatIf_meets rfl) (.pure rfl fun _ h => ⟨h, by simp⟩) fun t => ?_
  refine .then (read_meets _) fun k => .pure rfl fun p h => ?_
  obtain ⟨⟨hk, hb, q, hF, -⟩, -⟩ := h
  exact ⟨hF, fun _ => ⟨t, hb, mem_cons_of_mem _ hk⟩⟩

/-- What is known once the name of a field is read. -/
def FieldHead (inp : Input) (acc : FieldAcc) (ft : Token) (variant : Bool) : Prop :=
  FieldsShape inp.src acc.list ∧ Word (ft.text inp.src) ∧
    (SigilBefore inp.src ft.start → variant = true)

theorem fieldTurn_meets (hl : Lexical inp) (hr : r.Lays inp n) (acc : FieldAcc) :
    Meets (parserRank inp) (n + 1) turnGain
      (fun p => FieldsShape inp.src acc.list ∧ AtField inp p) (fieldTurn r acc)
      (turnPost (fun acc p => FieldsShape inp.src acc.list ∧ AtField inp p)
        (fun l _ => FieldsShape inp.src l)) := by
  refine .then (eat_meets rfl).safe fun o => ?_
  -- a `$` token directly behind the state is the one just eaten
  refine .given (fun p => FieldsShape inp.src acc.list ∧
    ∃ u, Behind inp u p ∧ (u.kind = .dollar → o.isSome)) (fun p h => ?_) ?_
  · cases o with
    | none =>
      obtain ⟨hacc, u, hb, hu⟩ := h
      refine ⟨hacc, u, hb, fun hd => ?_⟩
      rw [hd] at hu
      exact absurd hu (by decide)
    | some dt =>
      obtain ⟨-, hb, q, ⟨hacc, -⟩, -⟩ := h
      exact ⟨hacc, dt, hb, fun _ => rfl⟩
  refine .try (eatIf_meets rfl) ?_ fun ft => ?_
  · exact .then (read_meets _) fun t => err_ends errGot_meets rfl
  refine .given (fun _ => FieldHead inp acc ft o.isSome) (fun p h => ?_) ?_
  · obtain ⟨hk, hb, q, ⟨hacc, u, ⟨pre, hpre⟩, hu⟩, rfl⟩ := h
    refine ⟨hacc, hl.word _ hb.mem hk, fun hs => hu (hl.sigil pre u q.cur q.ahead hpre ?_ hs)⟩
    intro heof
    rw [heof] at hk
    exact absurd hk (by decide)
  refine .then ((seeField_runs ft acc).gives (seeField_gives ft acc) _) fun acc' => ?_
  refine expect_meets rfl rfl fun _ => ?_
  refine .then (hr.type (FieldHead inp acc ft o.isSome ∧ acc'.list = acc.list)).safe fun ty => ?_
  refine .given (fun _ => FieldsShape inp.src (acc'.list.ch (some
    ({ Node.ofToken .field ft with op := if o.isSome then .dollar else .eof }.ch ty))))
    (fun p h => ?_) ?_
  · obtain ⟨⟨⟨hacc, hw, hs⟩, hlist⟩, t, rfl, ht⟩ := h
    rw [hlist]
    refine hacc.ch ⟨rfl, hw, ⟨t, rfl, ht⟩, fun hsig => ?_⟩
    show (if o.isSome then TokenKind.dollar else .eof) = .dollar
    rw [if_pos (hs hsig)]
  refine .then (fieldSep_meets _) fun more => .ite (fun hmore => ?_) fun _ => ?_
  · exact .pure rfl fun p h => ⟨h.1, h.2 hmore⟩
  · exact .pure rfl fun p h => h.1

theorem fieldList_meets (hl : Lexical inp) (hr : r.Lays inp n) (F : Prop) :
    Builds inp n (fun p => F ∧ AtField inp p) (fieldList r)
      (fun l _ => F ∧ FieldsShape inp.src l) := by
  refine .frame ?_ F
  refine .then (read_meets _) fun t => ?_
  exact (loop_meets hr.runs (fieldTurn_meets hl hr) _).pre fun p h => ⟨⟨rfl, by simp⟩, h.1⟩

/-- A production that reads the name of a type. -/
def NamesType (inp : Input) (n : Nat) (name : Parse (Option Token)) : Prop :=
  Builds inp n (fun _ => True) name
    (fun o _ => ∃ t, o = some t ∧ Word (t.text inp.src))

theorem xp_names (hl : Lexical inp) {k : TokenKind} (hk : k ∈ nameKinds) {P : Parser → Prop}
    {w : String} : Builds inp n P (xp k w) (fun o _ => ∃ t, o = some t ∧ Word (t.text inp.src)) := by
  have hne : TokenKind.eof ≠ k := by
    rintro rfl
    exact absurd hk (by decide)
  refine (xp_meets (beq_false_of_ne hne)).safe.post fun o p h => ?_
  cases o with
  | none => exact h.elim
  | some t => exact ⟨t, rfl, hl.word t h.2.1.mem (h.1 ▸ hk)⟩

theorem typeNameLegacy_names (hl : Lexical inp) : NamesType inp n typeNameLegacy :=
  xp_names hl (by decide)

theorem typeNameDefault_names (hl : Lexical inp) : NamesType inp n typeNameDefault := by
  refine .opt (eat_meets rfl) ?_ fun _ => xp_names hl (by decide)
  refine .opt (eatIf_refuses rfl) ?_ fun nt => ?_
  · -- neither kind of name is there, so `xp` reports
    refine .then (xp_meets rfl).safe fun o => .pure rfl fun p h => ?_
    cases o with
    | none => exact h.elim
    | some t =>
      obtain ⟨hk, -, q, ⟨-, hne⟩, rfl⟩ := h
      exact absurd (by rw [hk]; decide) (hne rfl)
  · exact .pure rfl fun p h => ⟨nt, rfl, hl.word nt h.1.2.1.mem h.1.1⟩

theorem typeDecl_meets (hl : Lexical inp) (hr : r.Lays inp n) {name : Parse (Option Token)}
    (hname : NamesType inp n name) (t : Token) :
    Builds inp n (fun _ => True) (typeDecl r name t) (fun m _ => TypeLayout inp.src m) := by
  refine expect_meets rfl rfl fun _ => ?_
  refine .opt hname ((syncThen_runs _).failed.pre ?_) fun nt => ?_
  · rintro p ⟨nt, hnt, -⟩
    simp at hnt
  refine .given (fun _ => Word (nt.text inp.src)) (fun p h => ?_) ?_
  · obtain ⟨nt', hnt, hw⟩ := h
    injection hnt with hnt
    exact hnt ▸ hw
  refine .opt (xp_meets rfl) (syncThen_runs _).failed fun lb => ?_
  refine .then ((fieldList_meets hl hr (Word (nt.text inp.src))).pre fun p h => ?_) fun l => ?_
  · obtain ⟨hk, hb, q, hw, -⟩ := h
    exact ⟨hw, lb, hb, by rw [hk]; decide⟩
  refine .then ((close_runs rfl).keeps
    (Word (nt.text inp.src) ∧ FieldsShape inp.src l)) fun _ => ?_
  refine .then (optSemi_runs.keeps _) fun _ => .pure rfl fun p h => ?_
  exact ⟨rfl, .ofToken .typeIdent nt, l, rfl, h.1, h.2⟩

end

/-! ## §5. The other declarations. -/

/-- A module path: its segments are names. -/
def PathShape (src : Source) (mp : Node) : Prop :=
  mp.kind = .modulePath ∧ ∀ id ∈ mp.children, Word (id.text src)

/-- A module declaration. -/
def ModuleLayout (src : Source) (d : Node) : Prop :=
  d.kind = .module ∧ ∃ mp, d.children = [mp] ∧ PathShape src mp

/-- A constant: its name, then nodes that are types or no scalar type names. -/
def ConstLayout (src : Source) (d : Node) : Prop :=
  d.kind = .constDecl ∧ ∃ name rest, d.children = name :: rest ∧ Word (name.text src) ∧
    ∀ c ∈ rest, c.kind = .typeExpr → Word (c.text src)

theorem TypeNode.word_of_kind {t : Node} (h : TypeNode src t)
    (hk : t.kind = .typeExpr) : Word (t.text src) := by
  cases h with
  | named _ hw => exact hw
  | array h => cases h.symm.trans hk
  | map h => cases h.symm.trans hk
  | ptr h => cases h.symm.trans hk
  | func h => cases h.symm.trans hk

theorem attachInterp_kind {profile : Profile} {m m' : Node}
    (h : attachInterp interp src profile m = some m') :
    m'.kind = m.kind := by
  unfold attachInterp at h
  split at h
  · exact (Option.some.inj h) ▸ rfl
  · obtain ⟨segs, -, rfl⟩ := Option.map_eq_some_iff.mp h
    rfl

theorem literal_gives (r : Knot) : Gives (literal r) (fun o => ∀ v ∈ o, v.kind ≠ .typeExpr) := by
  have hkind : ∀ k, literalKind k ≠ .typeExpr := by
    intro k
    cases k <;> decide
  refine .opt (.last fun t => .last fun _ => .pure (by simp)) fun t => ?_
  refine .ite ?_ (.pure fun v hv => ?_)
  · intro p o p' hrun v hv
    obtain ⟨m, hm, heq⟩ := Option.map_eq_some_iff.mp hrun
    injection heq with ho
    rw [← ho, Option.mem_some] at hv
    rw [← hv, attachInterp_kind hm]
    exact hkind _
  · rw [← Option.mem_some.mp hv]
    exact hkind _

section

variable {inp : Input} {n : Nat} {r : Knot}

theorem seg_meets (hl : Lexical inp) (F : Prop) :
    Builds inp n (fun _ => F) seg (fun o _ => F ∧ ∃ t, o = some t ∧ Word (t.text inp.src)) := by
  refine .opt (eatIf_meets rfl) ?_ fun t => ?_
  · exact .then (read_meets _) fun t => err_ends errGot_meets rfl
  · refine .pure rfl fun p h => ?_
    obtain ⟨hk, hb, q, hF, -⟩ := h
    exact ⟨hF, t, rfl, hl.word t hb.mem hk⟩

theorem PathShape.ch {src : Source} {mp : Node} {t : Token} (h : PathShape src mp)
    (ht : Word (t.text src)) : PathShape src (mp.ch (some (.ofToken .ident t))) :=
  ⟨h.1, forall_mem_append.mpr ⟨h.2, forall_mem_singleton.mpr ht⟩⟩

theorem modulePath_meets (hl : Lexical inp) (hr : r.Lays inp n) :
    Builds inp n (fun _ => True) (modulePath r)
      (fun o _ => ∃ mp, o = some mp ∧ PathShape inp.src mp) := by
  have turn : ∀ m, Meets (parserRank inp) (n + 1) turnGain (fun _ => PathShape inp.src m)
      (modulePathTurn m)
      (turnPost (fun m' _ => PathShape inp.src m') (fun m' _ => PathShape inp.src m')) := by
    intro m
    refine .try ((eat_runs rfl).keeps _) (.pure rfl fun _ h => h) fun _ => ?_
    refine .opt (seg_meets hl (PathShape inp.src m)) (.pure rfl fun p h => h.1)
      fun t => .pure rfl fun p h => ?_
    obtain ⟨hm, t', ht, hw⟩ := h
    injection ht with ht
    exact hm.ch (ht ▸ hw)
  refine .opt (seg_meets hl True) (.pure rfl fun p h => ?_) fun t => ?_
  · obtain ⟨-, t, ht, -⟩ := h
    simp at ht
  · refine .then ((loop_meets hr.runs turn _).pre fun p h => ?_)
      fun m => .pure rfl fun p h => ⟨m, rfl, h⟩
    obtain ⟨-, t', ht, hw⟩ := h
    injection ht with ht
    exact PathShape.ch ⟨rfl, by simp⟩ (ht ▸ hw)

theorem moduleDecl_meets (hl : Lexical inp) (hr : r.Lays inp n) (t : Token) (F : Prop) :
    Builds inp n (fun _ => F) (moduleDecl r t) (fun m _ => F ∧ ModuleLayout inp.src m) := by
  refine ((Meets.frame (P := fun _ => True) ?_ F)).pre fun _ h => ⟨h, trivial⟩
  refine expect_meets rfl rfl fun _ => ?_
  refine .then (modulePath_meets hl hr) fun path => ?_
  refine .then (optSemi_runs.keeps (∃ mp, path = some mp ∧ PathShape inp.src mp)) fun _ =>
    Meets.pure rfl fun p h => ?_
  obtain ⟨mp, rfl, hmp⟩ := h
  exact ⟨rfl, mp, rfl, hmp⟩

theorem importDecl_gives (t : Token) : Gives (importDecl r t) (·.kind = .import) := by
  have fail : ∀ m : Node, m.kind = .import →
      Gives (do sync; return m : Parse Node) (·.kind = .import) :=
    fun m hm => .last fun _ => .pure hm
  refine .opt (fail _ rfl) fun _ => .opt (fail _ rfl) fun at_ => .opt (fail _ rfl) fun _ => ?_
  exact .last fun _ => .last fun _ => .last fun _ => .pure rfl

theorem constDecl_meets (hl : Lexical inp) (hr : r.Lays inp n) :
    Meets (parserRank inp) (n + 1) (optGain .move) (fun _ => True) (constDecl r)
      (fun o _ => ∀ m ∈ o, ConstLayout inp.src m) := by
  refine .bind (xp_meets rfl) fun o => ?_
  cases o with
  | none => exact .pure rfl fun _ h => h.elim
  | some nt =>
    simp only [optGain, Gain.eat_after]
    refine .given (fun _ => Word (nt.text inp.src)) (fun p h => ?_) ?_
    · exact hl.word nt h.2.1.mem (by rw [h.1]; decide)
    refine expect_meets rfl rfl fun _ => ?_
    refine .then (((literal_runs hr.runs).safe.level (Nat.le_succ n)).gives
      (literal_gives r) _) fun v => ?_
    refine expect_meets rfl rfl fun _ => ?_
    refine .then (hr.type (Word (nt.text inp.src) ∧ ∀ w ∈ v, w.kind ≠ .typeExpr)).safe fun ty => ?_
    refine .then (optSemi_runs.keeps ((Word (nt.text inp.src) ∧
      ∀ w ∈ v, w.kind ≠ .typeExpr) ∧ ∃ t, ty = some t ∧ TypeNode inp.src t)) fun _ =>
      Meets.pure rfl fun p h m hm => ?_
    obtain ⟨⟨hw, hv⟩, t, rfl, ht⟩ := h
    rw [← Option.mem_some.mp hm]
    refine ⟨rfl, .ofToken .ident nt, v.toList ++ [t], by simp, hw, fun c hc hk => ?_⟩
    rcases mem_append.mp hc with hc | hc
    · exact absurd hk (hv c (Option.mem_toList.mp hc))
    · rw [mem_singleton.mp hc] at hk ⊢
      exact ht.word_of_kind hk

/-- The node kinds of a `let`. -/
def bindKinds : List NodeKind := [.bindStmt, .mutBindStmt]

theorem valueThenSemi_gives {K : Node → Prop} (m : Node) (hm : ∀ c, K (m.ch c)) :
    Gives (valueThenSemi r m) K := by
  refine .opt (.last fun _ => .pure ?_) fun v => .last fun _ => .pure (hm _)
  rw [← Node.ch_none m]
  exact hm none

theorem bindInit_gives (m : Node) (hm : m.kind ∈ bindKinds) :
    Gives (bindInit r m) (·.kind ∈ bindKinds) :=
  .opt (valueThenSemi_gives m fun _ => hm) fun _ => .last fun _ => .last fun _ => .pure hm

theorem bindRest_gives (t nt : Token) (ann : Option Node) :
    Gives (bindRest r t nt ann) (fun o => ∀ m ∈ o, m.kind ∈ bindKinds) := by
  have wrap : ∀ m : Node, m.kind ∈ bindKinds →
      Gives (do return some (← bindInit r m)) (fun o => ∀ m ∈ o, m.kind ∈ bindKinds) := by
    intro m hm
    refine .bind (bindInit_gives m hm) fun m' hm' => .pure fun k hk => ?_
    rw [← Option.mem_some.mp hk]
    exact hm'
  refine .opt (.last fun _ => .pure (by simp)) fun _ => ?_
  refine .opt (wrap _ (by simp [bindKinds])) fun _ => ?_
  refine .last fun dot => .ite (wrap _ (by simp [bindKinds])) ?_
  refine .last fun _ => .pure fun k hk => ?_
  rw [← Option.mem_some.mp hk]
  simp [bindKinds]

theorem letStmt_gives (t : Token) : Gives (letStmt r t) (fun o => ∀ m ∈ o, m.kind ∈ bindKinds) := by
  refine .last fun _ => .last fun k => .ite ?_ ?_
  · exact .last fun _ => .last fun _ => .last fun _ => .pure (by simp)
  · refine .opt (.last fun _ => .pure (by simp)) fun nt => ?_
    exact .opt (bindRest_gives t nt none) fun _ => .last fun ann => bindRest_gives t nt ann

end

/-! ## §6. The program. -/

/-- The children of an error-free program node. -/
inductive DeclLayout (src : Source) (d : Node) : Prop where
  | module (h : ModuleLayout src d)
  | imports (h : d.kind = .import)
  | type (h : TypeLayout src d)
  | const (h : ConstLayout src d)
  | binding (h : d.kind ∈ bindKinds)
  | func (h : FuncLayout src d)

section

variable {src : Source} {d : Node}

/-- The layout that goes with a kind. -/
theorem DeclLayout.of_kind (h : DeclLayout src d) : (d.kind = .module → ModuleLayout src d) ∧
    (d.kind = .typeDecl → TypeLayout src d) ∧ (d.kind = .funcDecl → FuncLayout src d) := by
  have other : ∀ {k k' : NodeKind} {P : Prop}, d.kind = k → k ≠ k' → d.kind = k' → P :=
    fun h hne h' => absurd (h.symm.trans h') hne
  cases h with
  | module h => exact ⟨fun _ => h, other h.1 (by decide), other h.1 (by decide)⟩
  | imports h => exact ⟨other h (by decide), other h (by decide), other h (by decide)⟩
  | type h => exact ⟨other h.1 (by decide), fun _ => h, other h.1 (by decide)⟩
  | const h => exact ⟨other h.1 (by decide), other h.1 (by decide), other h.1 (by decide)⟩
  | binding h => refine ⟨?_, ?_, ?_⟩ <;> intro hk <;> simp [hk, bindKinds] at h
  | func h => exact ⟨other h.1 (by decide), other h.1 (by decide), fun _ => h⟩

end

/-- Every declaration is laid out. -/
def RootLayout (src : Source) (root : Node) : Prop := ∀ d ∈ root.children, DeclLayout src d

theorem RootLayout.ch {root : Node} {o : Option Node} (h : RootLayout src root)
    (ho : ∀ d ∈ o, DeclLayout src d) : RootLayout src (root.ch o) :=
  forall_mem_append.mpr ⟨h, fun d hd => ho d (Option.mem_toList.mp hd)⟩

section

variable {inp : Input} {n : Nat} {r : Knot}

variable {p p' : Parser}

/-- A production behind the keyword of its declaration. -/
theorem adv_layout {f : Token → Parse Node} {Q : Node → Prop}
    (hf : ∀ t, Builds inp n (fun _ => True) (f t) (fun m _ => Q m))
    {o : Option Node} (hok : (parserRank inp).ok p) (hk : p.cur.kind ≠ .eof)
    (hs : (parserRank inp).size p < n + 1)
    (hrun : (do return some (← f (← adv)) : Parse (Option Node)) p = some (o, p'))
    (h0 : p'.errors = []) : ∀ d ∈ o, Q d := by
  have hm : (parserRank inp).Moves .eat p p.adv := adv_moves hok.1 hk
  obtain ⟨m, p₁, hf₁, -, -, hQ⟩ := hf p.cur p.adv (adv_ok hok) (hm.below hs) fun _ => trivial
  have hrun' : some (some m, p₁) = some (o, p') := by
    rw [← hrun]
    exact ((bind_run (rfl : adv p = some (p.cur, p.adv))).trans (bind_run hf₁)).symm
  cases hrun'
  intro d hd
  rw [← Option.mem_some.mp hd]
  exact hQ (by simp [parserRank, h0])

theorem declPhase_let (h : declPhase p = 4) : p.cur.kind = .kwLet := by
  simp only [declPhase] at h
  split_ifs at h <;> omega

/-- **A declaration without an error has the layout of its kind.** -/
theorem declaration_layout (hl : Lexical inp) (hr : r.Lays inp n) {o : Option Node}
    (hok : (parserRank inp).ok p) (hk : p.cur.kind ≠ .eof) (hs : (parserRank inp).size p < n + 1)
    (hrun : declaration r (declPhase p) p = some (o, p'))
    (h0 : p'.errors = []) : ∀ d ∈ o, DeclLayout inp.src d := by
  generalize hphase : declPhase p = phase at hrun
  unfold declaration at hrun
  split at hrun
  · refine adv_layout (fun t => ?_) hok hk hs hrun h0
    exact ((importDecl_runs hr.runs t).gives (importDecl_gives t) True).post
      fun m _ h => .imports h.2
  · refine adv_layout (f := fun t => typeDecl r
      (if t.kind = .kwT then typeNameLegacy else typeNameDefault) t) (fun t => ?_) hok hk hs hrun h0
    refine (typeDecl_meets hl hr ?_ t).post fun m _ h => .type h
    split
    · exact typeNameLegacy_names hl
    · exact typeNameDefault_names hl
  · obtain ⟨o', p₁, hrun', -, -, hQ⟩ := constDecl_meets hl hr p hok hs fun _ => trivial
    rw [hrun] at hrun'
    cases hrun'
    exact fun d hd => .const (hQ (by simp [parserRank, h0]) d hd)
  · -- phase 4 starts at a `let`
    have hlet : p.cur.kind = .kwLet := declPhase_let hphase
    have heat : eat .kwLet p = some (some p.cur, p.adv) := by simp [eat, eatIf, hlet]
    have hstmt : letStmt r p.cur p.adv = some (o, p') := by
      rw [stmt, bind_run heat] at hrun
      exact hrun
    exact fun d hd => .binding (letStmt_gives p.cur p.adv o p' hstmt d hd)
  · refine adv_layout (fun t => ?_) hok hk hs hrun h0
    exact (funcDecl_meets hl hr t).post fun m _ h => .func h

theorem declStep_layout (hl : Lexical inp) (hr : r.Lays inp n) {acc acc' : Node × Nat}
    (hok : (parserRank inp).ok p) (hk : p.cur.kind ≠ .eof) (hs : (parserRank inp).size p < n + 1)
    (hrun : declStep r acc p = some (acc', p')) (h0 : p'.errors = [])
    (hacc : RootLayout inp.src acc.1) : RootLayout inp.src acc'.1 := by
  rcases declStep_run r acc p with hreport | ⟨es, hle, hstep⟩
  · -- an unexpected token is reported
    have hmeets : Meets (parserRank inp) (n + 1) (fun _ => .move) (fun _ => True)
        (err 2002 p.cur "unexpected token" >>= fun _ => do sync; return acc)
        (fun _ _ => False) :=
      Meets.bind (err_meets (Q := fun _ _ => False)) fun _ => (syncThen_runs acc).failed
    obtain ⟨a, p₁, hrun', -, -, hfalse⟩ := hmeets p hok hs fun _ => trivial
    rw [← hreport, hrun] at hrun'
    cases hrun'
    exact (hfalse (by simp [parserRank, h0])).elim
  · have hm : (parserRank inp).Moves .stay p { p with errors := es } := ⟨le_refl _, hle, trivial⟩
    have hs' := lt_of_le_of_lt hm.size_le hs
    obtain ⟨d, p₁, hd, -, -⟩ := declaration_moves hr.runs (declPhase p)
      (p := { p with errors := es }) hok hk hs'
    rw [hstep hd] at hrun
    cases hrun
    exact hacc.ch (declaration_layout hl hr (p := { p with errors := es }) hok hk hs' hd h0)

theorem declTurn_meets (hl : Lexical inp) (hr : r.Lays inp n) (acc : Node × Nat) :
    Meets (parserRank inp) (n + 1) turnGain (fun _ => RootLayout inp.src acc.1) (declTurn r acc)
      (turnPost (fun acc _ => RootLayout inp.src acc.1) (fun m _ => RootLayout inp.src m)) := by
  intro p hok hs hP
  rcases declTurn_run r acc p with hdone | ⟨hk, hb, hagain⟩
  · exact ⟨_, p, hdone, hok, Rank.Moves.refl _ p, fun h0 => hP h0⟩
  · obtain ⟨acc', p', hrun, hok', hm⟩ := declStep_moves hr.runs acc hok hk hs
    refine ⟨_, p', hagain hrun, hok', hm.shrink hb, fun h0 => ?_⟩
    exact declStep_layout hl hr hok hk hs hrun (length_eq_zero_iff.mp h0) (hP (hm.spent_zero h0))

theorem moduleFirst_meets (hl : Lexical inp) (hr : r.Lays inp n) {root : Node}
    (hroot : RootLayout inp.src root) :
    Builds inp n (fun _ => True) (moduleFirst r root) (fun m _ => RootLayout inp.src m) := by
  refine .opt (eatIf_meets rfl) ?_ fun t => ?_
  · exact .then (read_meets _) fun t => err_ends err_meets rfl
  · refine .then ((moduleDecl_meets hl hr t True).pre fun _ _ => trivial) fun m =>
      Meets.pure rfl fun p h => hroot.ch fun d hd => ?_
    rw [← Option.mem_some.mp hd]
    exact .module h.2

theorem program_meets (hl : Lexical inp) (hr : r.Lays inp n) :
    Builds inp n (fun _ => True) (program r) (fun m _ => RootLayout inp.src m) := by
  refine .then (cur_runs.keeps True) fun t => ?_
  refine .then (moduleFirst_meets hl hr (by simp [RootLayout])) fun root => ?_
  exact loop_meets hr.runs (declTurn_meets hl hr) (root, 1)

end

theorem parseWith_layout {fuel : Nat} {profile : Profile} {out : Parsed} (hl : Lexical ⟨src, toks⟩)
    (hend : EndsInEof toks) (hfuel : toks.length + maxParseErrors < fuel)
    (hi : ∀ seg : List Char, seg.length ≤ src.length → (interp seg).isSome)
    (hout : parseWith interp fuel toks src profile = some (some out)) (h0 : out.errors = []) :
    RootLayout src out.root := by
  cases toks with
  | nil => simp [parseWith] at hout
  | cons t ts =>
    obtain ⟨n, rfl, hok, hsize⟩ := start_ok src profile hend hfuel
    obtain ⟨root, p', hrun, -, -, hroot⟩ :=
      program_meets hl (prods_succ_lays hl hi n) _ hok hsize fun _ => trivial
    simp only [parseWith, hrun, Option.map_some, Option.some.injEq] at hout
    rw [← hout] at h0 ⊢
    exact hroot (by simpa [parserRank] using h0)

/-- **A default-profile source that parses without error has the layout.** -/
theorem parse_layout {cap fuel : Nat} {out : Parsed} (hlex : lex .default cap src = some toks)
    (hfuel : toks.length + src.length + 204 < fuel)
    (hout : parse fuel toks src .default = some (some out)) (h0 : out.errors = []) :
    RootLayout src out.root := by
  refine parseWith_layout (lex_lexical hlex) (lex_ends hlex).1 ?_ ?_ hout h0
  · simp only [maxParseErrors]
    omega
  · refine segments_return ?_
    simp only [maxParseErrors]
    omega

end Toke
