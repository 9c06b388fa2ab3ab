/-
  Toke.Parser.Terminates — **PARSE RETURNS ON EVERY TOKEN ARRAY THAT ENDS IN `TK_EOF`.**

  The declarations and the declaration loop run over the productions of
  `Toke.Parser.Total`.  The re-entrant parse of an interpolation segment is
  an induction on the nesting depth: the segment is not longer than the
  source, its wrapped text is lexed into at most `length + 32` tokens that
  end in `TK_EOF`, and the parse one level deeper returns on them.

  Headline: `parse_returns`.
-/
import Toke.Parser.Total
import Toke.Lexer.Read

namespace Toke

open List Progress Parse

section

variable {inp : Input} {n : Nat} {r : Knot}

/-! ## §1. Declarations. -/

theorem seg_runs : Advances inp (n + 1) seg := by
  refine .try (eatIf_runs rfl) ?_ fun t => .pure _
  refine .then cur_runs fun t => ?_
  exact .bind errGot_runs fun _ => .pure none rfl

theorem seg_safe : Returns inp n seg :=
  seg_runs.safe.level (Nat.le_succ n)

theorem typeNameLegacy_runs : Returns inp n typeNameLegacy :=
  (xp_runs rfl).safe

theorem typeNameDefault_runs : Returns inp n typeNameDefault := by
  refine .opt (eat_runs rfl) ?_ fun _ => (xp_runs rfl).safe
  refine .opt (eatIf_runs rfl) ?_ fun nt => .pure _
  exact (xp_runs rfl).finish

theorem seeField_runs (ft : Token) (acc : FieldAcc) : Returns inp n (seeField ft acc) := by
  intro p hok hs
  unfold seeField
  split
  · have herr : Returns inp n (err 2015 ft "duplicate field name in struct declaration") :=
      err_runs.safe
    obtain ⟨a, p', hrun, hok', hm⟩ := herr p hok hs
    refine ⟨acc.see (ft.text p.src), p', ?_, hok', hm⟩
    simp only [hrun, Option.map_some]
  · exact ⟨_, p, rfl, hok, Rank.Moves.refl _ p⟩

theorem fieldSep_runs : Returns inp n fieldSep := by
  refine .opt (eatIf_runs rfl) (.pure _) fun _ => ?_
  exact peek_runs.finish

/-- Stepping over a token that is not the sentinel eats it. -/
theorem adv_then {α : Type} {f : Token → Parse α} (hf : ∀ t, Returns inp n (f t))
    {p : Parser} (hok : (parserRank inp).ok p) (hk : p.cur.kind ≠ .eof)
    (hs : (parserRank inp).size p < n + 1) :
    ∃ a p', (adv >>= f) p = some (a, p') ∧ (parserRank inp).ok p' ∧
      (parserRank inp).Moves .move p p' := by
  have hm : (parserRank inp).Moves .eat p p.adv := adv_moves hok.1 hk
  have hok₁ : (parserRank inp).ok p.adv := adv_ok hok
  obtain ⟨a, p', hrun, hok', hm'⟩ := hf p.cur p.adv hok₁ (hm.below hs)
  refine ⟨a, p', hrun, hok', hm.trans ?_⟩
  simpa only [Gain.eat_after] using hm'

/-- Reporting an ordering violation leaves the tokens as they are. -/
theorem orderCheck_run (c : Prop) [Decidable c] (t : Token) (p : Parser) :
    ∃ es, (if c then err 2001 t "declaration ordering violation" else pure () : Parse Unit) p
        = some ((), { p with errors := es }) ∧ p.errors.length ≤ es.length := by
  split
  · exact ⟨_, rfl, Nat.le_succ _⟩
  · exact ⟨p.errors, rfl, le_refl _⟩

/-- One pass: a report, or a declaration behind the check of the order. -/
theorem declStep_run (r : Knot) (acc : Node × Nat) (p : Parser) :
    declStep r acc p = (err 2002 p.cur "unexpected token" >>= fun _ => do sync; return acc :
        Parse (Node × Nat)) p ∨
      ∃ es, p.errors.length ≤ es.length ∧ ∀ {d p'},
        declaration r (declPhase p) { p with errors := es } = some (d, p') →
          declStep r acc p = some ((acc.1.ch d, max (declPhase p) acc.2), p') := by
  by_cases hcp : declPhase p = 0
  · left
    show (if declPhase p = 0 then _ else _ : Parse (Node × Nat)) p = _
    rw [if_pos hcp]
  · obtain ⟨es, horder, hle⟩ := orderCheck_run (declPhase p < acc.2) p.cur p
    refine .inr ⟨es, hle, fun hd => ?_⟩
    show (if declPhase p = 0 then _ else _ : Parse (Node × Nat)) p = _
    rw [if_neg hcp]
    exact (bind_run horder).trans (bind_run hd)

/-- One turn: the loop ends, or takes a pass. -/
theorem declTurn_run (r : Knot) (acc : Node × Nat) (p : Parser) :
    declTurn r acc p = some (.done acc.1, p) ∨
      (p.cur.kind ≠ .eof ∧ p.errors.length < maxParseErrors ∧ ∀ {acc' p'},
        declStep r acc p = some (acc', p') → declTurn r acc p = some (.again acc', p')) := by
  have hturn : declTurn r acc p = (if p.cur.kind = .eof then pure (.done acc.1) else do
      if ← test (fun p => p.errors.length ≥ maxParseErrors) then return .done acc.1
      else return .again (← declStep r acc) : Parse (Turn (Node × Nat) Node)) p := rfl
  by_cases hk : p.cur.kind = .eof
  · left
    rw [hturn, if_pos hk]
    rfl
  · rw [hturn, if_neg hk]
    by_cases hb : p.errors.length ≥ maxParseErrors
    · have htest : test (fun p => p.errors.length ≥ maxParseErrors) p = some (true, p) := by
        simp [test, hb]
      exact .inl (bind_run htest)
    · have htest : test (fun p => p.errors.length ≥ maxParseErrors) p = some (false, p) := by
        simp [test, hb]
      exact .inr ⟨hk, Nat.lt_of_not_le hb, fun h => (bind_run htest).trans (bind_run h)⟩

variable (hr : r.At inp n)

include hr

theorem modulePath_runs : Returns inp n (modulePath r) := by
  have turn : ∀ m, Turns inp (n + 1) (modulePathTurn m) := by
    intro m
    refine .try (eat_runs rfl) (.pure _ rfl) fun _ => ?_
    exact .opt seg_safe (.pure _) fun _ => .pure _
  refine .opt seg_safe (.pure _) fun t => ?_
  exact (loop_runs_below hr turn _).finish

theorem moduleDecl_runs (t : Token) : Returns inp n (moduleDecl r t) := by
  refine expect_runs rfl rfl fun _ => ?_
  refine .then (modulePath_runs hr) fun path => ?_
  exact optSemi_runs.finish

theorem importDecl_runs (t : Token) : Returns inp n (importDecl r t) := by
  refine expect_runs rfl rfl fun _ => ?_
  refine expect_runs rfl rfl fun at_ => ?_
  refine expect_runs rfl rfl fun _ => ?_
  refine .then (modulePath_runs hr) fun path => ?_
  refine .then (eat_runs rfl).safe fun version => ?_
  exact optSemi_runs.finish

theorem fieldTurn_runs (acc : FieldAcc) :
    Turns inp (n + 1) (fieldTurn r acc) := by
  refine .then (eat_runs rfl).safe fun variant => ?_
  refine .try (eatIf_runs rfl) ?_ fun ft => ?_
  · refine .then cur_runs fun t => ?_
    exact .then errGot_runs.safe fun _ => .pure _ rfl
  · refine .then (seeField_runs ft acc) fun acc => ?_
    refine expect_runs rfl rfl fun _ => ?_
    refine .then hr.typeExpr.safe fun ty => ?_
    exact .then fieldSep_runs fun more => Runs.ite (fun _ => Safe.pure _) fun _ => Safe.pure _

theorem fieldList_runs : Returns inp n (fieldList r) :=
  Runs.then cur_runs fun _ => loop_runs_below hr (fieldTurn_runs hr) _

theorem typeDecl_runs {name : Parse (Option Token)} (hname : Returns inp n name) (t : Token) :
    Returns inp n (typeDecl r name t) := by
  refine expect_runs rfl rfl fun _ => ?_
  refine .opt hname (syncThen_runs _) fun nt => ?_
  refine expect_runs rfl rfl fun _ => ?_
  refine .then (fieldList_runs hr) fun fields => ?_
  refine .then (close_runs rfl) fun _ => ?_
  exact optSemi_runs.finish

theorem constDecl_runs : Advances inp (n + 1) (constDecl r) := by
  refine .opt (xp_runs rfl) (.pure none rfl) fun nt => ?_
  refine expect_runs rfl rfl fun _ => ?_
  refine .then ((literal_runs hr).safe.level (Nat.le_succ n)) fun value => ?_
  refine expect_runs rfl rfl fun _ => ?_
  refine .then hr.typeExpr.safe fun ty => ?_
  exact optSemi_runs.finish

theorem funcDecl_runs (t : Token) : Returns inp n (funcDecl r t) := by
  refine expect_runs rfl rfl fun _ => ?_
  refine expect_runs rfl rfl fun nt => ?_
  refine expect_runs rfl rfl fun _ => ?_
  refine .then (params_runs hr _) fun m => ?_
  refine .then (close_runs rfl) fun _ => ?_
  refine expect_runs rfl rfl fun _ => ?_
  refine .then (returnSpec_runs hr) fun rspec => ?_
  refine Safe.opt (eat_runs rfl) ?_ fun _ => ?_
  · exact optSemi_runs.finish
  · refine .then (block_runs hr t _) fun m => ?_
    exact optSemi_runs.finish

/-! ## §2. The declaration loop. -/

/-- A declaration moves, since it starts at a token of its own. -/
theorem declaration_moves (phase : Nat) {p : Parser}
    (hok : (parserRank inp).ok p) (hk : p.cur.kind ≠ .eof) (hs : (parserRank inp).size p < n + 1) :
    ∃ d p', declaration r phase p = some (d, p') ∧ (parserRank inp).ok p' ∧
      (parserRank inp).Moves .move p p' := by
  unfold declaration
  split
  · refine adv_then (fun t => ?_) hok hk hs
    exact (importDecl_runs hr t).finish
  · refine adv_then (fun t => ?_) hok hk hs
    refine Runs.then (typeDecl_runs hr ?_ t) fun _ => Safe.pure _
    split
    · exact typeNameLegacy_runs
    · exact typeNameDefault_runs
  · exact moves_of_opt (constDecl_runs hr) p hok hs
  · exact stmt_runs hr p hok hs
  · refine adv_then (fun t => ?_) hok hk hs
    exact (funcDecl_runs hr t).finish

/-- **Every pass through the declaration loop moves.** -/
theorem declStep_moves (acc : Node × Nat) {p : Parser}
    (hok : (parserRank inp).ok p) (hk : p.cur.kind ≠ .eof) (hs : (parserRank inp).size p < n + 1) :
    ∃ acc' p', declStep r acc p = some (acc', p') ∧ (parserRank inp).ok p' ∧
      (parserRank inp).Moves .move p p' := by
  rcases declStep_run r acc p with hreport | ⟨es, hle, hstep⟩
  · -- not a declaration: report and recover, perhaps on the spot
    have hruns : Runs (parserRank inp) (n + 1) (fun _ => .move)
        (err 2002 p.cur "unexpected token" >>= fun _ => do sync; return acc) :=
      Runs.bind err_runs fun _ => syncThen_runs acc
    rw [hreport]
    exact hruns p hok hs
  · have hm : (parserRank inp).Moves .stay p { p with errors := es } := ⟨le_refl _, hle, trivial⟩
    obtain ⟨d, p', hd, hok', hm'⟩ := declaration_moves hr (declPhase p)
      (p := { p with errors := es }) hok hk (lt_of_le_of_lt hm.size_le hs)
    exact ⟨_, p', hstep hd, hok', hm.trans hm'⟩

theorem declTurn_runs (acc : Node × Nat) : Turns inp (n + 1) (declTurn r acc) := by
  intro p hok hs
  rcases declTurn_run r acc p with hdone | ⟨hk, hb, hagain⟩
  · exact ⟨_, p, hdone, hok, Rank.Moves.refl _ p⟩
  · -- below the error cap the move of `declStep` shrinks the state
    obtain ⟨acc', p', hrun, hok', hm⟩ := declStep_moves hr acc hok hk hs
    exact ⟨_, p', hagain hrun, hok', hm.shrink hb⟩

theorem moduleFirst_runs (root : Node) : Returns inp n (moduleFirst r root) := by
  refine .opt (eatIf_runs rfl) ?_ fun t => ?_
  · refine .then cur_runs fun t => ?_
    exact err_runs.finish
  · exact (moduleDecl_runs hr t).finish

theorem program_runs : Returns inp n (program r) := by
  refine .then cur_runs fun t => ?_
  refine .then (moduleFirst_runs hr _) fun root => ?_
  exact loop_runs_below hr (declTurn_runs hr) _

end

/-! ## §3. Segments and the entry point. -/

/-- A token array ends in `TK_EOF`. -/
def EndsInEof (toks : List Token) : Prop := ∃ t, toks.getLast? = some t ∧ t.kind = .eof

theorem EndsInEof.ended {t : Token} {ts : List Token} (h : EndsInEof (t :: ts)) :
    (ts.getLastD t).kind = .eof := by
  obtain ⟨last, hlast, hkind⟩ := h
  rw [getLast?_cons] at hlast
  injection hlast with hlast
  rw [getLastD_eq_getLast?, hlast]
  exact hkind

/-- What `lex` hands to `parse`: a bounded array that ends in `TK_EOF`. -/
theorem lex_ends {profile : Profile} {cap : Nat} {src : Source} {toks : List Token}
    (h : lex profile cap src = some toks) : EndsInEof toks ∧ toks.length ≤ cap := by
  unfold lex at h
  split at h
  · simp at h
  · next l hl =>
      split at h
      · simp at h
      · next l' hemit =>
          obtain ⟨hcap, rfl⟩ := emit_true hemit
          split at h
          · simp at h
          · cases h
            refine ⟨⟨_, getLast?_concat, rfl⟩, ?_⟩
            simp only [Lexer.push, length_append, length_singleton]
            omega

theorem interpText_length (seg : List Char) : (interpText seg).length ≤ seg.length + 19 := by
  have htake := (takeWhile_sublist (l := seg) (· != '\x00')).length_le
  have hwrap : interpWrap.length = 16 := by decide
  have htail : ";\x7d;".toList.length = 3 := by decide
  simp only [interpText, length_append]
  omega

/-- The contract of the productions as `parse` uses them. -/
theorem prods_succ_at {inp : Input} {interp : List Char → Option (Option Node)}
    (hi : ∀ seg : List Char, seg.length ≤ inp.src.length → (interp seg).isSome) (n : Nat) :
    Knot.At inp n (prods interp (n + 1)) := by
  have h := prods_at hi (n + 1)
  have le := Nat.le_succ n
  exact ⟨rfl, h.interp, h.expr.level le, fun t => (h.stmtList t).level le, h.typeExpr.level le,
    h.unary.level le, fun b => (h.ifCore b).level le⟩

/-- The state in which `parse` starts. -/
theorem start_ok {fuel : Nat} {t : Token} {ts : List Token} (src : Source) (profile : Profile)
    (hend : EndsInEof (t :: ts)) (hfuel : (t :: ts).length + maxParseErrors < fuel) :
    ∃ n, fuel = n + 1 ∧ (parserRank ⟨src, t :: ts⟩).ok ⟨t, ts, src, profile, [], false⟩ ∧
      (parserRank ⟨src, t :: ts⟩).size ⟨t, ts, src, profile, [], false⟩ < n := by
  refine ⟨fuel - 1, by omega, ⟨hend.ended, rfl, suffix_refl _⟩, ?_⟩
  simp only [length_cons] at hfuel
  simp only [Rank.size, parserRank]
  omega

/-- `parse` returns when the parse of the segments does. -/
theorem parseWith_returns {interp : List Char → Option (Option Node)} {fuel : Nat}
    {toks : List Token} {src : Source} (profile : Profile) (hend : EndsInEof toks)
    (hfuel : toks.length + maxParseErrors < fuel)
    (hi : ∀ seg : List Char, seg.length ≤ src.length → (interp seg).isSome) :
    ∃ out, parseWith interp fuel toks src profile = some (some out) := by
  cases toks with
  | nil =>
    obtain ⟨last, hlast, -⟩ := hend
    simp at hlast
  | cons t ts =>
    obtain ⟨n, rfl, hok, hsize⟩ := start_ok src profile hend hfuel
    obtain ⟨root, p', hrun, -⟩ := program_runs (prods_succ_at hi n) _ hok hsize
    exact ⟨⟨root, p'.errors.reverse⟩, by simp only [parseWith, hrun, Option.map_some]⟩

/-- The parse of a segment returns when that of its wrapped text does. -/
theorem interpParse_isSome {parse : List Token → Source → Profile → Option (Option Parsed)}
    {seg : List Char} (h : ∀ sub, EndsInEof sub → sub.length ≤ seg.length + 32 →
      ∃ out, parse sub (interpText seg) .default = some (some out)) :
    (interpParse parse seg).isSome := by
  unfold interpParse
  split
  · rfl
  · next sub hlex =>
      obtain ⟨hsub, hlen⟩ := lex_ends hlex
      obtain ⟨out, hout⟩ := h sub hsub hlen
      simp only [hout, Option.map_some, Option.isSome_some]

/-- The induction on the nesting of interpolations.  One level adds the wrapper
text to the source, which is what the bound pays for. -/
theorem parseAt_returns (depth : Nat) {fuel : Nat} {toks : List Token} {src : Source}
    (profile : Profile) (hend : EndsInEof toks) (htoks : toks.length + maxParseErrors < fuel)
    (hsrc : src.length + 32 + maxParseErrors + 19 * depth < fuel) :
    ∃ out, parseAt fuel depth toks src profile = some (some out) := by
  induction depth generalizing toks src profile with
  | zero => exact parseWith_returns profile hend htoks fun _ _ => rfl
  | succ depth ih =>
    refine parseWith_returns profile hend htoks fun seg hseg => ?_
    refine interpParse_isSome fun sub hsub hlen => ?_
    have htext := interpText_length seg
    exact ih .default hsub (by omega) (by omega)

/-- The segments of a source that fits the fuel are parsed. -/
theorem segments_return {depth fuel : Nat} {src : Source}
    (hsrc : src.length + 32 + maxParseErrors + 19 * (depth + 1) < fuel) (seg : List Char)
    (hseg : seg.length ≤ src.length) : (interpParse (parseAt fuel depth) seg).isSome := by
  refine interpParse_isSome fun sub hsub hlen => ?_
  have htext := interpText_length seg
  exact parseAt_returns depth .default hsub (by omega) (by omega)

/-- **Parsing terminates.**  On every token array that ends in `TK_EOF`, with
every source text and profile, `parse` returns a tree: recursion depth and loop
length never exceed the tokens and the bytes of the source by more than a
constant. -/
theorem parse_returns (toks : List Token) (src : Source) (profile : Profile)
    (hend : EndsInEof toks) (fuel : Nat) (hfuel : toks.length + src.length + 204 < fuel) :
    ∃ out, parse fuel toks src profile = some (some out) := by
  refine parseAt_returns interpMaxDepth profile hend ?_ ?_
  · simp only [maxParseErrors]
    omega
  · simp only [maxParseErrors, interpMaxDepth]
    omega

/-- An array in which no declaration starts: `sync` stops at the second `M`
without consuming it, and only the error budget shrinks. -/
theorem parse_returns_malformed :
    ∃ out, parse 300 [⟨.rbrace, 0, 1, 1, 1⟩, ⟨.kwM, 1, 1, 1, 2⟩, ⟨.kwM, 2, 1, 1, 3⟩,
      ⟨.eof, 3, 0, 1, 4⟩] "\x7dMM".toList .default = some (some out) :=
  parse_returns _ _ _ ⟨⟨.eof, 3, 0, 1, 4⟩, rfl, rfl⟩ 300 (by decide)

end Toke
