/-
  Toke.Parser.State — **THE PARSER STATE AND ITS PRIMITIVES** (head of `parser.c`).

  The C parser holds a token array and an index that never passes the last
  token.  Here the state holds the current token and the tokens after it, so
  an index out of range cannot be built.  A production is a state computation
  that may diverge: `none` is a run that does not return.

    `peek`, `cur`, `adv`, `peekAt`    — reading and stepping
    `eatIf`, `eat`                    — `if (peek(p) == k …) adv(p)`
    `err`, `xp`, `close`, `optSemi`   — the diagnostics
    `sync`                            — panic-mode recovery

  Every primitive comes with its `Runs` lemma: it returns, and says how far
  it moved.
-/
import Toke.Ast.Node
import Toke.Library.Progress

namespace Toke

open List Progress

/-! ## §1. State. -/

/-- `MAX_PARSE_ERRORS`. -/
def maxParseErrors : Nat := 20

/-- An error diagnostic of the parser. -/
structure ParseError where
  code : Nat
  tok : Token
  msg : String
  deriving Repr, DecidableEq

/-- The `Parser` record.  `cur :: ahead` is `toks[pos..n-1]`; `errors`, newest
first, has `errs` entries. -/
structure Parser where
  cur : Token
  ahead : List Token
  src : Source
  profile : Profile
  errors : List ParseError
  inSc : Bool

namespace Parser

/-- `adv` stops at the last token. -/
def adv (p : Parser) : Parser :=
  match p.ahead with
  | [] => p
  | t :: ts => { p with cur := t, ahead := ts }

/-- `peek_at`. -/
def peekAt (p : Parser) (off : Nat) : TokenKind :=
  match (p.cur :: p.ahead)[off]? with
  | some t => t.kind
  | none => .eof

/-- `teq`: does the token spell `s`? -/
def teq (p : Parser) (t : Token) (s : String) : Bool :=
  t.len == s.toList.length && t.text p.src == s.toList

/-- `tok_text_extract` into a 64-byte buffer. -/
def tokText (p : Parser) (t : Token) : String :=
  if 0 < t.len ∧ t.len < 63 then String.ofList (t.text p.src) else ""

/-- The last token of the array is `TK_EOF`. -/
def Ended (p : Parser) : Prop := (p.ahead.getLastD p.cur).kind = .eof

instance (p : Parser) : Decidable p.Ended :=
  inferInstanceAs (Decidable (_ = _))

theorem Ended.ahead_ne_nil {p : Parser} (h : p.Ended) (hk : p.cur.kind ≠ .eof) : p.ahead ≠ [] := by
  intro hnil
  rw [Ended, hnil] at h
  exact hk h

theorem Ended.adv {p : Parser} (h : p.Ended) : p.adv.Ended := by
  unfold Parser.adv
  split
  · exact h
  · next t ts hts =>
      rw [Ended, hts, getLastD_cons] at h
      exact h

@[simp] theorem adv_src (p : Parser) : p.adv.src = p.src := by
  unfold Parser.adv
  split <;> rfl

end Parser

/-- What a parser runs on. -/
structure Input where
  src : Source
  toks : List Token

/-- Tokens left to read and errors reported, out of the error cap.  The
source buffer never changes, and the tokens left are the end of the array. -/
def parserRank (inp : Input) : Rank Parser where
  ok := fun p => p.Ended ∧ p.src = inp.src ∧ (p.cur :: p.ahead) <:+ inp.toks
  left := fun p => p.ahead.length
  spent := fun p => p.errors.length
  cap := maxParseErrors

/-- A production. -/
abbrev Parse (α : Type) := Fueled Parser α

/-! ## §2. Reading and stepping. -/

namespace Parse

/-- `peek`. -/
def peek : Parse TokenKind := fun p => some (p.cur.kind, p)

/-- The current token. -/
def cur : Parse Token := fun p => some (p.cur, p)

/-- `adv`. -/
def adv : Parse Token := fun p => some (p.cur, p.adv)

/-- A test on the state (`peek_at`, `teq`, `in_sc`). -/
def test (c : Parser → Bool) : Parse Bool := fun p => some (c p, p)

/-- `pos`, counted from the end of the array. -/
def remaining : Parse Nat := fun p => some (p.ahead.length, p)

/-- `if (peek(p) == k … && also) … adv(p)`: step over a token of one of the
given kinds. -/
def eatIf (ks : List TokenKind) (also : Parser → Bool) : Parse (Option Token) :=
  fun p => if p.cur.kind ∈ ks ∧ also p then some (some p.cur, p.adv) else some (none, p)

/-- `eat`. -/
def eat (k : TokenKind) : Parse (Option Token) := eatIf [k] fun _ => true

/-- `eerr`: one error at a token. -/
def err (code : Nat) (t : Token) (msg : String) : Parse Unit :=
  fun p => some ((), { p with errors := ⟨code, t, msg⟩ :: p.errors })

/-- `eerr_got`: the message names the token's text. -/
def errGot (code : Nat) (t : Token) (msg : String) : Parse Unit := fun p =>
  let got := p.tokText t
  err code t (if got = "" then msg else msg ++ ", got '" ++ got ++ "'") p

/-- The error that `xp` reports. -/
def missing (w : String) : Parse Unit := do
  let t ← cur
  if t.kind = .eof then err 2004 t ("expected " ++ w ++ ", got end of file")
  else errGot 2002 t ("expected " ++ w)

/-- `xp`: the expected token, or an error and `NULL`. -/
def xp (k : TokenKind) (w : String) : Parse (Option Token) := do
  match ← eat k with
  | some t => return some t
  | none =>
    missing w
    return none

/-- `if (!xp(p, k, w)) eerr(p, E2004, cur(p), "unclosed delimiter")`. -/
def close (k : TokenKind) (w : String) : Parse Unit := do
  match ← xp k w with
  | some _ => return ()
  | none => err 2004 (← cur) "unclosed delimiter"

/-- `opt_semi`. -/
def optSemi : Parse Unit := do
  match ← eat .semi with
  | some _ => return ()
  | none =>
    let t ← cur
    if t.kind = .rbrace ∨ t.kind = .eof then return ()
    else err 2003 t "missing semicolon"

/-- The tokens at which `sync` stops without consuming them. -/
def syncStops : List TokenKind :=
  [.kwLet, .kwIf, .kwLp, .kwRt, .kwBr, .kwSc, .kwMt, .kwF, .kwT, .kwI, .kwM, .lt]

/-- The loop of `sync`.  On an array that does not end in `TK_EOF` it does not
return: `adv` no longer moves. -/
def syncLoop : Token → List Token → Option (Token × List Token)
  | t, [] =>
    if t.kind = .eof ∨ t.kind = .semi ∨ t.kind = .rbrace ∨ t.kind ∈ syncStops then
      some (t, [])
    else none
  | t, u :: us =>
    if t.kind = .eof then some (t, u :: us)
    else if t.kind = .semi ∨ t.kind = .rbrace then some (u, us)
    else if t.kind ∈ syncStops then some (t, u :: us)
    else syncLoop u us

/-- `sync`: panic-mode recovery. -/
def sync : Parse Unit := fun p =>
  (syncLoop p.cur p.ahead).map fun s => ((), { p with cur := s.1, ahead := s.2 })

end Parse

/-! ## §3. Every primitive returns. -/

section Runs

variable {inp : Input} {n : Nat}

/-- A computation that only reads the state. -/
theorem read_runs {α : Type} (f : Parser → α) :
    Safe (parserRank inp) n (fun p => some (f p, p) : Parse α) :=
  fun p hok _ => ⟨f p, p, rfl, hok, Rank.Moves.refl _ p⟩

theorem peek_runs : Safe (parserRank inp) n Parse.peek := read_runs _

theorem cur_runs : Safe (parserRank inp) n Parse.cur := read_runs _

theorem test_runs (c : Parser → Bool) : Safe (parserRank inp) n (Parse.test c) := read_runs _

theorem remaining_runs : Safe (parserRank inp) n Parse.remaining := read_runs _

theorem adv_moves {p : Parser} (hok : p.Ended) (hk : p.cur.kind ≠ .eof) :
    (parserRank inp).Moves .eat p p.adv := by
  have hne := hok.ahead_ne_nil hk
  unfold Parser.adv
  split
  · next h => exact absurd h hne
  · next t ts h => simp [Rank.Moves, parserRank, h]

theorem adv_ok {p : Parser} (hok : (parserRank inp).ok p) : (parserRank inp).ok p.adv := by
  obtain ⟨hend, hsrc, hsuf⟩ := hok
  refine ⟨hend.adv, p.adv_src ▸ hsrc, ?_⟩
  unfold Parser.adv
  split
  · exact hsuf
  · next t ts hts =>
      rw [hts] at hsuf
      exact (suffix_cons _ _).trans hsuf

theorem adv_runs : Safe (parserRank inp) n Parse.adv := by
  intro p hok _
  refine ⟨p.cur, p.adv, rfl, adv_ok hok, ?_⟩
  by_cases hk : p.cur.kind = .eof
  · unfold Parser.adv
    split <;> simp_all [Rank.Moves, parserRank]
  · exact (adv_moves hok.1 hk).weaken (Nat.zero_le _)

theorem eatIf_runs {ks : List TokenKind} {also : Parser → Bool}
    (hks : ks.contains TokenKind.eof = false) :
    Runs (parserRank inp) n (optGain .stay) (Parse.eatIf ks also) := by
  intro p hok _
  unfold Parse.eatIf
  split
  · next hc =>
      -- a token of one of the kinds is not the sentinel, so `adv` moves
      have hk : p.cur.kind ≠ .eof := fun h => by simp [← h, hc.1] at hks
      exact ⟨some p.cur, p.adv, rfl, adv_ok hok, adv_moves hok.1 hk⟩
  · exact ⟨none, p, rfl, hok, Rank.Moves.refl _ p⟩

theorem eat_runs {k : TokenKind} (hk : (TokenKind.eof == k) = false) :
    Runs (parserRank inp) n (optGain .stay) (Parse.eat k) := eatIf_runs (by simpa using hk)

theorem err_runs {code : Nat} {t : Token} {msg : String} :
    Runs (parserRank inp) n (fun _ => .move) (Parse.err code t msg) := by
  intro p hok _
  exact ⟨(), _, rfl, hok, le_refl _, Nat.le_succ _, Or.inr (Nat.lt_succ_self _)⟩

theorem errGot_runs {code : Nat} {t : Token} {msg : String} :
    Runs (parserRank inp) n (fun _ => .move) (Parse.errGot code t msg) :=
  fun p hok hs => err_runs p hok hs

theorem missing_runs {w : String} : Runs (parserRank inp) n (fun _ => .move) (Parse.missing w) :=
  Runs.then cur_runs fun _ => Runs.ite (fun _ => err_runs) (fun _ => errGot_runs)

theorem xp_runs {k : TokenKind} {w : String} (hk : (TokenKind.eof == k) = false) :
    Runs (parserRank inp) n (optGain .move) (Parse.xp k w) := by
  refine Runs.bind (eat_runs hk) fun o => ?_
  cases o with
  | some t => exact Runs.pure _ (Gain.eat_after _)
  | none =>
    refine Runs.bind missing_runs fun _ => Runs.pure none ?_
    decide

theorem close_runs {k : TokenKind} {w : String} (hk : (TokenKind.eof == k) = false) :
    Safe (parserRank inp) n (Parse.close k w) := by
  refine Runs.then (xp_runs hk).safe fun o => ?_
  cases o with
  | some t => exact Safe.pure ()
  | none => exact Runs.then cur_runs fun t => err_runs.safe

theorem optSemi_runs : Safe (parserRank inp) n Parse.optSemi := by
  refine Runs.then (eat_runs rfl).safe fun o => ?_
  cases o with
  | some t => exact Safe.pure ()
  | none =>
    refine Runs.then cur_runs fun t => ?_
    exact Runs.ite (fun _ => Safe.pure ()) (fun _ => err_runs.safe)

/-- **Recovery returns** on every array that ends in `TK_EOF`: it reads no
further than the sentinel, and gives nothing back. -/
theorem syncLoop_returns (ahead : List Token) (t : Token) (h : (ahead.getLastD t).kind = .eof) :
    ∃ u us, Parse.syncLoop t ahead = some (u, us) ∧
      (us.getLastD u).kind = .eof ∧ (u :: us) <:+ (t :: ahead) := by
  induction ahead generalizing t with
  | nil =>
    have ht : t.kind = .eof := h
    exact ⟨t, [], by simp [Parse.syncLoop, ht], ht, suffix_refl _⟩
  | cons a as ih =>
    have hlast : (as.getLastD a).kind = .eof := by
      rw [getLastD_cons] at h
      exact h
    unfold Parse.syncLoop
    split
    · exact ⟨t, a :: as, rfl, h, suffix_refl _⟩
    · split
      · exact ⟨a, as, rfl, hlast, suffix_cons _ _⟩
      · split
        · exact ⟨t, a :: as, rfl, h, suffix_refl _⟩
        · obtain ⟨u, us, hrun, hend, hsuf⟩ := ih a hlast
          exact ⟨u, us, hrun, hend, hsuf.trans (suffix_cons _ _)⟩

theorem sync_runs : Safe (parserRank inp) n Parse.sync := by
  intro p hok _
  obtain ⟨hended, hsrc, hsuf⟩ := hok
  obtain ⟨u, us, hrun, hend, hle⟩ := syncLoop_returns p.ahead p.cur hended
  have hlen : us.length ≤ p.ahead.length := by
    have := hle.length_le
    simp only [length_cons] at this
    omega
  refine ⟨(), { p with cur := u, ahead := us }, ?_, ⟨hend, hsrc, hle.trans hsuf⟩, hlen,
    le_refl _, trivial⟩
  simp [Parse.sync, hrun]

end Runs

end Toke
