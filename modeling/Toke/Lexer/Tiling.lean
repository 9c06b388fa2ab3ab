/-
  Toke.Lexer.Tiling — **THE TOKENS TILE THE SOURCE**, in both profiles.

  Every byte of an accepted buffer belongs to exactly one token or to a piece
  of trivia, and each token carries the line and column of its first byte.

    `lexStep_covers` — what one turn of the main loop does, in either profile
    `lexLoop_tiles`  — by induction on the turns, the whole run
    `lex_tiles`      — the four facts about the token array
-/
import Toke.Lexer.Scan

namespace Toke

open List Lexer

variable {src : Source} {r : List Char} {pos cap : Nat} {c : Char} {l l' : Lexer}
    {profile : Profile}

/-! ## §1. Lines and columns. -/

/-- The 1-based line of the byte at `pos`: one more than the newlines before it. -/
def lineAt (src : Source) (pos : Nat) : Nat := 1 + (src.take pos).count '\n'

/-- The 1-based column: one more than the bytes since the last newline. -/
def colAt (src : Source) (pos : Nat) : Nat :=
  1 + ((src.take pos).reverse.takeWhile (· != '\n')).length

theorem take_succ_of_drop {src : List Char} (h : src.drop pos = c :: r) :
    src.take (pos + 1) = src.take pos ++ [c] := by
  have hget : src[pos]? = some c := by
    rw [← Nat.add_zero pos, ← getElem?_drop, h]
    rfl
  rw [take_add_one, hget]
  rfl

theorem lineAt_succ {src : List Char} (h : src.drop pos = c :: r) :
    lineAt src (pos + 1) = if c = '\n' then lineAt src pos + 1 else lineAt src pos := by
  unfold lineAt
  rw [take_succ_of_drop h, count_append]
  by_cases hc : c = '\n'
  · subst hc
    simp
    omega
  · simp [hc]

theorem colAt_succ {src : List Char} (h : src.drop pos = c :: r) :
    colAt src (pos + 1) = if c = '\n' then 1 else colAt src pos + 1 := by
  unfold colAt
  rw [take_succ_of_drop h, reverse_append, reverse_singleton, singleton_append]
  by_cases hc : c = '\n'
  · subst hc
    rfl
  · simp [hc]
    omega

/-- The scanner stands at `pos` and knows its line and column. -/
structure Aligned (src : Source) (l : Lexer) : Prop where
  tracks : Tracks src l
  line : l.line = lineAt src l.pos
  col : l.col = colAt src l.pos

theorem aligned_init (src : Source) : Aligned src (Lexer.init src) :=
  ⟨tracks_init src, rfl, rfl⟩

theorem Aligned.advance (h : Aligned src l) : Aligned src l.advance := by
  cases hl : l.rest with
  | nil =>
    have hstay : l.advance = l := by
      unfold Lexer.advance
      rw [hl]
    rw [hstay]
    exact h
  | cons c r =>
    have hdrop : src.drop l.pos = c :: r := by rw [← h.tracks.1, hl]
    have htracks : Tracks src l.advance := tracks_advanceN (n := 1) h.tracks (by rw [hl]; simp)
    refine ⟨htracks, ?_, ?_⟩
    · rw [advance_pos hl, lineAt_succ hdrop, ← h.line]
      unfold Lexer.advance
      rw [hl]
      dsimp only
      split
      · rfl
      · rfl
    · rw [advance_pos hl, colAt_succ hdrop, ← h.col]
      unfold Lexer.advance
      rw [hl]
      dsimp only
      split
      · rfl
      · rfl

theorem Aligned.advanceN (n : Nat) (h : Aligned src l) : Aligned src (l.advanceN n) := by
  induction n generalizing l with
  | zero => exact h
  | succ n ih => exact ih h.advance

theorem Aligned.reads (h : Aligned src l) (k : TokenKind)
    (t : List Char) : Aligned src (l.reads k t) := by
  have hadv := h.advanceN t.length
  exact ⟨hadv.tracks, hadv.line, hadv.col⟩

/-! ## §2. One turn of the main loop. -/

/-- A token of the `switch` takes one byte, or two that are there. -/
theorem symAction_token_len {k : TokenKind} {n : Nat}
    (h : symAction profile c r = .token k n) : 0 < n ∧ n ≤ (c :: r).length := by
  cases r with
  | nil =>
    unfold symAction at h
    split at h <;> (try split at h) <;> simp at h <;> obtain ⟨-, rfl⟩ := h <;> simp_all
  | cons e r =>
    unfold symAction at h
    dsimp only at h
    split at h <;> (try split at h) <;> (try split at h) <;> simp at h <;>
      obtain ⟨-, rfl⟩ := h <;> simp

/-- **What one turn can do**, in either profile. -/
theorem lexStep_covers (hl : l.rest = c :: r) :
    Turned (fun x _ => x.text ≠ []) cap l (lexStep profile cap c r l) := by
  refine lexStep_turned hl (fun hx _ => WF_ne_nil hx) (fun l₁ _ hres => ?_) fun {k n} hact => ?_
  · obtain ⟨cs, r, hsplit, htake, hcs, hr⟩ := takeWhile_split isIdentCont r
    have hl' : l.rest = (c :: cs) ++ r := by rw [hl, hsplit]; rfl
    have hrest : l.advance.rest = cs ++ r := by rw [advance_rest, hl, tail_cons, hsplit]
    have hadv : l.advance.advanceWhile isIdentCont = l.advanceN (c :: cs).length := by
      rw [advanceWhile_append hrest hcs hr, advance_eq, advanceN_advanceN]
      congr 1
      simp only [length_cons]
      omega
    have hword : l.advance.rest.takeWhile isIdentCont = cs := by
      rw [hrest, takeWhile_append_stop hcs hr]
    unfold lexIdent at hres
    simp only [hword, hadv] at hres
    split at hres
    next => simp at hres
    next =>
      split at hres
      next => simp at hres
      next =>
        obtain ⟨-, rfl⟩ := emit_true hres
        exact .inr (.inl ⟨⟨_, c :: cs⟩, r, cons_ne_nil c cs, hl', rfl⟩)
  · obtain ⟨hpos, hle⟩ := symAction_token_len hact
    have hlen : ((c :: r).take n).length = n := by
      rw [length_take]
      omega
    exact ⟨_, _, (take_append_drop n (c :: r)).symm, hlen,
      ne_nil_of_length_pos (hlen.symm ▸ hpos)⟩

/-! ## §3. The whole run. -/

/-- The tokens from offset `pos` on: each starts where the one before it, or
the trivia behind that, ends, and the last one is the end marker. -/
inductive TilesFrom (src : Source) : Nat → List Token → Prop where
  | eof : TilesFrom src src.length
      [⟨.eof, src.length, 0, lineAt src src.length, colAt src src.length⟩]
  | skip {pos : Nat} {s r : List Char} {ts : List Token} (hs : Trivia s r)
      (hsrc : src.drop pos = s ++ r) (h : TilesFrom src (pos + s.length) ts) :
      TilesFrom src pos ts
  | token {pos len : Nat} {ts : List Token} (k : TokenKind) (hlen : 0 < len)
      (hle : pos + len ≤ src.length) (h : TilesFrom src (pos + len) ts) :
      TilesFrom src pos (⟨k, pos, len, lineAt src pos, colAt src pos⟩ :: ts)

/-- **An error-free run tiles what is left.**  Induction on the turns; `lf` is
the state the loop ends in and `eof` stands for the marker that `lex` adds. -/
theorem lexLoop_tiles {lf : Lexer} {f : Nat} (he : lf.errCount = 0) (hcap : lf.out.length < cap)
    (h : lexLoop profile cap f l = some lf) : Aligned src l → l.rest.length ≤ f →
    ∃ toks, lf.out ++ [⟨.eof, lf.pos, 0, lf.line, lf.col⟩] = l.out ++ toks ∧
      TilesFrom src l.pos toks := by
  refine lexLoop_induct (motive := fun f l => Aligned src l → l.rest.length ≤ f →
    ∃ toks, lf.out ++ [⟨.eof, lf.pos, 0, lf.line, lf.col⟩] = l.out ++ toks ∧
      TilesFrom src l.pos toks)
    lexStep_covers (fun f hf ha hle => ?_) (fun _ _ _ hpos _ => by omega)
    (fun f l l' hturn hrun ih ha hf => ?_) f l h
  · -- at the end of the buffer only the marker is left
    have hnil : lf.rest = [] := hf.elim (fun hf => length_eq_zero_iff.mp (by omega)) id
    have hpos : lf.pos = src.length := by
      have hlen := ha.tracks.2
      rw [hnil] at hlen
      simpa using hlen
    refine ⟨_, rfl, ?_⟩
    rw [ha.line, ha.col, hpos]
    exact .eof
  obtain ⟨he', ho'⟩ := lexLoop_mono lexStep_covers hrun
  rcases hturn with ⟨s, r', hsplit, hs, rfl⟩ | ⟨x, r', hx, hsplit, rfl⟩ | ⟨hlt, -⟩ | ⟨hfull, -, ho⟩
  · have hpos : s.length ≠ 0 := by simpa using trivia_ne_nil hs
    obtain ⟨toks, hout, htiles⟩ := ih (ha.advanceN s.length) (by
      rw [advanceN_rest, length_drop]
      omega)
    refine ⟨toks, by simpa using hout, ?_⟩
    rw [advanceN_pos (by rw [hsplit]; simp)] at htiles
    exact .skip hs (by rw [← ha.tracks.1, hsplit]) htiles
  · have hpos : x.text.length ≠ 0 := by simpa using hx
    have hlen : l.rest.length = x.text.length + r'.length := by rw [hsplit]; simp
    obtain ⟨toks, hout, htiles⟩ := ih (ha.reads x.kind x.text) (by
      rw [reads_rest hsplit]
      omega)
    refine ⟨⟨x.kind, l.pos, x.text.length, l.line, l.col⟩ :: toks, ?_, ?_⟩
    · rw [hout, reads_out]
      simp
    · rw [reads_pos hsplit] at htiles
      rw [ha.line, ha.col]
      exact .token x.kind (by omega) (by have := ha.tracks.2; omega) htiles
  · -- an error would still be counted at the end
    omega
  · -- a full buffer would stay full
    rw [ho] at ho'
    omega

/-! ## §4. What the token array says about the source. -/

/-- The byte at `i` belongs to the token. -/
def Token.Covers (t : Token) (i : Nat) : Prop := t.start ≤ i ∧ i < t.start + t.len

/-- `Comment s r`: the text `s` in front of `r` is a whole comment.  The first
two run to the end of the line; a `(*` comment nests, and one that is never
closed runs to the end of the buffer. -/
inductive Comment : List Char → List Char → Prop where
  | hash {s r : List Char} (hs : ∀ d ∈ s, (d != '\n') = true)
      (hr : stopsAt (· != '\n') r = true) : Comment ('#' :: s) r
  | line {s r : List Char} (hs : ∀ d ∈ s, (d != '\n') = true)
      (hr : stopsAt (· != '\n') r = true) : Comment ('/' :: '/' :: s) r
  | block {s r : List Char} (hs : commentLen 1 (s ++ r) = s.length) : Comment ('(' :: '*' :: s) r

/-- The byte at `i` lies in a comment no byte of which belongs to a token. -/
def InComment (src : Source) (toks : List Token) (i : Nat) : Prop :=
  ∃ pos s r, src.drop pos = s ++ r ∧ Comment s r ∧ pos ≤ i ∧ i < pos + s.length ∧
    ∀ t ∈ toks, ∀ j, pos ≤ j → j < pos + s.length → ¬ t.Covers j

/-- The tokens tile the source. -/
structure Tiles (src : Source) (toks : List Token) : Prop where
  inBounds : ∀ t ∈ toks, t.start + t.len ≤ src.length
  ordered : toks.Pairwise fun t u => t.start < u.start ∧ t.start + t.len ≤ u.start
  ends : ∃ t, toks.getLast? = some t ∧ t.kind = .eof ∧ t.start = src.length ∧ t.len = 0
  gaps : ∀ i c, src[i]? = some c → (∃ t ∈ toks, t.Covers i) ∨ isWhitespace c = true ∨
    InComment src toks i
  positions : ∀ t ∈ toks, t.line = lineAt src t.start ∧ t.col = colAt src t.start

theorem trivia_cases {s : List Char} (h : Trivia s r) :
    (∃ c, s = [c] ∧ isWhitespace c) ∨ Comment s r := by
  cases h with
  | space hc => exact .inl ⟨_, rfl, hc⟩
  | hash hs hr => exact .inr (.hash hs hr)
  | line hs hr => exact .inr (.line hs hr)
  | block hs => exact .inr (.block hs)

section

variable {src : Source} {pos : Nat} {toks : List Token} (h : TilesFrom src pos toks)

include h

theorem TilesFrom.mem_bounds : ∀ t ∈ toks, pos ≤ t.start ∧ t.start + t.len ≤ src.length := by
  induction h with
  | eof => simp
  | skip _ _ _ ih =>
    intro t ht
    have := ih t ht
    omega
  | token _ _ hle _ ih =>
    intro t ht
    rcases mem_cons.mp ht with rfl | ht
    · exact ⟨Nat.le_refl _, hle⟩
    · have := ih t ht
      omega

theorem TilesFrom.pairwise :
    toks.Pairwise fun t u => t.start < u.start ∧ t.start + t.len ≤ u.start := by
  induction h with
  | eof => simp
  | skip _ _ _ ih => exact ih
  | @token pos len _ _ hlen _ hrest ih =>
    refine pairwise_cons.mpr ⟨fun u hu => ?_, ih⟩
    have := (hrest.mem_bounds u hu).1
    show pos < u.start ∧ pos + len ≤ u.start
    omega

theorem TilesFrom.last : ∃ t, toks.getLast? = some t ∧ t.kind = .eof ∧ t.start = src.length ∧
    t.len = 0 := by
  induction h with
  | eof => exact ⟨_, rfl, rfl, rfl, rfl⟩
  | skip _ _ _ ih => exact ih
  | token _ _ _ _ ih =>
    obtain ⟨t, hlast, ht⟩ := ih
    exact ⟨t, by rw [getLast?_cons, hlast]; rfl, ht⟩

theorem TilesFrom.positions : ∀ t ∈ toks, t.line = lineAt src t.start ∧ t.col = colAt src t.start := by
  induction h with
  | eof => simp
  | skip _ _ _ ih => exact ih
  | token _ _ _ _ ih =>
    exact forall_mem_cons.mpr ⟨⟨rfl, rfl⟩, ih⟩

/-- Every byte from `pos` on is covered, blank, or in a comment that starts at
or behind `pos`. -/
theorem TilesFrom.gaps : ∀ i c, pos ≤ i → src[i]? = some c →
    (∃ t ∈ toks, t.Covers i) ∨ isWhitespace c ∨
      ∃ p s r, pos ≤ p ∧ src.drop p = s ++ r ∧ Comment s r ∧ p ≤ i ∧ i < p + s.length ∧
        ∀ t ∈ toks, ∀ j, p ≤ j → j < p + s.length → ¬ t.Covers j := by
  induction h with
  | eof =>
    intro i c hi hget
    rw [getElem?_eq_none (by omega)] at hget
    cases hget
  | @skip pos s r ts hs hsrc hrest ih =>
    intro i c hi hget
    by_cases hin : i < pos + s.length
    · rcases trivia_cases hs with ⟨b, rfl, hb⟩ | hcomment
      · have hpos : i = pos := by
          rw [length_singleton] at hin
          omega
        have hc : src[pos]? = some b := by
          rw [← Nat.add_zero pos, ← getElem?_drop, hsrc]
          rfl
        rw [hpos, hc] at hget
        injection hget with hget
        exact .inr (.inl (hget ▸ hb))
      · refine .inr (.inr ⟨pos, s, r, Nat.le_refl _, hsrc, hcomment, hi, hin, ?_⟩)
        intro t ht j _ hj hcov
        have := (hrest.mem_bounds t ht).1
        unfold Token.Covers at hcov
        omega
    · rcases ih i c (by omega) hget with hcov | hw | ⟨p, s', r', hp, hrest'⟩
      · exact .inl hcov
      · exact .inr (.inl hw)
      · exact .inr (.inr ⟨p, s', r', by omega, hrest'⟩)
  | @token pos len ts k hlen hle hrest ih =>
    intro i c hi hget
    by_cases hin : i < pos + len
    · exact .inl ⟨_, mem_cons_self, hi, hin⟩
    · rcases ih i c (by omega) hget with ⟨t, ht, hcov⟩ | hw | ⟨p, s, r, hp, hd, hc, hpi, hip, hno⟩
      · exact .inl ⟨t, mem_cons_of_mem _ ht, hcov⟩
      · exact .inr (.inl hw)
      · refine .inr (.inr ⟨p, s, r, by omega, hd, hc, hpi, hip, fun t ht j hj hj' => ?_⟩)
        rcases mem_cons.mp ht with rfl | ht
        · unfold Token.Covers
          dsimp only
          omega
        · exact hno t ht j hj hj'

end

theorem lex_tilesFrom {toks : List Token}
    (h : lex profile cap src = some toks) : TilesFrom src 0 toks := by
  obtain ⟨lf, hloop, he, hcap, rfl⟩ := lex_run h
  obtain ⟨toks', hout, htiles⟩ := lexLoop_tiles he hcap hloop (aligned_init src) (Nat.le_refl _)
  rw [hout]
  exact htiles

/-- The text of a token is as long as the token says. -/
theorem lex_text_length {toks : List Token}
    (h : lex profile cap src = some toks) : ∀ t ∈ toks, (t.text src).length = t.len := by
  intro t ht
  have hbound := ((lex_tilesFrom h).mem_bounds t ht).2
  show ((src.drop t.start).take t.len).length = t.len
  rw [length_take, length_drop]
  omega

/-- **The tokens tile the source.**  Whatever the profile and the capacity, an
accepted buffer is covered by its tokens, blanks and comments, and every token
knows its line and column. -/
theorem lex_tiles {profile : Profile} {cap : Nat} {src : Source} {toks : List Token}
    (h : lex profile cap src = some toks) : Tiles src toks := by
  have hfrom := lex_tilesFrom h
  refine ⟨fun t ht => (hfrom.mem_bounds t ht).2, hfrom.pairwise, hfrom.last, fun i c hget => ?_,
    hfrom.positions⟩
  rcases hfrom.gaps i c (Nat.zero_le _) hget with hcov | hw | ⟨p, s, r, -, hrest⟩
  · exact .inl hcov
  · exact .inr (.inl hw)
  · exact .inr (.inr ⟨p, s, r, hrest⟩)

/-- Two lines of legacy source with a nested comment and a string. -/
theorem lex_tiles_legacy :
    ∃ toks, lex .legacy 8 "F a_1 (* x (* y *) *)\n \"s\\(b)\" # z".toList = some toks ∧
      Tiles "F a_1 (* x (* y *) *)\n \"s\\(b)\" # z".toList toks := by
  have hsome : (lex .legacy 8 "F a_1 (* x (* y *) *)\n \"s\\(b)\" # z".toList).isSome = true := by
    decide
  exact ⟨_, (Option.some_get hsome).symm, lex_tiles (Option.some_get hsome).symm⟩

end Toke
