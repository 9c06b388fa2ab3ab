/-
  Toke.Lexer.Capacity — **THE TOKEN BUFFER ONLY DECIDES WHETHER THE TOKENS FIT.**

  `emit` refuses a token through the `-1` that the readers also use for a
  lexical error, and the three callers react differently: `lex_ident` and
  `lex_number` are counted as errors, `lex_string` is passed over without a
  count, a symbol ends the run.  None of these can end in success, because a
  buffer that is full stays full and the end marker needs room as well.

    `lexStep_capacity` — below both capacities a turn is the same turn
    `lexLoop_capacity` — a run that ends with room left is the same run
    `lex_larger_buffer` — the token array of any larger buffer
-/
import Toke.Lexer.Tiling

namespace Toke

open Lexer

/-! ## §1. The readers, with room for one token in both buffers. -/

section Room

variable {c₁ c₂ : Nat} {l : Lexer}

/-- Room for one token. -/
def Roomy (c₁ c₂ : Nat) (l : Lexer) : Prop := l.out.length < c₁ ∧ l.out.length < c₂

theorem Roomy.of_out {l' : Lexer} (h : Roomy c₁ c₂ l) (hout : l'.out = l.out) : Roomy c₁ c₂ l' := by
  unfold Roomy
  rw [hout]
  exact h

variable (h : Roomy c₁ c₂ l)

include h

theorem emit_capacity (k : TokenKind) (start len line col : Nat) :
    l.emit c₁ k start len line col = l.emit c₂ k start len line col := by
  rw [emit_eq h.1, emit_eq h.2]

theorem lexNumberEnd_capacity (k : TokenKind) (start line col : Nat) :
    lexNumberEnd c₁ k start line col l = lexNumberEnd c₂ k start line col l := by
  rw [lexNumberEnd_eq, lexNumberEnd_eq, emit_capacity h]

theorem lexNumberBase_capacity (p : Char → Bool) (start line col : Nat) :
    lexNumberBase c₁ p start line col l = lexNumberBase c₂ p start line col l := by
  have hout : (l.advance.advance.advanceWhile p).out = l.out := by simp
  unfold lexNumberBase
  dsimp only
  rw [lexNumberEnd_capacity (h.of_out hout)]

theorem lexNumberDecimal_capacity (start line col : Nat) :
    lexNumberDecimal c₁ start line col l = lexNumberDecimal c₂ start line col l := by
  have hint : (l.advanceWhile isDigit).out = l.out := by simp
  have hfloat : ((l.advanceWhile isDigit).advance.advanceWhile isDigit).out = l.out := by simp
  unfold lexNumberDecimal
  dsimp only
  rw [lexNumberEnd_capacity (h.of_out hint), lexNumberEnd_capacity (h.of_out hfloat)]

theorem lexNumber_capacity (start line col : Nat) :
    lexNumber c₁ start line col l = lexNumber c₂ start line col l := by
  unfold lexNumber
  rw [lexNumberBase_capacity h, lexNumberBase_capacity h, lexNumberDecimal_capacity h]

theorem lexIdent_capacity (profile : Profile) (start line col : Nat) (head : Char) :
    lexIdent profile c₁ start line col head l = lexIdent profile c₂ start line col head l := by
  have hout : (l.advanceWhile isIdentCont).out = l.out := by simp
  unfold lexIdent
  dsimp only
  rw [emit_capacity (h.of_out hout)]

theorem lexStringTurn_capacity (start line col : Nat) (b : Bool) :
    lexStringTurn c₁ start line col b l = lexStringTurn c₂ start line col b l := by
  have hout : l.advance.out = l.out := by simp
  unfold lexStringTurn
  rw [emit_capacity (h.of_out hout)]

omit h in
/-- Inside a string literal nothing is emitted. -/
theorem lexStringTurn_more_out {cap start line col : Nat} {b b' : Bool} {l l' : Lexer}
    (h : lexStringTurn cap start line col b l = .more b' l') : l'.out = l.out := by
  rcases lexStringTurn_cases cap start line col b l with
    ⟨r, -, hturn⟩ | ⟨p, r, -, -, hturn⟩ | ⟨l₁, hturn, -, -, ho⟩ | hbad
  · rw [hturn] at h
    cases b <;> simp at h
  · rw [hturn] at h
    injection h with _ h
    rw [← h, advanceN_out]
  · rw [hturn] at h
    injection h with _ h
    rw [← h, ho]
  · rw [h] at hbad
    exact hbad.2.2

omit h in
theorem lexStringLoop_capacity (start line col : Nat) : ∀ (f : Nat) (b : Bool) {l : Lexer},
    Roomy c₁ c₂ l → lexStringLoop c₁ start line col f b l = lexStringLoop c₂ start line col f b l
  | 0, _, _, _ => rfl
  | f + 1, b, l, h => by
    rw [lexStringLoop, lexStringLoop, lexStringTurn_capacity h]
    cases hturn : lexStringTurn c₂ start line col b l with
    | done l₁ ok => rfl
    | more b' l₁ =>
      exact lexStringLoop_capacity start line col f b' (h.of_out (lexStringTurn_more_out hturn))

theorem lexSymbol_capacity (profile : Profile) (c : Char) (r : List Char) :
    lexSymbol profile c₁ c r l = lexSymbol profile c₂ c r l := by
  unfold lexSymbol
  cases symAction profile c r with
  | skip n => rfl
  | bad => rfl
  | token k n =>
    dsimp only
    rw [emit_capacity (h.of_out (advanceN_out _ _))]

/-- **A turn emits at most one token**, so with room for one it does not see
the capacity. -/
theorem lexStep_capacity (profile : Profile) (c : Char) (r : List Char) :
    lexStep profile c₁ c r l = lexStep profile c₂ c r l := by
  have hadv : Roomy c₁ c₂ l.advance := h.of_out (by simp)
  have hstr : lexString c₁ l.pos l.line l.col l.advance
      = lexString c₂ l.pos l.line l.col l.advance := lexStringLoop_capacity _ _ _ _ _ hadv
  unfold lexStep
  dsimp only
  rw [lexIdent_capacity hadv, lexNumber_capacity h, hstr, lexSymbol_capacity h]

end Room

/-! ## §2. The whole run. -/

/-- A run that leaves room in the smaller buffer never filled it: the buffer
only grows, so there was room before every turn. -/
theorem lexLoop_capacity {profile : Profile} {c₁ c₂ : Nat} (hle : c₁ ≤ c₂) {lf : Lexer}
    (hroom : lf.out.length < c₁) : ∀ (f : Nat) (l : Lexer),
    lexLoop profile c₁ f l = some lf → lexLoop profile c₂ f l = some lf
  | 0, l, h => h
  | f + 1, l, h => by
    have hgrow := (lexLoop_mono lexStep_covers h).2
    rw [lexLoop] at h ⊢
    cases hl : l.rest with
    | nil =>
      rw [hl] at h
      exact h
    | cons c r =>
      rw [hl] at h
      dsimp only at h ⊢
      have hsame : lexStep profile c₁ c r l = lexStep profile c₂ c r l :=
        lexStep_capacity ⟨by omega, by omega⟩ profile c r
      rw [← hsame]
      cases hstep : lexStep profile c₁ c r l with
      | next l' =>
        rw [hstep] at h
        exact lexLoop_capacity hle hroom f l' h
      | stop l' =>
        rw [hstep] at h
        exact h
      | fail =>
        rw [hstep] at h
        simp at h

/-- **A larger buffer gives the same tokens.**  Whatever `lex` accepts with
room for `c₁` tokens, it reads as the very same array with room for any
`c₂ ≥ c₁`, so no refused token can be missing from an accepted array. -/
theorem lex_larger_buffer (profile : Profile) (src : Source) (toks : List Token) {c₁ c₂ : Nat}
    (hle : c₁ ≤ c₂) (h : lex profile c₁ src = some toks) : lex profile c₂ src = some toks := by
  unfold lex at h ⊢
  cases hrun : lexLoop profile c₁ src.length (Lexer.init src) with
  | none =>
    rw [hrun] at h
    simp at h
  | some lf =>
    rw [hrun] at h
    dsimp only at h
    -- the end marker found room, so there was room all along
    have hroom : lf.out.length < c₁ := by
      by_contra hfull
      rw [emit_full (by omega)] at h
      simp at h
    rw [lexLoop_capacity hle hroom _ _ hrun]
    dsimp only
    rw [emit_eq hroom] at h
    rw [emit_eq (Nat.lt_of_lt_of_le hroom hle)]
    exact h

/-- Three tokens and the end marker fill a buffer of four. -/
theorem assignment_larger_buffer :
    lex .default 4 "x=\"a\"".toList = lex .default 9 "x=\"a\"".toList ∧
      lex .default 3 "x=\"a\"".toList = none := by
  refine ⟨?_, by decide +kernel⟩
  obtain ⟨toks, htoks⟩ : ∃ toks, lex .default 4 "x=\"a\"".toList = some toks :=
    Option.isSome_iff_exists.mp (by decide +kernel)
  rw [htoks, lex_larger_buffer .default "x=\"a\"".toList toks (show 4 ≤ 9 by decide) htoks]

end Toke
