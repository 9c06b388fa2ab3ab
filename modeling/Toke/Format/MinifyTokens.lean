/-
  Toke.Format.MinifyTokens — **WHEN THE MINIFIER PRESERVES THE TOKEN STREAM.**

  `tkc_minify` prints nothing between two tokens unless both are word-like.
  That is wrong for symbols that fuse (`<` before `=`), for `1 . 5`, for an
  uppercase keyword letter before `=`, and for a NUL byte inside a literal,
  which ends the C string.  `Separable` lists exactly those, and

      MinifyPreserves src toks  ↔  Separable (lexemes of src)

  The argument has two halves.  If every printed lexeme is delimited by the
  text printed behind it (`AllDelimit`), the output scans as the rewritten
  lexemes (`scans_render`).  Conversely, when the output scans as lexemes of
  the right texts, no byte can have been lost to a comment — the bytes other
  than spaces are counted (`ink`) — so every lexeme was read where it was
  printed, and was delimited there.
-/
import Toke.Format.Minify

namespace Toke

open List Lexer

variable {c : Char} {x y : Lexeme} {t cs : List Char} {xs rest : List Lexeme} {src : Source}

/-! ## §1. What it means to preserve the tokens. -/

/-- The text `t'` of a string literal differs from `t` only by raw control bytes
that became escapes outside interpolations and spaces inside.  The first
argument is the nesting of the interpolation at this point. -/
inductive SameStr : Nat → List Char → List Char → Prop where
  | nil {d : Nat} : SameStr d [] []
  | escape {e : Char} {t t' : List Char} (h : SameStr (if e = '(' then 1 else 0) t t') :
      SameStr 0 ('\\' :: e :: t) ('\\' :: e :: t')
  | keep {c : Char} {t t' : List Char} (hc : c ≠ '\\') (h : SameStr 0 t t') :
      SameStr 0 (c :: t) (c :: t')
  | control {c e : Char} {t t' : List Char}
      (hc : (c, e) ∈ [('\n', 'n'), ('\t', 't'), ('\r', 'r')]) (h : SameStr 0 t t') :
      SameStr 0 (c :: t) ('\\' :: e :: t')
  | inside {d : Nat} {c : Char} {t t' : List Char}
      (h : SameStr (if c = '(' then d + 2 else if c = ')' then d else d + 1) t t') :
      SameStr (d + 1) (c :: t) (c :: t')
  | blank {d : Nat} {c : Char} {t t' : List Char} (hc : isRawControl c = true)
      (h : SameStr (d + 1) t t') : SameStr (d + 1) (c :: t) (' ' :: t')

/-- Same kind and same text, string literals up to `SameStr`. -/
def SameLexeme (x y : Lexeme) : Prop :=
  x.kind = y.kind ∧ if x.kind = .strLit then SameStr 0 x.text y.text else x.text = y.text

/-- **The contract of the minifier** on a source with tokens `toks`: one line
of output, accepted by the scanner, with the same tokens, and a fixed point. -/
def MinifyPreserves (src : Source) (toks : List Token) : Prop :=
  ∃ out toks', tkcMinify src = some out ∧ '\n' ∉ out ∧
    lex .default (out.length + 16) out = some toks' ∧
    List.Forall₂ (fun t t' => SameLexeme (t.lexeme src) (t'.lexeme out)) toks toks' ∧
    tkcMinify out = some out

/-! ## §2. The condition. -/

/-- Two neighbours that the scanner reads as one, or refuses: symbols of one
byte that grow, and `M F T I C` before a `=`. -/
def fuses (x y : Lexeme) : Bool :=
  match x.text, y.text with
  | [c], d :: _ => fusingBytes.contains (c, d) || (upperKwMap.contains c && d == '=')
  | _, _ => false

/-- A number. -/
def isNumber (x : Lexeme) : Bool := x.kind == .intLit || x.kind == .floatLit

/-- A number comes first. -/
def startsNumber : List Lexeme → Bool
  | z :: _ => isNumber z
  | [] => false

/-- A decimal integer, a dot and a number: printed together, a fraction. -/
def makesFraction (x y : Lexeme) (rest : List Lexeme) : Bool :=
  x.kind == .intLit && (baseMarker x.text).isNone && (y.kind == .dot && startsNumber rest)

/-- No neighbours fuse. -/
def Unfused : List Lexeme → Bool
  | x :: y :: rest => !fuses x y && !makesFraction x y rest && Unfused (y :: rest)
  | _ => true

/-- **The exact condition**: no fusing neighbours and no NUL byte in a string
literal. -/
def Separable (xs : List Lexeme) : Bool :=
  Unfused xs && xs.all fun x => !(x.kind == .strLit && x.text.contains nul)

/-! ## §3. First and last bytes of a lexeme. -/

theorem getLastD_mem {l : List Char} (h : l ≠ []) (d : Char) : l.getLastD d ∈ l := by
  rw [getLastD_eq_getLast?, getLast?_eq_some_getLast h]
  exact getLast_mem h

theorem isIdentCont_fmtIsWord (h : isIdentCont c) : fmtIsWord c := by
  simp only [isIdentCont] at h
  simp [fmtIsWord, h]

theorem baseDigits_isIdentCont {m : Char} {p : Char → Bool} (hm : baseDigits m = some p)
    (hc : p c) : isIdentCont c := by
  have hbin : ∀ d, isBin d → isIdentCont d := by
    intro d hd
    simp only [isBin, Bool.or_eq_true, beq_iff_eq] at hd
    rcases hd with rfl | rfl <;> decide
  have hhex : ∀ d, isHex d → isIdentCont d := by
    intro d hd
    simp only [isHex, isIdentCont, isLetter, isDigit, Bool.or_eq_true, Bool.and_eq_true,
      decide_eq_true_eq, Char.le_def, UInt32.le_iff_toNat_le] at hd ⊢
    have ef : 'f'.val.toNat = 102 := rfl
    have eF : 'F'.val.toNat = 70 := rfl
    have ez : 'z'.val.toNat = 122 := rfl
    have eZ : 'Z'.val.toNat = 90 := rfl
    omega
  unfold baseDigits at hm
  split at hm
  · cases hm
    exact hhex c hc
  · split at hm
    · cases hm
      exact hbin c hc
    · simp at hm

/-- A lexeme is a string literal, a symbol, or a word or number: bytes of
identifiers but for the dot of a fraction. -/
theorem WF_bytes (hx : x.WF) :
    (∃ ps, (∀ p ∈ ps, StrPiece.ok p) ∧ x = ⟨.strLit, strText ps⟩) ∨ x ∈ symbols ∨
    x.kind ≠ .strLit ∧ (∀ c ∈ x.text, isIdentCont c ∨ c = '.') ∧
      isIdentCont (x.text.headD nul) ∧ isIdentCont (x.text.getLastD nul) := by
  have digit : ∀ {l : List Char}, (∀ d ∈ l, isDigit d) → ∀ d ∈ l, isIdentCont d :=
    fun h d hd => isDigit_isIdentCont (h d hd)
  have run : ∀ l : List Char, l ≠ [] → (∀ c ∈ l, isIdentCont c) →
      (∀ c ∈ l, isIdentCont c ∨ c = '.') ∧
      isIdentCont (l.headD nul) ∧ isIdentCont (l.getLastD nul) := by
    intro l hne hl
    refine ⟨fun c hc => .inl (hl c hc), ?_, hl _ (getLastD_mem hne nul)⟩
    obtain ⟨c, cs, rfl⟩ := exists_cons_of_ne_nil hne
    exact hl c mem_cons_self
  cases hx with
  | word hc hcs =>
    exact .inr (.inr ⟨(classifyIdent_kind _).1,
      run _ (cons_ne_nil _ _) (forall_mem_cons.mpr ⟨isLetter_isIdentCont hc, hcs⟩)⟩)
  | based hm hne hds =>
    refine .inr (.inr ⟨nofun, run _ (cons_ne_nil _ _) (forall_mem_cons.mpr ⟨by decide,
      forall_mem_cons.mpr ⟨isLetter_isIdentCont (baseDigits_letter hm), ?_⟩⟩)⟩)
    exact fun d hd => baseDigits_isIdentCont hm (hds d hd)
  | int hne hds => exact .inr (.inr ⟨nofun, run _ hne (digit hds)⟩)
  | @float ds es hne hds hes hes' =>
    obtain ⟨hall, hhead, -⟩ := run ds hne (digit hds)
    obtain ⟨hall', -, hlast⟩ := run es hes (digit hes')
    refine .inr (.inr ⟨nofun, ?_, ?_, ?_⟩)
    · exact forall_mem_append.mpr ⟨hall, forall_mem_cons.mpr ⟨.inr rfl, hall'⟩⟩
    · obtain ⟨c, cs, rfl⟩ := exists_cons_of_ne_nil hne
      exact hhead
    · simpa [getLastD_eq_getLast?, getLast?_append, getLast?_cons,
        getLast?_eq_some_getLast hes] using hlast
  | @str ps hps => exact .inl ⟨ps, hps, rfl⟩
  | sym hx => exact .inr (.inl hx)

/-- A lexeme ends with a word byte when it starts with one. -/
theorem WF_last (hx : x.WF) : fmtIsWord (x.text.getLastD nul) = fmtIsWord (x.text.headD nul) := by
  rcases WF_bytes hx with ⟨ps, -, rfl⟩ | hs | ⟨-, -, hhead, hlast⟩
  · have hlast : (strText ps).getLastD nul = '"' := by
      simp [strText, getLast?_cons]
    rw [hlast]
    rfl
  · have hall : ∀ y ∈ symbols,
        fmtIsWord (y.text.getLastD nul) = fmtIsWord (y.text.headD nul) := by decide
    exact hall x hs
  · rw [isIdentCont_fmtIsWord hhead, isIdentCont_fmtIsWord hlast]

/-- The literals among the lexemes. -/
theorem WF_strLit (hx : x.WF) :
    (∃ ps, (∀ p ∈ ps, StrPiece.ok p) ∧ x = ⟨.strLit, strText ps⟩) ∨ x.kind ≠ .strLit := by
  have hall : ∀ y ∈ symbols, y.kind ≠ .strLit := by decide
  rcases WF_bytes hx with h | hs | ⟨hk, -⟩
  · exact .inl h
  · exact .inr (hall x hs)
  · exact .inr hk

theorem minText_of_ne (hk : x.kind ≠ .strLit) : minText x = x.text := if_neg hk

theorem minText_strText {ps : List StrPiece} (hps : ∀ p ∈ ps, p.ok) :
    minText ⟨.strLit, strText ps⟩ = strText (ps.map minPiece) := minPutStr_strText hps

/-! ## §4. The printed lexemes. -/

theorem minLexeme_WF (hx : x.WF) : (minLexeme x).WF := by
  rcases WF_strLit hx with ⟨ps, hps, rfl⟩ | hk
  · simp only [minLexeme, minText_strText hps]
    exact .str (minPieces_ok hps)
  · simp only [minLexeme, minText_of_ne hk]
    exact hx

/-- Printing keeps the first and the last byte. -/
theorem minText_ends (hx : x.WF) : (minText x).headD nul = x.text.headD nul ∧
      (minText x).getLastD nul = x.text.getLastD nul := by
  rcases WF_strLit hx with ⟨ps, hps, rfl⟩ | hk
  · rw [minText_strText hps]
    simp [strText, getLast?_cons]
  · rw [minText_of_ne hk]
    exact ⟨rfl, rfl⟩

theorem minText_idem (hx : x.WF) : minText (minLexeme x) = minText x := by
  rcases WF_strLit hx with ⟨ps, hps, rfl⟩ | hk
  · simp only [minLexeme, minText_strText hps, minText_strText (minPieces_ok hps), map_map]
    congr 2
    funext p
    exact minPiece_idem p
  · have hk' : (minLexeme x).kind ≠ .strLit := hk
    rw [minText_of_ne hk']
    rfl

/-- Printing the printed lexemes prints the same text. -/
theorem render_minLexeme : ∀ (xs : List Lexeme) (prev : Char), (∀ x ∈ xs, x.WF) →
    render prev (xs.map minLexeme) = render prev xs
  | [], _, _ => rfl
  | x :: xs, prev, h => by
    have hx : x.WF := h x (by simp)
    obtain ⟨hhead, hlast⟩ := minText_ends hx
    have ih := render_minLexeme xs (x.text.getLastD nul) (forall_mem_cons.mp h).2
    show minSep prev ((minText x).headD nul) ++ minText (minLexeme x)
        ++ render ((minText x).getLastD nul) (xs.map minLexeme) = _
    rw [hhead, hlast, minText_idem hx, ih]
    rfl

/-- A rewritten piece has no raw control byte. -/
theorem minPiece_noControl {p : StrPiece} (hp : p.ok) :
    ∀ c ∈ (minPiece p).text, isRawControl c = false := by
  have hblank : ∀ c, isRawControl (blankControl c) = false := by
    intro c
    unfold blankControl
    by_cases h : isRawControl c
    · rw [if_pos h]; decide
    · rw [if_neg h]; simpa using h
  have hescape : ∀ e, isRawControl e = false →
      ∀ c ∈ (StrPiece.escape e).text, isRawControl c = false := by
    intro e he d hd
    rcases mem_cons.mp hd with rfl | hd
    · decide
    · rw [mem_singleton.mp hd]
      exact he
  cases p with
  | plain c =>
    rcases minPiece_plain c with ⟨e, he, hor⟩ | ⟨he, hc⟩
    · rw [he]
      rcases hor with rfl | rfl | rfl <;> exact hescape _ (by decide)
    · rw [he]
      intro d hd
      rw [mem_singleton.mp hd]
      exact hc
  | escape c =>
    refine hescape c ?_
    cases hr : isRawControl c with
    | false => rfl
    | true =>
      simp only [isRawControl, Bool.or_eq_true, beq_iff_eq] at hr
      rcases hr with (rfl | rfl) | rfl <;> (revert hp; decide)
  | hex a b =>
    simp only [StrPiece.ok, Bool.and_eq_true] at hp
    obtain ⟨_, ha1, ha2, ha3, _⟩ := isHex_plain hp.1
    obtain ⟨_, hb1, hb2, hb3, _⟩ := isHex_plain hp.2
    intro d hd
    simp only [minPiece, StrPiece.text, mem_cons, not_mem_nil, or_false] at hd
    rcases hd with rfl | rfl | rfl | rfl
    · decide
    · decide
    · simp [isRawControl, ha1, ha2, ha3]
    · simp [isRawControl, hb1, hb2, hb3]
  | interp body =>
    intro d hd
    simp only [minPiece, StrPiece.text, mem_cons, mem_append, mem_map, not_mem_nil, or_false] at hd
    rcases hd with rfl | rfl | ⟨c, _, rfl⟩ | rfl
    · decide
    · decide
    · exact hblank c
    · decide

/-- A byte that is neither a raw control byte nor NUL. -/
def isInk (c : Char) : Bool := !isRawControl c && c != nul

theorem isIdentCont_isInk (h : isIdentCont c) : isInk c := by
  cases hi : isInk c with
  | true => rfl
  | false =>
    simp only [isInk, isRawControl, Bool.and_eq_false_iff, Bool.not_eq_false',
      Bool.or_eq_true, beq_iff_eq, bne_eq_false_iff_eq] at hi
    rcases hi with ((rfl | rfl) | rfl) | rfl <;> (revert h; decide)

/-- Outside string literals a lexeme has only printable bytes. -/
theorem WF_isInk (hx : x.WF) (hk : x.kind ≠ .strLit) : ∀ c ∈ x.text, isInk c := by
  rcases WF_bytes hx with ⟨ps, -, rfl⟩ | hs | ⟨-, hall, -⟩
  · exact absurd rfl hk
  · have hall : ∀ y ∈ symbols, y.text.all isInk := by decide
    exact all_eq_true.mp (hall x hs)
  · intro c hc
    rcases hall c hc with h | rfl
    · exact isIdentCont_isInk h
    · decide

theorem minText_noControl (hx : x.WF) : ∀ c ∈ minText x, isRawControl c = false := by
  intro c hc
  rcases WF_strLit hx with ⟨ps, hps, rfl⟩ | hk
  · rw [minText_strText hps] at hc
    simp only [strText, bodyText, mem_cons, mem_append, mem_flatMap, mem_map,
      not_mem_nil, or_false] at hc
    rcases hc with rfl | ⟨_, ⟨p, hp, rfl⟩, hc⟩ | rfl
    · decide
    · exact minPiece_noControl (hps p hp) c hc
    · decide
  · rw [minText_of_ne hk] at hc
    have := WF_isInk hx hk c hc
    simp only [isInk, Bool.and_eq_true, Bool.not_eq_true'] at this
    exact this.1

theorem minSep_blank (prev c : Char) : ∀ d ∈ minSep prev c, d = ' ' := by
  unfold minSep
  split <;> simp

/-- **The output is one line**: no raw control byte is printed. -/
theorem render_noControl : ∀ (xs : List Lexeme) (prev : Char), (∀ x ∈ xs, x.WF) →
    ∀ c ∈ render prev xs, isRawControl c = false
  | [], _, _, c, hc => absurd hc (by simp [render])
  | x :: xs, prev, h, c, hc => by
    simp only [render, mem_append] at hc
    rcases hc with (hc | hc) | hc
    · rw [minSep_blank _ _ c hc]; decide
    · exact minText_noControl (h x (by simp)) c hc
    · exact render_noControl xs _ (forall_mem_cons.mp h).2 c hc

/-! ## §5. The rewritten literal and the allowed differences. -/

theorem sameStr_inside {b t t' : List Char} {d d' : Nat} (h : parenDepth (d + 1) b = some (d' + 1))
    (hs : SameStr (d' + 1) t t') : SameStr (d + 1) (b ++ t) (b.map blankControl ++ t') := by
  refine parenDepth_induct hs (fun {c b d e} he ih => ?_) h
  rw [map_cons]
  by_cases hr : isRawControl c
  · -- a raw control byte is no parenthesis
    have hne : c ≠ '(' ∧ c ≠ ')' := by constructor <;> (rintro rfl; revert hr; decide)
    rw [if_neg hne.1, if_neg hne.2] at he
    rw [show blankControl c = ' ' from if_pos hr]
    exact .blank hr (he ▸ ih)
  rw [show blankControl c = c from if_neg hr]
  exact .inside (he ▸ ih)

theorem sameStr_piece {p : StrPiece} (hp : p.ok) {t' : List Char}
    (hs : SameStr 0 t t') : SameStr 0 (p.text ++ t) ((minPiece p).text ++ t') := by
  cases p with
  | plain c =>
    simp only [StrPiece.ok, Bool.and_eq_true, bne_iff_ne] at hp
    show SameStr 0 (c :: t) _
    rw [← escapeControl_eq]
    unfold escapeControl
    split
    next h => subst h; exact .control (by simp) hs
    split
    next h => subst h; exact .control (by simp) hs
    split
    next h => subst h; exact .control (by simp) hs
    next => exact .keep hp.2 hs
  | escape c =>
    have hne : c ≠ '(' := (isSimpleEscape_ne hp).2
    exact .escape (by rw [if_neg hne]; exact hs)
  | hex a b =>
    simp only [StrPiece.ok, Bool.and_eq_true] at hp
    obtain ⟨ha, _⟩ := isHex_plain hp.1
    obtain ⟨hb, _⟩ := isHex_plain hp.2
    exact .escape (.keep ha (.keep hb hs))
  | interp body =>
    have hb : parenDepth (0 + 1) body = some (0 + 1) := by simpa [StrPiece.ok, balanced] using hp
    have hclose : SameStr (0 + 1) (')' :: t) (')' :: t') := .inside hs
    have hin := sameStr_inside hb hclose
    refine .escape ?_
    simpa using hin

theorem sameStr_body : ∀ (ps : List StrPiece) (t t' : List Char), (∀ p ∈ ps, p.ok) →
    SameStr 0 t t' → SameStr 0 (bodyText ps ++ t) (bodyText (ps.map minPiece) ++ t')
  | [], _, _, _, hs => hs
  | p :: ps, t, t', h, hs => by
    simp only [bodyText_cons, map_cons, append_assoc]
    exact sameStr_piece (h p (by simp))
      (sameStr_body ps t t' (forall_mem_cons.mp h).2 hs)

theorem sameLexeme_minLexeme (hx : x.WF) : SameLexeme x (minLexeme x) := by
  refine ⟨rfl, ?_⟩
  rcases WF_strLit hx with ⟨ps, hps, rfl⟩ | hk
  · simp only [minLexeme, minText_strText hps]
    exact .keep (by decide) (sameStr_body ps ['"'] ['"'] hps (.keep (by decide) .nil))
  · rw [if_neg hk]
    exact (minText_of_ne hk).symm

/-- Without raw control bytes the allowed differences leave one text only. -/
theorem SameStr.unique {d : Nat} {t' : List Char} (h : SameStr d t t') :
    (∀ c ∈ t', isRawControl c = false) → t' = minPutStr d t := by
  induction h with
  | nil => intro _; simp [minPutStr]
  | escape _ ih =>
    intro hc
    have := ih (fun c hm => hc c (by simp [hm]))
    simp [minPutStr, ← this]
  | @keep c t t' hne _ ih =>
    intro hc
    have hrest := ih (forall_mem_cons.mp hc).2
    have hraw := hc c (by simp)
    simp only [isRawControl, Bool.or_eq_false_iff, beq_eq_false_iff_ne] at hraw
    rw [minPutStr_plain hne, ← hrest]
    simp [escapeControl, hraw]
  | @control c e t t' hmem _ ih =>
    intro hc
    have hrest := ih (fun d hm => hc d (by simp [hm]))
    simp only [mem_cons, not_mem_nil, or_false] at hmem
    rcases hmem with ⟨rfl, rfl⟩ | ⟨rfl, rfl⟩ | ⟨rfl, rfl⟩ <;>
      rw [minPutStr_plain (by decide), ← hrest] <;> rfl
  | @inside d c t t' _ ih =>
    intro hc
    have hrest := ih (forall_mem_cons.mp hc).2
    rw [minPutStr, ← hrest, show blankControl c = c from if_neg (by simp [hc c (by simp)])]
  | @blank d c t t' hraw _ ih =>
    intro hc
    have hrest := ih (forall_mem_cons.mp hc).2
    have hne : c ≠ '(' ∧ c ≠ ')' := by constructor <;> (rintro rfl; revert hraw; decide)
    rw [minPutStr, if_neg hne.1, if_neg hne.2, ← hrest, show blankControl c = ' ' from if_pos hraw]

theorem SameLexeme.eq_minLexeme (h : SameLexeme x y)
    (hy : ∀ c ∈ y.text, isRawControl c = false) : y = minLexeme x := by
  obtain ⟨hkind, htext⟩ := h
  cases y with
  | mk k t =>
    subst hkind
    simp only [minLexeme, minText, Lexeme.mk.injEq, true_and]
    split at htext
    next hk => rw [if_pos hk]; exact htext.unique hy
    next hk => rw [if_neg hk]; exact htext.symm

/-! ## §6. Counting printed bytes. -/

/-- The bytes of a text other than spaces. -/
def ink (cs : List Char) : Nat := cs.countP (· != ' ')

@[simp] theorem ink_append (a b : List Char) : ink (a ++ b) = ink a + ink b := countP_append

/-- The bytes other than spaces in the lexemes of a text. -/
def inkOf (xs : List Lexeme) : Nat := (xs.map fun x => ink x.text).sum

@[simp] theorem inkOf_cons (x : Lexeme) (xs : List Lexeme) :
    inkOf (x :: xs) = ink x.text + inkOf xs := by simp [inkOf]

/-- The lexemes of a text take no more than it has. -/
theorem Scans.inkOf_le (h : Scans cs xs) : inkOf xs ≤ ink cs := by
  induction h with
  | nil => simp [inkOf]
  | skip _ _ ih => rw [ink_append]; omega
  | lexeme _ _ _ ih => rw [ink_append, inkOf_cons]; omega

theorem Scans.mem_text (h : Scans cs xs) : ∀ x ∈ xs, ∀ c ∈ x.text, c ∈ cs := by
  induction h with
  | nil => simp
  | skip _ _ ih => exact fun x hx c hc => mem_append_right _ (ih x hx c hc)
  | lexeme _ _ _ ih =>
    intro y hy c hc
    rcases mem_cons.mp hy with rfl | hy
    · exact mem_append_left _ hc
    · exact mem_append_right _ (ih y hy c hc)

/-- Separators are the only thing the printer adds. -/
theorem ink_render : ∀ (xs : List Lexeme) (prev : Char),
    ink (render prev xs) = inkOf (xs.map minLexeme)
  | [], _ => rfl
  | x :: xs, prev => by
    have hsep : ink (minSep prev (x.text.headD nul)) = 0 := by
      refine countP_eq_zero.mpr ?_
      intro c hc
      simp [minSep_blank _ _ c hc]
    simp only [render, map_cons, inkOf_cons, ink_append, ink_render xs (x.text.getLastD nul), minLexeme]
    omega

/-- Cutting a text at a NUL byte loses ink. -/
theorem ink_cString {b : List Char} (h : nul ∈ b) : ink (cString b) < ink b := by
  unfold cString
  induction b with
  | nil => simp at h
  | cons c b ih =>
    by_cases hc : c = nul
    · subst hc
      have : ink (nul :: b) = ink b + 1 := by simp [ink, nul]
      simp [this]
      simp [ink]
    · have hmem : nul ∈ b := by
        rcases mem_cons.mp h with h | h
        · exact absurd h.symm hc
        · exact h
      have hcons : ∀ l : List Char, ink (c :: l) = ink [c] + ink l := fun l => ink_append [c] l
      simp only [takeWhile_cons, bne_iff_ne, ne_eq, hc, not_false_eq_true, if_true]
      rw [hcons, hcons b]
      have := ih hmem
      omega

theorem cString_of_not_mem {b : List Char} (h : nul ∉ b) : cString b = b := by
  refine takeWhile_eq_self_iff.mpr ?_
  intro c hc
  simp only [bne_iff_ne]
  rintro rfl
  exact h hc

/-! ## §7. Printed lexemes are read where they are printed. -/

/-- Every printed lexeme is delimited by the text printed behind it. -/
def AllDelimit : List Lexeme → Prop
  | [] => True
  | x :: xs => Delimits (minLexeme x) (render (x.text.getLastD nul) xs) = true ∧ AllDelimit xs

theorem minSep_cases (prev c : Char) : minSep prev c = [] ∨ minSep prev c = [' '] := by
  unfold minSep
  split
  · exact .inr rfl
  · exact .inl rfl

theorem scans_render : ∀ (xs : List Lexeme) (prev : Char), (∀ x ∈ xs, x.WF) →
    AllDelimit xs → Scans (render prev xs) (xs.map minLexeme)
  | [], _, _, _ => .nil
  | x :: xs, prev, hwf, hd => by
    have hx : x.WF := hwf x (by simp)
    have hrest := scans_render xs (x.text.getLastD nul) (forall_mem_cons.mp hwf).2 hd.2
    have hhere : Scans (minText x ++ render (x.text.getLastD nul) xs)
        (minLexeme x :: xs.map minLexeme) := .lexeme (minLexeme_WF hx) hd.1 hrest
    simp only [render, append_assoc]
    rcases minSep_cases prev (x.text.headD nul) with h | h
    · rw [h]; exact hhere
    · rw [h]; exact .skip (.space (by decide)) hhere

/-- Words, numbers and literals start with a letter, a digit or a quote. -/
theorem WF_symbol (hx : x.WF) (h : x.text = c :: t)
    (hc : (isLetter c || isDigit c || c == '"') = false := by decide) : x ∈ symbols := by
  simp only [Bool.or_eq_false_iff, beq_eq_false_iff_ne] at hc
  obtain ⟨d, u, hu, hd⟩ := WF_first hx
  obtain ⟨rfl, -⟩ := cons.inj (h.symm.trans hu)
  rcases hd with ⟨hd, -⟩ | ⟨hd, -⟩ | ⟨hd, -⟩ | hs
  · simp [hd] at hc
  · simp [hd] at hc
  · exact absurd hd hc.2
  · exact hs

/-- No lexeme starts with a space. -/
theorem WF_head_ne_space {r : List Char} (hx : x.WF) : x.text ++ r ≠ ' ' :: t := by
  have hsyms : ∀ y ∈ symbols, y.text.head? ≠ some ' ' := by decide
  intro h
  obtain ⟨c, u, hu⟩ := exists_cons_of_ne_nil (WF_ne_nil hx)
  rw [hu] at h
  obtain ⟨rfl, -⟩ := cons.inj h
  exact hsyms x (WF_symbol hx hu) (by rw [hu]; rfl)

/-- Trivia without ink is a space. -/
theorem trivia_ink {s r : List Char} (h : Trivia s r) (h0 : ink s = 0) : s = [' '] := by
  have head : ∀ (c : Char) (t : List Char), ink (c :: t) = 0 → c = ' ' := by
    intro c t hz
    have := countP_eq_zero.mp hz c (by simp)
    simpa using this
  cases h with
  | space =>
    have := head _ _ h0
    rw [this]
  | hash | line | block => exact absurd (head _ _ h0) (by decide)

/-- A separating space is skipped and nothing else happens. -/
theorem scans_space (h : Scans (' ' :: t) xs) : Scans t xs := by
  generalize hcs : ' ' :: t = cs at h
  cases h with
  | nil => simp at hcs
  | @skip s r _ hs h =>
    cases hs with
    | space =>
      cases hcs
      exact h
    | hash | line | block => injection hcs with hc _; cases hc
  | lexeme hx => exact absurd hcs.symm (WF_head_ne_space hx)

/-- **Reading back a printed lexeme.**  When the text printed from `x :: xs`
scans as `x` and further lexemes with all the ink of the text, `x` is read at
its own place. -/
theorem scans_lexeme_head {r : List Char} {ys : List Lexeme} (hx : x.WF)
    (h : Scans (x.text ++ r) (x :: ys)) (hink : ink (x.text ++ r) = inkOf (x :: ys)) :
    Delimits x r ∧ Scans r ys := by
  generalize hcs : x.text ++ r = cs at h
  generalize hxs : x :: ys = xs at h
  cases h with
  | nil => simp at hxs
  | @skip s r' _ hs h =>
    -- a comment would take ink away from the lexemes
    have hle := h.inkOf_le
    rw [← hxs, ← hink, hcs, ink_append] at hle
    rw [trivia_ink hs (by omega)] at hcs
    exact absurd hcs (WF_head_ne_space hx)
  | @lexeme y r' ys' _ hd h =>
    cases hxs
    have hr : r = r' := append_cancel_left hcs
    subst hr
    exact ⟨hd, h⟩

theorem scans_render_inv : ∀ (xs : List Lexeme) (prev : Char), (∀ x ∈ xs, x.WF) →
    Scans (render prev xs) (xs.map minLexeme) → AllDelimit xs
  | [], _, _, _ => trivial
  | x :: xs, prev, hwf, h => by
    have hx : (minLexeme x).WF := minLexeme_WF (hwf x (by simp))
    have hhere : Scans ((minLexeme x).text ++ render (x.text.getLastD nul) xs)
        (minLexeme x :: xs.map minLexeme) := by
      simp only [render] at h
      rcases minSep_cases prev (x.text.headD nul) with hs | hs
      · rw [hs] at h; exact h
      · rw [hs] at h; exact scans_space h
    have hink : ink ((minLexeme x).text ++ render (x.text.getLastD nul) xs)
        = inkOf (minLexeme x :: xs.map minLexeme) := by rw [ink_append, ink_render, inkOf_cons]
    obtain ⟨hd, hrest⟩ := scans_lexeme_head hx hhere hink
    exact ⟨hd, scans_render_inv xs _ (forall_mem_cons.mp hwf).2 hrest⟩

/-! ## §8. Neighbours decide. -/

/-- The printed text of a lexeme starts with the first byte of the lexeme. -/
theorem minText_cons (hx : x.WF) : ∃ u, minText x = x.text.headD nul :: u := by
  obtain ⟨c, u, hu⟩ := exists_cons_of_ne_nil (WF_ne_nil (minLexeme_WF hx))
  have hu' : minText x = c :: u := hu
  refine ⟨u, ?_⟩
  rw [← (minText_ends hx).1, hu']
  rfl

/-- What is printed behind `prev`: a space before a word behind a word, else the
next lexeme itself. -/
theorem render_cons (prev : Char) (y : Lexeme) (rest : List Lexeme) :
    (fmtIsWord prev ∧ fmtIsWord (y.text.headD nul) ∧
      ∃ u, render prev (y :: rest) = ' ' :: u) ∨
    ((fmtIsWord prev = false ∨ fmtIsWord (y.text.headD nul) = false) ∧
      render prev (y :: rest) = minText y ++ render (y.text.getLastD nul) rest) := by
  by_cases h : fmtIsWord prev ∧ fmtIsWord (y.text.headD nul)
  · have hne : (prev != nul) := by
      simp only [bne_iff_ne]
      rintro rfl
      exact absurd h.1 (by decide)
    refine .inl ⟨h.1, h.2, minText y ++ render (y.text.getLastD nul) rest, ?_⟩
    simp only [render, minSep, hne, h.1, h.2]
    rfl
  · have hb : (fmtIsWord prev && fmtIsWord (y.text.headD nul)) = false := by
      simpa [Bool.and_eq_false_iff, not_and_or] using h
    refine .inr ⟨Bool.and_eq_false_iff.mp hb, ?_⟩
    simp only [render, minSep, Bool.and_assoc, hb, Bool.and_false]
    rfl

/-- The dot is the only lexeme that starts with a dot. -/
theorem WF_dot (hy : y.WF) :
    (y.kind = .dot ↔ y = ⟨.dot, ['.']⟩) ∧ (y.text.headD nul = '.' ↔ y = ⟨.dot, ['.']⟩) := by
  have hwords : ∀ k ∈ wordKinds, k ≠ .dot := by decide
  have hsyms : ∀ y ∈ symbols, y.kind = .dot ∨ y.text.headD nul = '.' → y = ⟨.dot, ['.']⟩ := by decide
  have hdot : y.kind = .dot ∨ y.text.headD nul = '.' → y = ⟨.dot, ['.']⟩ := by
    obtain ⟨c, t, ht, hc⟩ := WF_first hy
    rintro (hk | h)
    · rcases hc with ⟨-, hw⟩ | ⟨-, hw⟩ | ⟨-, hw⟩ | hs
      · exact absurd hk (hwords _ hw)
      · simp [hk] at hw
      · simp [hk] at hw
      · exact hsyms y hs (.inl hk)
    · have hcd : c = '.' := by rwa [ht] at h
      subst hcd
      exact hsyms y (WF_symbol hy ht) (.inr h)
  refine ⟨⟨fun h => hdot (.inl h), ?_⟩, ⟨fun h => hdot (.inr h), ?_⟩⟩
  · rintro rfl
    rfl
  · rintro rfl
    rfl

/-- Numbers are the lexemes that start with a digit. -/
theorem WF_number {z : Lexeme} (hz : z.WF) : isDigit (z.text.headD nul) = isNumber z := by
  have hwords : ∀ k ∈ wordKinds, k ≠ .intLit ∧ k ≠ .floatLit := by decide
  have hsyms : ∀ y ∈ symbols, isDigit (y.text.headD nul) = isNumber y := by decide
  obtain ⟨c, t, ht, hc⟩ := WF_first hz
  rcases hc with ⟨hc, hk⟩ | ⟨hc, hk⟩ | ⟨rfl, hk⟩ | hs
  · obtain ⟨hi, hf⟩ := hwords _ hk
    rw [ht, isNumber, beq_false_of_ne hi, beq_false_of_ne hf]
    exact isLetter_not_isDigit hc
  · rw [ht, isNumber]
    rcases hk with hk | hk <;> (rw [hk]; exact hc)
  · rw [ht, isNumber, hk]
    rfl
  · exact hsyms z hs

/-- Behind a number nothing word-like is printed, so only a fraction can grow. -/
theorem fraction_render (hy : y.WF) (hrest : ∀ z ∈ rest, z.WF) :
    fraction (minText y ++ render (y.text.getLastD nul) rest) =
      (y.kind == .dot && startsNumber rest) := by
  by_cases hdot : y = ⟨.dot, ['.']⟩
  · subst hdot
    have htext : minText ⟨.dot, ['.']⟩ = ['.'] := rfl
    cases rest with
    | nil => rfl
    | cons z rest =>
      have hz : z.WF := hrest z (by simp)
      obtain ⟨u, hu⟩ := minText_cons hz
      rcases render_cons '.' z rest with ⟨h, _⟩ | ⟨_, h⟩
      · cases h
      · show fraction ('.' :: render '.' (z :: rest)) = _
        rw [h, hu]
        show isDigit (z.text.headD nul) = _
        rw [WF_number hz]
        rfl
  · obtain ⟨u, hu⟩ := minText_cons hy
    have hk : y.kind ≠ .dot := fun h => hdot ((WF_dot hy).1.mp h)
    have hc : y.text.headD nul ≠ '.' := fun h => hdot ((WF_dot hy).2.mp h)
    rw [hu]
    have hf : fraction (y.text.headD nul :: (u ++ render (y.text.getLastD nul) rest)) = false := by
      unfold fraction
      split
      next heq => injection heq with h _; exact absurd h hc
      next => rfl
    rw [cons_append, hf]
    simp [hk]

/-- A class of word bytes stops before anything that is not word-like, and
before a space. -/
theorem stopsAt_nonword {p : Char → Bool} (hp : ∀ c, p c → fmtIsWord c)
    (hc : fmtIsWord c = false) (t : List Char) : stopsAt p (c :: t) := by
  simp only [stopsAt]
  cases h : p c with
  | false => rfl
  | true => rw [hp c h] at hc; simp at hc

/-- Behind a word byte a space or a symbol is printed, where every class of word
bytes stops. -/
theorem stopsAt_render {prev : Char} (hprev : fmtIsWord prev) (hy : y.WF)
    {p : Char → Bool} (hp : ∀ c, p c → fmtIsWord c) :
    stopsAt p (render prev (y :: rest)) := by
  obtain ⟨u, hu⟩ := minText_cons hy
  rcases render_cons prev y rest with ⟨_, _, v, hv⟩ | ⟨hor, hv⟩
  · rw [hv]
    exact stopsAt_nonword hp (by decide) v
  · rw [hv, hu]
    exact stopsAt_nonword hp (hor.resolve_left (by rw [hprev]; decide)) _

theorem fusingBytes_of_ident (hc : isIdentCont c) (d : Char) :
    fusingBytes.contains (c, d) = false := by
  cases hf : fusingBytes.contains (c, d) with
  | false => rfl
  | true =>
    have hall : ∀ e ∈ fusingBytes, isIdentCont e.1 = false := by decide
    have := hall (c, d) (by simpa using hf)
    simp [hc] at this

/-- A number has no one-byte text that fuses. -/
theorem fuses_of_ident (y : Lexeme) (hx : ∀ c, x.text = [c] → isIdentCont c) :
    fuses x y → ∃ c d t, x.text = [c] ∧ y.text = d :: t ∧ upperKwMap.contains c ∧
      d = '=' := by
  intro h
  unfold fuses at h
  split at h
  next c d t hxt hyt =>
    rw [fusingBytes_of_ident (hx c hxt) d, Bool.false_or, Bool.and_eq_true, beq_iff_eq] at h
    exact ⟨c, d, t, hxt, hyt, h.1, h.2⟩
  next => simp at h

theorem makesFraction_of_kind (h : x.kind ≠ .intLit) (y : Lexeme)
    (rest : List Lexeme) : makesFraction x y rest = false := by simp [makesFraction, h]

theorem fuses_of_length (h : 2 ≤ x.text.length) (y : Lexeme) : fuses x y = false := by
  unfold fuses
  split
  next c d t hx _ => rw [hx] at h; simp at h
  next => rfl

/-- Behind a word: only `=` behind an uppercase keyword letter disturbs. -/
theorem delimits_render_word (hc : isLetter c) (hcs : ∀ d ∈ cs, isIdentCont d)
    (hy : y.WF) (rest : List Lexeme) :
    Delimits ⟨classifyIdent .default (c :: cs), c :: cs⟩
        (render ((c :: cs).getLastD nul) (y :: rest)) =
      !fuses ⟨classifyIdent .default (c :: cs), c :: cs⟩ y := by
  have hx : Lexeme.WF ⟨classifyIdent .default (c :: cs), c :: cs⟩ := .word hc hcs
  have hhead : fmtIsWord c := isIdentCont_fmtIsWord (isLetter_isIdentCont hc)
  have hlast : fmtIsWord ((c :: cs).getLastD nul) := (WF_last hx).trans hhead
  obtain ⟨u, hu⟩ := minText_cons hy
  rw [delimits_word hc, stopsAt_render hlast hy (p := isIdentContLegacy) (fun _ h => h)]
  rcases render_cons ((c :: cs).getLastD nul) y rest with ⟨_, hyw, v, hv⟩ | ⟨-, hv⟩
  · rw [hv]
    have hupper : upperKeyword .default (c :: cs) (' ' :: v) = false := by cases cs <;> rfl
    rw [hupper]
    cases hf : fuses ⟨classifyIdent .default (c :: cs), c :: cs⟩ y with
    | false => rfl
    | true =>
      obtain ⟨_, d, t, _, hyt, _, rfl⟩ := fuses_of_ident y
        (fun e he => by injection he with he _; exact he ▸ isLetter_isIdentCont hc) hf
      rw [hyt] at hyw
      have hnw : fmtIsWord '=' := hyw
      cases hnw
  · rw [hv, hu, cons_append]
    obtain ⟨d, t, hyt⟩ := exists_cons_of_ne_nil (WF_ne_nil hy)
    have hd : y.text.headD nul = d := by rw [hyt]; rfl
    rw [hd]
    cases cs with
    | cons e cs =>
      rfl
    | nil =>
      have hno := fusingBytes_of_ident (isLetter_isIdentCont hc) d
      have hfuse : fuses ⟨classifyIdent .default [c], [c]⟩ y
          = (upperKwMap.contains c && d == '=') := by simp only [fuses, hyt, hno, Bool.false_or]
      rw [hfuse]
      unfold upperKeyword
      split
      next hcons hd' => injection hcons with h1 _; injection hd' with h2 _; simp [h1, h2]
      next hne =>
        have he : d ≠ '=' := fun he => hne c _ rfl rfl (by rw [he])
        simp [he]

/-- Behind a number: only a fraction disturbs. -/
theorem delimits_render_number (hx : x.WF) (hn : isNumber x) (hy : y.WF)
    (hrest : ∀ z ∈ rest, z.WF) :
    Delimits x (render (x.text.getLastD nul) (y :: rest)) =
      (!fuses x y && !makesFraction x y rest) := by
  have hdigit : isDigit (x.text.headD nul) := by rw [WF_number hx]; exact hn
  have hlast : fmtIsWord (x.text.getLastD nul) := by
    rw [WF_last hx]
    exact isIdentCont_fmtIsWord (isDigit_isIdentCont hdigit)
  have hfuse : fuses x y = false := by
    have hone : ∀ c, x.text = [c] → isDigit c := by
      intro c hc
      rw [hc] at hdigit
      exact hdigit
    cases hf : fuses x y with
    | false => rfl
    | true =>
      obtain ⟨c, d, t, hxt, _, hupper, _⟩ := fuses_of_ident y
        (fun c hc => isDigit_isIdentCont (hone c hc)) hf
      have hall : upperKwMap.all (fun e => !isDigit e) := by decide
      have := all_eq_true.mp hall c (by simpa using hupper)
      rw [hone c hxt] at this
      simp at this
  have hfrac : fraction (render (x.text.getLastD nul) (y :: rest)) =
      (y.kind == .dot && startsNumber rest) := by
    rcases render_cons (x.text.getLastD nul) y rest with ⟨_, hyw, v, hv⟩ | ⟨_, hv⟩
    · have hk : y.kind ≠ .dot := by
        intro h
        rw [(WF_dot hy).1.mp h] at hyw
        cases hyw
      rw [hv]
      simp [fraction, hk]
    · rw [hv]; exact fraction_render hy hrest
  rw [hfuse]
  cases hx with
  | @word c cs hc =>
    obtain ⟨_, h2, h3⟩ := classifyIdent_kind (c :: cs)
    simp [isNumber, h2, h3] at hn
  | @based m p ds hm hne hds =>
    have hfr : makesFraction ⟨.intLit, '0' :: m :: ds⟩ y rest = false := by
      simp [makesFraction, baseMarker, hm]
    rw [delimits_based hm, hfr, stopsAt_render hlast hy (fun c hc =>
      isIdentCont_fmtIsWord (baseDigits_isIdentCont hm hc)),
      stopsAt_render hlast hy (p := isLetter) (fun c hc => isIdentCont_fmtIsWord (isLetter_isIdentCont hc))]
    rfl
  | @int ds hne hds =>
    have hbm : baseMarker ds = none := by
      have := baseMarker_digits hne hds (r := []) rfl
      simpa using this
    rw [delimits_int hds, decimalStops_eq, hfrac,
      stopsAt_render hlast hy (fun c hc => isIdentCont_fmtIsWord hc)]
    simp [makesFraction, hbm]
  | float =>
    rw [delimits_float, stopsAt_render hlast hy (fun c hc => isIdentCont_fmtIsWord hc)]
    rfl
  | str => simp [isNumber] at hn
  | sym hx =>
    have hall : ∀ y ∈ symbols, isNumber y = false := by decide
    rw [hall x hx] at hn
    simp at hn

/-- Behind a symbol: the two bytes must not fuse. -/
theorem delimits_render_symbol (hx : x ∈ symbols) (hy : y.WF) (rest : List Lexeme) :
    Delimits x (render (x.text.getLastD nul) (y :: rest)) = !fuses x y := by
  have hall : ∀ z ∈ symbols, fmtIsWord (z.text.getLastD nul) = false ∧
      z.text.all (!upperKwMap.contains ·) := by decide
  obtain ⟨hlast, hupper⟩ := hall x hx
  obtain ⟨u, hu⟩ := minText_cons hy
  obtain ⟨d, t, hyt⟩ := exists_cons_of_ne_nil (WF_ne_nil hy)
  have hd : y.text.headD nul = d := by rw [hyt]; rfl
  rw [delimits_symbol hx]
  rcases render_cons (x.text.getLastD nul) y rest with ⟨h, _⟩ | ⟨_, hv⟩
  · rw [hlast] at h; simp at h
  · rw [hv, hu, hd]
    cases hxt : x.text with
    | nil => exact absurd hxt (WF_ne_nil (.sym hx))
    | cons c cs =>
      cases cs with
      | nil =>
        have hc : upperKwMap.contains c = false := by simpa [hxt] using hupper
        have hfuse : fuses x y = fusingBytes.contains (c, d) := by
          simp only [fuses, hxt, hyt, hc, Bool.false_and, Bool.or_false]
        rw [hfuse]
        rfl
      | cons e cs =>
        rw [fuses_of_length (by rw [hxt]; simp)]
        rfl

/-- **Neighbours decide**: a printed lexeme is delimited by what is printed
behind it exactly when it does not fuse with it. -/
theorem delimits_render (hx : x.WF) (hy : y.WF) (hrest : ∀ z ∈ rest, z.WF) :
    Delimits (minLexeme x) (render (x.text.getLastD nul) (y :: rest)) =
      (!fuses x y && !makesFraction x y rest) := by
  rcases WF_strLit hx with ⟨ps, hps, rfl⟩ | hk
  · rw [fuses_of_length (by simp [strText])]
    rfl
  have hmin : minLexeme x = x := by simp only [minLexeme, minText_of_ne hk]
  rw [hmin]
  by_cases hn : isNumber x
  · exact delimits_render_number hx hn hy hrest
  have hint : x.kind ≠ .intLit := by
    intro h
    exact hn (by simp [isNumber, h])
  rw [makesFraction_of_kind hint, Bool.not_false, Bool.and_true]
  cases hx with
  | word hc hcs => exact delimits_render_word hc hcs hy rest
  | based => exact absurd rfl hint
  | int => exact absurd rfl hint
  | float => exact absurd rfl hn
  | str => exact absurd rfl hk
  | sym hx => exact delimits_render_symbol hx hy rest

theorem allDelimit_iff : ∀ xs : List Lexeme, (∀ x ∈ xs, x.WF) → (AllDelimit xs ↔ Unfused xs)
  | [], _ => by simp [AllDelimit, Unfused]
  | [x], h => by
    have hnil : ∀ z : Lexeme, Delimits z [] := by
      intro z
      unfold Delimits
      split <;> try rfl
      · split <;> rfl
      · split
        · unfold upperKeyword; split <;> simp_all [stopsAt]
        · unfold symbolStops; split <;> simp_all
    simp [AllDelimit, Unfused, render, hnil]
  | x :: y :: rest, h => by
    have hx : x.WF := h x (by simp)
    have hy : y.WF := h y (by simp)
    have hrest : ∀ z ∈ rest, z.WF := fun z hz => h z (by simp [hz])
    have ih := allDelimit_iff (y :: rest) (forall_mem_cons.mp h).2
    show (Delimits (minLexeme x) (render (x.text.getLastD nul) (y :: rest)) ∧
      AllDelimit (y :: rest)) ↔ _
    rw [ih, delimits_render hx hy hrest]
    simp only [Unfused, Bool.and_eq_true]

/-! ## §9. NUL bytes. -/

theorem nul_mem_minPiece (p : StrPiece) : nul ∈ (minPiece p).text ↔ nul ∈ p.text := by
  have hblank : ∀ c, blankControl c = nul ↔ c = nul := by
    intro c
    unfold blankControl
    by_cases h : isRawControl c
    · rw [if_pos h]
      constructor
      · intro h'; cases h'
      · rintro rfl; cases h
    · rw [if_neg h]
  cases p with
  | plain c =>
    rw [← escapeControl_eq]
    unfold escapeControl
    split
    next h => subst h; decide
    split
    next h => subst h; decide
    split
    next h => subst h; decide
    next => rfl
  | escape c => rfl
  | hex a b => rfl
  | interp body =>
    simp only [minPiece, StrPiece.text, mem_cons, mem_append, mem_map]
    have hex : (∃ a ∈ body, blankControl a = nul) ↔ nul ∈ body := by
      constructor
      · rintro ⟨a, ha, h⟩
        rw [(hblank a).mp h] at ha
        exact ha
      · intro h
        exact ⟨nul, h, (hblank nul).mpr rfl⟩
    rw [hex]

theorem nul_mem_minText (hx : x.WF) : nul ∈ minText x ↔ x.kind = .strLit ∧ nul ∈ x.text := by
  rcases WF_strLit hx with ⟨ps, hps, rfl⟩ | hk
  · rw [minText_strText hps]
    simp only [strText, bodyText, mem_cons, mem_append, mem_flatMap, mem_map, true_and]
    have hex : (∃ a, (∃ p ∈ ps, minPiece p = a) ∧ nul ∈ a.text) ↔ ∃ p ∈ ps, nul ∈ p.text := by
      constructor
      · rintro ⟨_, ⟨p, hp, rfl⟩, h⟩
        exact ⟨p, hp, (nul_mem_minPiece p).mp h⟩
      · rintro ⟨p, hp, h⟩
        exact ⟨_, ⟨p, hp, rfl⟩, (nul_mem_minPiece p).mpr h⟩
    rw [hex]
  · rw [minText_of_ne hk]
    constructor
    · intro h
      exact absurd (WF_isInk hx hk nul h) (by decide)
    · intro h
      exact absurd h.1 hk

/-- A NUL byte in the output comes from a literal. -/
theorem nul_mem_render : ∀ (xs : List Lexeme) (prev : Char), (∀ x ∈ xs, x.WF) →
    (nul ∈ render prev xs ↔ ∃ x ∈ xs, x.kind = .strLit ∧ nul ∈ x.text)
  | [], _, _ => by simp [render]
  | x :: xs, prev, h => by
    have hsep : nul ∉ minSep prev (x.text.headD nul) := by
      intro hm
      exact absurd (minSep_blank _ _ _ hm) (by decide)
    have ih := nul_mem_render xs (x.text.getLastD nul) (forall_mem_cons.mp h).2
    simp only [render, mem_append, hsep, false_or, nul_mem_minText (h x (by simp)), ih,
      mem_cons, exists_eq_or_imp]

/-! ## §10. The theorem. -/

theorem separable_iff (xs : List Lexeme) : Separable xs ↔
      Unfused xs ∧ ¬ ∃ x ∈ xs, x.kind = .strLit ∧ nul ∈ x.text := by
  simp only [Separable, Bool.and_eq_true, all_eq_true, Bool.not_eq_true',
    Bool.and_eq_false_iff, beq_eq_false_iff_ne, not_exists, not_and]
  refine and_congr_right fun _ => forall_congr' fun x => forall_congr' fun _ => ?_
  constructor
  · rintro (h | h) hk
    · exact absurd hk h
    · simpa using h
  · intro h
    by_cases hk : x.kind = .strLit
    · exact .inr (by simpa using h hk)
    · exact .inl hk

/-- The lexemes of a token array: all tokens but the end marker. -/
def lexemesOf (src : Source) (toks : List Token) : List Lexeme :=
  toks.dropLast.map (Token.lexeme src)

/-- What `tkc_minify` prints for an accepted source. -/
theorem tkcMinify_eq (h : Scans src xs) : tkcMinify src = some (cString (render nul xs)) := by
  obtain ⟨body, eof, hlex, hmap⟩ := lex_of_scans (src.length + 16) h
    (by have := h.length_le; omega)
  obtain ⟨body', eof', heq, hk, _⟩ := lex_scans hlex
  have he : eof = eof' := by
    have := (append_inj' heq rfl).2
    simpa using this
  have hwf : ∀ t ∈ body, (t.lexeme src).WF := by
    intro t ht
    refine h.wf _ ?_
    rw [← hmap]
    exact mem_map.mpr ⟨t, ht, rfl⟩
  unfold tkcMinify
  rw [hlex, Option.map_some, minifyLoop_eq src eof (he ▸ hk) body nul hwf, hmap]

theorem forall₂_dropLast {out : Source} {body body' : List Token} {eof eof' : Token}
    (h : List.Forall₂ (fun t t' => SameLexeme (t.lexeme src) (t'.lexeme out))
      (body ++ [eof]) (body' ++ [eof'])) :
    List.Forall₂ SameLexeme (body.map (Token.lexeme src)) (body'.map (Token.lexeme out)) := by
  have hlen : body.length = body'.length := by
    have := h.length_eq
    simpa using this
  have htake := forall₂_take body.length h
  rw [take_left, hlen, take_left] at htake
  rw [forall₂_map_left_iff, forall₂_map_right_iff]
  exact htake

/-- The texts read back are the printed ones. -/
theorem map_minLexeme_of_same : ∀ {xs ys : List Lexeme},
    List.Forall₂ SameLexeme xs ys → (∀ y ∈ ys, ∀ c ∈ y.text, isRawControl c = false) →
    ys = xs.map minLexeme
  | [], [], _, _ => rfl
  | x :: xs, y :: ys, .cons hxy h, hy => by
    rw [map_cons, hxy.eq_minLexeme (hy y (by simp)),
      map_minLexeme_of_same h (forall_mem_cons.mp hy).2]

/-- Tokens preserved make a separable source. -/
theorem separable_of_preserves {ys : List Lexeme} {out : List Char} (hsrc : Scans src xs)
    (hout : out = cString (render nul xs)) (hys : Scans out ys)
    (hsame : List.Forall₂ SameLexeme xs ys) : Separable xs := by
  have hwf := hsrc.wf
  have hsub : ∀ c ∈ out, c ∈ render nul xs := by
    intro c hc
    rw [hout] at hc
    exact takeWhile_subset _ hc
  have heq : ys = xs.map minLexeme := map_minLexeme_of_same hsame
    (fun y hy c hc => render_noControl xs nul hwf c (hsub c (hys.mem_text y hy c hc)))
  subst heq
  -- a NUL byte would cut ink off that the lexemes still have
  have hnul : nul ∉ render nul xs := by
    intro hmem
    have h1 := ink_cString hmem
    have h2 := hys.inkOf_le
    rw [hout, ← ink_render xs nul] at h2
    omega
  rw [hout, cString_of_not_mem hnul] at hys
  rw [separable_iff]
  refine ⟨(allDelimit_iff xs hwf).mp (scans_render_inv xs nul hwf hys), ?_⟩
  rwa [nul_mem_render xs nul hwf] at hnul

/-- **THE MINIFIER PRESERVES THE TOKEN STREAM EXACTLY ON SEPARABLE SOURCES**:
one line of output, accepted, with the same kinds and texts, and minifying
again changes nothing. -/
theorem minifyPreserves_iff_separable (cap : Nat) {src : Source} {toks : List Token}
    (h : lex .default cap src = some toks) :
    MinifyPreserves src toks ↔ Separable (lexemesOf src toks) = true := by
  obtain ⟨body, eof, rfl, hek, _, hel, _, hscan⟩ := lex_scans h
  have hxs : lexemesOf src (body ++ [eof]) = body.map (Token.lexeme src) := by simp [lexemesOf]
  rw [hxs]
  set xs := body.map (Token.lexeme src) with hxsdef
  have hwf := hscan.wf
  constructor
  · rintro ⟨out, toks', hmin, _, hlex, hsame, _⟩
    obtain ⟨body', eof', rfl, _, _, _, _, hscan'⟩ := lex_scans hlex
    rw [tkcMinify_eq hscan, Option.some.injEq] at hmin
    exact separable_of_preserves hscan hmin.symm hscan' (forall₂_dropLast hsame)
  · intro hsep
    rw [separable_iff, ← nul_mem_render xs nul hwf] at hsep
    obtain ⟨hunf, hnul⟩ := hsep
    have hout : tkcMinify src = some (render nul xs) := by
      rw [tkcMinify_eq hscan, cString_of_not_mem hnul]
    have hscan' : Scans (render nul xs) (xs.map minLexeme) :=
      scans_render xs nul hwf ((allDelimit_iff xs hwf).mpr hunf)
    obtain ⟨body', eof', hlex, hmap⟩ := lex_of_scans ((render nul xs).length + 16) hscan'
      (by have := hscan'.length_le; omega)
    obtain ⟨body₂, eof₂, heq, hek', _, hel', _⟩ := lex_scans hlex
    have he : eof' = eof₂ := by simpa using (append_inj' heq rfl).2
    refine ⟨render nul xs, body' ++ [eof'], hout, ?_, hlex, ?_, ?_⟩
    · intro hmem
      exact absurd (render_noControl xs nul hwf _ hmem) (by decide)
    · refine rel_append ?_ (.cons ?_ .nil)
      · have hsame : List.Forall₂ SameLexeme (body.map (Token.lexeme src))
            (body'.map (Token.lexeme (render nul xs))) := by
          rw [hmap, forall₂_map_right_iff, forall₂_same]
          exact fun x hx => sameLexeme_minLexeme (hwf x hx)
        rwa [forall₂_map_left_iff, forall₂_map_right_iff] at hsame
      · have h1 : eof.lexeme src = ⟨.eof, []⟩ := by simp [Token.lexeme, Token.text, slice, hek, hel]
        have h2 : eof'.lexeme (render nul xs) = ⟨.eof, []⟩ := by
          rw [he]
          simp [Token.lexeme, Token.text, slice, hek', hel']
        rw [h1, h2]
        exact ⟨rfl, rfl⟩
    · rw [tkcMinify_eq hscan', render_minLexeme xs nul hwf, cString_of_not_mem hnul]

/-- `let a=1` in two lines is separable, so the theorem applies and minifying it
is harmless. -/
theorem minifyPreserves_let : ∃ toks, lex .default 32 "let a\n =1".toList = some toks ∧
      MinifyPreserves "let a\n =1".toList toks :=
  ⟨[⟨.kwLet, 0, 3, 1, 1⟩, ⟨.ident, 4, 1, 1, 5⟩, ⟨.eq, 7, 1, 2, 2⟩, ⟨.intLit, 8, 1, 2, 3⟩,
      ⟨.eof, 9, 0, 2, 4⟩], by decide,
    (minifyPreserves_iff_separable 32 (by decide)).mpr (by decide)⟩

/-- The bitwise `&` in front of a function reference `&b`: printed together,
the scanner reads `&&`. -/
theorem minify_fuses_ampersands : ∃ toks, lex .default 32 "a& &b".toList = some toks ∧
      tkcMinify "a& &b".toList = some "a&&b".toList ∧
      ¬ MinifyPreserves "a& &b".toList toks := by
  refine ⟨[⟨.ident, 0, 1, 1, 1⟩, ⟨.amp, 1, 1, 1, 2⟩, ⟨.amp, 3, 1, 1, 4⟩, ⟨.ident, 4, 1, 1, 5⟩,
    ⟨.eof, 5, 0, 1, 6⟩], by decide, by decide, ?_⟩
  rintro ⟨out, toks', hmin, _, hlex, hsame, _⟩
  have hout : tkcMinify "a& &b".toList = some "a&&b".toList := by decide
  rw [hout, Option.some.injEq] at hmin
  subst hmin
  have htoks : lex .default ("a&&b".toList.length + 16) "a&&b".toList =
      some [⟨.ident, 0, 1, 1, 1⟩, ⟨.and, 1, 2, 1, 2⟩, ⟨.ident, 3, 1, 1, 4⟩, ⟨.eof, 4, 0, 1, 5⟩] := by
    decide
  rw [htoks, Option.some.injEq] at hlex
  subst hlex
  have := hsame.length_eq
  simp at this

end Toke
