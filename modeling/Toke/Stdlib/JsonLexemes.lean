/-
  Toke.Stdlib.JsonLexemes — **ONE MACHINE FOR BOTH JSON READERS.**

  Both readers cut a text into the same lexemes.  `advance` is a stack machine
  over lexemes with two liberties: a comma may stand before a closing bracket
  (`commas`), and a minus sign may stand without a digit (`minuses`).  The
  skipper has the second liberty, the token reader the first.  Each liberty is a
  property of the lexemes alone (`run_strict_commas`, `run_strict_minuses`).
-/
import Toke.Stdlib.Json

namespace Toke.Stdlib.Json

open List

variable {p r q : List Char}

/-! ## §1. Lexemes. -/

/-- What both readers cut a text into. -/
inductive Lexeme where
  | openObj | closeObj | openArr | closeArr | colon | comma | str | word
  /-- A number: whether a digit follows the sign, and its length. -/
  | num (sound : Bool) (length : Nat)
  /-- What starts no lexeme. -/
  | bad
deriving DecidableEq

/-- Whether the first character, behind a sign, is a digit. -/
def startsNumber (p : List Char) : Bool := ((skipMinus p).head?.map isDigit).getD false

/-- A word, or nothing that could be one. -/
def wordLexeme (word p : List Char) : Lexeme × List Char :=
  match skipWord word p with
  | some q => (.word, q)
  | none => (.bad, [])

/-- The lexeme at the front of a text that does not start with white space. -/
def lexeme (p : List Char) : Option (Lexeme × List Char) :=
  match p with
  | [] => none
  | c :: r => some (if c = '\x7b' then (.openObj, r)
      else if c = '\x7d' then (.closeObj, r)
      else if c = '[' then (.openArr, r)
      else if c = ']' then (.closeArr, r)
      else if c = ':' then (.colon, r)
      else if c = ',' then (.comma, r)
      else if c = '"' then
        match skipBody r with
        | some q => (.str, q)
        | none => (.bad, [])
      else if c = 't' then wordLexeme ['t', 'r', 'u', 'e'] p
      else if c = 'f' then wordLexeme ['f', 'a', 'l', 's', 'e'] p
      else if c = 'n' then wordLexeme ['n', 'u', 'l', 'l'] p
      else if c = '-' || isDigit c then
        (.num (startsNumber p) (p.length - (numberEnd p).length), numberEnd p)
      else (.bad, []))

/-- The lexemes of a text. -/
def lexemesFrom : Nat → List Char → List Lexeme
  | 0, _ => []
  | fuel + 1, p =>
    match lexeme (skipWs p) with
    | none => []
    | some (x, r) => x :: lexemesFrom fuel r

/-- The lexemes of a text, up to the first that is bad. -/
def lexemes (p : List Char) : List Lexeme := lexemesFrom p.length p

theorem skipWs_length_le (p : List Char) : (skipWs p).length ≤ p.length :=
  (dropWhile_suffix isWs).length_le

theorem skipWs_skipWs (p : List Char) : skipWs (skipWs p) = skipWs p := by
  exact dropWhile_idempotent isWs p

theorem skipBody_length_lt : ∀ (n : Nat) (r q : List Char), r.length ≤ n →
    skipBody r = some q → q.length < r.length := by
  intro n
  induction n with
  | zero =>
    intro r q hn h
    obtain rfl : r = [] := length_eq_zero_iff.mp (by omega)
    cases h
  | succ n ih =>
    intro r q hn h
    unfold skipBody at h
    split at h
    · cases h
    · cases h
    · rename_i c t
      have hlen := ih t q (by simp only [length_cons] at hn; omega) h
      simp only [length_cons]
      omega
    · obtain rfl := Option.some.inj h
      exact Nat.lt_succ_self _
    · rename_i c t _ _ _
      have hlen := ih t q (by simp only [length_cons] at hn; omega) h
      simp only [length_cons]
      omega

theorem skipWord_length_lt {c : Char} {word q : List Char} (h : skipWord (c :: word) p = some q) :
    q.length < p.length := by
  unfold skipWord at h
  split at h
  · rename_i hpre
    obtain rfl := Option.some.inj h
    have hstart : (c :: word) <+: p := isPrefixOf_iff_prefix.mp hpre
    have hle : (c :: word).length ≤ p.length := hstart.length_le
    rw [length_drop]
    simp only [length_cons] at hle ⊢
    omega
  · cases h

theorem skipDigits_length_le (p : List Char) : (skipDigits p).length ≤ p.length :=
  (dropWhile_suffix isDigit).length_le

theorem skipSign_length_le (p : List Char) : (skipSign p).length ≤ p.length := by
  unfold skipSign
  split <;> simp

theorem skipFraction_length_le (p : List Char) : (skipFraction p).length ≤ p.length := by
  unfold skipFraction
  split
  · rename_i r
    have h := skipDigits_length_le r
    simp only [length_cons]
    omega
  · exact Nat.le_refl _

theorem skipExponent_length_le (p : List Char) : (skipExponent p).length ≤ p.length := by
  have hboth : ∀ (c : Char) (r : List Char), (skipDigits (skipSign r)).length ≤ (c :: r).length := by
    intro c r
    have h₁ := skipDigits_length_le (skipSign r)
    have h₂ := skipSign_length_le r
    simp only [length_cons]
    omega
  unfold skipExponent
  split
  · exact hboth _ _
  · exact hboth _ _
  · exact Nat.le_refl _

/-- A number uses up its first character. -/
theorem numberEnd_length_lt {c : Char} (h : (c = '-' || isDigit c)) :
    (numberEnd (c :: r)).length < (c :: r).length := by
  have htail : (skipDigits (skipMinus (c :: r))).length ≤ r.length := by
    by_cases hminus : c = '-'
    · subst hminus
      exact skipDigits_length_le r
    · have hdigit : isDigit c := by simpa [hminus] using h
      have hskip : skipMinus (c :: r) = c :: r := by
        unfold skipMinus
        split
        · rename_i heq
          exact absurd (cons.inj heq).1 hminus
        · rfl
      have hdrop : skipDigits (c :: r) = skipDigits r := by
        unfold skipDigits
        rw [dropWhile_cons, if_pos hdigit]
      rw [hskip, hdrop]
      exact skipDigits_length_le r
  have h₁ := skipFraction_length_le (skipDigits (skipMinus (c :: r)))
  have h₂ := skipExponent_length_le (skipFraction (skipDigits (skipMinus (c :: r))))
  unfold numberEnd
  rw [length_cons]
  omega

/-- The branch of `lexeme` behind a quote. -/
def strLexeme (r : List Char) : Lexeme × List Char :=
  match skipBody r with
  | some q => (.str, q)
  | none => (.bad, [])

/-- The lexemes of one character. -/
def marks : List (Char × Lexeme) :=
  [('\x7b', .openObj), ('\x7d', .closeObj), ('[', .openArr), (']', .closeArr), (':', .colon),
    (',', .comma)]

/-- How a lexeme begins. -/
inductive Begins (c : Char) (r : List Char) : Lexeme × List Char → Prop
  | mark {x : Lexeme} : (c, x) ∈ marks → Begins c r (x, r)
  | str {q : List Char} : c = '"' → skipBody r = some q → Begins c r (.str, q)
  | word {w q : List Char} : skipWord (c :: w) (c :: r) = some q → Begins c r (.word, q)
  | num {sound : Bool} {n : Nat} : (c = '-' || isDigit c) = true →
      Begins c r (.num sound n, numberEnd (c :: r))
  | bad : Begins c r (.bad, [])

variable {c : Char} {x : Lexeme}

theorem Begins.ite {p : Prop} [Decidable p] {a b : Lexeme × List Char} (ha : p → Begins c r a)
    (hb : Begins c r b) : Begins c r (if p then a else b) := by
  split
  · exact ha ‹_›
  · exact hb

theorem lexeme_begins (h : lexeme (c :: r) = some (x, q)) : Begins c r (x, q) := by
  have hmark : ∀ {d y b}, (d, y) ∈ marks → Begins c r b →
      Begins c r (if c = d then (y, r) else b) :=
    fun hd => .ite fun hc => .mark (hc ▸ hd)
  have hbody : c = '"' → Begins c r (strLexeme r) := by
    intro hc
    unfold strLexeme
    split
    · exact .str hc ‹_›
    · exact .bad
  have hword : ∀ d w, c = d → Begins c r (wordLexeme (d :: w) (c :: r)) := by
    rintro d w rfl
    unfold wordLexeme
    split
    · exact .word ‹_›
    · exact .bad
  rw [lexeme, Option.some.injEq] at h
  rw [← h]
  refine hmark (by decide) <| hmark (by decide) <| hmark (by decide) <| hmark (by decide) <|
    hmark (by decide) <| hmark (by decide) <| .ite hbody ?_
  exact .ite (hword _ _) <| .ite (hword _ _) <| .ite (hword _ _) <| .ite .num .bad

theorem lexeme_length_lt (h : lexeme p = some (x, r)) : r.length < p.length := by
  cases p with
  | nil => cases h
  | cons c t =>
    cases lexeme_begins h with
    | mark _ => exact Nat.lt_succ_self _
    | str _ hbody => exact Nat.lt_succ_of_lt (skipBody_length_lt _ t r (Nat.le_refl _) hbody)
    | word hword => exact skipWord_length_lt hword
    | num hnum => exact numberEnd_length_lt hnum
    | bad => exact Nat.succ_pos _

theorem lexemesFrom_eq : ∀ (n m : Nat) (p : List Char), p.length ≤ n → p.length ≤ m →
    lexemesFrom n p = lexemesFrom m p := by
  have hnil : ∀ m, lexemesFrom m [] = [] := by
    intro m
    cases m with
    | zero => rfl
    | succ m => rfl
  intro n
  induction n with
  | zero =>
    intro m p hn _
    obtain rfl : p = [] := length_eq_zero_iff.mp (by omega)
    rw [hnil, hnil]
  | succ n ih =>
    intro m p hn hm
    cases m with
    | zero =>
      obtain rfl : p = [] := length_eq_zero_iff.mp (by omega)
      rw [hnil, hnil]
    | succ m =>
      unfold lexemesFrom
      cases hx : lexeme (skipWs p) with
      | none => rfl
      | some pair =>
        obtain ⟨x, r⟩ := pair
        have hlt := lexeme_length_lt hx
        have hle := skipWs_length_le p
        dsimp only
        rw [ih m r (by omega) (by omega)]

theorem lexemes_cons (h : lexeme (skipWs p) = some (x, r)) : lexemes p = x :: lexemes r := by
  have hlt := lexeme_length_lt h
  have hle := skipWs_length_le p
  obtain ⟨n, hn⟩ : ∃ n, p.length = n + 1 := ⟨p.length - 1, by omega⟩
  unfold lexemes
  rw [hn]
  conv_lhs => unfold lexemesFrom
  rw [h]
  dsimp only
  rw [lexemesFrom_eq n r.length r (by omega) (Nat.le_refl _)]

theorem lexemes_of_end (h : skipWs p = []) : lexemes p = [] := by
  unfold lexemes
  cases p.length with
  | zero => rfl
  | succ n =>
    unfold lexemesFrom
    rw [h]
    rfl

theorem lexemes_skipWs (p : List Char) : lexemes (skipWs p) = lexemes p := by
  cases hx : lexeme (skipWs p) with
  | none =>
    have hnil : skipWs p = [] := by
      cases hp : skipWs p with
      | nil => rfl
      | cons c r =>
        rw [hp] at hx
        cases hx
    rw [lexemes_of_end hnil, hnil]
    rfl
  | some pair =>
    rw [lexemes_cons hx, lexemes_cons (by rw [skipWs_skipWs]; exact hx)]

/-! ## §2. The machine. -/

/-- What the text may go on with.  `objNext` and `arrNext` stand behind a comma
where no closing bracket may follow it. -/
inductive St where
  | value | objFirst | objNext | objColon | objValue | objComma
  | arrFirst | arrNext | arrComma | done
deriving DecidableEq

/-- The state behind a value. -/
def St.after : St → St
  | .value => .done
  | .objValue => .objComma
  | .arrFirst => .arrComma
  | .arrNext => .arrComma
  | t => t

/-- Lexemes that are values by themselves. -/
def Lexeme.scalar (minuses : Bool) : Lexeme → Bool
  | .str => true
  | .word => true
  | .num sound _ => sound || minuses
  | _ => false

/-- A value in state `t` on the stack `st`. -/
def advanceValue (minuses : Bool) (t : St) (st : List St) : Lexeme → Option (List St)
  | .openObj => some (.objFirst :: t.after :: st)
  | .openArr => some (.arrFirst :: t.after :: st)
  | x => if x.scalar minuses then some (t.after :: st) else none

/-- One lexeme.  The state of a container's parent is already the one behind it,
so that closing is popping. -/
def advance (commas minuses : Bool) : List St → Lexeme → Option (List St)
  | [], _ => none
  | .value :: st, x => advanceValue minuses .value st x
  | .objValue :: st, x => advanceValue minuses .objValue st x
  | .arrNext :: st, x => advanceValue minuses .arrNext st x
  | .arrFirst :: st, x => if x = .closeArr then some st else advanceValue minuses .arrFirst st x
  | .objFirst :: st, x =>
    if x = .closeObj then some st else if x = .str then some (.objColon :: st) else none
  | .objNext :: st, x => if x = .str then some (.objColon :: st) else none
  | .objColon :: st, x => if x = .colon then some (.objValue :: st) else none
  | .objComma :: st, x =>
    if x = .closeObj then some st
    else if x = .comma then some ((if commas then .objFirst else .objNext) :: st) else none
  | .arrComma :: st, x =>
    if x = .closeArr then some st
    else if x = .comma then some ((if commas then .arrFirst else .arrNext) :: st) else none
  | .done :: _, _ => none

/-- Whether the machine gets to the end of the value. -/
def run (commas minuses : Bool) : List St → List Lexeme → Bool
  | st, [] => st = [.done]
  | st, x :: xs =>
    if st = [.done] then true
    else
      match advance commas minuses st x with
      | none => false
      | some st' => run commas minuses st' xs

section Machine

variable {commas minuses : Bool} {st st' : List St} {x : Lexeme} {xs : List Lexeme}

theorem run_cons (hst : st ≠ [.done]) (h : advance commas minuses st x = some st') :
    run commas minuses st (x :: xs) = run commas minuses st' xs := by
  rw [run, if_neg hst, h]

theorem run_stuck (hst : st ≠ [.done]) (h : advance commas minuses st x = none) :
    run commas minuses st (x :: xs) = false := by
  rw [run, if_neg hst, h]

theorem run_nil (hst : st ≠ [.done]) : run commas minuses st [] = false := by
  exact decide_eq_false hst

end Machine

/-! ## §3. The two liberties. -/

/-- An opening bracket. -/
def Lexeme.opens : Lexeme → Bool
  | .openObj => true
  | .openArr => true
  | _ => false

/-- A closing bracket. -/
def Lexeme.closes : Lexeme → Bool
  | .closeObj => true
  | .closeArr => true
  | _ => false

/-- The lexemes up to the bracket that closes the outermost of `d` containers. -/
def topValue : Nat → List Lexeme → List Lexeme
  | _, [] => []
  | d, x :: xs =>
    x :: (if x.opens then topValue (d + 1) xs
      else if x.closes then (if d ≤ 1 then [] else topValue (d - 1) xs)
      else topValue d xs)

/-- How deep the containers are nested. -/
def nesting : Nat → List Lexeme → Nat
  | d, [] => d
  | d, x :: xs => max d (nesting (if x.opens then d + 1 else if x.closes then d - 1 else d) xs)

/-- A comma directly before a closing bracket. -/
def trailing : Bool → List Lexeme → Bool
  | _, [] => false
  | comma, x :: xs => (comma && x.closes) || trailing (x = .comma) xs

/-- A minus sign without a digit behind it. -/
def Lexeme.bare : Lexeme → Bool
  | .num sound _ => !sound
  | _ => false

/-- A minus sign without a digit. -/
def bareMinus (xs : List Lexeme) : Bool := xs.any Lexeme.bare

/-- A state behind a comma. -/
def St.isNext : St → Bool
  | .objNext => true
  | .arrNext => true
  | _ => false

/-- The state of the machine that takes commas more lightly. -/
def St.relax : St → St
  | .objNext => .objFirst
  | .arrNext => .arrFirst
  | t => t

variable {t : St}

theorem St.relax_of_not_next (h : t.isNext = false) : t.relax = t := by
  cases t <;> first | rfl | cases h

/-- The strict machine stops at a bracket behind a comma; at anything else both
machines do the same. -/
theorem advance_commas (minuses : Bool) (t : St) (st : List St) (x : Lexeme) :
    (t.isNext = true ∧ x.closes = true ∧ advance false minuses (t :: st) x = none) ∨
    (advance false minuses (t :: st) x = none ∧ advance true minuses (t.relax :: st) x = none) ∨
    (t.isNext = false ∧ x.opens = false ∧ x.closes = true ∧
      advance false minuses (t :: st) x = some st ∧
      advance true minuses (t.relax :: st) x = some st) ∨
    (x.opens = true ∧ ∃ u v, u.isNext = false ∧ v.isNext = false ∧
      advance false minuses (t :: st) x = some (u :: v :: st) ∧
      advance true minuses (t.relax :: st) x = some (u :: v :: st)) ∨
    (x.opens = false ∧ x.closes = false ∧ ∃ u, u.isNext = decide (x = .comma) ∧
      advance false minuses (t :: st) x = some (u :: st) ∧
      advance true minuses (t.relax :: st) x = some (u.relax :: st)) := by
  cases x with
  | num sound length =>
    cases t <;> cases sound <;> cases minuses <;>
      simp [advance, advanceValue, Lexeme.scalar, Lexeme.opens, Lexeme.closes, St.isNext,
        St.relax, St.after]
  | _ =>
    cases t <;>
      simp [advance, advanceValue, Lexeme.scalar, Lexeme.opens, Lexeme.closes, St.isNext,
        St.relax, St.after]

theorem advance_minuses (commas : Bool) (t : St) (st : List St) (x : Lexeme) :
    (x.bare ∧ advance commas false (t :: st) x = none) ∨
    (x.bare = false ∧ advance commas false (t :: st) x = advance commas true (t :: st) x) := by
  cases x with
  | num sound length =>
    cases t <;> cases sound <;> simp [advance, advanceValue, Lexeme.scalar, Lexeme.bare]
  | _ => exact .inr ⟨rfl, by cases t <;> rfl⟩

variable {st : List St}

/-- What a lexeme does to the stack. -/
theorem advance_next {commas minuses : Bool} {st' : List St}
    (h : advance commas minuses (t :: st) x = some st') :
    (x.opens = false ∧ x.closes ∧ st' = st) ∨
    (x.opens ∧ ∃ u v, v.isNext = false ∧ st' = u :: v :: st) ∨
    (x.opens = false ∧ x.closes = false ∧ ∃ u, st' = u :: st) := by
  cases t <;> cases x <;>
    simp [advance, advanceValue, Lexeme.scalar, Lexeme.opens, Lexeme.closes] at h ⊢ <;>
    first
      | exact h.symm
      | exact ⟨_, h.symm⟩
      | exact ⟨_, h.2.symm⟩
      | exact ⟨_, _, rfl, h.symm⟩

theorem Lexeme.ne_comma_of_opens (h : x.opens) : x ≠ .comma := by
  rintro rfl
  cases h

theorem Lexeme.ne_comma_of_closes (h : x.closes) : x ≠ .comma := by
  rintro rfl
  cases h

theorem Lexeme.closes_of_opens (h : x.opens) : x.closes = false := by
  cases x <;> first | rfl | cases h

section TopValue

variable {d : Nat} {x : Lexeme} {xs : List Lexeme}

theorem topValue_open (h : x.opens) : topValue d (x :: xs) = x :: topValue (d + 1) xs := by
  conv_lhs => unfold topValue
  rw [if_pos h]

theorem topValue_close (ho : x.opens = false) (h : x.closes) (hd : 0 < d) :
    topValue (d + 1) (x :: xs) = x :: topValue d xs := by
  conv_lhs => unfold topValue
  rw [ho, if_neg Bool.false_ne_true, if_pos h, if_neg (by omega), Nat.add_sub_cancel]

theorem topValue_close_last (ho : x.opens = false) (h : x.closes) :
    topValue 1 (x :: xs) = [x] := by
  unfold topValue
  rw [ho, if_neg Bool.false_ne_true, if_pos h, if_pos (Nat.le_refl 1)]

theorem topValue_other (ho : x.opens = false) (h : x.closes = false) :
    topValue d (x :: xs) = x :: topValue d xs := by
  conv_lhs => unfold topValue
  rw [ho, if_neg Bool.false_ne_true, h, if_neg Bool.false_ne_true]

end TopValue

/-- The stack below the state: containers that wait behind a value, and the end
of the whole value at the bottom. -/
structure Waiting (st : List St) : Prop where
  bottom : st.getLast? = some .done
  plain : ∀ t ∈ st, t.isNext = false

theorem Waiting.cons (h : Waiting st) (ht : t.isNext = false) : Waiting (t :: st) where
  bottom := by
    rw [getLast?_cons, h.bottom]
    rfl
  plain := by
    exact forall_mem_cons.mpr ⟨ht, h.plain⟩

/-- Closing a container leaves the end of the value or a container around it. -/
theorem Waiting.cases (h : Waiting st) :
    st = [.done] ∨ ∃ t below, st = t :: below ∧ t.isNext = false ∧ Waiting below := by
  cases st with
  | nil => cases h.bottom
  | cons t below =>
    cases below with
    | nil =>
      obtain rfl : t = .done := Option.some.inj h.bottom
      exact .inl rfl
    | cons u below =>
      refine .inr ⟨t, u :: below, rfl, h.plain t mem_cons_self, ?_, ?_⟩
      · rw [← h.bottom, getLast?_cons_cons]
      · exact (forall_mem_cons.mp h.plain).2

theorem Waiting.length_pos (h : Waiting st) : 0 < st.length := by
  cases st with
  | nil => cases h.bottom
  | cons t below => exact Nat.succ_pos _

theorem Waiting.ne_done (h : Waiting st) : t :: st ≠ [.done] := by
  intro heq
  rw [(cons.inj heq).2] at h
  cases h.bottom

theorem run_done (commas minuses : Bool) (xs : List Lexeme) :
    run commas minuses [.done] xs := by
  cases xs with
  | nil => rfl
  | cons x xs => rfl

/-- **The first liberty**: a machine that refuses a comma before a closing
bracket accepts what the other accepts without such a comma. -/
theorem run_strict_commas (minuses : Bool) : ∀ (xs : List Lexeme) (t : St) (st : List St),
    Waiting st → run false minuses (t :: st) xs
      = (run true minuses (t.relax :: st) xs && !trailing t.isNext (topValue st.length xs)) := by
  intro xs
  induction xs with
  | nil =>
    intro t st hst
    rw [run_nil hst.ne_done, run_nil hst.ne_done]
    rfl
  | cons x xs ih =>
    intro t st hst
    rcases advance_commas minuses t st x with ⟨ht, hx, hstrict⟩ | ⟨hstrict, hlight⟩ |
      ⟨ht, ho, hx, hstrict, hlight⟩ | ⟨ho, u, v, hu, hv, hstrict, hlight⟩ |
      ⟨ho, hx, u, hu, hstrict, hlight⟩
    · -- the bracket behind a comma
      have htrail : trailing t.isNext (topValue st.length (x :: xs)) := by
        unfold topValue trailing
        rw [ht, hx]
        rfl
      rw [run_stuck hst.ne_done hstrict, htrail, Bool.not_true, Bool.and_false]
    · rw [run_stuck hst.ne_done hstrict, run_stuck hst.ne_done hlight]
      rfl
    · rw [run_cons hst.ne_done hstrict, run_cons hst.ne_done hlight]
      rcases hst.cases with rfl | ⟨w, below, rfl, hw, hbelow⟩
      · rw [run_done, run_done, length_singleton, topValue_close_last ho hx]
        rw [ht]
        rfl
      · rw [length_cons, topValue_close ho hx hbelow.length_pos, ih w below hbelow,
          St.relax_of_not_next hw, hw]
        conv_rhs => unfold trailing
        rw [ht, decide_eq_false (Lexeme.ne_comma_of_closes hx)]
        rfl
    · have hwait : Waiting (v :: st) := hst.cons hv
      rw [run_cons hst.ne_done hstrict, run_cons hst.ne_done hlight, ih u (v :: st) hwait,
        St.relax_of_not_next hu, hu, topValue_open ho]
      conv_rhs => unfold trailing
      rw [decide_eq_false (Lexeme.ne_comma_of_opens ho), Lexeme.closes_of_opens ho, Bool.and_false]
      rfl
    · rw [run_cons hst.ne_done hstrict, run_cons hst.ne_done hlight, ih u st hst, hu,
        topValue_other ho hx]
      conv_rhs => unfold trailing
      rw [hx, Bool.and_false, Bool.false_or]

/-- **The second liberty**: a machine that refuses a minus sign without a digit
accepts what the other accepts without one. -/
theorem run_strict_minuses (commas : Bool) : ∀ (xs : List Lexeme) (t : St) (st : List St),
    Waiting st → run commas false (t :: st) xs
      = (run commas true (t :: st) xs && !bareMinus (topValue st.length xs)) := by
  intro xs
  induction xs with
  | nil =>
    intro t st hst
    rw [run_nil hst.ne_done, run_nil hst.ne_done]
    rfl
  | cons x xs ih =>
    intro t st hst
    rcases advance_minuses commas t st x with ⟨hx, hstrict⟩ | ⟨hx, hsame⟩
    · have hbare : bareMinus (topValue st.length (x :: xs)) := by
        unfold topValue bareMinus
        rw [any_cons, hx]
        rfl
      rw [run_stuck hst.ne_done hstrict, hbare, Bool.not_true, Bool.and_false]
    · have hbare : ∀ ys, bareMinus (x :: ys) = bareMinus ys := by
        intro ys
        unfold bareMinus
        rw [any_cons, hx, Bool.false_or]
      cases hnext : advance commas true (t :: st) x with
      | none =>
        rw [run_stuck hst.ne_done (hsame.trans hnext), run_stuck hst.ne_done hnext]
        rfl
      | some st' =>
        rw [run_cons hst.ne_done (hsame.trans hnext), run_cons hst.ne_done hnext]
        rcases advance_next hnext with ⟨ho, hc, rfl⟩ | ⟨ho, u, v, hv, rfl⟩ | ⟨ho, hc, u, rfl⟩
        · rcases hst.cases with rfl | ⟨w, below, rfl, hw, hbelow⟩
          · rw [run_done, run_done, length_singleton, topValue_close_last ho hc, hbare]
            rfl
          · rw [length_cons, topValue_close ho hc hbelow.length_pos, hbare, ih w below hbelow]
        · rw [topValue_open ho, hbare, ih u (v :: st) (hst.cons hv), length_cons]
        · rw [topValue_other ho hc, hbare, ih u st hst]

end Toke.Stdlib.Json
