/-
  Toke.Migrate.StepsBounds — **DO THE STEPS STAY INSIDE THEIR BUFFERS?**

  Each step grows its input by what it inserts.  With `B` the `[` tokens and
  `R` the `|{` that are rewritten:

      step 3   at most 2*clen + 3*B bytes
      step 4   exactly blen + 3*R bytes
      step 5   at most 5/4*b2 + 1 bytes
      step 6   at most (3*b2 + 1)/2 bytes

  so `buf3` and `out` are always large enough.  The other buffers are exactly
  when the texts fit (`Roomy`), for instance when `B` and `R` are small.  Going
  back in step 4 is right exactly when no `|{` that is rewritten lies in the
  expression before a later one (`Apart`).
-/
import Toke.Migrate.Steps
import Toke.Lexer.Tiling

namespace Toke.Migrate

open List Writing

variable {buf s : List Char} {p n : Nat} {ch : Char} {w : Pen Char}

/-! ## §1. Step 3. -/

/-- The `[` among the tokens. -/
def brackets (toks : List Token) : Nat := toks.countP (·.kind == .lbracket)

theorem length_removeUnderscores (s : List Char) (cap : Nat) :
    (removeUnderscores s cap).length ≤ s.length :=
  (length_take_le' _ _).trans (length_filter_le _ _)

/-- A token at most doubles, except that `[` becomes `.get(`. -/
theorem tokenText_length (c : Source) (toks : List Token) (i : Nat) {t : Token} (hlen : 0 < t.len) :
    (tokenText c toks i t).length ≤ 2 * t.len + 3 * (if t.kind == .lbracket then 1 else 0) := by
  have htext : (t.text c).length ≤ t.len := length_take_le _ _
  have hkeyword : (if t.len = 1 then (t.text c).map lower else t.text c).length ≤ 2 * t.len := by
    split
    · rw [length_map]
      omega
    · omega
  have hdollar : ∀ {b : Bool} {s : List Char}, s.length ≤ t.len →
      (if b then '$' :: s else s).length ≤ 2 * t.len := by
    intro b s hs
    split
    · rw [length_cons]
      omega
    · omega
  have hclean := length_removeUnderscores (((t.text c).take 127).map lower) 128
  rw [length_map, length_take] at hclean
  have htmp := length_removeUnderscores (t.text c) 256
  unfold tokenText
  split
  · exact Nat.le_add_right_of_le hkeyword
  · exact Nat.le_add_right_of_le hkeyword
  · exact Nat.le_add_right_of_le hkeyword
  · exact Nat.le_add_right_of_le hkeyword
  · -- a type name
    dsimp only
    split
    · omega
    · rw [length_cons]
      omega
  · next hkind =>
      rw [hkind]
      split
      · simp only [length_singleton]
        omega
      · have hget : ".get(".toList.length = 5 := by decide
        rw [if_pos (by decide)]
        omega
  · split
    · exact Nat.zero_le _
    · rw [length_singleton]
      omega
  · exact Nat.le_add_right_of_le (hdollar (by omega))
  · rw [length_singleton]
    omega
  · exact Nat.zero_le _
  · exact Nat.zero_le _
  · exact Nat.zero_le _
  · exact Nat.zero_le _
  · omega

/-- The token loop, along the tiling of the source by its tokens. -/
theorem tokenLoop_length (c : Source) (toks : List Token) {pos : Nat} {ts : List Token}
    (h : TilesFrom c pos ts) : ∀ {prev i : Nat} {w : Pen Char}, prev ≤ pos → w.Tight →
    (tokenLoop c toks ts i prev w).1.Tight ∧ (tokenLoop c toks ts i prev w).2 ≤ c.length ∧
      (tokenLoop c toks ts i prev w).1.text.length
          + 2 * (c.length - (tokenLoop c toks ts i prev w).2)
        ≤ w.text.length + 2 * (c.length - prev) + 3 * brackets ts := by
  induction h with
  | eof =>
    intro prev i w hprev hw
    refine ⟨hw, hprev, ?_⟩
    show w.text.length + 2 * (c.length - prev) ≤ _
    omega
  | skip hs hsrc h ih =>
    intro prev i w hprev hw
    exact ih (by omega) hw
  | @token pos len ts k hlen hle h ih =>
    intro prev i w hprev hw
    unfold tokenLoop
    split
    · refine ⟨hw, by omega, ?_⟩
      show w.text.length + 2 * (c.length - prev) ≤ _
      omega
    · have hout := tokenText_length c toks i (t := ⟨k, pos, len, lineAt c pos, colAt c pos⟩) hlen
      obtain ⟨htight, hend, hbound⟩ := ih (i := i + 1) (le_refl (pos + len))
        ((hw.puts (slice c prev (pos - prev))).puts
          (tokenText c toks i ⟨k, pos, len, lineAt c pos, colAt c pos⟩))
      refine ⟨htight, hend, hbound.trans ?_⟩
      have hgap : (slice c prev (pos - prev)).length ≤ pos - prev := length_take_le _ _
      have hcount : brackets (⟨k, pos, len, lineAt c pos, colAt c pos⟩ :: ts) =
          brackets ts + (if k == .lbracket then 1 else 0) := countP_cons
      rw [Pen.puts_text, Pen.puts_text, length_append, length_append]
      dsimp only at hout
      omega

/-- **`buf` is large enough** exactly when the text fits with its NUL, and so for
all but very many brackets. -/
theorem tokenStep_inside {c : Source} {toks : List Token} (h : TilesFrom c 0 toks) (size : Nat) :
    ((tokenStep c toks).Inside size ↔ (tokenStep c toks).text.length < size) ∧
      (tokenStep c toks).text.length ≤ 2 * c.length + 3 * brackets toks := by
  obtain ⟨htight, hend, hbound⟩ := tokenLoop_length c toks h (i := 0) (le_refl 0) Pen.start_tight
  have hnil : (Pen.start : Pen Char).text.length = 0 := rfl
  refine ⟨(htight.puts (c.drop (tokenLoop c toks toks 0 0 .start).2)).marked, ?_⟩
  show ((tokenLoop c toks toks 0 0 .start).1.puts
    (c.drop (tokenLoop c toks toks 0 0 .start).2)).text.length ≤ _
  rw [Pen.puts_text, length_append, length_drop]
  omega

/-! ## §2. Step 4. -/

theorem walkBack_le (buf : List Char) (es : Nat) : ∀ depth, walkBack buf depth es ≤ es := by
  induction es with
  | zero => exact fun depth => le_refl 0
  | succ es ih =>
    intro depth
    unfold walkBack
    split
    · exact (ih _).trans (Nat.le_succ es)
    · split
      · exact (ih _).trans (Nat.le_succ es)
      · exact le_refl _
    · split
      · exact le_refl _
      · exact (ih _).trans (Nat.le_succ es)
    · exact (ih _).trans (Nat.le_succ es)

theorem exprStart_le (buf : List Char) (p : Nat) : exprStart buf p ≤ p := by
  have hwalk := walkBack_le buf p 0
  have hblank : ((slice buf (walkBack buf 0 p) (p - walkBack buf 0 p)).takeWhile isBlank).length ≤
      p - walkBack buf 0 p := (takeWhile_sublist _).length_le.trans (length_take_le _ _)
  show walkBack buf 0 p + _ ≤ p
  omega

theorem matchHead_iff : matchHead buf p ↔
    buf[p]? = some '|' ∧ buf[p + 1]? = some '{' ∧ isInString buf p = false := by
  simp [matchHead, and_assoc]

/-- A `{` is no head, so a rewrite steps over none. -/
theorem matchHead_succ (h : matchHead buf p) : matchHead buf (p + 1) = false := by
  by_contra hnext
  have hbar := (matchHead_iff.mp (Bool.not_eq_false _ ▸ hnext)).1
  rw [(matchHead_iff.mp h).2.1] at hbar
  cases hbar

/-- The `|{` that are rewritten before `p`. -/
def heads (buf : List Char) (p : Nat) : Nat := (List.range p).countP (matchHead buf)

theorem heads_succ (buf : List Char) (p : Nat) :
    heads buf (p + 1) = heads buf p + if matchHead buf p then 1 else 0 := by
  unfold heads
  rw [range_succ, countP_append, countP_singleton]

/-- No `|{` from `a` up to `b` is rewritten. -/
def NoHead (buf : List Char) (a b : Nat) : Prop :=
  ∀ q, a ≤ q → q < b → matchHead buf q = false

instance (buf : List Char) (a b : Nat) : Decidable (NoHead buf a b) :=
  inferInstanceAs (Decidable (∀ q, a ≤ q → q < b → matchHead buf q = false))

/-- The end of `buf2` at `p`: the plain copy since the last rewrite. -/
inductive Tail (buf : List Char) (p : Nat) : List Char → Prop
  | plain (h : NoHead buf 0 p) : Tail buf p (buf.take p)
  | behind {j : Nat} (pre : List Char) (hj : matchHead buf j = true) (hp : j + 2 ≤ p)
      (h : NoHead buf (j + 2) p) : Tail buf p (pre ++ ' ' :: '{' :: (buf.take p).drop (j + 2))

theorem take_succ_of (h : buf[p]? = some ch) : buf.take (p + 1) = buf.take p ++ [ch] := by
  rw [take_add_one, h]
  rfl

theorem Tail.put {text : List Char} (h : Tail buf p text) (hch : buf[p]? = some ch)
    (hhead : matchHead buf p = false) :
    Tail buf (p + 1) (text ++ [ch]) := by
  have hext : ∀ {a}, NoHead buf a p → NoHead buf a (p + 1) := by
    intro a hno q hq hlt
    rcases Nat.lt_succ_iff_lt_or_eq.mp hlt with hlt | rfl
    · exact hno q hq hlt
    · exact hhead
  have hlen : p < buf.length := (List.getElem?_eq_some_iff.mp hch).1
  cases h with
  | plain hno =>
    rw [← take_succ_of hch]
    exact .plain (hext hno)
  | @behind j pre hj hp hno =>
    have hdrop : (buf.take (p + 1)).drop (j + 2) = (buf.take p).drop (j + 2) ++ [ch] := by
      rw [take_succ_of hch, drop_append_of_le_length]
      rw [length_take]
      omega
    have hnew := Tail.behind pre hj (hp.trans (Nat.le_succ p)) (hext hno)
    rw [hdrop] at hnew
    simpa using hnew

/-- Going back from `p` to `es` goes over the plain copy of `[es,p)` exactly
if nothing there was rewritten. -/
theorem Tail.drop_eq_iff {text : List Char} {es : Nat} (h : Tail buf p text) (hes : es ≤ p)
    (hp : p ≤ buf.length) (hlong : p ≤ text.length) :
    text.drop (text.length - (p - es)) = slice buf es (p - es) ↔ NoHead buf es p := by
  have hslice : slice buf es (p - es) = (buf.take p).drop es := drop_take.symm
  rw [hslice]
  cases h with
  | plain hno =>
    refine ⟨fun _ q _ hlt => hno q (Nat.zero_le q) hlt, fun _ => ?_⟩
    rw [length_take, min_eq_left hp, Nat.sub_sub_self hes]
  | @behind j pre hj hjp hno =>
    have hlast : ((buf.take p).drop (j + 2)).length = p - (j + 2) := by
      rw [length_drop, length_take, min_eq_left hp]
    simp only [length_append, length_cons, hlast] at hlong ⊢
    rcases Nat.lt_or_ge j es with hlt | hle
    · -- nothing rewritten: at most the brace of the last rewrite is gone over
      have hclear : NoHead buf es p := by
        intro q hq hqp
        rcases Nat.eq_or_lt_of_le (show j + 1 ≤ q by omega) with rfl | hq'
        · exact matchHead_succ hj
        · exact hno q hq' hqp
      have hbrace : (buf.take p).drop (j + 1) = '{' :: (buf.take p).drop (j + 2) := by
        have hat : (buf.take p)[j + 1]? = some '{' := by
          rw [getElem?_take_of_lt (by omega)]
          exact (matchHead_iff.mp hj).2.1
        obtain ⟨hbound, hget⟩ := List.getElem?_eq_some_iff.mp hat
        rw [drop_eq_getElem_cons hbound, hget]
      refine ⟨fun _ => hclear, fun _ => ?_⟩
      rw [← hbrace, append_cons, show pre.length + (p - (j + 2) + 1 + 1) - (p - es) =
        (pre ++ [' ']).length + (es - (j + 1)) by rw [length_append, length_singleton]; omega,
        drop_length_add_append, drop_drop, show j + 1 + (es - (j + 1)) = es by omega]
    · -- the rewritten head itself: a blank where the source has a bar
      refine ⟨fun heq => ?_, fun hclear => absurd (hclear j hle (by omega)) (by simp [hj])⟩
      have hat := congrArg (·[j - es]?) heq
      simp only [getElem?_drop] at hat
      rw [show pre.length + (p - (j + 2) + 1 + 1) - (p - es) + (j - es) = pre.length by omega,
        show es + (j - es) = j by omega, getElem?_append_right (le_refl _), Nat.sub_self,
        getElem?_take_of_lt (by omega), (matchHead_iff.mp hj).1] at hat
      exact absurd (Option.some.inj hat) (by decide)

/-- No rewrite goes back over an earlier one. -/
def Apart (buf : List Char) (n : Nat) : Prop :=
  ∀ p < n, matchHead buf p = true → NoHead buf (exprStart buf p) p

instance (buf : List Char) (n : Nat) : Decidable (Apart buf n) :=
  inferInstanceAs (Decidable (∀ p < n, matchHead buf p = true → NoHead buf (exprStart buf p) p))

/-- `buf2` when step 4 stands at `p`. -/
structure Matched (buf : List Char) (p : Nat) (m : Matching) : Prop where
  tight : m.pen.Tight
  length : m.pen.text.length = p + 3 * heads buf p
  tail : Tail buf p m.pen.text
  rewinds : (∀ r ∈ m.rewinds, r.1 = r.2) ↔ Apart buf p

theorem Apart.succ_iff : Apart buf (n + 1) ↔
    (matchHead buf n → NoHead buf (exprStart buf n) n) ∧ Apart buf n := by
  unfold Apart
  rw [Nat.forall_lt_succ_right, and_comm]

theorem Matched.start (buf : List Char) : Matched buf 0 ⟨.start, []⟩ where
  tight := Pen.start_tight
  length := rfl
  tail := .plain fun q _ hlt => absurd hlt (Nat.not_lt_zero q)
  rewinds := ⟨fun _ p hlt => absurd hlt (Nat.not_lt_zero p), fun _ r hr => absurd hr (by simp)⟩

/-- A byte that is copied. -/
theorem Matched.put {m : Matching} (h : Matched buf p m) (hch : buf[p]? = some ch)
    (hhead : matchHead buf p = false) :
    Matched buf (p + 1) { m with pen := m.pen.put ch } where
  tight := h.tight.put ch
  length := by
    rw [Pen.put_text, length_append, h.length, heads_succ, hhead]
    show p + 3 * heads buf p + 1 = p + 1 + 3 * (heads buf p + 0)
    omega
  tail := h.tail.put hch hhead
  rewinds := by
    rw [h.rewinds, Apart.succ_iff, hhead]
    simp

/-- A `|{` that is rewritten. -/
theorem Matched.rewrite {m : Matching} (h : Matched buf p m)
    (hhead : matchHead buf p) : Matched buf (p + 2) (m.rewrite buf p) := by
  have hes := exprStart_le buf p
  have hp : p + 1 < buf.length := (List.getElem?_eq_some_iff.mp (matchHead_iff.mp hhead).2.1).1
  have hlong : p ≤ m.pen.text.length := h.length ▸ Nat.le_add_right _ _
  have hcopy : (slice buf (exprStart buf p) (p - exprStart buf p)).length = p - exprStart buf p := by
    rw [slice, length_take, length_drop]
    omega
  have hadd : ("mt ".toList ++ slice buf (exprStart buf p) (p - exprStart buf p)
      ++ " \x7b".toList).length = p - exprStart buf p + 5 := by
    have hm : "mt ".toList.length = 3 := by decide
    have hb : " \x7b".toList.length = 2 := by decide
    rw [length_append, length_append]
    omega
  have hnone : (buf.take (p + 2)).drop (p + 2) = [] := by
    rw [drop_eq_nil_iff, length_take]
    omega
  refine ⟨h.tight.rewrite (by omega) _ (by omega), ?_, ?_, ?_⟩
  · have hlength := h.length
    rw [heads_succ, heads_succ, hhead, matchHead_succ hhead]
    show ((m.pen.rewind (p - exprStart buf p)).puts _).text.length =
      p + 2 + 3 * (heads buf p + 1 + 0)
    rw [Pen.puts_text, length_append, Pen.rewind_text, length_take]
    omega
  · have htail := Tail.behind ((m.pen.rewind (p - exprStart buf p)).text ++ ("mt ".toList
      ++ slice buf (exprStart buf p) (p - exprStart buf p))) hhead (le_refl (p + 2))
      fun q hq hlt => absurd hlt (by omega)
    simpa [Matching.rewrite] using htail
  · have hback := h.tail.drop_eq_iff hes (by omega) hlong
    rw [Apart.succ_iff, Apart.succ_iff, ← h.rewinds, matchHead_succ hhead]
    simp [Matching.rewrite, hback, hhead]

theorem matchLoop_matched : ∀ {fuel p : Nat} {m : Matching},
    buf.length ≤ p + fuel → p ≤ buf.length → Matched buf p m →
    Matched buf buf.length (matchLoop buf fuel p m) := by
  intro fuel
  induction fuel with
  | zero =>
    intro p m hfuel hp h
    exact (show p = buf.length by omega) ▸ h
  | succ fuel ih =>
    intro p m hfuel hp h
    unfold matchLoop
    split
    · next hend =>
        exact (show p = buf.length from le_antisymm hp (getElem?_eq_none_iff.mp hend)) ▸ h
    · next ch hch =>
        have hlt := (List.getElem?_eq_some_iff.mp hch).1
        split
        · next hhead =>
            have hbrace := (List.getElem?_eq_some_iff.mp (matchHead_iff.mp hhead).2.1).1
            exact ih (by omega) (by omega) (h.rewrite hhead)
        · next hhead => exact ih (by omega) (by omega) (h.put hch (Bool.not_eq_true _ ▸ hhead))

theorem matchStep_matched (buf : List Char) : Matched buf buf.length (matchStep buf) :=
  matchLoop_matched (by omega) (Nat.zero_le _) (Matched.start buf)

/-! ## §3. Step 5. -/

/-- Step 5 at `p`: a fourth more than was read. -/
structure Wrapped (n p : Nat) (w : Pen Char) : Prop where
  aligned : w.Aligned
  inside : w.Inside (n * 2 + 256)
  length : 4 * w.text.length ≤ 5 * p

theorem Wrapped.put (h : Wrapped n p w) (hp : p < n) (ch : Char) :
    Wrapped n (p + 1) (w.put ch) := by
  have hlen := h.length
  refine ⟨h.aligned.put ch, h.inside.put h.aligned ch (by omega), ?_⟩
  rw [Pen.put_text, length_append, length_singleton]
  omega

/-- One `if`: `gap` blanks and the condition, the blanks at its end taken back. -/
theorem Wrapped.wrap (h : Wrapped n p w) {gap : Nat} {cond : List Char} (hgap : 0 < gap)
    (hn : p + 2 + gap + cond.length ≤ n) {k : Nat}
    (hk : k ≤ ((w.puts "if(".toList).puts cond).text.length) :
    Wrapped n (p + 2 + gap + cond.length + 1)
      ((((w.puts "if(".toList).puts cond).rewind k).puts ")\x7b".toList) := by
  have hlen := h.length
  have hopen : "if(".toList.length = 3 := by decide
  have hclose : ")\x7b".toList.length = 2 := by decide
  have htext : ((w.puts "if(".toList).puts cond).text.length = w.text.length + 3 + cond.length := by
    rw [Pen.puts_text, Pen.puts_text, length_append, length_append, hopen]
  have hback : (((w.puts "if(".toList).puts cond).rewind k).text.length =
      w.text.length + 3 + cond.length - k := by
    rw [Pen.rewind_text, length_take]
    omega
  have haligned := (h.aligned.puts "if(".toList).puts cond
  have hinside : ((w.puts "if(".toList).puts cond).Inside (n * 2 + 256) := by
    refine (h.inside.puts h.aligned _ (by omega)).puts (h.aligned.puts _) _ ?_
    rw [Pen.puts_text, length_append]
    omega
  refine ⟨(haligned.rewind hk).puts _, ?_, ?_⟩
  · exact Pen.Inside.puts (w := ((w.puts _).puts cond).rewind k) hinside (haligned.rewind hk) _ (by omega)
  · rw [Pen.puts_text, length_append]
    omega

theorem ifHead_gap (h : ifHead s p) :
    p + 3 < s.length ∧ 0 < ((s.drop (p + 2)).takeWhile (· == ' ')).length := by
  simp only [ifHead, Bool.and_eq_true, decide_eq_true_eq, beq_iff_eq] at h
  obtain ⟨⟨⟨⟨⟨⟨hroom, -⟩, -⟩, hblank⟩, -⟩, -⟩, -⟩ := h
  obtain ⟨hlt, hget⟩ := List.getElem?_eq_some_iff.mp hblank
  refine ⟨hroom, ?_⟩
  rw [drop_eq_getElem_cons hlt, hget]
  exact Nat.succ_pos _

theorem wrapLoop_wrapped : ∀ {fuel p : Nat} {w : Pen Char},
    p ≤ s.length + 1 → Wrapped s.length p w →
    ∃ p' ≤ s.length + 1, Wrapped s.length p' (wrapLoop s fuel p w) := by
  intro fuel
  induction fuel with
  | zero => exact fun hp h => ⟨_, hp, h⟩
  | succ fuel ih =>
    intro p w hp h
    unfold wrapLoop
    split
    · exact ⟨p, hp, h⟩
    · next ch hch =>
        have hlt := (List.getElem?_eq_some_iff.mp hch).1
        split
        · next hhead =>
            obtain ⟨hroom, hgap⟩ := ifHead_gap hhead
            have hblanks := (takeWhile_sublist (· == ' ') (l := s.drop (p + 2))).length_le
            have hcond := (takeWhile_sublist (· != '{') (l := s.drop
              (p + 2 + ((s.drop (p + 2)).takeWhile (· == ' ')).length))).length_le
            rw [length_drop] at hblanks hcond
            refine ih (by omega) (h.wrap hgap (by omega) ?_)
            exact (takeWhile_sublist _).length_le.trans (le_of_eq length_reverse)
        · exact ih (by omega) (h.put hlt ch)

theorem wrapStep_wrapped (s : List Char) : ∃ p ≤ s.length + 1, Wrapped s.length p (wrapStep s) :=
  wrapLoop_wrapped (Nat.zero_le _)
    ⟨rfl, fun i hi => absurd hi (by simp [Pen.start]), le_refl 0⟩

/-! ## §4. Step 6. -/

/-- No `;` is added in front of a `}`. -/
theorem semiAfter_next {i : Nat} (h : semiAfter s i) : s[i + 1]? ≠ some '}' := by
  intro hnext
  obtain ⟨hlt, hget⟩ := List.getElem?_eq_some_iff.mp hnext
  have hblank : (s.drop (i + 1)).takeWhile isSpace = [] := by
    rw [drop_eq_getElem_cons hlt, hget]
    rfl
  simp [semiAfter, hblank, hnext] at h

/-- Step 6 at `i`: a half more than was read, and one `;` just added. -/
structure Closed (s : List Char) (i : Nat) (w : Pen Char) : Prop where
  tight : w.Tight
  length : 2 * w.text.length ≤ 3 * i ∨
    ∃ j, i = j + 1 ∧ semiAfter s j = true ∧ 2 * w.text.length ≤ 3 * i + 1

theorem Closed.turn {i : Nat} (h : Closed s i w)
    (hi : i < s.length) : Closed s (i + 1) (semiTurn s w i) := by
  have hlength := h.length
  unfold semiTurn
  split
  · next hnone => exact absurd hi (Nat.not_lt.mpr (getElem?_eq_none_iff.mp hnone))
  · next ch hch =>
      split
      · next hsemi =>
          obtain ⟨rfl, -, hafter⟩ := hsemi
          refine ⟨(h.tight.put _).put _, .inr ⟨i, rfl, hafter, ?_⟩⟩
          simp only [Pen.put_text, length_append, length_singleton]
          -- the byte before did not get a `;`, since this one is a brace
          rcases hlength with hlength | ⟨j, rfl, hbefore, -⟩
          · omega
          · exact absurd hch (semiAfter_next hbefore)
      · refine ⟨h.tight.put _, .inl ?_⟩
        simp only [Pen.put_text, length_append, length_singleton]
        rcases hlength with hlength | ⟨j, -, -, hlength⟩ <;> omega

theorem postpassSemicolons_closed (s : List Char) : Closed s s.length (postpassSemicolons s) := by
  have hrun : ∀ n ≤ s.length, Closed s n ((range n).foldl (semiTurn s) .start) := by
    intro n
    induction n with
    | zero => exact fun _ => ⟨Pen.start_tight, .inl (le_refl 0)⟩
    | succ n ih =>
      intro hn
      rw [range_succ, foldl_append]
      exact (ih (by omega)).turn hn
  exact hrun s.length (le_refl _)

/-! ## §5. All steps. -/

/-- What each step writes fits its buffer: the text of step 3, the `|{` that step
4 rewrites, and what steps 5 and 6 copy back. -/
structure Roomy (c : Source) (toks : List Token) : Prop where
  buf : (tokenStep c toks).text.length < c.length * 3 + 2048
  buf2 : 3 * heads (tokenStep c toks).text (tokenStep c toks).text.length
    < (tokenStep c toks).text.length + 512
  back5 : (migrateSteps c toks).buf3.text.length < (tokenStep c toks).text.length * 2 + 512
  back6 : (migrateSteps c toks).out.text.length ≤ (tokenStep c toks).text.length * 2 + 512

/-- Few `[` in the source and few `|{` in `buf` leave room in every case. -/
theorem Roomy.of_few {c : Source} {toks : List Token} (htiles : TilesFrom c 0 toks)
    (hfew : 3 * brackets toks ≤ c.length + 2047)
    (hheads : 45 * heads (tokenStep c toks).text (tokenStep c toks).text.length ≤
      (tokenStep c toks).text.length + 4077) : Roomy c toks := by
  obtain ⟨p, hp, hwrap⟩ := wrapStep_wrapped (matchStep (tokenStep c toks).text).pen.text
  have hclosed := postpassSemicolons_closed (wrapStep (matchStep (tokenStep c toks).text).pen.text).text
  have hlength := (tokenStep_inside htiles 0).2
  have hlength2 := (matchStep_matched (tokenStep c toks).text).length
  have hlength3 := hwrap.length
  refine ⟨by omega, by omega, ?_, ?_⟩
  · show (wrapStep _).text.length < _
    omega
  · show (postpassSemicolons _).text.length ≤ _
    rcases hclosed.length with h | ⟨j, -, -, h⟩ <;> omega

/-- Two matches one after the other. -/
def twoMatches : Source := "m=a;b[1]|\x7bx\x7d;c|\x7by\x7d".toList

/-- A match on a match: the second rewrite goes back over the first. -/
def nestedMatches : Source := "m=a;(a|\x7bx\x7d)|\x7by\x7d".toList

end Toke.Migrate
