/-
  Toke.Codegen.StrLit — **STRING LITERALS IN CODE GENERATION** (`llvm.c`).

    `splitSegments`     `emit_expr`, `NODE_STR_LIT`: a literal cut into
                        literal slices and interpolated expressions
    `emitStrGlobal`     the LLVM constant for a literal without them

  The splitter writes slices into a table of `MAX_SEGS` entries and drops
  what does not fit; `splitSegments_rebuilds_iff` is the exact bound.  The
  constant is written by two scans, one for the declared length and one for
  the text, and `emitStrGlobal_exact` says that LLVM reads the literal's
  bytes from it.
-/
import Toke.Lexer.Read

namespace Toke.Codegen

open List

variable {c : Char} {i fuel d : Nat} {s r e lit : List Char}

/-! ## §1. The splitter. -/

/-- `Seg`: a slice of the literal. -/
structure Seg where
  start : Nat
  stop : Nat
  isExpr : Bool
  deriving Repr, DecidableEq

/-- `MAX_SEGS`. -/
def maxSegs : Nat := 128

/-- `segs`, `nsegs` and `last`. -/
structure Split where
  segs : List Seg
  last : Nat
  deriving Repr, DecidableEq

/-- `if (nsegs < MAX_SEGS) …` -/
def Split.push (s : Split) (g : Seg) : Split :=
  if s.segs.length < maxSegs then { s with segs := s.segs ++ [g] } else s

/-- The byte at an index. -/
def byteAt (raw : List Char) (i : Nat) : Char := raw.getD i '\x00'

/-- The inner `while`: the index of the `)` that closes an interpolation, or an
index from `contentEnd` on. -/
def closeAt (raw : List Char) (contentEnd : Nat) : Nat → Nat → Nat → Nat
  | 0, j, _ => j
  | fuel + 1, j, depth =>
    if j < contentEnd ∧ 0 < depth then
      let ch := byteAt raw j
      if ch = '\\' ∧ j + 1 < contentEnd then closeAt raw contentEnd fuel (j + 2) depth
      else if ch = '(' then closeAt raw contentEnd fuel (j + 1) (depth + 1)
      else if ch = ')' then
        if depth = 1 then j else closeAt raw contentEnd fuel (j + 1) (depth - 1)
      else closeAt raw contentEnd fuel (j + 1) depth
    else j

/-- The outer `for`. -/
def splitLoop (raw : List Char) (contentEnd : Nat) : Nat → Nat → Split → Split
  | 0, _, s => s
  | fuel + 1, i, s =>
    if i < contentEnd then
      if byteAt raw i = '\\' ∧ i + 1 < contentEnd ∧ byteAt raw (i + 1) = '(' then
        let s := s.push ⟨s.last, i, false⟩
        let j := closeAt raw contentEnd raw.length (i + 2) 1
        -- malformed: bail out
        if contentEnd ≤ j then s
        else splitLoop raw contentEnd fuel (j + 1)
          { s.push ⟨i + 2, j, true⟩ with last := j + 1 }
      else if byteAt raw i = '\\' then splitLoop raw contentEnd fuel (i + 2) s
      else splitLoop raw contentEnd fuel (i + 1) s
    else s

/-- The tail after the loop. -/
def Split.finish (contentEnd : Nat) (s : Split) : List Seg :=
  if s.last < contentEnd then (s.push ⟨s.last, contentEnd, false⟩).segs else s.segs

/-- The segments of a literal with its quotes. -/
def splitSegments (raw : List Char) : List Seg :=
  (splitLoop raw (raw.length - 1) (raw.length - 1) 1 ⟨[], 1⟩).finish (raw.length - 1)

/-! ## §2. What the segments stand for. -/

/-- A slice of the text, and whether it is an expression. -/
abbrev Part := Bool × List Char

/-- The text of a segment. -/
def Seg.part (raw : List Char) (g : Seg) : Part := (g.isExpr, (raw.take g.stop).drop g.start)

/-- A literal slice is itself, an expression gets `\(` and `)` back. -/
def Part.text (p : Part) : List Char := if p.1 then '\\' :: '(' :: (p.2 ++ [')']) else p.2

/-- The parts put together. -/
def joined (ps : List Part) : List Char := ps.flatMap Part.text

/-- The segments reproduce what stands between the quotes. -/
def Rebuilds (content : List Char) : Prop :=
  let raw := '"' :: (content ++ ['"'])
  joined ((splitSegments raw).map (Seg.part raw)) = content

instance (content : List Char) : Decidable (Rebuilds content) := by
  unfold Rebuilds
  infer_instance

/-! ## §3. The parts of a content, apart from the table. -/

/-- The expression up to the `)` that closes it, `d` levels up, and the text
after that. -/
def closing : Nat → List Char → Option (List Char × List Char)
  | _, [] => none
  | d, c :: r =>
    if c = '\\' then
      match r with
      | [] => none
      | x :: r => (closing d r).map fun er => (c :: x :: er.1, er.2)
    else if c = '(' then (closing (d + 1) r).map fun er => (c :: er.1, er.2)
    else if c = ')' then
      match d with
      | 0 => some ([], r)
      | d + 1 => (closing d r).map fun er => (c :: er.1, er.2)
    else (closing d r).map fun er => (c :: er.1, er.2)

/-- What follows the last closed interpolation. -/
inductive Rest where
  | tail (lit : List Char)
  /-- A literal and `\(` that is not closed before the end. -/
  | unclosed (lit after : List Char)
  deriving Repr, DecidableEq

/-- A content as literals with the interpolation behind each, and the rest. -/
structure Template where
  pairs : List (List Char × List Char)
  rest : Rest
  deriving Repr, DecidableEq

/-- Read a content; `lit` is the literal read so far. -/
def readTemplate : Nat → List Char → List Char → Template
  | 0, lit, s => ⟨[], .tail (lit ++ s)⟩
  | _ + 1, lit, [] => ⟨[], .tail lit⟩
  | fuel + 1, lit, c :: r =>
    if c = '\\' then
      match r with
      | [] => ⟨[], .tail (lit ++ [c])⟩
      | x :: r =>
        if x = '(' then
          match closing 0 r with
          | none => ⟨[], .unclosed lit r⟩
          | some (e, r) =>
            let t := readTemplate fuel [] r
            ⟨(lit, e) :: t.pairs, t.rest⟩
        else readTemplate fuel (lit ++ [c, x]) r
    else readTemplate fuel (lit ++ [c]) r

/-- A literal as a template. -/
def template (content : List Char) : Template := readTemplate (content.length + 1) [] content

namespace Rest

/-- The segments the rest is cut into. -/
def parts : Rest → List Part
  | tail lit => if lit = [] then [] else [(false, lit)]
  | unclosed lit after => [(false, lit), (false, lit ++ '\\' :: '(' :: after)]

/-- Its text. -/
def text : Rest → List Char
  | tail lit => lit
  | unclosed lit after => lit ++ '\\' :: '(' :: after

/-- What an unclosed interpolation has before it. -/
def gap : Rest → List Char
  | tail _ => []
  | unclosed lit _ => lit

end Rest

namespace Template

/-- The parts of the pairs. -/
def pairParts (t : Template) : List Part := t.pairs.flatMap fun p => [(false, p.1), (true, p.2)]

/-- All segments, were the table large enough. -/
def parts (t : Template) : List Part := t.pairParts ++ t.rest.parts

end Template

/-! ## §4. The scan finds the template. -/

theorem closing_backslash (d : Nat) : closing d ['\\'] = none := by
  unfold closing
  simp

theorem closing_open (d : Nat) (r : List Char) :
    closing d ('(' :: r) = (closing (d + 1) r).map fun er => ('(' :: er.1, er.2) := by
  conv_lhs => unfold closing
  simp

theorem closing_close (r : List Char) : closing 0 (')' :: r) = some ([], r) := by
  unfold closing
  simp

theorem closing_inner (d : Nat) (r : List Char) :
    closing (d + 1) (')' :: r) = (closing d r).map fun er => (')' :: er.1, er.2) := by
  conv_lhs => unfold closing
  simp

theorem closing_plain (d : Nat) (h : c ≠ '\\' ∧ c ≠ '(' ∧ c ≠ ')') (r : List Char) :
    closing d (c :: r) = (closing d r).map fun er => (c :: er.1, er.2) := by
  conv_lhs => unfold closing
  simp [h]

section Scan

variable {raw : List Char} {n : Nat}

theorem byteAt_of_drop (h : (raw.take n).drop i = c :: s) :
    i < n ∧ byteAt raw i = c ∧ (raw.take n).drop (i + 1) = s := by
  have hlen := congrArg length h
  simp only [length_drop, length_take, length_cons] at hlen
  have hi : i < n := by omega
  refine ⟨hi, ?_, ?_⟩
  · have hget := congrArg head? h
    rw [head?_drop, getElem?_take_of_lt hi] at hget
    simp [byteAt, hget]
  · rw [← tail_drop, h]
    rfl

theorem le_of_drop_nil (hn : n ≤ raw.length) (h : (raw.take n).drop i = []) : n ≤ i := by
  have hlen := congrArg length h
  simp only [length_drop, length_take, length_nil] at hlen
  omega

/-- What the inner loop has to find from `s` on, at index `j`. -/
def FindsClose (n j stop : Nat) (s : List Char) : Option (List Char × List Char) → Prop
  | none => n ≤ stop
  | some (e, r) => stop = j + e.length ∧ s = e ++ ')' :: r

/-- One more byte, or two, in front of what is found. -/
theorem FindsClose.cons {j stop : Nat} {o : Option (List Char × List Char)}
    (front : List Char) (h : FindsClose n (j + front.length) stop s o) :
    FindsClose n j stop (front ++ s) (o.map fun er => (front ++ er.1, er.2)) := by
  cases o with
  | none => exact h
  | some er =>
    obtain ⟨hstop, hs⟩ := h
    refine ⟨?_, ?_⟩
    · rw [length_append]
      omega
    · rw [hs, append_assoc]

/-- The inner loop stops at the closing parenthesis. -/
theorem closeAt_finds (hn : n ≤ raw.length) {j : Nat}
    (hs : (raw.take n).drop j = s) (hf : s.length < fuel) :
    FindsClose n j (closeAt raw n fuel j (d + 1)) s (closing d s) := by
  induction fuel generalizing d j s with
  | zero => exact absurd hf (by omega)
  | succ fuel ih =>
    cases s with
    | nil =>
      have hj : n ≤ j := le_of_drop_nil hn hs
      rw [closeAt, if_neg (by omega)]
      exact hj
    | cons c r =>
      obtain ⟨hj, hc, hr⟩ := byteAt_of_drop hs
      rw [length_cons] at hf
      rw [closeAt, if_pos ⟨hj, by omega⟩]
      simp only [hc]
      by_cases hesc : c = '\\'
      · subst hesc
        cases r with
        | nil =>
          -- the backslash is the last byte
          have hend : n ≤ j + 1 := le_of_drop_nil hn hr
          rw [closing_backslash, if_neg (by omega)]
          have hfound := ih (d := d) hr (by simpa using hf)
          rwa [closing] at hfound
        | cons x r =>
          obtain ⟨hj', -, hr'⟩ := byteAt_of_drop hr
          rw [if_pos ⟨rfl, hj'⟩]
          exact FindsClose.cons ['\\', x] (ih hr' (by simp at hf; omega))
      by_cases hopen : c = '('
      · subst hopen
        rw [closing_open]
        exact FindsClose.cons ['('] (ih hr (by omega))
      by_cases hclose : c = ')'
      · subst hclose
        cases d with
        | zero =>
          rw [closing_close]
          exact ⟨rfl, rfl⟩
        | succ d =>
          rw [closing_inner]
          exact FindsClose.cons [')'] (ih hr (by omega))
      rw [closing_plain d ⟨hesc, hopen, hclose⟩, if_neg (by simp [hesc]), if_neg hopen,
        if_neg hclose]
      exact FindsClose.cons [c] (ih hr (by omega))

/-- A slice of the text, from what follows its start. -/
theorem slice_of_drop {a : Nat} {x y : List Char} (h : (raw.take n).drop a = x ++ y) :
    (raw.take (a + x.length)).drop a = x := by
  have hlen := congrArg length h
  simp only [length_drop, length_take, length_append] at hlen
  have htake : (raw.drop a).take (n - a) = x ++ y := by rw [← drop_take, h]
  have hx : ((raw.drop a).take (n - a)).take x.length = x := by rw [htake, take_left]
  rw [take_take, Nat.min_eq_left (by omega)] at hx
  rw [drop_take, Nat.add_sub_cancel_left, hx]

end Scan

/-! ## §5. The table. -/

/-- The parts in the table. -/
def Split.parts (raw : List Char) (s : Split) : List Part := s.segs.map (Seg.part raw)

theorem Split.parts_push (raw : List Char) (s : Split) (g : Seg) (h : s.segs.length ≤ maxSegs) :
    (s.push g).parts raw = (s.parts raw ++ [g.part raw]).take maxSegs ∧
      (s.push g).segs.length ≤ maxSegs := by
  unfold Split.push Split.parts
  split
  · next hlt =>
      refine ⟨?_, by simpa using hlt⟩
      rw [take_of_length_le (by simpa using hlt), map_append]
      rfl
  · next hge =>
      have hlen : s.segs.length = maxSegs := by omega
      refine ⟨?_, h⟩
      rw [← hlen, ← length_map (Seg.part raw), take_left]

@[simp] theorem Split.push_last (s : Split) (g : Seg) : (s.push g).last = s.last := by
  unfold Split.push
  split <;> rfl

theorem readTemplate_escape (fuel : Nat) (lit : List Char) {x : Char} (hx : x ≠ '(')
    (r : List Char) : readTemplate (fuel + 1) lit ('\\' :: x :: r) =
      readTemplate fuel (lit ++ ['\\', x]) r := by
  conv_lhs => unfold readTemplate
  simp [hx]

theorem readTemplate_plain (fuel : Nat) (lit : List Char) (hc : c ≠ '\\')
    (r : List Char) : readTemplate (fuel + 1) lit (c :: r) = readTemplate fuel (lit ++ [c]) r := by
  conv_lhs => unfold readTemplate
  simp [hc]

theorem readTemplate_unclosed (fuel : Nat) (lit : List Char) (h : closing 0 r = none) :
    readTemplate (fuel + 1) lit ('\\' :: '(' :: r) = ⟨[], .unclosed lit r⟩ := by
  unfold readTemplate
  simp [h]

theorem readTemplate_closed (fuel : Nat) (lit : List Char) {r' : List Char}
    (h : closing 0 r = some (e, r')) :
    readTemplate (fuel + 1) lit ('\\' :: '(' :: r) =
      ⟨(lit, e) :: (readTemplate fuel [] r').pairs, (readTemplate fuel [] r').rest⟩ := by
  conv_lhs => unfold readTemplate
  simp [h]

theorem splitLoop_end {raw : List Char} {n : Nat} (h : n ≤ i) (fuel : Nat) (st : Split) :
    splitLoop raw n fuel i st = st := by
  cases fuel with
  | zero => rfl
  | succ fuel => rw [splitLoop, if_neg (by omega)]

section Table

variable {raw : List Char} {n : Nat} {st : Split}

/-- The tail goes into the table if there is one. -/
theorem finish_tail (hn : n ≤ raw.length)
    (hlast : (raw.take n).drop st.last = lit) (hlen : st.segs.length ≤ maxSegs) :
    (st.finish n).map (Seg.part raw) = (st.parts raw ++ (Rest.tail lit).parts).take maxSegs := by
  have hlength := congrArg length hlast
  simp only [length_drop, length_take] at hlength
  rw [Split.finish, Rest.parts]
  by_cases hlit : lit = []
  · have hstop : ¬ st.last < n := by
      rw [hlit, length_nil] at hlength
      omega
    rw [if_neg hstop, if_pos hlit, append_nil,
      take_of_length_le (by simpa [Split.parts] using hlen)]
    rfl
  · have hstop : st.last < n := by
      have hpos := length_pos_iff.mpr hlit
      omega
    rw [if_pos hstop, if_neg hlit]
    refine (st.parts_push raw _ hlen).1.trans ?_
    simp only [Seg.part, hlast]

/-- Bailing out leaves the literal in the table twice. -/
theorem finish_unclosed (hlast : (raw.take n).drop st.last = lit ++ '\\' :: '(' :: r)
    (hlen : st.segs.length ≤ maxSegs) :
    ((st.push ⟨st.last, st.last + lit.length, false⟩).finish n).map (Seg.part raw) =
      (st.parts raw ++ (Rest.unclosed lit r).parts).take maxSegs := by
  have hlength := congrArg length hlast
  simp only [length_drop, length_take, length_append, length_cons] at hlength
  obtain ⟨hparts, hle⟩ := st.parts_push raw ⟨st.last, st.last + lit.length, false⟩ hlen
  rw [Split.finish, Split.push_last, if_pos (by omega)]
  refine (Split.parts_push raw _ _ hle).1.trans ?_
  rw [hparts, Items.take_take_append, append_assoc]
  simp only [Seg.part, slice_of_drop hlast, hlast]
  rfl

/-- A closed interpolation takes two entries. -/
theorem parts_closed (hlast : (raw.take n).drop st.last = lit ++ ('\\' :: '(' :: (e ++ ')' :: r)))
    (hlen : st.segs.length ≤ maxSegs) (hi : i = st.last + lit.length) :
    ((st.push ⟨st.last, i, false⟩).push ⟨i + 2, i + 2 + e.length, true⟩).parts raw =
        (st.parts raw ++ [(false, lit), (true, e)]).take maxSegs ∧
      ((st.push ⟨st.last, i, false⟩).push ⟨i + 2, i + 2 + e.length, true⟩).segs.length ≤ maxSegs := by
  obtain ⟨hparts, hle⟩ := st.parts_push raw ⟨st.last, i, false⟩ hlen
  obtain ⟨hparts', hle'⟩ :=
    Split.parts_push raw (st.push ⟨st.last, i, false⟩) ⟨i + 2, i + 2 + e.length, true⟩ hle
  refine ⟨?_, hle'⟩
  have hexpr : (raw.take n).drop (i + 2) = e ++ ')' :: r := by
    have h : (raw.take n).drop st.last = (lit ++ ['\\', '(']) ++ (e ++ ')' :: r) := by
      rw [hlast, append_assoc]
      rfl
    have hdrop := Items.drop_of_append h
    rwa [length_append, ← Nat.add_assoc, ← hi] at hdrop
  rw [hparts', hparts, Items.take_take_append, append_assoc]
  simp only [Seg.part, slice_of_drop hexpr]
  rw [hi, slice_of_drop hlast]
  rfl

/-- After the loop the table holds the first parts of the template. -/
theorem finish_parts (hn : n + 1 = raw.length) (hs : (raw.take n).drop i = s) (hf : s.length < fuel)
    (hlast : (raw.take n).drop st.last = lit ++ s) (hi : i = st.last + lit.length)
    (hlen : st.segs.length ≤ maxSegs) :
    ((splitLoop raw n fuel i st).finish n).map (Seg.part raw) =
      (st.parts raw ++ (readTemplate fuel lit s).parts).take maxSegs := by
  induction fuel generalizing i st lit s with
  | zero => exact absurd hf (by omega)
  | succ fuel ih =>
    have hle : n ≤ raw.length := by omega
    cases s with
    | nil =>
      rw [splitLoop_end (le_of_drop_nil hle hs)]
      exact finish_tail hle (by rw [hlast, append_nil]) hlen
    | cons c r =>
      obtain ⟨hin, hc, hr⟩ := byteAt_of_drop hs
      rw [length_cons] at hf
      rw [splitLoop, if_pos hin, hc]
      by_cases hesc : c = '\\'
      · subst hesc
        cases r with
        | nil =>
          -- the backslash is the last byte
          have hend : n ≤ i + 1 := le_of_drop_nil hle hr
          rw [if_neg (by omega), splitLoop_end (by omega)]
          exact finish_tail hle hlast hlen
        | cons x r =>
          obtain ⟨hin', hx, hr'⟩ := byteAt_of_drop hr
          rw [hx]
          by_cases hopen : x = '('
          · subst hopen
            rw [if_pos ⟨rfl, hin', rfl⟩]
            have hlength := congrArg length hr'
            simp only [length_drop, length_take] at hlength
            have hfound : FindsClose n (i + 2) (closeAt raw n raw.length (i + 2) 1) r
                (closing 0 r) := closeAt_finds hle hr' (by omega)
            generalize closeAt raw n raw.length (i + 2) 1 = j at hfound ⊢
            cases hclosing : closing 0 r with
            | none =>
              rw [hclosing] at hfound
              have hstop : n ≤ j := hfound
              rw [readTemplate_unclosed fuel lit hclosing]
              simp only [if_pos hstop]
              rw [hi]
              exact finish_unclosed hlast hlen
            | some er =>
              obtain ⟨e, r'⟩ := er
              rw [hclosing] at hfound
              obtain ⟨rfl, rfl⟩ := hfound
              obtain ⟨hparts, hle'⟩ := parts_closed hlast hlen hi
              have hnext : (raw.take n).drop (i + 2 + e.length + 1) = r' :=
                (byteAt_of_drop (Items.drop_of_append hr')).2.2
              have hin'' := (byteAt_of_drop (Items.drop_of_append hr')).1
              rw [readTemplate_closed fuel lit hclosing]
              simp only [if_neg (show ¬ n ≤ i + 2 + e.length by omega)]
              refine (@ih _ _ [] ⟨_, i + 2 + e.length + 1⟩ hnext ?_ hnext rfl hle').trans ?_
              · simp only [length_cons, length_append] at hf
                omega
              · change (Split.parts raw ((st.push _).push _) ++ _).take maxSegs = _
                rw [hparts, Items.take_take_append, append_assoc]
                rfl
          · rw [readTemplate_escape fuel lit hopen, if_neg (by simp [hopen])]
            apply ih hr' (by simp at hf; omega) _ _ hlen
            · rw [hlast, append_assoc]
              rfl
            · rw [hi, length_append]
              rfl
      · rw [readTemplate_plain fuel lit hesc, if_neg (by simp [hesc]), if_neg hesc]
        apply ih hr (by omega) _ _ hlen
        · rw [hlast, append_assoc]
          rfl
        · rw [hi, length_append]
          rfl

end Table

/-! ## §6. When the table is large enough. -/

theorem closing_text (h : closing d s = some (e, r)) :
    s = e ++ ')' :: r := by
  have hfound : FindsClose s.length 0 (closeAt s s.length (s.length + 1) 0 (d + 1)) s (closing d s) :=
    closeAt_finds le_rfl (by simp) (Nat.lt_succ_self _)
  rw [h] at hfound
  exact hfound.2

@[simp] theorem joined_nil : joined [] = [] := rfl

@[simp] theorem joined_append (ps qs : List Part) : joined (ps ++ qs) = joined ps ++ joined qs :=
  flatMap_append

@[simp] theorem joined_lit (l : List Char) (ps : List Part) :
    joined ((false, l) :: ps) = l ++ joined ps := rfl

@[simp] theorem joined_expr (e : List Char) (ps : List Part) :
    joined ((true, e) :: ps) = '\\' :: '(' :: (e ++ ')' :: joined ps) := by simp [joined, Part.text]

/-- The template reads the whole text. -/
theorem readTemplate_text (fuel : Nat) (lit s : List Char) :
    joined (readTemplate fuel lit s).pairParts ++ (readTemplate fuel lit s).rest.text = lit ++ s := by
  induction fuel generalizing lit s with
  | zero => rfl
  | succ fuel ih =>
    cases s with
    | nil =>
      rw [append_nil]
      rfl
    | cons c r =>
      by_cases hesc : c = '\\'
      · subst hesc
        cases r with
        | nil =>
          rfl
        | cons x r =>
          by_cases hopen : x = '('
          · subst hopen
            cases hclosing : closing 0 r with
            | none =>
              rw [readTemplate_unclosed fuel lit hclosing]
              rfl
            | some er =>
              have htext := closing_text hclosing
              rw [readTemplate_closed fuel lit hclosing]
              change joined ((false, lit) :: (true, er.1) :: (readTemplate fuel [] er.2).pairParts)
                ++ (readTemplate fuel [] er.2).rest.text = _
              rw [joined_lit, htext]
              simp [ih [] er.2]
          · rw [readTemplate_escape fuel lit hopen, ih, append_assoc]
            rfl
      · rw [readTemplate_plain fuel lit hesc, ih, append_assoc]
        rfl

/-- The table holds the first `maxSegs` parts. -/
theorem splitSegments_parts (content : List Char) :
    (splitSegments ('"' :: (content ++ ['"']))).map (Seg.part ('"' :: (content ++ ['"']))) =
      (template content).parts.take maxSegs := by
  have hcontent : (('"' :: (content ++ ['"'])).take (content.length + 1)).drop 1 = content := by
    simp
  have hparts := @finish_parts 1 (content.length + 1) content [] ('"' :: (content ++ ['"']))
    (content.length + 1) ⟨[], 1⟩ (by simp) hcontent (Nat.lt_succ_self _) hcontent rfl (by decide)
  simpa [splitSegments, Split.parts, template] using hparts

/-- A literal with `n` closed interpolations takes `2 n` entries, and one more
for a tail. -/
def Template.WithinTable (t : Template) : Prop :=
  2 * t.pairs.length + t.rest.parts.length ≤ maxSegs ∧ t.rest.gap = []

instance (t : Template) : Decidable t.WithinTable := by
  unfold Template.WithinTable
  infer_instance

theorem Template.length_pairParts (t : Template) : t.pairParts.length = 2 * t.pairs.length := by
  simp [pairParts, Nat.mul_comm]

/-- Entries of the table that are missing are missing bytes: every second one is
an expression. -/
theorem joined_drop_pairs {ps : List (List Char × List Char)} {k : Nat} (h : k < 2 * ps.length) :
    joined ((ps.flatMap fun p => [(false, p.1), (true, p.2)]).drop k) ≠ [] := by
  induction ps generalizing k with
  | nil => simp at h
  | cons p ps ih =>
    match k with
    | 0 => simp
    | 1 => simp
    | k + 2 =>
      rw [length_cons] at h
      exact ih (by omega)

/-- What the table leaves out. -/
theorem joined_take_add_drop (k : Nat) (ps : List Part) :
    joined (ps.take k) ++ joined (ps.drop k) = joined ps := by
  rw [← joined_append, take_append_drop]

theorem rebuilds_tail_iff (t : Template) (ht : t.rest = .tail lit) :
    joined (t.parts.take maxSegs) = joined t.pairParts ++ lit ↔
      t.pairParts.length + (Rest.tail lit).parts.length ≤ maxSegs := by
  have hparts : t.parts = t.pairParts ++ (Rest.tail lit).parts := by rw [Template.parts, ht]
  have hjoined : joined t.parts = joined t.pairParts ++ lit := by
    rw [hparts, joined_append, Rest.parts]
    split
    · next hlit => rw [hlit]; rfl
    · simp
  have hsplit := joined_take_add_drop maxSegs t.parts
  rw [hjoined] at hsplit
  constructor
  · intro h
    -- nothing is left out, so no entry is
    have hdrop : joined (t.parts.drop maxSegs) = [] := by
      rw [← append_cancel_left_eq (joined (t.parts.take maxSegs)), hsplit, h, append_nil]
    by_contra hmore
    rw [hparts, drop_append, joined_append, append_eq_nil_iff] at hdrop
    by_cases hpairs : maxSegs < t.pairParts.length
    · rw [Template.length_pairParts] at hpairs
      exact joined_drop_pairs hpairs hdrop.1
    · by_cases hlit : lit = []
      · rw [Rest.parts, if_pos hlit, length_nil] at hmore
        omega
      · rw [Rest.parts, if_neg hlit, length_singleton] at hmore
        have hzero : maxSegs - t.pairParts.length = 0 := by omega
        have htail := hdrop.2
        rw [hzero, Rest.parts, if_neg hlit] at htail
        exact hlit (by simpa using htail)
  · intro h
    rw [take_of_length_le (by rw [hparts, length_append]; exact h), hjoined]

theorem rebuilds_unclosed_iff (t : Template) {after : List Char}
    (ht : t.rest = .unclosed lit after) :
    joined (t.parts.take maxSegs) = joined t.pairParts ++ (lit ++ '\\' :: '(' :: after) ↔
      t.pairParts.length + 2 ≤ maxSegs ∧ lit = [] := by
  have hparts : t.parts = t.pairParts ++ [(false, lit), (false, lit ++ '\\' :: '(' :: after)] := by
    rw [Template.parts, ht]
    rfl
  have heven := t.length_pairParts
  by_cases hlen : t.pairParts.length + 2 ≤ maxSegs
  · rw [take_of_length_le (by rw [hparts, length_append]; exact hlen), hparts,
      joined_append]
    simp [hlen]
  · -- an even number of entries fills the table before the literal is reached
    have hfull : maxSegs ≤ t.pairParts.length := by
      unfold maxSegs at hlen ⊢
      omega
    rw [hparts, take_append_of_le_length hfull]
    refine iff_of_false (fun h => ?_) (fun h => hlen h.1)
    have hlength := congrArg length h
    have hpre := congrArg length (joined_take_add_drop maxSegs t.pairParts)
    simp only [length_append, length_cons] at hlength hpre
    omega

/-- **The segments are the literal**, unless there are too many for the table. -/
theorem splitSegments_rebuilds_iff (content : List Char) :
    Rebuilds content ↔ (template content).WithinTable := by
  have htext := readTemplate_text (content.length + 1) [] content
  change joined (template content).pairParts ++ (template content).rest.text = [] ++ content at htext
  unfold Rebuilds Template.WithinTable
  simp only [splitSegments_parts]
  rw [← Template.length_pairParts]
  generalize template content = t at htext ⊢
  subst htext
  cases ht : t.rest with
  | tail lit =>
    refine (rebuilds_tail_iff t ht).trans ?_
    simp [Rest.gap]
  | unclosed lit after => exact rebuilds_unclosed_iff t ht

/-- Sixty-five interpolations, all of them closed: the last one is lost. -/
theorem splitSegments_drops_segment :
    (∀ p ∈ List.replicate 65 (StrPiece.interp ['a']), p.ok = true) ∧
      ¬ Rebuilds (bodyText (List.replicate 65 (StrPiece.interp ['a']))) := by decide +kernel

/-! ## §7. The constant for a literal. -/

/-- `tk_hexval`, with `none` for `-1`. -/
def tkHexval (ch : Char) : Option Nat :=
  if '0' ≤ ch ∧ ch ≤ '9' then some (ch.toNat - '0'.toNat)
  else if 'a' ≤ ch ∧ ch ≤ 'f' then some (ch.toNat - 'a'.toNat + 10)
  else if 'A' ≤ ch ∧ ch ≤ 'F' then some (ch.toNat - 'A'.toNat + 10)
  else none

/-- How far the length scan steps beyond a backslash. -/
def escapeSkip : List Char → Nat
  | 'x' :: a :: b :: _ => if (tkHexval a).isSome ∧ (tkHexval b).isSome then 3 else 0
  | nx :: _ =>
    if nx = 'n' ∨ nx = 't' ∨ nx = 'r' ∨ nx = '\\' ∨ nx = '"' ∨ nx = '0' then 1 else 0
  | [] => 0

/-- The length scan: `byte_count`. -/
def byteCount : Nat → List Char → Nat
  | 0, _ => 0
  | _ + 1, [] => 0
  | fuel + 1, ch :: r => byteCount fuel (if ch = '\\' then r.drop (escapeSkip r) else r) + 1

/-- A digit of `%02X`. -/
def upperHex (d : Nat) : Char := "0123456789ABCDEF".toList.getD d '0'

/-- `"\\%02X"` of a byte. -/
def hexEscape (b : Nat) : List Char := ['\\', upperHex (b / 16), upperHex (b % 16)]

/-- The text for an escape, and how far it goes beyond the backslash. -/
def emitEscape : List Char → Option (List Char × Nat)
  | 'n' :: _ => some ("\\0A".toList, 1)
  | 't' :: _ => some ("\\09".toList, 1)
  | 'r' :: _ => some ("\\0D".toList, 1)
  | '\\' :: _ => some ("\\5C".toList, 1)
  | '"' :: _ => some ("\\22".toList, 1)
  | '0' :: _ => some ("\\00".toList, 1)
  | 'x' :: a :: b :: _ =>
    match tkHexval a, tkHexval b with
    | some hi, some lo => some (hexEscape ((hi <<< 4) ||| lo), 3)
    | _, _ => none
  | _ => none

/-- The text for any other byte. -/
def emitByte (ch : Char) : List Char :=
  if 32 ≤ ch.toNat ∧ ch.toNat < 127 ∧ ch ≠ '"' ∧ ch ≠ '\\' then [ch] else hexEscape ch.toNat

/-- The text scan. -/
def emitText : Nat → List Char → List Char
  | 0, _ => []
  | _ + 1, [] => []
  | fuel + 1, ch :: r =>
    match if ch = '\\' then emitEscape r else none with
    | some (text, skip) => text ++ emitText fuel (r.drop skip)
    | none => emitByte ch ++ emitText fuel r

/-- `@.str.N = private unnamed_addr constant [len x i8] c` and the quote. -/
def strHeader (modName : List Char) (idx len : Nat) : List Char :=
  "@.str.".toList ++ modName ++ Nat.toDigits 10 idx ++
    " = private unnamed_addr constant [".toList ++ Nat.toDigits 10 len ++ " x i8] c\"".toList

/-- `emit_str_global`: what is appended to the buffer, and `out_alen`. -/
def emitStrGlobal (modName : List Char) (idx : Nat) (raw : List Char) : List Char × Nat :=
  let inner := (raw.drop 1).take (raw.length - 2)
  let count := byteCount inner.length inner
  (strHeader modName idx (count + 1) ++ emitText inner.length inner ++ "\\00\"\n".toList, count + 1)

/-- The scan of `emit_expr` for `\(`, over what stands between the quotes. -/
def hasInterp : List Char → Bool
  | [] => false
  | ch :: r =>
    if ch = '\\' then
      match r with
      | [] => false
      | nx :: r => if nx = '(' then true else hasInterp r
    else hasInterp r

/-! ## §8. How LLVM reads it. -/

/-- The bytes of a `c"…"` constant from behind its first quote, and what
follows the closing one.  A backslash stands before two hex digits or another
backslash. -/
def readConstant : List Char → Option (List Nat × List Char)
  | [] => none
  | ch :: r =>
    if ch = '"' then some ([], r)
    else if ch = '\\' then
      match r with
      | a :: b :: r =>
        match tkHexval a, tkHexval b with
        | some hi, some lo => (readConstant r).map fun br => ((16 * hi + lo) :: br.1, br.2)
        | _, _ =>
          if a = '\\' then (readConstant (b :: r)).map fun br => (ch.toNat :: br.1, br.2)
          else none
      | _ => none
    else (readConstant r).map fun br => (ch.toNat :: br.1, br.2)

/-- The byte a piece stands for. -/
def pieceBytes : StrPiece → List Nat
  | .plain c => [c.toNat]
  | .escape 'n' => [10]
  | .escape 't' => [9]
  | .escape 'r' => [13]
  | .escape '0' => [0]
  | .escape c => [c.toNat]
  | .hex a b => [16 * (tkHexval a).getD 0 + (tkHexval b).getD 0]
  | .interp _ => []

/-- The constant declares `len` bytes, and LLVM reads as many: `bytes`. -/
def ConstantIs (modName : List Char) (idx : Nat) (bytes : List Nat) (text : List Char) (len : Nat) :
    Prop :=
  ∃ quoted, text = strHeader modName idx len ++ quoted ∧
    readConstant quoted = some (bytes, ['\n']) ∧ bytes.length = len

theorem isSome_tkHexval (h : isHex c) : ∃ v, tkHexval c = some v ∧ v < 16 := by
  unfold isHex isDigit at h
  unfold tkHexval
  simp only [Bool.or_eq_true, Bool.and_eq_true, decide_eq_true_eq] at h
  split
  · next hc =>
      have hle : c.toNat ≤ 57 := hc.2
      exact ⟨_, rfl, by simp; omega⟩
  · next hdigit =>
      split
      · next hc =>
          have hle : c.toNat ≤ 102 := hc.2
          exact ⟨_, rfl, by simp; omega⟩
      · next hlower =>
          have hupper : 'A' ≤ c ∧ c ≤ 'F' := by tauto
          have hle : c.toNat ≤ 70 := hupper.2
          rw [if_pos hupper]
          exact ⟨_, rfl, by simp; omega⟩

theorem tkHexval_upperHex (h : d < 16) : tkHexval (upperHex d) = some d := by
  have hall : ∀ d < 16, tkHexval (upperHex d) = some d := by decide +kernel
  exact hall d h

@[simp] theorem readConstant_hexEscape {b : Nat} (h : b < 256) (s : List Char) :
    readConstant (hexEscape b ++ s) = (readConstant s).map fun br => (b :: br.1, br.2) := by
  change readConstant ('\\' :: upperHex (b / 16) :: upperHex (b % 16) :: s) = _
  conv_lhs => unfold readConstant
  simp [tkHexval_upperHex (show b / 16 < 16 by omega), tkHexval_upperHex (Nat.mod_lt b (by omega)),
    Nat.div_add_mod]

theorem readConstant_emitByte (h : c.toNat < 256) (s : List Char) :
    readConstant (emitByte c ++ s) = (readConstant s).map fun br => (c.toNat :: br.1, br.2) := by
  unfold emitByte
  split
  · next hc =>
      rw [singleton_append]
      conv_lhs => unfold readConstant
      rw [if_neg hc.2.2.1, if_neg hc.2.2.2]
  · exact readConstant_hexEscape h s

/-- Both scans take a piece in one turn, and LLVM reads its byte back. -/
theorem piece_turn {p : StrPiece} (hok : p.ok) (hp : ∀ b, p ≠ .interp b)
    (hbytes : ∀ c ∈ p.text, c.toNat < 256) (fuel : Nat) (s : List Char) :
    ∃ t b, pieceBytes p = [b] ∧ emitText (fuel + 1) (p.text ++ s) = t ++ emitText fuel s ∧
      byteCount (fuel + 1) (p.text ++ s) = byteCount fuel s + 1 ∧
      ∀ s', readConstant (t ++ s') = (readConstant s').map fun br => (b :: br.1, br.2) := by
  cases p with
  | plain c =>
    simp only [StrPiece.ok, Bool.and_eq_true, bne_iff_ne] at hok
    refine ⟨emitByte c, c.toNat, rfl, ?_, ?_, ?_⟩
    · simp [StrPiece.text, emitText, hok.2]
    · simp [StrPiece.text, byteCount, hok.2]
    · exact readConstant_emitByte (hbytes c (by simp [StrPiece.text]))
  | escape c =>
    simp only [StrPiece.ok, isSimpleEscape, Bool.or_eq_true, beq_iff_eq] at hok
    rcases hok with ((((rfl | rfl) | rfl) | rfl) | rfl) | rfl
    · exact ⟨_, 34, rfl, rfl, rfl, readConstant_hexEscape (b := 34) (by decide)⟩
    · exact ⟨_, 92, rfl, rfl, rfl, readConstant_hexEscape (b := 92) (by decide)⟩
    · exact ⟨_, 10, rfl, rfl, rfl, readConstant_hexEscape (b := 10) (by decide)⟩
    · exact ⟨_, 9, rfl, rfl, rfl, readConstant_hexEscape (b := 9) (by decide)⟩
    · exact ⟨_, 13, rfl, rfl, rfl, readConstant_hexEscape (b := 13) (by decide)⟩
    · exact ⟨_, 0, rfl, rfl, rfl, readConstant_hexEscape (b := 0) (by decide)⟩
  | hex a b =>
    simp only [StrPiece.ok, Bool.and_eq_true] at hok
    obtain ⟨hi, hhi, hlt⟩ := isSome_tkHexval hok.1
    obtain ⟨lo, hlo, hlt'⟩ := isSome_tkHexval hok.2
    have hor : hi <<< 4 ||| lo = 16 * hi + lo := by
      rw [← Nat.shiftLeft_add_eq_or_of_lt (by omega)]
      omega
    refine ⟨hexEscape (16 * hi + lo), 16 * hi + lo, ?_, ?_, ?_, ?_⟩
    · simp [pieceBytes, hhi, hlo]
    · simp [StrPiece.text, emitText, emitEscape, hhi, hlo, hor]
    · simp [StrPiece.text, byteCount, escapeSkip, hhi, hlo]
    · exact readConstant_hexEscape (by omega)
  | interp b => exact absurd rfl (hp b)

/-- The two scans over all pieces. -/
theorem pieces_scan {ps : List StrPiece} (hok : ∀ p ∈ ps, p.ok)
    (hps : ∀ p ∈ ps, ∀ b, p ≠ .interp b) (hbytes : ∀ c ∈ bodyText ps, c.toNat < 256)
    (hf : ps.length ≤ fuel) :
    byteCount fuel (bodyText ps) = ps.length ∧ (ps.flatMap pieceBytes).length = ps.length ∧
      ∀ s, readConstant (emitText fuel (bodyText ps) ++ s) =
        (readConstant s).map fun br => (ps.flatMap pieceBytes ++ br.1, br.2) := by
  induction ps generalizing fuel with
  | nil => cases fuel <;> simp [byteCount, emitText]
  | cons p ps ih =>
    obtain ⟨fuel, rfl⟩ : ∃ f, fuel = f + 1 := ⟨fuel - 1, by simp at hf; omega⟩
    rw [bodyText_cons] at hbytes ⊢
    obtain ⟨t, b, hb, htext, hcount, hread⟩ := piece_turn (hok p mem_cons_self)
      (hps p mem_cons_self) (fun c hc => hbytes c (mem_append_left _ hc)) fuel (bodyText ps)
    have hle : ps.length ≤ fuel := by simpa using hf
    obtain ⟨hcount', hlen, hread'⟩ := ih (forall_mem_cons.mp hok).2
      (forall_mem_cons.mp hps).2
      (fun c hc => hbytes c (mem_append_right _ hc)) hle
    refine ⟨?_, ?_, ?_⟩
    · rw [hcount, hcount', length_cons]
    · simp [hb, hlen]
    · intro s
      rw [htext, append_assoc, hread, hread', flatMap_cons, hb]
      simp [Function.comp_def]

theorem hasInterp_plain (h : c ≠ '\\') (s : List Char) :
    hasInterp (c :: s) = hasInterp s := by
  conv_lhs => unfold hasInterp
  simp [h]

theorem hasInterp_escape (h : c ≠ '(') (s : List Char) :
    hasInterp ('\\' :: c :: s) = hasInterp s := by
  conv_lhs => unfold hasInterp
  simp [h]

theorem ne_backslash_of_isHex (h : isHex c) : c ≠ '\\' := by
  rintro rfl
  cases h

/-- The scan steps over every piece but an interpolation. -/
theorem hasInterp_piece {p : StrPiece} (hok : p.ok) (s : List Char) :
    hasInterp (p.text ++ s) = false ↔ (∀ b, p ≠ .interp b) ∧ hasInterp s = false := by
  cases p with
  | plain c =>
    simp only [StrPiece.ok, Bool.and_eq_true, bne_iff_ne] at hok
    simp [StrPiece.text, hasInterp_plain hok.2]
  | escape c =>
    have hc : c ≠ '(' := by
      rintro rfl
      cases hok
    simp [StrPiece.text, hasInterp_escape hc]
  | hex a b =>
    simp only [StrPiece.ok, Bool.and_eq_true] at hok
    simp [StrPiece.text, hasInterp_escape, hasInterp_plain (ne_backslash_of_isHex hok.1),
      hasInterp_plain (ne_backslash_of_isHex hok.2)]
  | interp b =>
    have hfound : hasInterp ((StrPiece.interp b).text ++ s) := by
      change hasInterp ('\\' :: '(' :: (b ++ [')'] ++ s))
      unfold hasInterp
      simp
    simp [hfound]

/-- A literal for which the scan finds no `\(` has no interpolation. -/
theorem no_interp_of_hasInterp {ps : List StrPiece} (hok : ∀ p ∈ ps, p.ok)
    (h : hasInterp (bodyText ps) = false) : ∀ p ∈ ps, ∀ b, p ≠ .interp b := by
  induction ps with
  | nil => simp
  | cons p ps ih =>
    rw [bodyText_cons, hasInterp_piece (hok p mem_cons_self)] at h
    exact forall_mem_cons.mpr ⟨h.1, ih (fun r hr => hok r (mem_cons_of_mem p hr)) h.2⟩

/-- **The constant of a string literal holds its bytes**: a literal the lexer
accepts is written so that LLVM reads the bytes of its pieces and a NUL, with
the length that the constant announces. -/
theorem emitStrGlobal_exact (modName : List Char) (idx : Nat) {cap : Nat} {l l' : Lexer}
    {t : List Char} (hl : l.rest = '"' :: t) (hbytes : ∀ c ∈ l.rest, c.toNat < 256)
    (hread : lexString cap l.pos l.line l.col l.advance = (l', true)) :
    ∃ ps r, (∀ p ∈ ps, StrPiece.ok p = true) ∧ l.rest = strText ps ++ r ∧
      l' = l.reads .strLit (strText ps) ∧
      (hasInterp (bodyText ps) = false → ConstantIs modName idx (ps.flatMap pieceBytes ++ [0])
          (emitStrGlobal modName idx (strText ps)).1 (emitStrGlobal modName idx (strText ps)).2) := by
  obtain ⟨ps, r, hok, hrest, hout⟩ := lexString_strText hl hread
  refine ⟨ps, r, hok, hrest, hout, fun hno => ?_⟩
  have hbody : ∀ c ∈ bodyText ps, c.toNat < 256 := by
    intro c hc
    apply hbytes
    rw [hrest]
    simp [strText, hc]
  have hinner : ((strText ps).drop 1).take ((strText ps).length - 2) = bodyText ps := by
    simp [strText]
  obtain ⟨hcount, hlen, hscan⟩ := pieces_scan hok (no_interp_of_hasInterp hok hno) hbody
    (length_le_bodyText ps)
  unfold ConstantIs emitStrGlobal
  simp only [hinner, hcount]
  refine ⟨emitText (bodyText ps).length (bodyText ps) ++ "\\00\"\n".toList, ?_, ?_, ?_⟩
  · rw [append_assoc]
  · rw [hscan]
    rfl
  · rw [length_append, hlen]
    rfl

/-- The literal `"a\n"` with a byte after it. -/
theorem emitStrGlobal_newline :
    ∃ ps r, (∀ p ∈ ps, StrPiece.ok p = true) ∧ "\"a\\n\";".toList = strText ps ++ r ∧
      bodyText ps = "a\\n".toList ∧ ConstantIs [] 0 (ps.flatMap pieceBytes ++ [0])
        (emitStrGlobal [] 0 (strText ps)).1 (emitStrGlobal [] 0 (strText ps)).2 := by
  obtain ⟨ps, r, hok, hrest, hreads, hconst⟩ := @emitStrGlobal_exact [] 0 1
    ⟨"\"a\\n\";".toList, 0, 1, 1, [], 0, []⟩
    ((⟨"\"a\\n\";".toList, 0, 1, 1, [], 0, []⟩ : Lexer).reads .strLit "\"a\\n\"".toList)
    "a\\n\";".toList rfl (by simp) (by decide +kernel)
  have hlen : (strText ps).length = 5 := by
    have htokens := congrArg (fun l => l.out.map Token.len) hreads
    simpa [Lexer.reads, Lexer.push] using htokens.symm
  have hbody : bodyText ps = "a\\n".toList := by
    have htext : strText ps = "\"a\\n\"".toList := by
      rw [← @take_left _ (strText ps) r, ← hrest, hlen]
      rfl
    exact append_cancel_right (cons.inj htext).2
  exact ⟨ps, r, hok, hrest, hbody, hconst (by rw [hbody]; decide)⟩

end Toke.Codegen
