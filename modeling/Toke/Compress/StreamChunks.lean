/-
  Toke.Compress.StreamChunks — **HOW STREAMING COMPRESSION DEPENDS ON THE CUTS.**

  A text below the buffer size is written call by call, each chunk on its own.
  The MARKS of a text say what is written for it without writing it: characters
  that stay, words that have an abbreviation, runs of white space.  Cutting the
  text is harmless exactly when the chunks have the marks of the whole text.

    `drain_marks`    — a call writes the marks of its chunk
    `written_inj`    — two ways to mark ONE text write the same only if equal
    `streamed_iff`   — the cuts do not show exactly when the marks agree
-/
import Toke.Compress.Stream

namespace Toke.Compress

open List

variable {w s : List Char} {c : Char}

/-! ## §1. Marks. -/

/-- A character that stays, a word with an abbreviation, a run of white space. -/
inductive Mark where
  | plain (c : Char)
  | short (w : List Char)
  | blank (ws : List Char)
  deriving DecidableEq

/-- The text that is marked. -/
def Mark.text : Mark → List Char
  | .plain c => [c]
  | .short w => w
  | .blank ws => ws

/-- What is written for it. -/
def Mark.written : Mark → List Char
  | .plain c => [c]
  | .short w => (abbrForWord w).getD w
  | .blank ws => [collapsed ws]

/-- The text of some marks. -/
def textOf (ms : List Mark) : List Char := ms.flatMap Mark.text

/-- What is written for some marks. -/
def writtenOf (ms : List Mark) : List Char := ms.flatMap Mark.written

theorem textOf_append (ms ns : List Mark) : textOf (ms ++ ns) = textOf ms ++ textOf ns :=
  flatMap_append

theorem writtenOf_append (ms ns : List Mark) : writtenOf (ms ++ ns) = writtenOf ms ++ writtenOf ns :=
  flatMap_append

theorem textOf_plain (s : List Char) : textOf (s.map .plain) = s := by
  induction s with
  | nil => rfl
  | cons c s ih => exact congrArg (c :: ·) ih

theorem writtenOf_plain (s : List Char) : writtenOf (s.map .plain) = s := by
  induction s with
  | nil => rfl
  | cons c s ih => exact congrArg (c :: ·) ih

/-- `they` with a small `y`: the one abbreviation that is also written for the
word in two parts, `~t` and `y`. -/
def isThey (w : List Char) : Bool := lower w = "they".toList && w.getLast? = some 'y'

/-- The marks of a word. -/
def wordMarks (w : List Char) : List Mark :=
  if isThey w then [.short (w.take 3), .plain 'y']
  else if (abbrForWord w).isSome then [.short w]
  else w.map .plain

/-- The marks of the first token, and what is behind it. -/
def markStep (s : List Char) : List Mark × List Char :=
  if isPlaceholderStart s then ((s.take (placeholderLen s)).map .plain, s.drop (placeholderLen s))
  else
    match s with
    | [] => ([], [])
    | c :: rest =>
      if isSpace c then ([.blank (s.takeWhile isSpace)], s.dropWhile isSpace)
      else if isLetter c then (wordMarks (s.takeWhile isAlnum), s.dropWhile isAlnum)
      else ([.plain c], rest)

/-- The text cut mark by mark. -/
def markLoop : Nat → List Char → List Mark
  | 0, _ => []
  | _ + 1, [] => []
  | fuel + 1, s => (markStep s).1 ++ markLoop fuel (markStep s).2

/-- The marks of a text. -/
def marks (s : List Char) : List Mark := markLoop s.length s

/-! ## §2. The marks of a word. -/

theorem abbrForWord_congr {v : List Char}
    (h : lower v = lower w) : abbrForWord v = abbrForWord w := by
  have hlen : v.length = w.length := by rw [← length_lower v, ← length_lower w, h]
  unfold abbrForWord
  rw [h, hlen]

theorem isThey_split (h : isThey w) :
    w = w.take 3 ++ ['y'] ∧ abbrForWord w = some "~ty".toList ∧
      abbrForWord (w.take 3) = some "~t".toList := by
  unfold isThey at h
  rw [Bool.and_eq_true] at h
  have hlower : lower w = "they".toList := of_decide_eq_true h.1
  have hlast : w.getLast? = some 'y' := of_decide_eq_true h.2
  have hlen : w.length = 4 := by
    rw [← length_lower w, hlower]
    rfl
  refine ⟨?_, ?_, ?_⟩
  · obtain ⟨v, hv⟩ := getLast?_eq_some_iff.mp hlast
    have hvlen : v.length = 3 := by
      rw [hv, length_append] at hlen
      exact Nat.succ.inj hlen
    rw [hv, ← hvlen, take_left]
  · rw [abbrForWord_congr (hlower.trans (by decide : "they".toList = lower "they".toList))]
    decide +kernel
  · have hthe : lower (w.take 3) = lower "the".toList := by
      show (w.take 3).map Char.toLower = _
      rw [map_take]
      show (lower w).take 3 = _
      rw [hlower]
      decide
    rw [abbrForWord_congr hthe]
    decide +kernel

theorem textOf_wordMarks (w : List Char) : textOf (wordMarks w) = w := by
  unfold wordMarks
  split
  · next hthey =>
    obtain ⟨hw, -, -⟩ := isThey_split hthey
    exact hw.symm
  · split
    · exact append_nil w
    · exact textOf_plain w

theorem writtenOf_wordMarks (w : List Char) : writtenOf (wordMarks w) = (abbrForWord w).getD w := by
  unfold wordMarks
  split
  · next hthey =>
    obtain ⟨-, habbr, hthe⟩ := isThey_split hthey
    rw [habbr]
    show (abbrForWord (w.take 3)).getD (w.take 3) ++ ['y'] = _
    rw [hthe]
    rfl
  · split
    · exact append_nil _
    · next hnone =>
      have habbr : abbrForWord w = none := by simpa using hnone
      rw [writtenOf_plain, habbr]
      rfl

/-! ## §3. The marks of a text. -/

/-- A mark as `markStep` makes it. -/
def Mark.Sound : Mark → Prop
  | .plain c => isSpace c = false
  | .short w => (∃ a, abbrForWord w = some a) ∧ isThey w = false ∧ ∀ c ∈ w, isSpace c = false
  | .blank ws => ws ≠ [] ∧ ∀ c ∈ ws, isSpace c = true

/-- White space is marked in whole runs. -/
def Merged : List Mark → Prop
  | [] => True
  | .blank _ :: ms => HeadNot isSpace (textOf ms) ∧ Merged ms
  | _ :: ms => Merged ms

variable {ms : List Mark}

theorem merged_plain (s : List Char) (h : Merged ms) : Merged (s.map .plain ++ ms) := by
  induction s with
  | nil => exact h
  | cons c s ih => exact ih

theorem merged_wordMarks (w : List Char) (h : Merged ms) : Merged (wordMarks w ++ ms) := by
  unfold wordMarks
  split
  · exact h
  · split
    · exact h
    · exact merged_plain w h

theorem sound_wordMarks (hw : ∀ c ∈ w, isAlnum c) : ∀ m ∈ wordMarks w, m.Sound := by
  intro m hm
  unfold wordMarks at hm
  split at hm
  · next hthey =>
    obtain ⟨-, -, hthe⟩ := isThey_split hthey
    rcases mem_cons.mp hm with rfl | hm
    · refine ⟨⟨_, hthe⟩, ?_, fun c hc => isSpace_of_isAlnum (hw c (mem_of_mem_take hc))⟩
      -- three letters are not `they`
      have hne : lower (w.take 3) ≠ "they".toList := by
        intro heq
        have hlen := congrArg length heq
        rw [length_lower, length_take] at hlen
        have : min 3 w.length = 4 := hlen
        omega
      unfold isThey
      rw [decide_eq_false hne]
      rfl
    · rw [mem_singleton.mp hm]
      exact (by decide : isSpace 'y' = false)
  · next hthey =>
    split at hm
    · next hsome =>
      rw [mem_singleton.mp hm]
      exact ⟨Option.isSome_iff_exists.mp hsome, by simpa using hthey,
        fun c hc => isSpace_of_isAlnum (hw c hc)⟩
    · obtain ⟨c, hc, rfl⟩ := mem_map.mp hm
      exact isSpace_of_isAlnum (hw c hc)

/-- What one token's marks say about a text `s` that they and `rest` make up. -/
structure Marks (s : List Char) (ms : List Mark) (rest : List Char) : Prop where
  split : s = textOf ms ++ rest
  shorter : rest.length < s.length
  written : feedStep false s = some (writtenOf ms, rest)
  sound : ∀ m ∈ ms, m.Sound
  merged : ∀ ns, textOf ns = rest → Merged ns → Merged (ms ++ ns)

theorem marks_placeholder (h : isPlaceholderStart s) :
    Marks s ((s.take (placeholderLen s)).map .plain) (s.drop (placeholderLen s)) := by
  obtain ⟨rest, hs, -, htake, hdrop⟩ := placeholder_split h
  refine ⟨?_, ?_, ?_, ?_, fun ns _ hns => merged_plain _ hns⟩
  · rw [textOf_plain, take_append_drop]
  · rw [hdrop, hs]
    exact Nat.lt_succ_of_le (dropWhile_suffix isRun).length_le
  · -- the atom is still a placeholder when it stands alone
    have hatom : isPlaceholderStart (s.take (placeholderLen s)) := by
      rw [hs, isPlaceholderStart_dollar] at h
      have hall : ∀ c ∈ lead rest, isRun c := fun c hc => mem_takeWhile_imp hc
      have hself : lead (lead rest) = lead rest := takeWhile_eq_self_iff.mpr hall
      rw [htake, isPlaceholderStart_dollar, hself]
      exact h
    have htoken : emitToken (s.take (placeholderLen s)) = s.take (placeholderLen s) := if_pos hatom
    rw [feedStep_placeholder h, writtenOf_plain, htoken]
  · intro m hm
    obtain ⟨c, hc, rfl⟩ := mem_map.mp hm
    rw [htake] at hc
    rcases mem_cons.mp hc with rfl | hc
    · exact (by decide : isSpace '$' = false)
    · exact isSpace_of_isRun (mem_takeWhile_imp hc)

theorem marks_space (h : isSpace c) (s : List Char) :
    Marks (c :: s) [.blank ((c :: s).takeWhile isSpace)] ((c :: s).dropWhile isSpace) := by
  refine ⟨?_, ?_, ?_, ?_, ?_⟩
  · show c :: s = ((c :: s).takeWhile isSpace ++ []) ++ _
    rw [append_nil, takeWhile_append_dropWhile]
  · rw [dropWhile_cons_of_pos h]
    exact Nat.lt_succ_of_le (dropWhile_suffix isSpace).length_le
  · rw [feedStep_space h]
    rfl
  · intro m hm
    rw [mem_singleton.mp hm]
    refine ⟨?_, fun d hd => mem_takeWhile_imp hd⟩
    rw [takeWhile_cons_of_pos h]
    exact cons_ne_nil _ _
  · intro ns htext hns
    show HeadNot isSpace (textOf ns) ∧ Merged ns
    rw [htext]
    exact ⟨headNot_dropWhile isSpace _, hns⟩

theorem marks_word (h : isLetter c) (s : List Char) :
    Marks (c :: s) (wordMarks ((c :: s).takeWhile isAlnum)) ((c :: s).dropWhile isAlnum) := by
  have halnum : isAlnum c := by
    rw [isAlnum, h]
    rfl
  refine ⟨?_, ?_, ?_, sound_wordMarks fun d hd => mem_takeWhile_imp hd,
    fun ns _ hns => merged_wordMarks _ hns⟩
  · rw [textOf_wordMarks, takeWhile_append_dropWhile]
  · rw [dropWhile_cons_of_pos halnum]
    exact Nat.lt_succ_of_le (dropWhile_suffix isAlnum).length_le
  · have htoken : emitToken ((c :: s).takeWhile isAlnum)
        = (abbrForWord ((c :: s).takeWhile isAlnum)).getD ((c :: s).takeWhile isAlnum) := by
      rw [takeWhile_cons_of_pos halnum]
      unfold emitToken
      rw [isPlaceholderStart_other (ne_dollar_of_isLetter h)]
      exact if_pos h
    rw [feedStep_word h, Bool.and_false, htoken, writtenOf_wordMarks]
    rfl

theorem marks_other (hplace : isPlaceholderStart (c :: s) = false) (hspace : isSpace c = false)
    (hletter : isLetter c = false) :
    Marks (c :: s) [.plain c] s := by
  refine ⟨rfl, Nat.lt_succ_self _, feedStep_other hplace hspace hletter false, ?_,
    fun ns _ hns => hns⟩
  intro m hm
  rw [mem_singleton.mp hm]
  exact hspace

/-- **One token**, whatever it is. -/
theorem markStep_marks (hne : s ≠ []) : Marks s (markStep s).1 (markStep s).2 := by
  unfold markStep
  cases hplace : isPlaceholderStart s with
  | true =>
    exact marks_placeholder hplace
  | false =>
    obtain ⟨c, s, rfl⟩ := exists_cons_of_ne_nil hne
    dsimp only
    cases hspace : isSpace c with
    | true =>
      exact marks_space hspace s
    | false =>
      cases hletter : isLetter c with
      | true =>
        exact marks_word hletter s
      | false =>
        exact marks_other hplace hspace hletter

theorem markLoop_cons {fuel : Nat} (hne : s ≠ []) :
    markLoop (fuel + 1) s = (markStep s).1 ++ markLoop fuel (markStep s).2 := by
  obtain ⟨c, s, rfl⟩ := exists_cons_of_ne_nil hne
  rfl

/-- **The marks of a whole text.**  Induction on the turns: the marks make up
the text, and a buffer that nothing follows is written as they say. -/
theorem markLoop_spec : ∀ (fuel : Nat) {s : List Char}, s.length ≤ fuel →
    textOf (markLoop fuel s) = s ∧ drain false fuel s = (writtenOf (markLoop fuel s), []) ∧
      (∀ m ∈ markLoop fuel s, m.Sound) ∧ Merged (markLoop fuel s)
  | 0, s, h => by
    rw [length_eq_zero_iff.mp (Nat.le_zero.mp h)]
    exact ⟨rfl, rfl, nofun, trivial⟩
  | fuel + 1, s, h => by
    by_cases hne : s = []
    · subst hne
      exact ⟨rfl, rfl, nofun, trivial⟩
    · have hstep := markStep_marks hne
      have hshort := hstep.shorter
      obtain ⟨htext, hdrain, hsound, hmerged⟩ := markLoop_spec fuel (s := (markStep s).2) (by omega)
      rw [markLoop_cons hne]
      refine ⟨?_, ?_, ?_, hstep.merged _ htext hmerged⟩
      · rw [textOf_append, htext, ← hstep.split]
      · rw [drain, hstep.written, writtenOf_append]
        dsimp only
        rw [hdrain]
      · exact forall_mem_append.mpr ⟨hstep.sound, hsound⟩

theorem textOf_marks (s : List Char) : textOf (marks s) = s :=
  (markLoop_spec s.length (Nat.le_refl _)).1

theorem sound_marks (s : List Char) : ∀ m ∈ marks s, m.Sound :=
  (markLoop_spec s.length (Nat.le_refl _)).2.2.1

theorem merged_marks (s : List Char) : Merged (marks s) :=
  (markLoop_spec s.length (Nat.le_refl _)).2.2.2

theorem drain_marks (s : List Char) : drain false s.length s = (writtenOf (marks s), []) :=
  (markLoop_spec s.length (Nat.le_refl _)).2.1

/-! ## §4. What is written shows the marks. -/

/-- The abbreviated words that begin with another one. -/
def nestedWords : List ((List Char × List Char) × List Char × List Char) :=
  [(("the".toList, "~t".toList), "they".toList, "~ty".toList),
   (("the".toList, "~t".toList), "their".toList, "~tr".toList),
   (("the".toList, "~t".toList), "there".toList, "~te".toList),
   (("the".toList, "~t".toList), "therefore".toList, "~tf".toList),
   (("there".toList, "~te".toList), "therefore".toList, "~tf".toList)]

theorem abbrTable_nested : ∀ e ∈ abbrTable, ∀ e' ∈ abbrTable,
    e'.1.take e.1.length = e.1 → e.1.length < e'.1.length → (e, e') ∈ nestedWords := by
  decide +kernel

theorem abbrTable_head : ∀ e ∈ abbrTable, e.1 ≠ [] ∧ e.1.head? ≠ some '~' := by
  decide +kernel

/-- **Of two abbreviated words one of which goes on with `c`**, the shorter one
followed by `c` or by another abbreviation is not written like the longer one,
`they` being the exception. -/
theorem short_extends {v a a' x y : List Char} {d : Char} (ha : abbrForWord w = some a)
    (ha' : abbrForWord (w ++ c :: v) = some a') (hthey : isThey (w ++ c :: v) = false)
    (hd : d = c ∨ d = '~') (h : a ++ d :: x = a' ++ y) : False := by
  have hlower : lower (w ++ c :: v) = lower w ++ c.toLower :: lower v := lower_append w (c :: v)
  have hmem := abbrTable_nested _ (abbrForWord_spec ha) _ (abbrForWord_spec ha')
    (by dsimp only; rw [hlower, take_left])
    (by
      dsimp only
      rw [hlower, length_append, length_cons]
      omega)
  rw [hlower] at hmem
  -- the next letter of the longer word against the next letter of its abbreviation
  have clash : ∀ {p q : Char}, c.toLower = p → d = q → q ≠ '~' → q.toLower = q → p = q := by
    intro p q hp hq hne hlow
    rcases hd with rfl | rfl
    · rw [← hp, hq, hlow]
    · exact absurd hq.symm hne
  simp only [nestedWords, mem_cons, not_mem_nil, or_false, Prod.mk.injEq] at hmem
  rcases hmem with ⟨⟨hw, rfl⟩, hw', rfl⟩ | ⟨⟨hw, rfl⟩, hw', rfl⟩ | ⟨⟨hw, rfl⟩, hw', rfl⟩ |
    ⟨⟨hw, rfl⟩, hw', rfl⟩ | ⟨⟨hw, rfl⟩, hw', rfl⟩
  · -- `the` and `y`: only a small `y` is written alike, and that is `they`
    rw [hw] at hw'
    obtain ⟨hc, hv⟩ : c.toLower = 'y' ∧ lower v = [] := by simpa using hw'
    obtain ⟨hdy, -⟩ : d = 'y' ∧ x = y := by simpa using h
    have hcy : c = 'y' := by
      rcases hd with rfl | rfl
      · exact hdy
      · cases hdy
    have hnil : v = [] := map_eq_nil_iff.mp hv
    have his : isThey (w ++ c :: v) := by
      unfold isThey
      rw [hlower, hw, hnil, hcy, getLast?_concat]
      decide
    rw [his] at hthey
    cases hthey
  · rw [hw] at hw'
    obtain ⟨hc, -⟩ : c.toLower = 'i' ∧ lower v = ['r'] := by simpa using hw'
    obtain ⟨hdr, -⟩ : d = 'r' ∧ x = y := by simpa using h
    exact absurd (clash hc hdr (by decide) (by decide)) (by decide)
  · rw [hw] at hw'
    obtain ⟨hc, -⟩ : c.toLower = 'r' ∧ lower v = ['e'] := by simpa using hw'
    obtain ⟨hde, -⟩ : d = 'e' ∧ x = y := by simpa using h
    exact absurd (clash hc hde (by decide) (by decide)) (by decide)
  · rw [hw] at hw'
    obtain ⟨hc, -⟩ : c.toLower = 'r' ∧ lower v = "efore".toList := by simpa using hw'
    obtain ⟨hdf, -⟩ : d = 'f' ∧ x = y := by simpa using h
    exact absurd (clash hc hdf (by decide) (by decide)) (by decide)
  · simp at h

/-- A marked text starts as its first mark does. -/
theorem textOf_ne_nil {m : Mark} (h : m.Sound) : m.text ≠ [] := by
  cases m with
  | plain c => exact cons_ne_nil _ _
  | blank ws => exact h.1
  | short w =>
    obtain ⟨⟨a, ha⟩, -⟩ := h
    rintro (rfl : w = [])
    have hnone : abbrForWord [] = none := rfl
    cases ha

theorem textOf_cons (m : Mark) (ms : List Mark) : textOf (m :: ms) = m.text ++ textOf ms :=
  flatMap_cons

theorem writtenOf_cons (m : Mark) (ms : List Mark) :
    writtenOf (m :: ms) = m.written ++ writtenOf ms := flatMap_cons

theorem eq_nil_of_textOf (hs : ∀ m ∈ ms, m.Sound) (h : textOf ms = []) : ms = [] := by
  cases ms with
  | nil => rfl
  | cons m ms =>
    exact absurd (append_eq_nil_iff.mp h).1 (textOf_ne_nil (hs m mem_cons_self))

/-- A word with an abbreviation, and how it is written. -/
theorem short_written (h : (Mark.short w).Sound) :
    ∃ c t u, w = c :: t ∧ isSpace c = false ∧ c ≠ '~' ∧ (Mark.short w).written = '~' :: u := by
  obtain ⟨⟨a, ha⟩, -, hspace⟩ := h
  obtain ⟨u, rfl⟩ := abbr_head ha
  obtain ⟨hne, hhead⟩ := abbrTable_head _ (abbrForWord_spec ha)
  cases w with
  | nil => exact absurd rfl hne
  | cons c t =>
    refine ⟨c, t, u, rfl, hspace c mem_cons_self, ?_, ?_⟩
    · rintro rfl
      exact hhead rfl
    · show (abbrForWord (c :: t)).getD (c :: t) = _
      rw [ha]
      rfl

/-- What is written for a text that starts with `c`. -/
theorem writtenOf_head (hs : ∀ m ∈ ms, m.Sound) {t : List Char} (h : textOf ms = c :: t) :
    ∃ d x, writtenOf ms = d :: x ∧ (isSpace c = false → d = c ∨ d = '~') ∧ isSpace d = isSpace c := by
  cases ms with
  | nil => cases h
  | cons m ms =>
    have hm := hs m mem_cons_self
    rw [writtenOf_cons]
    cases m with
    | plain e =>
      obtain ⟨rfl, -⟩ := cons.inj h
      exact ⟨e, writtenOf ms, rfl, fun _ => .inl rfl, rfl⟩
    | short w =>
      obtain ⟨e, t', u, rfl, hspace, -, hwritten⟩ := short_written hm
      obtain ⟨rfl, -⟩ := cons.inj h
      rw [hwritten]
      exact ⟨'~', _, rfl, fun _ => .inr rfl, hspace.symm⟩
    | blank ws =>
      obtain ⟨hne, hall⟩ := hm
      obtain ⟨e, t', rfl⟩ := exists_cons_of_ne_nil hne
      obtain ⟨rfl, -⟩ := cons.inj h
      have hc := hall e mem_cons_self
      refine ⟨collapsed (e :: t'), writtenOf ms, rfl, fun h => ?_, ?_⟩
      · rw [hc] at h
        cases h
      · rw [isSpace_collapsed hne hall, hc]

section Heads

variable {ms ns : List Mark} (hms : ∀ m ∈ ms, m.Sound) (hns : ∀ n ∈ ns, n.Sound)

include hms in
/-- The shorter of two abbreviated words would show. -/
theorem short_not_longer {w v a a' y : List Char} {c : Char} (ha : abbrForWord w = some a)
    (ha' : abbrForWord (w ++ c :: v) = some a') (hsound : (Mark.short (w ++ c :: v)).Sound)
    {t : List Char} (ht : textOf ms = c :: t) (hw : a ++ writtenOf ms = a' ++ y) : False := by
  obtain ⟨-, hthey, hspace⟩ := hsound
  obtain ⟨d, x, hx, hd, -⟩ := writtenOf_head hms ht
  rw [hx] at hw
  have hc : isSpace c = false := hspace c (List.mem_append_right w List.mem_cons_self)
  exact short_extends ha ha' hthey (hd hc) hw

include hms hns

theorem short_eq {w w' : List Char} (hm : (Mark.short w).Sound) (hn : (Mark.short w').Sound)
    (ht : w ++ textOf ms = w' ++ textOf ns)
    (hw : (Mark.short w).written ++ writtenOf ms = (Mark.short w').written ++ writtenOf ns) :
    w = w' := by
  obtain ⟨a, ha⟩ := hm.1
  obtain ⟨a', ha'⟩ := hn.1
  have hwrite : ∀ {v b : List Char}, abbrForWord v = some b → (Mark.short v).written = b := by
    intro v b hb
    show (abbrForWord v).getD v = b
    rw [hb]
    rfl
  rw [hwrite ha, hwrite ha'] at hw
  rcases append_eq_append_iff.mp ht with ⟨u, rfl, htail⟩ | ⟨u, rfl, htail⟩
  · cases u with
    | nil => exact (append_nil w).symm
    | cons c v => exact (short_not_longer hms ha ha' hn htail hw).elim
  · cases u with
    | nil => exact append_nil w'
    | cons c v => exact (short_not_longer hns ha' ha hm htail hw.symm).elim

theorem blank_eq {ws ws' : List Char} (hm : (Mark.blank ws).Sound) (hn : (Mark.blank ws').Sound)
    (hnot : HeadNot isSpace (textOf ms)) (ht : ws ++ textOf ms = ws' ++ textOf ns)
    (hw : writtenOf ms = writtenOf ns) : ws = ws' := by
  rcases append_eq_append_iff.mp ht with ⟨u, rfl, htail⟩ | ⟨u, rfl, htail⟩
  · cases u with
    | nil => exact (append_nil ws).symm
    | cons c v =>
      -- the run would go on behind a whole run
      have hc : isSpace c := hn.2 c (mem_append_right ws mem_cons_self)
      have hno := hnot c (by rw [htail]; rfl)
      rw [hc] at hno
      cases hno
  · cases u with
    | nil => exact append_nil ws'
    | cons c v =>
      -- the cut run writes a second white space where the whole one does not
      have hc : isSpace c := hm.2 c (mem_append_right ws' mem_cons_self)
      obtain ⟨d, x, hx, -, hd⟩ := writtenOf_head hns htail
      rw [hx] at hw
      cases hrest : textOf ms with
      | nil =>
        rw [eq_nil_of_textOf hms hrest] at hw
        cases hw
      | cons c' t =>
        obtain ⟨d', x', hx', -, hd'⟩ := writtenOf_head hms hrest
        have hno := hnot c' (by rw [hrest]; rfl)
        rw [hx'] at hw
        rw [(cons.inj hw).1, hd, hc, hno] at hd'
        cases hd'

end Heads

/-- White space. -/
def Mark.isBlank : Mark → Bool
  | .blank _ => true
  | _ => false

/-- The first character tells white space from the rest. -/
theorem Mark.Sound.head {m : Mark} (h : m.Sound) : ∃ c t, m.text = c :: t ∧ isSpace c = m.isBlank := by
  cases m with
  | plain c => exact ⟨c, [], rfl, h⟩
  | short w =>
    obtain ⟨c, t, u, hw, hspace, -, -⟩ := short_written h
    exact ⟨c, t, hw, hspace⟩
  | blank ws =>
    obtain ⟨c, t, rfl⟩ := exists_cons_of_ne_nil h.1
    exact ⟨c, t, rfl, h.2 c mem_cons_self⟩

/-- A character that stays never stands where an abbreviated word starts. -/
theorem plain_ne_short {x y t z : List Char} (h : (Mark.short w).Sound) (ht : c :: x = w ++ t)
    (hw : c :: y = (Mark.short w).written ++ z) : False := by
  obtain ⟨d, t', u, rfl, -, hne, hwritten⟩ := short_written h
  rw [hwritten] at hw
  obtain ⟨rfl, -⟩ := cons.inj ht
  exact hne (cons.inj hw).1

/-- **Two ways to mark one text are written the same only if they are equal**,
given that one of them marks white space in whole runs. -/
theorem written_inj : ∀ (ms ns : List Mark), (∀ m ∈ ms, m.Sound) → (∀ n ∈ ns, n.Sound) → Merged ms →
    textOf ms = textOf ns → writtenOf ms = writtenOf ns → ms = ns
  | [], ns, _, hn, _, ht, _ => (eq_nil_of_textOf hn ht.symm).symm
  | m :: ms, [], hm, _, _, ht, _ => eq_nil_of_textOf hm ht
  | m :: ms, n :: ns, hm, hn, hmerged, ht, hw => by
    have hm₀ := hm m mem_cons_self
    have hn₀ := hn n mem_cons_self
    have hms : ∀ k ∈ ms, k.Sound := (forall_mem_cons.mp hm).2
    have hns : ∀ k ∈ ns, k.Sound := (forall_mem_cons.mp hn).2
    have htail : Merged ms := by
      cases m with
      | blank ws => exact hmerged.2
      | plain c => exact hmerged
      | short w => exact hmerged
    rw [textOf_cons, textOf_cons] at ht
    have hblank : m.isBlank = n.isBlank := by
      obtain ⟨c, t, hc, hspace⟩ := hm₀.head
      obtain ⟨c', t', hc', hspace'⟩ := hn₀.head
      rw [hc, hc'] at ht
      rw [← hspace, ← hspace', (cons.inj ht).1]
    -- the heads agree, so the tails have one text and are written the same
    have hhead : m = n := by
      cases m with
      | plain c =>
        cases n with
        | plain d => exact congrArg Mark.plain (cons.inj ht).1
        | short w => exact (plain_ne_short hn₀ ht hw).elim
        | blank ws => cases hblank
      | short w =>
        cases n with
        | plain d => exact (plain_ne_short hm₀ ht.symm hw.symm).elim
        | short w' => exact congrArg Mark.short (short_eq hms hns hm₀ hn₀ ht hw)
        | blank ws => cases hblank
      | blank ws =>
        cases n with
        | plain d => cases hblank
        | short w => cases hblank
        | blank ws' =>
          exact congrArg Mark.blank
            (blank_eq hms hns hm₀ hn₀ hmerged.1 ht (cons.inj hw).2)
    subst hhead
    rw [written_inj ms ns hms hns htail (append_cancel_left ht) (append_cancel_left hw)]

/-! ## §5. Whole runs. -/

/-- A chunk that fits the buffer is written at once, and nothing stays pending. -/
theorem compressStreamFeed_fits {ctx : StreamCtx} (hctx : ctx.pending = []) {chunk : List Char}
    (hlen : chunk.length < streamBufSize) :
    ∃ ctx', compressStreamFeed ctx chunk = some ctx' ∧ ctx'.pending = [] ∧
      ctx'.out = ctx.out ++ writtenOf (marks chunk) := by
  by_cases hne : chunk = []
  · subst hne
    exact ⟨ctx, rfl, hctx, (append_nil _).symm⟩
  · have hroom : chunk.length ≤ streamBufSize - 1 - ([] : List Char).length := by
      show chunk.length ≤ streamBufSize - 1 - 0
      omega
    have hloop : ∀ fuel, feedLoop (fuel + 1) [] chunk = some (writtenOf (marks chunk), []) := by
      intro fuel
      rw [feedLoop, if_neg (fun h => hne h.1)]
      dsimp only
      rw [take_of_length_le hroom, drop_of_length_le hroom, nil_append, if_pos rfl,
        decide_eq_false (by simp), drain_marks]
    unfold compressStreamFeed
    rw [if_neg hne, hctx, hloop]
    exact ⟨_, rfl, rfl, rfl⟩

/-- **Call by call.**  Induction on the chunks; nothing is ever pending. -/
theorem foldlM_feed (chunks : List (List Char)) : ∀ {ctx : StreamCtx}, ctx.pending = [] →
    (∀ chunk ∈ chunks, chunk.length < streamBufSize) →
    ∃ ctx', chunks.foldlM compressStreamFeed ctx = some ctx' ∧ ctx'.pending = [] ∧
      ctx'.out = ctx.out ++ writtenOf (chunks.flatMap marks) := by
  induction chunks with
  | nil =>
    intro ctx hctx _
    exact ⟨ctx, rfl, hctx, (append_nil _).symm⟩
  | cons chunk chunks ih =>
    intro ctx hctx hlen
    obtain ⟨ctx₁, hfeed, hpend, hout⟩ := compressStreamFeed_fits hctx (hlen chunk mem_cons_self)
    obtain ⟨ctx₂, hrest, hpend₂, hout₂⟩ := ih hpend (forall_mem_cons.mp hlen).2
    refine ⟨ctx₂, ?_, hpend₂, ?_⟩
    · rw [foldlM_cons, hfeed]
      exact hrest
    · rw [hout₂, hout, flatMap_cons, writtenOf_append, append_assoc]

theorem streamed_eq {chunks : List (List Char)} (hlen : ∀ chunk ∈ chunks, chunk.length < streamBufSize) :
    streamed chunks = some (writtenOf (chunks.flatMap marks)) := by
  obtain ⟨ctx, hrun, hpend, hout⟩ :=
    foldlM_feed chunks (show compressStreamInit.pending = [] from rfl) hlen
  unfold streamed
  rw [hrun]
  show some (ctx.out ++ flushLoop ctx.pending.length ctx.pending) = _
  rw [hpend, hout]
  exact congrArg some (append_nil _)

theorem textOf_flatMap_marks (chunks : List (List Char)) :
    textOf (chunks.flatMap marks) = chunks.flatten := by
  induction chunks with
  | nil => rfl
  | cons chunk chunks ih => rw [flatMap_cons, textOf_append, textOf_marks, ih, flatten_cons]

theorem sound_flatMap_marks (chunks : List (List Char)) : ∀ m ∈ chunks.flatMap marks, m.Sound := by
  intro m hm
  obtain ⟨chunk, -, hchunk⟩ := mem_flatMap.mp hm
  exact sound_marks chunk m hchunk

/-- **The cuts do not show exactly when the chunks have the marks of the whole
text**: no run of white space is cut, and cutting neither breaks up nor creates
a word with an abbreviation. -/
theorem streamed_iff (chunks : List (List Char)) (hlen : chunks.flatten.length < streamBufSize) :
    ∃ cutOut wholeOut, streamed chunks = some cutOut ∧ streamed [chunks.flatten] = some wholeOut ∧
      (cutOut = wholeOut ↔ chunks.flatMap marks = marks chunks.flatten) := by
  have hchunks : ∀ chunk ∈ chunks, chunk.length < streamBufSize := by
    intro chunk hmem
    have hle : chunk.length ≤ chunks.flatten.length := (sublist_flatten_of_mem hmem).length_le
    omega
  have hwhole : streamed [chunks.flatten] = some (writtenOf (marks chunks.flatten)) := by
    have h := @streamed_eq [chunks.flatten] (fun c hc => by rw [mem_singleton.mp hc]; exact hlen)
    rwa [flatMap_singleton] at h
  refine ⟨_, _, streamed_eq hchunks, hwhole, fun h => ?_, fun h => congrArg writtenOf h⟩
  refine (written_inj _ _ (sound_marks _) (sound_flatMap_marks chunks) (merged_marks _) ?_ h.symm).symm
  rw [textOf_marks, textOf_flatMap_marks]

/-- A cut inside a word that has no abbreviation is harmless. -/
theorem streamed_harmless_cut :
    ["ca", "t the"].flatMap (fun s => marks s.toList) = marks "cat the".toList ∧
      ∃ cutOut wholeOut, streamed ["ca".toList, "t the".toList] = some cutOut ∧
        streamed [["ca".toList, "t the".toList].flatten] = some wholeOut ∧ cutOut = wholeOut := by
  refine ⟨by decide +kernel, ?_⟩
  obtain ⟨cutOut, wholeOut, hcut, hwhole, hiff⟩ := streamed_iff ["ca".toList, "t the".toList] (by decide)
  exact ⟨cutOut, wholeOut, hcut, hwhole, hiff.mpr (by decide +kernel)⟩

/-- A word cut in two is not abbreviated. -/
theorem streamed_broken_word : streamed ["th".toList, "e".toList] = some "the".toList ∧
      streamed ["the".toList] = some "~t".toList := by decide +kernel

end Toke.Compress
