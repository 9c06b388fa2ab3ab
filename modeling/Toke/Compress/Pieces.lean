/-
  Toke.Compress.Pieces — **HOW A TEXT IS CUT.**

  `compress_text` cuts a text into pieces and writes something for each of
  them; both can be said apart (`compressLoop_eq`).  The pieces are as long as
  they can be, and together they are the text with its white space collapsed
  (`cut_wellCut`, `text_cut`).
-/
import Toke.Compress.Text
import Mathlib.Data.List.TakeWhile

namespace Toke.Compress

open List

variable {c : Char} {s : List Char}

/-! ## §1. Placeholders as runs. -/

/-- The characters at the head of a text that a dollar before it would take. -/
def lead (s : List Char) : List Char := s.takeWhile isRun

/-- A run that makes a placeholder. -/
def validRun : List Char → Bool
  | [] => false
  | c :: body => isUpper c && body.getLast?.any isDigit

/-- The next character, if there is one, is not of the class. -/
def HeadNot (p : Char → Bool) (s : List Char) : Prop := ∀ c ∈ s.head?, p c = false

theorem headNot_nil (p : Char → Bool) : HeadNot p [] := by simp [HeadNot]

theorem isRun_of_isUpper (h : isUpper c) : isRun c := by
  simp [isRun, h]

theorem lead_cons_run (h : isRun c) (s : List Char) : lead (c :: s) = c :: lead s :=
  takeWhile_cons_of_pos h

theorem lead_cons_not (h : isRun c = false) (s : List Char) : lead (c :: s) = [] :=
  takeWhile_cons_of_neg (by rw [h]; decide)

theorem lead_append {r : List Char} (hr : ∀ c ∈ r, isRun c) (s : List Char) :
    lead (r ++ s) = r ++ lead s := takeWhile_append_of_pos hr

theorem lead_append_not {w : List Char} (hw : ¬ ∀ c ∈ w, isRun c) (s : List Char) :
    lead (w ++ s) = lead w := by
  induction w with
  | nil => exact absurd (by simp) hw
  | cons c w ih =>
    rw [cons_append]
    cases hc : isRun c with
    | false => rw [lead_cons_not hc, lead_cons_not hc]
    | true =>
      rw [lead_cons_run hc, lead_cons_run hc, ih]
      exact fun h => hw fun d hd => (mem_cons.mp hd).elim (fun he => he ▸ hc) (h d)

theorem lead_of_headNot (h : HeadNot isRun s) : lead s = [] := by
  cases s with
  | nil => rfl
  | cons c s => exact lead_cons_not (h c rfl) s

theorem isPlaceholderStart_dollar (s : List Char) : isPlaceholderStart ('$' :: s) = validRun (lead s) := by
  cases s with
  | nil => rfl
  | cons c s =>
    show (isUpper c && (s.takeWhile isRun).getLast?.any isDigit) = _
    cases hc : isRun c with
    | true =>
      rw [lead_cons_run hc]
      rfl
    | false =>
      have hupper : isUpper c = false := by
        cases hu : isUpper c with
        | false => rfl
        | true => rw [isRun_of_isUpper hu] at hc; cases hc
      rw [lead_cons_not hc, hupper]
      rfl

theorem isPlaceholderStart_other (h : c ≠ '$') (s : List Char) :
    isPlaceholderStart (c :: s) = false := by
  unfold isPlaceholderStart
  split
  · next heq => exact absurd (cons.inj heq).1 h
  · rfl

/-- A placeholder is a dollar and its run. -/
theorem placeholder_split (h : isPlaceholderStart s) :
    ∃ rest, s = '$' :: rest ∧ validRun (lead rest) ∧
      s.take (placeholderLen s) = '$' :: lead rest ∧ s.drop (placeholderLen s) = rest.dropWhile isRun := by
  cases s with
  | nil => cases h
  | cons c rest =>
    by_cases hc : c = '$'
    · subst hc
      rw [isPlaceholderStart_dollar] at h
      have hlen : placeholderLen ('$' :: rest) = (lead rest).length + 1 := Nat.add_comm _ _
      have hsplit : rest = lead rest ++ rest.dropWhile isRun := takeWhile_append_dropWhile.symm
      have htake : rest.take (lead rest).length = lead rest := by
        have hleft := @take_left _ (lead rest) (rest.dropWhile isRun)
        rwa [← hsplit] at hleft
      have hdrop : rest.drop (lead rest).length = rest.dropWhile isRun := by
        have hleft := @drop_left _ (lead rest) (rest.dropWhile isRun)
        rwa [← hsplit] at hleft
      refine ⟨rest, rfl, h, ?_, ?_⟩
      · rw [hlen, take_succ_cons, htake]
      · rw [hlen, drop_succ_cons, hdrop]
    · rw [isPlaceholderStart_other hc] at h
      cases h

theorem headNot_dropWhile (p : Char → Bool) (s : List Char) : HeadNot p (s.dropWhile p) := by
  intro c hc
  cases hp : p c with
  | false => rfl
  | true =>
    have := head?_dropWhile_not p s
    rw [Option.mem_def.mp hc] at this
    simp [hp] at this

/-! ## §2. White space. -/

/-- The text with its white space collapsed, `ws` being the white space before it. -/
def collapseFrom : Option Char → List Char → List Char
  | none, [] => []
  | some ws, [] => [ws]
  | none, c :: rest => if isSpace c then collapseFrom (some c) rest else c :: collapseFrom none rest
  | some ws, c :: rest =>
    if isSpace c then collapseFrom (some (if c = '\n' then '\n' else ws)) rest
    else ws :: c :: collapseFrom none rest

/-- Every run of white space becomes its first character, or a newline when it
holds one. -/
def collapse (s : List Char) : List Char := collapseFrom none s

theorem collapse_cons (h : isSpace c = false) (s : List Char) :
    collapse (c :: s) = c :: collapse s := by
  unfold collapse
  rw [collapseFrom, h]
  rfl

theorem collapseFrom_some (s : List Char) (ws : Char) : collapseFrom (some ws) s =
      (if '\n' ∈ s.takeWhile isSpace then '\n' else ws) :: collapse (s.dropWhile isSpace) := by
  induction s generalizing ws with
  | nil => rfl
  | cons c s ih =>
    cases hc : isSpace c with
    | false =>
      rw [collapseFrom, hc, takeWhile_cons_of_neg (by rw [hc]; decide),
        dropWhile_cons_of_neg (by rw [hc]; decide), collapse_cons hc]
      rfl
    | true =>
      rw [collapseFrom, hc, ih, takeWhile_cons_of_pos hc, dropWhile_cons_of_pos hc]
      by_cases hnl : c = '\n'
      · simp [hnl]
      · simp [hnl, Ne.symm hnl]

theorem collapse_space (h : isSpace c) (s : List Char) : collapse (c :: s) =
      collapsed ((c :: s).takeWhile isSpace) :: collapse ((c :: s).dropWhile isSpace) := by
  have hfrom : collapse (c :: s) = collapseFrom (some c) s := by
    unfold collapse
    rw [collapseFrom, h]
    rfl
  rw [hfrom, collapseFrom_some, takeWhile_cons_of_pos h, dropWhile_cons_of_pos h]
  unfold collapsed
  by_cases hnl : c = '\n'
  · simp [hnl]
  · simp [Ne.symm hnl]

theorem length_collapse (s : List Char) : (collapse s).length ≤ s.length := by
  have hfrom : ∀ ws, (collapseFrom (some ws) s).length ≤ s.length + 1 ∧ (collapse s).length ≤ s.length := by
    induction s with
    | nil => exact fun ws => ⟨Nat.le_refl _, Nat.le_refl _⟩
    | cons c s ih =>
      intro ws
      unfold collapse at ih ⊢
      rw [collapseFrom, collapseFrom]
      split
      · exact ⟨Nat.le_succ_of_le (ih _).1, (ih c).1⟩
      · have := (ih ws).2
        simp only [length_cons]
        omega
  exact (hfrom ' ').2

theorem isSpace_collapsed {ws : List Char} (hne : ws ≠ []) (h : ∀ c ∈ ws, isSpace c) :
    isSpace (collapsed ws) := by
  unfold collapsed
  split
  · decide
  · obtain ⟨c, ws, rfl⟩ := exists_cons_of_ne_nil hne
    exact h c mem_cons_self

/-- Collapsing changes no first character but white space. -/
theorem headNot_collapse {p : Char → Bool} (h : HeadNot p s)
    (hp : (∀ c, isSpace c → p c = false) ∨ HeadNot isSpace s) : HeadNot p (collapse s) := by
  cases s with
  | nil => exact headNot_nil p
  | cons c s =>
    cases hc : isSpace c with
    | false =>
      rw [collapse_cons hc]
      exact h
    | true =>
      rw [collapse_space hc]
      rintro d hd
      cases hd
      rcases hp with hp | hp
      · exact hp _ (isSpace_collapsed (by rw [takeWhile_cons_of_pos hc]; exact cons_ne_nil _ _)
          fun d hd => mem_takeWhile_imp hd)
      · rw [hp c rfl] at hc
        cases hc

/-- White space lies below every letter, digit and underscore. -/
theorem isSpace_toNat (h : isSpace c) : c.toNat ≤ 32 := by
  simp only [isSpace, Bool.or_eq_true, Bool.and_eq_true, decide_eq_true_eq] at h
  rcases h with rfl | h
  · decide
  · have hle : c.toNat ≤ 13 := h.2
    omega

theorem isAlnum_toNat (h : isAlnum c) : 48 ≤ c.toNat := by
  simp only [isAlnum, isLetter, isDigit, Bool.or_eq_true, Bool.and_eq_true, decide_eq_true_eq] at h
  rcases h with (h | h) | h
  · have hle : 97 ≤ c.toNat := h.1
    omega
  · have hle : 65 ≤ c.toNat := h.1
    omega
  · exact h.1

theorem isRun_toNat (h : isRun c) : 48 ≤ c.toNat := by
  simp only [isRun, isUpper, isDigit, Bool.or_eq_true, Bool.and_eq_true, decide_eq_true_eq] at h
  rcases h with (h | h) | rfl
  · have hle : 65 ≤ c.toNat := h.1
    omega
  · exact h.1
  · decide

theorem isRun_of_isSpace (h : isSpace c) : isRun c = false := by
  have hle := isSpace_toNat h
  cases hr : isRun c with
  | false => rfl
  | true =>
    have := isRun_toNat hr
    omega

theorem isAlnum_of_isSpace (h : isSpace c) : isAlnum c = false := by
  have hle := isSpace_toNat h
  cases hr : isAlnum c with
  | false => rfl
  | true =>
    have := isAlnum_toNat hr
    omega

theorem isSpace_of_isAlnum (h : isAlnum c) : isSpace c = false := by
  cases hs : isSpace c with
  | false => rfl
  | true =>
    rw [isAlnum_of_isSpace hs] at h
    cases h

theorem isSpace_of_isRun (h : isRun c) : isSpace c = false := by
  cases hs : isSpace c with
  | false => rfl
  | true =>
    rw [isRun_of_isSpace hs] at h
    cases h

theorem lead_collapse (s : List Char) : lead (collapse s) = lead s := by
  induction s with
  | nil => rfl
  | cons c s ih =>
    cases hc : isSpace c with
    | false =>
      rw [collapse_cons hc]
      cases hrun : isRun c with
      | true => rw [lead_cons_run hrun, lead_cons_run hrun, ih]
      | false => rw [lead_cons_not hrun, lead_cons_not hrun]
    | true =>
      rw [lead_cons_not (isRun_of_isSpace hc)]
      refine lead_of_headNot (headNot_collapse ?_ (.inl fun _ => isRun_of_isSpace))
      rintro d hd
      cases hd
      exact isRun_of_isSpace hc

/-! ## §3. Pieces. -/

/-- A piece of a text: the run of a placeholder, the character for a run of
white space, a word, or any other character. -/
inductive Piece where
  | atom (run : List Char)
  | space (c : Char)
  | word (w : List Char)
  | other (c : Char)
  deriving DecidableEq

/-- The characters of a piece. -/
def Piece.text : Piece → List Char
  | .atom r => '$' :: r
  | .space c => [c]
  | .word w => w
  | .other c => [c]

/-- The text of some pieces. -/
def text (ps : List Piece) : List Char := ps.flatMap Piece.text

/-- The first piece of a text, and what is behind it. -/
def cutStep (s : List Char) : Option (Piece × List Char) :=
  if isPlaceholderStart s then some (.atom (lead s.tail), s.drop (placeholderLen s))
  else
    match s with
    | [] => none
    | c :: rest =>
      if isSpace c then some (.space (collapsed (s.takeWhile isSpace)), s.dropWhile isSpace)
      else if isLetter c then some (.word (s.takeWhile isAlnum), s.dropWhile isAlnum)
      else some (.other c, rest)

/-- The text cut piece by piece. -/
def cutLoop : Nat → List Char → List Piece
  | 0, _ => []
  | fuel + 1, s =>
    match cutStep s with
    | none => []
    | some (p, rest) => p :: cutLoop fuel rest

/-- The pieces of a text; each takes at least one character. -/
def cut (s : List Char) : List Piece := cutLoop s.length s

/-- Pieces as `compress_text` cuts them: each as long as it can be. -/
inductive WellCut : List Piece → Prop
  | nil : WellCut []
  | atom {r : List Char} {ps : List Piece} (hvalid : validRun r = true) (hrun : ∀ c ∈ r, isRun c = true)
      (hnext : HeadNot isRun (text ps)) (hrest : WellCut ps) : WellCut (.atom r :: ps)
  | space {c : Char} {ps : List Piece} (hc : isSpace c = true) (hrest : WellCut ps) :
      WellCut (.space c :: ps)
  | word {c : Char} {w : List Char} {ps : List Piece} (hc : isLetter c = true)
      (hw : ∀ d ∈ c :: w, isAlnum d = true) (hnext : HeadNot isAlnum (text ps)) (hrest : WellCut ps) :
      WellCut (.word (c :: w) :: ps)
  | other {c : Char} {ps : List Piece} (hspace : isSpace c = false) (hletter : isLetter c = false)
      (hplace : isPlaceholderStart (c :: text ps) = false) (hrest : WellCut ps) :
      WellCut (.other c :: ps)

theorem text_cons (p : Piece) (ps : List Piece) : text (p :: ps) = p.text ++ text ps :=
  flatMap_cons

/-- Nothing happens to the characters of a class without white space. -/
theorem collapse_takeWhile {p : Char → Bool} (hp : ∀ c, isSpace c → p c = false) (s : List Char) :
    collapse s = s.takeWhile p ++ collapse (s.dropWhile p) := by
  induction s with
  | nil => rfl
  | cons c s ih =>
    cases hc : p c with
    | false =>
      rw [takeWhile_cons_of_neg (by rw [hc]; decide), dropWhile_cons_of_neg (by rw [hc]; decide)]
      rfl
    | true =>
      have hspace : isSpace c = false := by
        cases h : isSpace c with
        | false => rfl
        | true =>
          rw [hp c h] at hc
          cases hc
      rw [takeWhile_cons_of_pos hc, dropWhile_cons_of_pos hc, collapse_cons hspace, ih]
      rfl

/-- One cut: the piece, and what it needs of what is behind it. -/
theorem cutStep_spec (hne : s ≠ []) :
    ∃ p rest, cutStep s = some (p, rest) ∧ rest.length < s.length ∧
      collapse s = p.text ++ collapse rest ∧
      ∀ ps, text ps = collapse rest → WellCut ps → WellCut (p :: ps) := by
  unfold cutStep
  cases hplace : isPlaceholderStart s with
  | true =>
    obtain ⟨rest, rfl, hvalid, -, hdrop⟩ := placeholder_split hplace
    refine ⟨.atom (lead rest), rest.dropWhile isRun, ?_, ?_, ?_, fun ps htext hps => ?_⟩
    · rw [hdrop]
      rfl
    · exact Nat.lt_succ_of_le (dropWhile_suffix isRun).length_le
    · rw [collapse_cons (by decide), collapse_takeWhile fun _ => isRun_of_isSpace]
      rfl
    · refine .atom hvalid (fun c hc => mem_takeWhile_imp hc) ?_ hps
      rw [htext]
      exact headNot_collapse (headNot_dropWhile isRun rest) (.inl fun _ => isRun_of_isSpace)
  | false =>
    rw [if_neg (by decide)]
    obtain ⟨c, s, rfl⟩ := exists_cons_of_ne_nil hne
    cases hspace : isSpace c with
    | true =>
      refine ⟨_, _, if_pos hspace, ?_, ?_, fun ps _ hps => ?_⟩
      · rw [dropWhile_cons_of_pos hspace]
        exact Nat.lt_succ_of_le (dropWhile_suffix isSpace).length_le
      · exact collapse_space hspace s
      · refine .space (isSpace_collapsed ?_ fun d hd => mem_takeWhile_imp hd) hps
        rw [takeWhile_cons_of_pos hspace]
        exact cons_ne_nil _ _
    | false =>
      cases hletter : isLetter c with
      | true =>
        have halnum : isAlnum c := by simp [isAlnum, hletter]
        have htake : (c :: s).takeWhile isAlnum = c :: s.takeWhile isAlnum :=
          takeWhile_cons_of_pos halnum
        refine ⟨_, _, (if_neg (by rw [hspace]; decide)).trans (if_pos hletter), ?_, ?_,
          fun ps htext hps => ?_⟩
        · rw [dropWhile_cons_of_pos halnum]
          exact Nat.lt_succ_of_le (dropWhile_suffix isAlnum).length_le
        · exact collapse_takeWhile (fun _ => isAlnum_of_isSpace) _
        · rw [htake]
          refine .word hletter (fun d hd => ?_) ?_ hps
          · rw [← htake] at hd
            exact mem_takeWhile_imp hd
          · rw [htext]
            exact headNot_collapse (headNot_dropWhile isAlnum _) (.inl fun _ => isAlnum_of_isSpace)
      | false =>
        refine ⟨_, _, (if_neg (by rw [hspace]; decide)).trans (if_neg (by rw [hletter]; decide)),
          Nat.lt_succ_self _, ?_, fun ps htext hps => .other hspace hletter ?_ hps⟩
        · exact collapse_cons hspace s
        · rw [htext]
          by_cases hc : c = '$'
          · rw [hc, isPlaceholderStart_dollar] at hplace ⊢
            rw [lead_collapse]
            exact hplace
          · exact isPlaceholderStart_other hc _

theorem cutLoop_spec {fuel : Nat} (hfuel : s.length ≤ fuel) :
    WellCut (cutLoop fuel s) ∧ text (cutLoop fuel s) = collapse s := by
  induction fuel generalizing s with
  | zero =>
    rw [length_eq_zero_iff.mp (Nat.le_zero.mp hfuel)]
    exact ⟨.nil, rfl⟩
  | succ fuel ih =>
    by_cases hne : s = []
    · subst hne
      exact ⟨.nil, rfl⟩
    · obtain ⟨p, rest, hstep, hlen, hcollapse, hwell⟩ := cutStep_spec hne
      obtain ⟨hrest, htext⟩ := @ih rest (by omega)
      rw [cutLoop, hstep]
      refine ⟨hwell _ htext hrest, ?_⟩
      rw [text_cons, htext, hcollapse]

theorem cut_wellCut (s : List Char) : WellCut (cut s) := (cutLoop_spec (Nat.le_refl _)).1

theorem text_cut (s : List Char) : text (cut s) = collapse s := (cutLoop_spec (Nat.le_refl _)).2

/-! ## §4. What is written. -/

/-- What is written for a piece, and the dictionary behind it. -/
def emit (d : Dict) : Piece → List Char × Dict
  | .word w => compressWord d w
  | p => (p.text, d)

/-- What is written for some pieces. -/
def encode : Dict → List Piece → List Char
  | _, [] => []
  | d, p :: ps => (emit d p).1 ++ encode (emit d p).2 ps

/-- The loop writes something for each piece. -/
theorem compressStep_eq {d : Dict} {p : Piece} {rest : List Char}
    (h : cutStep s = some (p, rest)) : compressStep d s = ((emit d p).1, (emit d p).2, rest) := by
  unfold cutStep at h
  unfold compressStep
  split at h
  · next hplace =>
    obtain ⟨t, rfl, -, htake, -⟩ := placeholder_split hplace
    cases h
    rw [if_pos hplace, htake]
    rfl
  · next hplace =>
    rw [if_neg hplace]
    cases s with
    | nil => cases h
    | cons c s =>
      simp only at h ⊢
      split at h
      · next hspace =>
        cases h
        rw [if_pos hspace]
        rfl
      · next hspace =>
        rw [if_neg hspace]
        split at h
        · next hletter =>
          cases h
          rw [if_pos hletter]
          rfl
        · next hletter =>
          cases h
          rw [if_neg hletter]
          rfl

theorem compressLoop_eq {fuel : Nat} (hfuel : s.length ≤ fuel) (d : Dict) :
    compressLoop fuel d s = encode d (cutLoop fuel s) := by
  induction fuel generalizing s d with
  | zero => rfl
  | succ fuel ih =>
    by_cases hne : s = []
    · subst hne
      rfl
    · obtain ⟨p, rest, hstep, hlen, -, -⟩ := cutStep_spec hne
      have hloop : compressLoop (fuel + 1) d s = (compressStep d s).1 ++
          compressLoop fuel (compressStep d s).2.1 (compressStep d s).2.2 := by
        obtain ⟨c, s, rfl⟩ := exists_cons_of_ne_nil hne
        rfl
      rw [hloop, compressStep_eq hstep, cutLoop, hstep]
      exact congrArg _ (@ih rest (by omega) _)

theorem compressText_eq (hne : s ≠ []) : compressText s = magic ++ encode [] (cut s) := by
  unfold compressText
  rw [if_neg hne, compressLoop_eq (Nat.le_refl _)]
  rfl

end Toke.Compress
