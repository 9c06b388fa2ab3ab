/-
  Toke.Compress.RoundTrip — **WHAT DECOMPRESSING GIVES BACK.**

  The decoder cuts the compressed text again, by other rules: an abbreviation
  reaches to the next white space, `@R` is always a reference, a placeholder
  can end where a word was replaced; and what it takes in one piece does not
  enter its dictionary.  `comesBack` follows both dictionaries over the pieces
  and asks of every turn of the decoder that it gives the text it stands for;
  then the text comes back, up to white space and the case of letters
  (`decompress_compress`).
-/
import Toke.Compress.Pieces

namespace Toke.Compress

open List

variable {w t u : List Char} {c : Char} {e d : Dict} {ps vs : List Piece}

/-! ## §1. Texts that come back. -/

/-- At the end, or before white space. -/
def startsSpace : List Piece → Bool
  | [] => true
  | .space _ :: _ => true
  | _ => false

/-- A piece of white space. -/
def Piece.isSpace : Piece → Bool
  | .space _ => true
  | _ => false

/-- The pieces up to the next white space. -/
def token (ps : List Piece) : List Piece := ps.takeWhile (! Piece.isSpace ·)

/-- The next white space and what follows it. -/
def behindToken (ps : List Piece) : List Piece := ps.dropWhile (! Piece.isSpace ·)

theorem token_append (ps : List Piece) : token ps ++ behindToken ps = ps := takeWhile_append_dropWhile

/-- The word that the decoder reads for a token in a tilde. -/
def tokenWord (t : List Char) : Option (List Char) := if t.length < 16 then wordForAbbr t else none

/-- What is written for a word: its abbreviation, a reference, or the word. -/
inductive Written where
  | short (a : List Char)
  | ref (i : Nat)
  | whole

/-- The choice of `compress_text`. -/
def written (e : Dict) (w : List Char) : Written :=
  match abbrForWord w with
  | some a => .short a
  | none =>
    match e.find w with
    | some i => if (stored w).length ≥ 4 then .ref i else .whole
    | none => .whole

/-- How the decoder takes the pieces: one by one, in the token of a tilde, or in
a placeholder. -/
inductive Mode where
  | plain
  | token
  | atom
  deriving DecidableEq

/-- The decoder reads the pieces as they were meant, `e` and `d` being the
dictionaries of the encoder and the decoder. -/
def comesBack : Mode → Dict → Dict → List Piece → Bool
  | _, _, _, [] => true
  | .token, e, d, p :: ps => comesBack (if p.isSpace then .plain else .token) (emit e p).2 d ps
  | m, e, d, .word w :: ps =>
    match written e w with
    | .whole => comesBack m (e.add w) (if m = .plain then d.add w else d) ps
    | .short _ => startsSpace ps && comesBack .plain e d ps
    | .ref i => d[i]?.any (lower · = lower w) && comesBack .plain e d ps
  | .plain, e, d, .other c :: ps =>
    if c = '~' then
      encode e (token ps) = text (token ps) && (tokenWord ('~' :: text (token ps))).isNone &&
        comesBack .token e d ps
    -- the run can end where a word was replaced
    else if isPlaceholderStart (c :: encode e ps) then comesBack .atom e d ps
    else (c ≠ '@' || (encode e ps).head? ≠ some 'R') && comesBack .plain e d ps
  | m, e, d, _ :: ps => comesBack m e d ps

/-! ## §2. One step of the decoder. -/

theorem takeWhile_headNot {p : Char → Bool} (hw : ∀ c ∈ w, p c)
    (ht : HeadNot p t) : (w ++ t).takeWhile p = w ∧ (w ++ t).dropWhile p = t := by
  have htake : t.takeWhile p = [] ∧ t.dropWhile p = t := by
    cases t with
    | nil => exact ⟨rfl, rfl⟩
    | cons c t =>
      have hc := ht c rfl
      exact ⟨takeWhile_cons_of_neg (by rw [hc]; decide), dropWhile_cons_of_neg (by rw [hc]; decide)⟩
  constructor
  · rw [takeWhile_append_of_pos hw, htake.1, append_nil]
  · rw [dropWhile_append_of_pos hw, htake.2]

theorem decompressStep_atom {r : List Char} (hvalid : validRun r)
    (hr : ∀ c ∈ r, isRun c) (ht : HeadNot isRun t) (d : Dict) :
    decompressStep d ('$' :: (r ++ t)) = ('$' :: r, d, t) := by
  have hlead : lead (r ++ t) = r := by rw [lead_append hr, lead_of_headNot ht, append_nil]
  have hplace : isPlaceholderStart ('$' :: (r ++ t)) := by
    rw [isPlaceholderStart_dollar, hlead]
    exact hvalid
  obtain ⟨rest, heq, -, htake, hdrop⟩ := placeholder_split hplace
  obtain ⟨-, rfl⟩ := cons.inj heq
  unfold decompressStep
  rw [if_pos hplace, htake, hdrop, hlead, (takeWhile_headNot hr ht).2]

/-- The decoder's own cases do not begin with a dollar, a tilde or `@`. -/
theorem decompressStep_plain (hplace : isPlaceholderStart (c :: t) = false) (htilde : c ≠ '~')
    (href : c = '@' → t.head? ≠ some 'R') (d : Dict) :
    decompressStep d (c :: t) = if isSpace c then ([c], d, t)
      else if isLetter c then
        ((c :: t).takeWhile isAlnum, d.add ((c :: t).takeWhile isAlnum), (c :: t).dropWhile isAlnum)
      else ([c], d, t) := by
  unfold decompressStep
  rw [if_neg (by rw [hplace]; decide)]
  split
  · next heq => cases heq
  · next heq =>
    obtain ⟨rfl, rfl⟩ := cons.inj heq
    exact absurd rfl (href rfl)
  · next heq => exact absurd (cons.inj heq).1 htilde
  · next heq =>
    obtain ⟨rfl, rfl⟩ := cons.inj heq
    rfl

theorem decompressStep_space (hc : isSpace c) (t : List Char) (d : Dict) :
    decompressStep d (c :: t) = ([c], d, t) := by
  have hne : ∀ x, isSpace x = false → c ≠ x := by
    rintro x hx rfl
    rw [hx] at hc
    cases hc
  rw [decompressStep_plain (isPlaceholderStart_other (hne '$' (by decide)) t) (hne '~' (by decide))
    (fun h => absurd h (hne '@' (by decide))), if_pos hc]

theorem decompressStep_word (hc : isLetter c) (hw : ∀ x ∈ c :: w, isAlnum x)
    (ht : HeadNot isAlnum t) (d : Dict) :
    decompressStep d (c :: w ++ t) = (c :: w, d.add (c :: w), t) := by
  have hne : ∀ x, isLetter x = false → c ≠ x := by
    rintro x hx rfl
    rw [hx] at hc
    cases hc
  have hspace : ¬ isSpace c := by
    intro h
    have halnum := hw c mem_cons_self
    rw [isAlnum_of_isSpace h] at halnum
    cases halnum
  obtain ⟨htake, hdrop⟩ := takeWhile_headNot hw ht
  rw [cons_append] at htake hdrop ⊢
  rw [decompressStep_plain (isPlaceholderStart_other (hne '$' (by decide)) _) (hne '~' (by decide))
    (fun h => absurd h (hne '@' (by decide))), if_neg hspace, if_pos hc, htake, hdrop]

theorem decompressStep_other (hspace : isSpace c = false) (hletter : isLetter c = false)
    (hplace : isPlaceholderStart (c :: t) = false) (htilde : c ≠ '~')
    (href : c = '@' → t.head? ≠ some 'R') (d : Dict) : decompressStep d (c :: t) = ([c], d, t) := by
  rw [decompressStep_plain hplace htilde href, if_neg (by rw [hspace]; decide),
    if_neg (by rw [hletter]; decide)]

/-- An index is read as it was printed. -/
theorem digitsIndex_toDigits : ∀ i < maxDictWords, (Nat.toDigits 10 (i + 1)).all isDigit ∧
    digitsIndex (Nat.toDigits 10 (i + 1)) = i + 1 ∧ (Nat.toDigits 10 (i + 1)).length ≤ 3 := by
  decide +kernel

theorem decompressStep_reference {i : Nat} (hi : i < maxDictWords) (ht : HeadNot isDigit t)
    (d : Dict) : decompressStep d (reference i ++ t) = (d[i]?.getD [], d, t) := by
  obtain ⟨hdigits, hindex, -⟩ := digitsIndex_toDigits i hi
  obtain ⟨htake, hdrop⟩ := takeWhile_headNot (all_eq_true.mp hdigits) ht
  show (if 1 ≤ digitsIndex (takeWhile isDigit (Nat.toDigits 10 (i + 1) ++ t)) ∧
    digitsIndex (takeWhile isDigit (Nat.toDigits 10 (i + 1) ++ t)) ≤ d.length then
      d.getD (digitsIndex (takeWhile isDigit (Nat.toDigits 10 (i + 1) ++ t)) - 1) [] else [], d,
    dropWhile isDigit (Nat.toDigits 10 (i + 1) ++ t)) = _
  rw [htake, hdrop, hindex, Nat.add_sub_cancel, ← getD_eq_getElem?_getD]
  by_cases hlt : i < d.length
  · rw [if_pos ⟨by omega, hlt⟩]
  · rw [if_neg fun h => hlt h.2, getD_eq_default _ _ (by omega)]

/-- The decoder on a tilde: everything up to the next white space. -/
theorem decompressStep_token (hu : ∀ c ∈ u, isSpace c = false) (ht : HeadNot (! isSpace ·) t)
    (d : Dict) : decompressStep d ('~' :: u ++ t) =
      ((tokenWord ('~' :: u)).getD ('~' :: u), d, t) := by
  have htoken : ∀ c ∈ '~' :: u, (! isSpace c) := by
    intro c hc
    rcases mem_cons.mp hc with rfl | hc
    · decide
    · rw [hu c hc]
      rfl
  obtain ⟨htake, hdrop⟩ := takeWhile_headNot htoken ht
  show (Option.getD (tokenWord (takeWhile _ ('~' :: u ++ t))) (takeWhile _ ('~' :: u ++ t)), d,
    dropWhile _ ('~' :: u ++ t)) = _
  rw [htake, hdrop]

/-! ## §3. What is written. -/

theorem lower_append (a b : List Char) : lower (a ++ b) = lower a ++ lower b := map_append

theorem length_lower (a : List Char) : (lower a).length = a.length := length_map _

theorem lower_lower (s : List Char) : lower (lower s) = lower s := by
  unfold lower
  rw [map_map]
  exact map_congr_left fun c _ => Char.toLower_toLower_eq_toLower c

/-- An abbreviated word is in the table, up to case. -/
theorem abbrForWord_spec {a : List Char}
    (h : abbrForWord w = some a) : (lower w, a) ∈ abbrTable := by
  unfold abbrForWord at h
  split at h
  · cases h
  · obtain ⟨e, he, rfl⟩ := Option.map_eq_some_iff.mp h
    have hword : e.1 = lower w := by simpa using find?_some he
    rw [← hword]
    exact mem_of_find?_eq_some he

/-- The entry that is found is the word, up to case. -/
theorem find_spec {i : Nat} (h : d.find w = some i) :
    i < d.length ∧ d.getD i [] ∈ d ∧ lower (d.getD i []) = lower (stored w) := by
  obtain ⟨hlt, hval, -⟩ := findIdx?_eq_some_iff_getElem.mp h
  have hget : d.getD i [] = d[i] := getD_eq_getElem d [] hlt
  rw [hget]
  exact ⟨hlt, getElem_mem hlt, of_decide_eq_true hval⟩

theorem abbrTable_spec : ∀ e ∈ abbrTable, e.2.head? = some '~' ∧ e.2.tail.all (! isSpace ·) ∧
    e.2.length < 16 ∧ wordForAbbr e.2 = some e.1 := by
  decide +kernel

theorem abbr_head {a : List Char} (h : abbrForWord w = some a) : ∃ u, a = '~' :: u := by
  obtain ⟨hhead, -⟩ := abbrTable_spec _ (abbrForWord_spec h)
  cases a with
  | nil => cases hhead
  | cons c u =>
    cases hhead
    exact ⟨u, rfl⟩

/-- The text and the dictionary behind a word. -/
theorem compressWord_eq (e : Dict) (w : List Char) : compressWord e w =
    match written e w with
    | .short a => (a, e)
    | .ref i => (reference i, e)
    | .whole => (w, e.add w) := by
  unfold compressWord written
  cases abbrForWord w with
  | some a => rfl
  | none =>
    cases e.find w with
    | none => rfl
    | some i =>
      dsimp only
      split <;> rfl

theorem length_add (h : d.length ≤ maxDictWords) (w : List Char) :
    (d.add w).length ≤ maxDictWords := by
  unfold Dict.add
  split
  · rw [length_append, length_singleton]
    omega
  · exact h

theorem written_short {a : List Char} (h : written e w = .short a) : abbrForWord w = some a := by
  unfold written at h
  split at h
  · next habbr =>
    cases h
    exact habbr
  · split at h
    · split at h <;> cases h
    · cases h

theorem written_ref {i : Nat} (h : written e w = .ref i) :
    e.find w = some i ∧ 4 ≤ (stored w).length := by
  unfold written at h
  split at h
  · cases h
  · split at h
    · next hfind =>
      split at h
      · next hlen =>
        cases h
        exact ⟨hfind, hlen⟩
      · cases h
    · cases h

/-- A word that is replaced begins with a tilde or `@`, and ends a placeholder. -/
theorem written_cases (e : Dict) (w : List Char) :
    (written e w = .whole ∧ compressWord e w = (w, e.add w)) ∨
      ∃ x u, (x = '~' ∨ x = '@') ∧ compressWord e w = (x :: u, e) ∧ ∀ d ps,
        comesBack .atom e d (.word w :: ps) = comesBack .plain e d (.word w :: ps) := by
  have hout := compressWord_eq e w
  cases hw : written e w with
  | whole =>
    rw [hw] at hout
    exact .inl ⟨rfl, hout⟩
  | short a =>
    rw [hw] at hout
    obtain ⟨u, rfl⟩ := abbr_head (written_short hw)
    refine .inr ⟨'~', u, .inl rfl, hout, fun d ps => ?_⟩
    simp only [comesBack, hw]
  | ref i =>
    rw [hw] at hout
    refine .inr ⟨'@', _, .inr rfl, hout, fun d ps => ?_⟩
    simp only [comesBack, hw]

/-- The first character is a tilde, `@`, or the one of the text. -/
theorem encode_headNot {q : Char → Bool} (htilde : q '~' = false) (hat : q '@' = false)
    (hwell : WellCut ps) (e : Dict) (h : HeadNot q (text ps)) : HeadNot q (encode e ps) := by
  cases hwell with
  | nil => exact headNot_nil q
  | atom => exact h
  | space => exact h
  | other => exact h
  | @word c w ps =>
    show HeadNot q ((compressWord e (c :: w)).1 ++ encode (compressWord e (c :: w)).2 ps)
    rcases written_cases e (c :: w) with ⟨-, hout⟩ | ⟨x, u, hx, hout, -⟩
    · rw [hout]
      exact h
    · rw [hout]
      rintro y hy
      cases hy
      rcases hx with rfl | rfl
      · exact htilde
      · exact hat

/-- The dictionary behind some pieces. -/
def after (e : Dict) (qs : List Piece) : Dict := qs.foldl (fun e p => (emit e p).2) e

theorem length_after (he : e.length ≤ maxDictWords) (qs : List Piece) :
    (after e qs).length ≤ maxDictWords := by
  induction qs generalizing e with
  | nil => exact he
  | cons p qs ih =>
    refine ih ?_
    cases p with
    | word w =>
      show (compressWord e w).2.length ≤ _
      rcases written_cases e w with ⟨-, hout⟩ | ⟨x, u, -, hout, -⟩
      · rw [hout]
        exact length_add he w
      · rw [hout]
        exact he
    | _ => exact he

theorem encode_append (e : Dict) (qs vs : List Piece) :
    encode e (qs ++ vs) = encode e qs ++ encode (after e qs) vs := by
  induction qs generalizing e with
  | nil => rfl
  | cons q qs ih =>
    show (emit e q).1 ++ encode (emit e q).2 (qs ++ vs) = _
    rw [ih, ← append_assoc]
    rfl

theorem WellCut.right {qs : List Piece} (h : WellCut (qs ++ vs)) : WellCut vs := by
  induction qs with
  | nil => exact h
  | cons q qs ih =>
    cases h with
    | atom _ _ _ hrest => exact ih hrest
    | space _ hrest => exact ih hrest
    | word _ _ _ hrest => exact ih hrest
    | other _ _ _ hrest => exact ih hrest

/-! Up to the next white space. -/

theorem encode_token (e : Dict) (ps : List Piece) : encode e ps = encode e (token ps) ++
    encode (after e (token ps)) (behindToken ps) := by
  rw [← encode_append, token_append]

theorem text_token (ps : List Piece) :
    text ps = text (token ps) ++ text (behindToken ps) := by
  unfold text
  rw [← flatMap_append, token_append]

theorem WellCut.behindToken (hwell : WellCut ps) : WellCut (behindToken ps) := by
  rw [← token_append ps] at hwell
  exact hwell.right

theorem token_noSpace (hwell : WellCut ps) : ∀ c ∈ text (token ps), isSpace c = false := by
  induction hwell with
  | nil => exact nofun
  | space => exact nofun
  | atom _ hrun _ _ ih =>
    refine forall_mem_append.mpr ⟨forall_mem_cons.mpr ⟨by decide, fun c hc => ?_⟩, ih⟩
    exact isSpace_of_isRun (hrun c hc)
  | word _ hw _ _ ih => exact forall_mem_append.mpr ⟨fun c hc => isSpace_of_isAlnum (hw c hc), ih⟩
  | other hspace _ _ _ ih => exact forall_mem_cons.mpr ⟨hspace, ih⟩

theorem startsSpace_token (ps : List Piece) :
    startsSpace (behindToken ps) = true := by
  induction ps with
  | nil => rfl
  | cons p ps ih =>
    cases p with
    | space c => rfl
    | _ => exact ih

theorem encode_headSpace (hwell : WellCut ps) (h : startsSpace ps = true) (e : Dict) :
    HeadNot (! isSpace ·) (encode e ps) := by
  cases hwell with
  | nil => exact headNot_nil _
  | space hc =>
    rintro x hx
    cases hx
    show (! isSpace _) = false
    rw [hc]
    rfl
  | atom => cases h
  | word => cases h
  | other => cases h

theorem comesBack_token (e d : Dict) (ps : List Piece) : comesBack .token e d ps =
    comesBack .plain (after e (token ps)) d (behindToken ps) := by
  induction ps generalizing e with
  | nil => rfl
  | cons p ps ih =>
    cases p with
    | space c => rfl
    | atom r => exact ih e
    | word w => exact ih (compressWord e w).2
    | other c => exact ih e

/-- Behind a dollar: where the run of the text and that of the compressed text
differ, the pieces of the latter end before a word that was replaced. -/
theorem atom_split (hwell : WellCut ps)
    (hne : lead (encode e ps) ≠ lead (text ps)) :
    ∃ qs w rest, ps = qs ++ .word w :: rest ∧ text qs = lead (encode e ps) ∧
      encode e qs = text qs ∧
      ∀ d, comesBack .atom e d ps = comesBack .plain (after e qs) d (.word w :: rest) := by
  induction hwell generalizing e with
  | nil => exact absurd rfl hne
  | atom => exact absurd ((lead_cons_not (by decide) _).trans (lead_cons_not (by decide) _).symm) hne
  | space hc =>
    have hrun := isRun_of_isSpace hc
    exact absurd ((lead_cons_not hrun _).trans (lead_cons_not hrun _).symm) hne
  | @other c ps _ _ _ _ ih =>
    cases hrun : isRun c with
    | false => exact absurd ((lead_cons_not hrun _).trans (lead_cons_not hrun _).symm) hne
    | true =>
      have henc : lead (encode e (.other c :: ps)) = c :: lead (encode e ps) := lead_cons_run hrun _
      have htext : lead (text (.other c :: ps)) = c :: lead (text ps) := lead_cons_run hrun _
      rw [henc, htext] at hne
      obtain ⟨qs, w, rest, rfl, hqs, hself, hmode⟩ := ih fun heq => hne (by rw [heq])
      refine ⟨.other c :: qs, w, rest, rfl, ?_, ?_, hmode⟩
      · rw [henc, text_cons, hqs]
        rfl
      · show c :: encode e qs = c :: text qs
        rw [hself]
  | @word c w ps hc hw _ _ ih =>
    have hencode : encode e (.word (c :: w) :: ps) =
        (compressWord e (c :: w)).1 ++ encode (compressWord e (c :: w)).2 ps := rfl
    rcases written_cases e (c :: w) with ⟨hwhole, hout⟩ | ⟨x, u, hx, hout, hmode⟩
    · rw [hout] at hencode
      by_cases hrun : ∀ x ∈ c :: w, isRun x
      · have htext : lead (text (.word (c :: w) :: ps)) = c :: w ++ lead (text ps) := lead_append hrun _
        rw [hencode, lead_append hrun, htext] at hne
        obtain ⟨qs, v, rest, rfl, hqs, hself, hmode⟩ :=
          ih fun heq => hne (by rw [heq])
        have hafter : emit e (.word (c :: w)) = (c :: w, e.add (c :: w)) := hout
        refine ⟨.word (c :: w) :: qs, v, rest, rfl, ?_, ?_, fun d => ?_⟩
        · rw [hencode, lead_append hrun, text_cons, hqs]
          rfl
        · rw [encode, hafter, hself]
          rfl
        · rw [after, foldl_cons, hafter]
          refine Eq.trans ?_ (hmode d)
          simp only [comesBack, hwhole]
          rfl
      · rw [hencode] at hne
        exact absurd ((lead_append_not hrun _).trans (lead_append_not hrun _).symm) hne
    · refine ⟨[], c :: w, ps, rfl, ?_, rfl, fun d => hmode d ps⟩
      rw [hencode, hout]
      rcases hx with rfl | rfl
      · exact (lead_cons_not (by decide) _).symm
      · exact (lead_cons_not (by decide) _).symm

/-! ## §4. The round trip. -/

/-- A step whose piece has the length of the text it stands for. -/
theorem decompressLoop_step {cap fuel out : Nat} {d' : Dict} {s piece rest : List Char}
    (hs : s ≠ []) (hstep : decompressStep d s = (piece, d', rest))
    (hroom : out + piece.length + 1 ≤ cap) :
    decompressLoop cap (fuel + 1) out d s =
      piece ++ decompressLoop cap fuel (out + piece.length) d' rest := by
  obtain ⟨c, s, rfl⟩ := exists_cons_of_ne_nil hs
  rw [decompressLoop, hstep]
  · exact if_neg (Nat.not_lt.mpr hroom)
  · exact nofun

/-- What the decoder makes of one piece: its text up to case. -/
structure Reads (d : Dict) (s : List Char) (plain : List Char) (d' : Dict) (rest : List Char) : Prop where
  step : ∃ piece, decompressStep d s = (piece, d', rest) ∧ lower piece = lower plain
  shorter : rest.length < s.length

theorem Reads.loop {cap fuel out : Nat} {d' : Dict} {s plain rest tail : List Char}
    (h : Reads d s plain d' rest) (hfuel : s.length ≤ fuel)
    (hroom : out + (plain ++ tail).length + 1 ≤ cap)
    (hrest : ∀ {fuel}, rest.length ≤ fuel → out + plain.length + tail.length + 1 ≤ cap →
      lower (decompressLoop cap fuel (out + plain.length) d' rest) = lower tail) :
    lower (decompressLoop cap fuel out d s) = lower (plain ++ tail) := by
  obtain ⟨piece, hstep, hlower⟩ := h.step
  have hlen : piece.length = plain.length := by rw [← length_lower piece, hlower, length_lower]
  have hne : s ≠ [] := by
    rintro rfl
    exact absurd h.shorter (Nat.not_lt_zero _)
  have hshort := h.shorter
  obtain ⟨fuel, rfl⟩ : ∃ k, fuel = k + 1 := ⟨fuel - 1, by omega⟩
  rw [length_append] at hroom
  rw [decompressLoop_step hne hstep (by omega), lower_append, lower_append, hlower, hlen]
  rw [hrest (by omega) (by omega)]

/-- A word comes back where it is read as it was meant. -/
theorem reads_word (hc : isLetter c = true) (hw : ∀ x ∈ c :: w, isAlnum x = true)
    (hnext : HeadNot isAlnum (text ps)) (hrest : WellCut ps) (he : e.length ≤ maxDictWords)
    (hcomes : comesBack .plain e d (.word (c :: w) :: ps) = true) :
    ∃ e' d', e'.length ≤ maxDictWords ∧ comesBack .plain e' d' ps = true ∧
      Reads d (encode e (.word (c :: w) :: ps)) (c :: w) d' (encode e' ps) := by
  have hhead : ∀ e', HeadNot isAlnum (encode e' ps) := fun e' =>
    encode_headNot (by decide) (by decide) hrest e' hnext
  have hencode : encode e (.word (c :: w) :: ps) =
      (compressWord e (c :: w)).1 ++ encode (compressWord e (c :: w)).2 ps := rfl
  rw [hencode, compressWord_eq]
  cases hwritten : written e (c :: w) with
  | whole =>
    simp only [comesBack, hwritten] at hcomes
    refine ⟨e.add (c :: w), d.add (c :: w), length_add he _, hcomes,
      ⟨c :: w, decompressStep_word hc hw (hhead _) d, rfl⟩, ?_⟩
    show _ < (c :: w ++ encode (e.add (c :: w)) ps).length
    rw [length_append, length_cons]
    omega
  | short a =>
    simp only [comesBack, hwritten, Bool.and_eq_true] at hcomes
    have habbr := written_short hwritten
    obtain ⟨-, hspace, hlen, hword⟩ := abbrTable_spec _ (abbrForWord_spec habbr)
    obtain ⟨u, rfl⟩ := abbr_head habbr
    have hclear : ∀ c ∈ u, isSpace c = false := fun c hc =>
      (Bool.not_eq_true' _).mp (all_eq_true.mp hspace c hc)
    refine ⟨e, d, he, hcomes.2, ⟨lower (c :: w), ?_, lower_lower _⟩, ?_⟩
    · rw [decompressStep_token hclear (encode_headSpace hrest hcomes.1 e), tokenWord, if_pos hlen, hword]
      rfl
    · show _ < ('~' :: u ++ encode e ps).length
      rw [length_append, length_cons]
      omega
  | ref i =>
    simp only [comesBack, hwritten, Bool.and_eq_true, Option.any_eq_true, decide_eq_true_eq] at hcomes
    obtain ⟨⟨v, hget, hv⟩, hcomes⟩ := hcomes
    have hi : i < maxDictWords := Nat.lt_of_lt_of_le (find_spec (written_ref hwritten).1).1 he
    refine ⟨e, d, he, hcomes, ⟨v, ?_, hv⟩, ?_⟩
    · rw [decompressStep_reference hi fun x hx => ?_, hget]
      · rfl
      · have hx' := hhead e x hx
        rw [isAlnum, Bool.or_eq_false_iff] at hx'
        exact hx'.2
    · show _ < (reference i ++ encode e ps).length
      rw [length_append]
      show _ < (Nat.toDigits 10 (i + 1)).length + 1 + 1 + _
      omega

/-- A tilde comes back with everything up to the next white space. -/
theorem reads_tilde (hrest : WellCut ps) (hcomes : comesBack .plain e d (.other '~' :: ps) = true) :
    comesBack .plain (after e (token ps)) d (behindToken ps) = true ∧
      Reads d (encode e (.other '~' :: ps)) ('~' :: text (token ps)) d
        (encode (after e (token ps)) (behindToken ps)) := by
  rw [comesBack, if_pos rfl, Bool.and_eq_true, Bool.and_eq_true, decide_eq_true_iff,
    Option.isNone_iff_eq_none, comesBack_token] at hcomes
  obtain ⟨⟨hself, hnone⟩, hcomes⟩ := hcomes
  have hencode : encode e (.other '~' :: ps) = '~' :: text (token ps) ++
      encode (after e (token ps)) (behindToken ps) := by
    show '~' :: encode e ps = _
    rw [encode_token, hself]
    rfl
  refine ⟨hcomes, ?_⟩
  rw [hencode]
  refine ⟨⟨'~' :: text (token ps), ?_, rfl⟩, ?_⟩
  · rw [decompressStep_token (token_noSpace hrest) (encode_headSpace hrest.behindToken (startsSpace_token ps) _),
      hnone]
    rfl
  · rw [length_append, length_cons]
    omega

/-- A dollar whose run is a placeholder once a word behind it is replaced. -/
theorem reads_run (hrest : WellCut ps) (hplace : isPlaceholderStart ('$' :: text ps) = false)
    (hplace' : isPlaceholderStart ('$' :: encode e ps) = true)
    (hcomes : comesBack .plain e d (.other '$' :: ps) = true) :
    ∃ qs vs, ps = qs ++ vs ∧ comesBack .plain (after e qs) d vs = true ∧
      Reads d (encode e (.other '$' :: ps)) ('$' :: text qs) d (encode (after e qs) vs) := by
  rw [comesBack, if_neg (by decide), if_pos hplace'] at hcomes
  rw [isPlaceholderStart_dollar] at hplace hplace'
  obtain ⟨qs, w, rest, rfl, hqs, hself, hmode⟩ := atom_split hrest fun heq => by
    rw [heq, hplace] at hplace'
    cases hplace'
  have hrun : ∀ c ∈ text qs, isRun c = true := fun c hc => mem_takeWhile_imp (hqs ▸ hc)
  have hencode : encode e (qs ++ .word w :: rest) = text qs ++ encode (after e qs) (.word w :: rest) := by
    rw [encode_append, hself]
  have hnot : HeadNot isRun (encode (after e qs) (.word w :: rest)) := by
    have hdrop := headNot_dropWhile isRun (encode e (qs ++ .word w :: rest))
    have hlead : encode e (qs ++ .word w :: rest) = lead (encode e (qs ++ .word w :: rest)) ++
        (encode e (qs ++ .word w :: rest)).dropWhile isRun := takeWhile_append_dropWhile.symm
    rw [← hqs, hencode] at hlead
    rw [hencode, ← append_cancel_left hlead] at hdrop
    exact hdrop
  refine ⟨qs, .word w :: rest, rfl, (hmode d) ▸ hcomes, ?_⟩
  have hall : encode e (.other '$' :: (qs ++ .word w :: rest)) =
      '$' :: (text qs ++ encode (after e qs) (.word w :: rest)) := by
    show '$' :: encode e (qs ++ .word w :: rest) = _
    rw [hencode]
  rw [hall]
  refine ⟨⟨_, decompressStep_atom (hqs ▸ hplace') hrun hnot d, rfl⟩, ?_⟩
  rw [length_cons, length_append]
  omega

theorem decompressLoop_encode (cap : Nat) (n : Nat) : ∀ {ps : List Piece}, ps.length ≤ n → WellCut ps →
    ∀ {e d : Dict}, e.length ≤ maxDictWords → comesBack .plain e d ps = true →
    ∀ {fuel out : Nat}, (encode e ps).length ≤ fuel → out + (text ps).length + 1 ≤ cap →
      lower (decompressLoop cap fuel out d (encode e ps)) = lower (text ps) := by
  induction n with
  | zero =>
    intro ps hlen _ e d _ _ fuel out _ _
    rw [length_eq_zero_iff.mp (Nat.le_zero.mp hlen)]
    cases fuel <;> rfl
  | succ n ih =>
    intro ps hlen hwell e d he hcomes fuel out hfuel hroom
    cases hwell with
    | nil => cases fuel <;> rfl
    | @atom r ps hvalid hrun hnext hrest =>
      have hhead := encode_headNot (by decide) (by decide) hrest e hnext
      have hreads : Reads d (encode e (.atom r :: ps)) ('$' :: r) d (encode e ps) := by
        refine ⟨⟨'$' :: r, decompressStep_atom hvalid hrun hhead d, rfl⟩, ?_⟩
        show _ < ('$' :: r ++ encode e ps).length
        rw [length_append, length_cons]
        omega
      exact hreads.loop hfuel hroom (ih (Nat.le_of_succ_le_succ hlen) hrest he hcomes)
    | @space c ps hc hrest =>
      have hreads : Reads d (encode e (.space c :: ps)) [c] d (encode e ps) :=
        ⟨⟨[c], decompressStep_space hc _ d, rfl⟩, Nat.lt_succ_self _⟩
      exact hreads.loop hfuel hroom (ih (Nat.le_of_succ_le_succ hlen) hrest he hcomes)
    | @word c w ps hc hw hnext hrest =>
      obtain ⟨e', d', he', hcomes', hreads⟩ := reads_word hc hw hnext hrest he hcomes
      exact hreads.loop hfuel hroom (ih (Nat.le_of_succ_le_succ hlen) hrest he' hcomes')
    | @other c ps hspace hletter hplace hrest =>
      by_cases htilde : c = '~'
      · subst htilde
        obtain ⟨hcomes', hreads⟩ := reads_tilde hrest hcomes
        have hall : text (.other '~' :: ps) =
            '~' :: text (token ps) ++ text (behindToken ps) := by
          rw [text_cons, text_token ps]
          rfl
        have hshort : (behindToken ps).length ≤ ps.length := (dropWhile_sublist _).length_le
        rw [hall] at hroom ⊢
        exact hreads.loop hfuel hroom (ih (Nat.le_trans hshort (Nat.le_of_succ_le_succ hlen))
          hrest.behindToken (length_after he _) hcomes')
      cases hplace' : isPlaceholderStart (c :: encode e ps) with
      | true =>
        obtain rfl : c = '$' := by
          by_contra hc
          rw [isPlaceholderStart_other hc] at hplace'
          cases hplace'
        obtain ⟨qs, vs, rfl, hcomes', hreads⟩ := reads_run hrest hplace hplace' hcomes
        have hall : text (.other '$' :: (qs ++ vs)) = '$' :: text qs ++ text vs := by
          rw [text_cons, text, flatMap_append]
          rfl
        rw [length_cons, length_append] at hlen
        rw [hall] at hroom ⊢
        exact hreads.loop hfuel hroom (ih (by omega) hrest.right (length_after he qs) hcomes')
      | false =>
        rw [comesBack, if_neg htilde, if_neg (by rw [hplace']; decide), Bool.and_eq_true] at hcomes
        have hat : c = '@' → (encode e ps).head? ≠ some 'R' := by
          intro hc
          simpa [hc] using hcomes.1
        have hreads : Reads d (encode e (.other c :: ps)) [c] d (encode e ps) :=
          ⟨⟨[c], decompressStep_other hspace hletter hplace' htilde hat d, rfl⟩, Nat.lt_succ_self _⟩
        exact hreads.loop hfuel hroom (ih (Nat.le_of_succ_le_succ hlen) hrest he hcomes.2)

/-- An abbreviation, repeated words, one of them behind `@`, a placeholder and
tildes before a word and alone. -/
def cleanText : List Char := "Rabbit the\t @RABBIT, $A_1 ~ ~foo rabbit".toList

end Toke.Compress
