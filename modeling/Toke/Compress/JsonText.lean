/-
  Toke.Compress.JsonText — **ARRAYS OF FLAT OBJECTS, AS TEXT.**

  A `JsonArray` is a JSON text of the kind `compress_json` is made for: an array
  of objects whose values are strings, numbers or words, with any white space a
  JSON text may have.  Its parts carry the proof that they are spelled as they
  must be.  A string has a meaning (`decoded`) and a text without its
  backslashes (`stripped`), which is what the compressor copies.
-/
import Toke.Compress.Json
import Toke.Compress.Pieces

namespace Toke.Compress

open List

/-! ## §1. Strings. -/

/-- A character that stands for itself. -/
def isStrChar (c : Char) : Bool := 32 ≤ c.toNat && c ≠ '"' && c ≠ '\\'

/-- The one-letter escapes and what they mean. -/
def escapeTable : List (Char × Char) :=
  [('"', '"'), ('\\', '\\'), ('/', '/'), ('b', '\x08'), ('f', '\x0c'), ('n', '\n'), ('r', '\r'),
   ('t', '\t')]

/-- A character of a JSON string as it is spelled. -/
inductive StrItem where
  | char (c : Char) (h : isStrChar c = true)
  | escape (e : Char × Char) (h : e ∈ escapeTable)
  | unicode (a b c d : Char) (h : [a, b, c, d].all isHex = true)

namespace StrItem

/-- The item as it is spelled. -/
def spelled : StrItem → List Char
  | char c _ => [c]
  | escape e _ => ['\\', e.1]
  | unicode a b c d _ => ['\\', 'u', a, b, c, d]

/-- The spelling without the backslash. -/
def stripped : StrItem → List Char
  | char c _ => [c]
  | escape e _ => [e.1]
  | unicode a b c d _ => ['u', a, b, c, d]

end StrItem

/-- The value of a hex digit. -/
def hexValue (c : Char) : Nat :=
  if isDigit c then c.toNat - 48 else if isUpper c then c.toNat - 55 else c.toNat - 87

/-- The number of `\uXXXX`. -/
def codeUnit (a b c d : Char) : Nat :=
  ((hexValue a * 16 + hexValue b) * 16 + hexValue c) * 16 + hexValue d

/-- The bytes of a code point. -/
def utf8 (n : Nat) : List Char :=
  if n < 0x80 then [.ofNat n]
  else if n < 0x800 then [.ofNat (0xC0 + n / 64), .ofNat (0x80 + n % 64)]
  else if n < 0x10000 then
    [.ofNat (0xE0 + n / 4096), .ofNat (0x80 + n / 64 % 64), .ofNat (0x80 + n % 64)]
  else
    [.ofNat (0xF0 + n / 262144), .ofNat (0x80 + n / 4096 % 64), .ofNat (0x80 + n / 64 % 64),
     .ofNat (0x80 + n % 64)]

/-- The bytes of a string behind a high surrogate `hi`, if one is open. -/
def decodeFrom : Option Nat → List StrItem → List Char
  | none, [] => []
  | some hi, [] => utf8 hi
  | hi, .char c _ :: is => hi.elim [] utf8 ++ c :: decodeFrom none is
  | hi, .escape e _ :: is => hi.elim [] utf8 ++ e.2 :: decodeFrom none is
  | hi, .unicode a b c d _ :: is =>
    let u := codeUnit a b c d
    if 0xD800 ≤ u ∧ u < 0xDC00 then hi.elim [] utf8 ++ decodeFrom (some u) is
    else
      match hi with
      | some hi =>
        if 0xDC00 ≤ u ∧ u < 0xE000 then
          utf8 (0x10000 + (hi - 0xD800) * 1024 + (u - 0xDC00)) ++ decodeFrom none is
        else utf8 hi ++ utf8 u ++ decodeFrom none is
      | none => utf8 u ++ decodeFrom none is

/-- What a string means. -/
def decoded (is : List StrItem) : List Char := decodeFrom none is

/-- A string without its backslashes. -/
def stripped (is : List StrItem) : List Char := is.flatMap StrItem.stripped

/-- A string as it is spelled. -/
def spelled (is : List StrItem) : List Char := is.flatMap StrItem.spelled

/-! ## §2. Values and members. -/

/-- A character of a number or a word. -/
def isBareChar (c : Char) : Bool :=
  !isSpace c && c ≠ ',' && c ≠ '}' && c ≠ '{' && c ≠ '[' && c ≠ ']' && c ≠ '"' && c ≠ '\x00'

/-- A value that is not nested. -/
inductive JsonScalar where
  | str (is : List StrItem)
  | bare (tok : List Char) (hne : tok ≠ []) (h : ∀ c ∈ tok, isBareChar c = true)

namespace JsonScalar

/-- The text of a value. -/
def text : JsonScalar → List Char
  | str is => '"' :: spelled is ++ ['"']
  | bare tok _ _ => tok

/-- The value itself. -/
def value : JsonScalar → List Char
  | str is => decoded is
  | bare tok _ _ => tok

/-- The value as the compressor copies it. -/
def copied : JsonScalar → List Char
  | str is => stripped is
  | bare tok _ _ => tok

/-- The copy fits its buffer.  A string that fills it is left before its closing
quote, which is then read as the first one of a key. -/
def Fits : JsonScalar → Prop
  | str is => (stripped is).length < 255
  | bare tok _ _ => tok.length < 256

end JsonScalar

/-- White space. -/
structure Blank where
  text : List Char
  isSpace : ∀ c ∈ text, isSpace c = true

/-- A member, with the white space around its parts. -/
structure JsonMember where
  before : Blank
  key : List StrItem
  behindKey : Blank
  beforeValue : Blank
  value : JsonScalar
  after : Blank

namespace JsonMember

/-- The text of a member. -/
def text (m : JsonMember) : List Char :=
  m.before.text ++ '"' :: (spelled m.key ++ '"' :: (m.behindKey.text ++ ':' ::
    (m.beforeValue.text ++ (m.value.text ++ m.after.text))))

/-- Key and value as they are copied. -/
def pair (m : JsonMember) : Pair := (stripped m.key, m.value.copied)

/-- Both copies fit. -/
def Fits (m : JsonMember) : Prop := (stripped m.key).length < maxWordLen ∧ m.value.Fits

end JsonMember

/-! ## §3. Objects and arrays. -/

/-- An object with the white space around it; `inside` is that of `{ }`. -/
structure JsonObject where
  before : Blank
  inside : Blank
  members : List JsonMember
  after : Blank

/-- Members with commas between them. -/
def membersText : List JsonMember → List Char
  | [] => []
  | [m] => m.text
  | m :: m' :: ms => m.text ++ ',' :: membersText (m' :: ms)

namespace JsonObject

/-- What stands between the braces. -/
def body (o : JsonObject) : List Char :=
  if o.members = [] then o.inside.text else membersText o.members

/-- The text of an object. -/
def text (o : JsonObject) : List Char := o.before.text ++ '{' :: (o.body ++ '}' :: o.after.text)

end JsonObject

/-- Objects with commas between them. -/
def objectsText : List JsonObject → List Char
  | [] => []
  | [o] => o.text
  | o :: o' :: os => o.text ++ ',' :: objectsText (o' :: os)

/-- An array of flat objects; `inside` is the white space of `[ ]`, `behind`
whatever follows the array. -/
structure JsonArray where
  before : Blank
  inside : Blank
  objects : List JsonObject
  behind : List Char

/-- The text of an array. -/
def JsonArray.text (a : JsonArray) : List Char :=
  a.before.text ++ '[' :: ((if a.objects = [] then a.inside.text else objectsText a.objects)
    ++ ']' :: a.behind)

/-! ## §4. Reading a text. -/

theorem skipSpace_append {w s : List Char} (hw : ∀ c ∈ w, isSpace c) (hs : HeadNot isSpace s) :
    skipSpace (w ++ s) = s := by
  unfold skipSpace
  induction w with
  | nil =>
    cases s with
    | nil => rfl
    | cons c s => exact dropWhile_cons_of_neg (by rw [hs c rfl]; decide)
  | cons c w ih =>
    rw [cons_append, dropWhile_cons_of_pos (hw c mem_cons_self)]
    exact ih (forall_mem_cons.mp hw).2

/-- White space in front of a character that is not. -/
theorem skipSpace_blank (b : Blank) {c : Char} (hc : isSpace c = false) (s : List Char) :
    skipSpace (b.text ++ c :: s) = c :: s :=
  skipSpace_append b.isSpace (by rintro d ⟨rfl⟩; exact hc)

theorem extractJsonString_char {c : Char} (hback : c ≠ '\\') (hquote : c ≠ '"') (n : Nat) (s : List Char) :
    extractJsonString (n + 1) (c :: s)
      = (c :: (extractJsonString n s).1, (extractJsonString n s).2) := by
  conv_lhs => unfold extractJsonString
  rw [if_neg hback, if_neg hquote]

theorem extractJsonString_escape (n : Nat) (e : Char) (s : List Char) :
    extractJsonString (n + 1) ('\\' :: e :: s)
      = (e :: (extractJsonString n s).1, (extractJsonString n s).2) := by
  rw [extractJsonString, if_pos rfl]

theorem isHex_plain {c : Char} (h : isHex c) : c ≠ '\\' ∧ c ≠ '"' := by
  constructor
  · rintro rfl
    cases h
  · rintro rfl
    cases h

/-- A string whose copy leaves room for one more character is read to its
closing quote. -/
theorem extractJsonString_spelled (rest : List Char) : ∀ (is : List StrItem) {n : Nat},
    (stripped is).length < n → extractJsonString n (spelled is ++ '"' :: rest) = (stripped is, rest)
  | [], n + 1, _ => by
    show extractJsonString (n + 1) ('"' :: rest) = _
    unfold extractJsonString
    rfl
  | .char c hc :: is, n + 1, hn => by
    have hlen : (stripped is).length < n := by
      change (stripped is).length + 1 < n + 1 at hn
      omega
    have hplain : c ≠ '"' ∧ c ≠ '\\' := by
      unfold isStrChar at hc
      simp only [Bool.and_eq_true, decide_eq_true_eq] at hc
      exact ⟨hc.1.2, hc.2⟩
    show extractJsonString (n + 1) (c :: (spelled is ++ '"' :: rest)) = _
    rw [extractJsonString_char hplain.2 hplain.1, extractJsonString_spelled rest is hlen]
    rfl
  | .escape e _ :: is, n + 1, hn => by
    have hlen : (stripped is).length < n := by
      change (stripped is).length + 1 < n + 1 at hn
      omega
    show extractJsonString (n + 1) ('\\' :: e.1 :: (spelled is ++ '"' :: rest)) = _
    rw [extractJsonString_escape, extractJsonString_spelled rest is hlen]
    rfl
  | .unicode a b c d hhex :: is, n, hn => by
    change (stripped is).length + 1 + 1 + 1 + 1 + 1 < n at hn
    obtain ⟨n, rfl⟩ : ∃ k, n = k + 5 := ⟨n - 5, by omega⟩
    have hall : isHex a ∧ isHex b ∧ isHex c ∧ isHex d := by
      simpa using hhex
    obtain ⟨ha, hb, hc, hd⟩ := hall
    show extractJsonString (n + 5) ('\\' :: 'u' :: a :: b :: c :: d :: (spelled is ++ '"' :: rest)) = _
    rw [extractJsonString_escape, extractJsonString_char (isHex_plain ha).1 (isHex_plain ha).2,
      extractJsonString_char (isHex_plain hb).1 (isHex_plain hb).2,
      extractJsonString_char (isHex_plain hc).1 (isHex_plain hc).2,
      extractJsonString_char (isHex_plain hd).1 (isHex_plain hd).2,
      extractJsonString_spelled rest is (by omega)]
    rfl

/-- Nothing that opens, closes or separates. -/
def isFlat (c : Char) : Bool := c ≠ ',' && c ≠ '}' && c ≠ '{' && c ≠ '[' && c ≠ ']'

theorem copyValue_flat {sep : Char} (hsep : sep = ',' ∨ sep = '}') (rest : List Char) :
    ∀ {v : List Char} (n : Nat), (∀ c ∈ v, isFlat c) →
      copyValue n 0 (v ++ sep :: rest) = (v.take n, v.drop n ++ sep :: rest)
  | v, 0, _ => by
    rfl
  | [], n + 1, _ => by
    show copyValue (n + 1) 0 (sep :: rest) = _
    rw [copyValue, if_pos ⟨rfl, hsep⟩]
    rfl
  | c :: v, n + 1, hv => by
    have hc := hv c mem_cons_self
    unfold isFlat at hc
    simp only [Bool.and_eq_true, decide_eq_true_eq] at hc
    obtain ⟨⟨⟨⟨h1, h2⟩, h3⟩, h4⟩, h5⟩ := hc
    have hstop : ¬ (c = ',' ∨ c = '}') := by
      rintro (h | h)
      · exact h1 h
      · exact h2 h
    have hopen : ¬ (c = '{' ∨ c = '[') := by
      rintro (h | h)
      · exact h3 h
      · exact h4 h
    have hclose : ¬ (c = '}' ∨ c = ']') := by
      rintro (h | h)
      · exact h2 h
      · exact h5 h
    have ih := copyValue_flat hsep rest n (forall_mem_cons.mp hv).2
    show copyValue (n + 1) 0 (c :: (v ++ sep :: rest)) = _
    rw [copyValue, if_neg fun h => hstop h.2]
    dsimp only
    rw [if_neg hopen, if_neg hclose, ih]
    rfl

theorem trimEnd_append {tok w : List Char} (htok : ∀ c ∈ tok, isSpace c = false)
    (hw : ∀ c ∈ w, isSpace c) : trimEnd (tok ++ w) = tok := by
  have hhead : HeadNot isSpace tok.reverse := by
    intro c hc
    exact htok c (mem_reverse.mp (mem_of_mem_head? hc))
  have hskip := skipSpace_append (w := w.reverse) (fun c hc => hw c (mem_reverse.mp hc)) hhead
  unfold skipSpace at hskip
  unfold trimEnd
  rw [reverse_append, hskip, reverse_reverse]

theorem isBareChar_spec {c : Char} (h : isBareChar c) :
    isSpace c = false ∧ isFlat c ∧ c ≠ '"' := by
  unfold isBareChar at h
  simp only [Bool.and_eq_true, Bool.not_eq_true', decide_eq_true_eq] at h
  obtain ⟨⟨⟨⟨⟨⟨⟨h0, h1⟩, h2⟩, h3⟩, h4⟩, h5⟩, h6⟩, -⟩ := h
  exact ⟨h0, by simp [isFlat, h1, h2, h3, h4, h5], h6⟩

theorem isFlat_of_isSpace {c : Char} (h : isSpace c) : isFlat c := by
  have hle := isSpace_toNat h
  unfold isFlat
  simp only [Bool.and_eq_true, decide_eq_true_eq]
  refine ⟨⟨⟨⟨?_, ?_⟩, ?_⟩, ?_⟩, ?_⟩
  all_goals
    rintro rfl
    exact absurd hle (by decide)

/-- What follows a value: white space, then a comma or the end of the object. -/
theorem jsonValue_text {v : JsonScalar} (hv : v.Fits) (after : Blank) {sep : Char}
    (hsep : sep = ',' ∨ sep = '}') (rest : List Char) :
    ∃ s, jsonValue (v.text ++ (after.text ++ sep :: rest)) = (v.copied, s) ∧
      skipSpace s = sep :: rest := by
  have hstop : isSpace sep = false := by
    rcases hsep with rfl | rfl
    · decide
    · decide
  cases v with
  | str is =>
    refine ⟨after.text ++ sep :: rest, ?_, skipSpace_blank after hstop rest⟩
    show extractJsonString 255 (spelled is ++ ['"'] ++ (after.text ++ sep :: rest)) = _
    rw [append_assoc]
    exact extractJsonString_spelled _ is hv
  | bare tok hne htok =>
    -- the copy runs on into the white space, which is then trimmed
    have hcopy := copyValue_flat hsep rest (v := tok ++ after.text) 255 (by
      intro c hc
      rcases mem_append.mp hc with hc | hc
      · exact (isBareChar_spec (htok c hc)).2.1
      · exact isFlat_of_isSpace (after.isSpace c hc))
    have htake : (tok ++ after.text).take 255 = tok ++ after.text.take (255 - tok.length) := by
      have hle : tok.length ≤ 255 := Nat.le_of_lt_succ hv
      rw [take_append, take_of_length_le hle]
    have hdrop : (tok ++ after.text).drop 255 = after.text.drop (255 - tok.length) := by
      have hle : tok.length ≤ 255 := Nat.le_of_lt_succ hv
      rw [drop_append, drop_of_length_le hle, nil_append]
    rw [htake, hdrop] at hcopy
    refine ⟨after.text.drop (255 - tok.length) ++ sep :: rest, ?_, ?_⟩
    · have hassoc : tok ++ (after.text ++ sep :: rest) = tok ++ after.text ++ sep :: rest :=
        (append_assoc _ _ _).symm
      have hquote : ∀ r, tok ++ (after.text ++ sep :: rest) ≠ '"' :: r := by
        intro r heq
        obtain ⟨c, t, rfl⟩ := exists_cons_of_ne_nil hne
        exact (isBareChar_spec (htok c mem_cons_self)).2.2 (cons.inj heq).1
      have hbranch : jsonValue (tok ++ (after.text ++ sep :: rest))
          = (trimEnd (copyValue 255 0 (tok ++ (after.text ++ sep :: rest))).1,
            (copyValue 255 0 (tok ++ (after.text ++ sep :: rest))).2) := by
        unfold jsonValue
        split
        · next s heq => exact absurd heq (hquote s)
        · rfl
      show jsonValue (tok ++ (after.text ++ sep :: rest)) = (tok, _)
      rw [hbranch, hassoc, hcopy]
      rw [trimEnd_append (fun c hc => (isBareChar_spec (htok c hc)).1)
        fun c hc => after.isSpace c (mem_of_mem_take hc)]
    · exact skipSpace_append (fun c hc => after.isSpace c (mem_of_mem_drop hc))
        (by rintro d ⟨rfl⟩; exact hstop)

theorem jsonPair_eq {s k r t v u : List Char} (hk : extractJsonString maxWordLen s = (k, r))
    (hr : skipSpace r = ':' :: t) (hv : jsonValue (skipSpace t) = (v, u)) :
    jsonPair ('"' :: s) = some ((k, v), skipComma (skipSpace u)) := by
  simp only [jsonPair, hk, hr, hv]

/-- **One member**, and what is left behind it and its comma. -/
theorem jsonPair_member {m : JsonMember} (hm : m.Fits) {sep : Char} (hsep : sep = ',' ∨ sep = '}')
    (rest : List Char) :
    ∃ c s, skipSpace (m.text ++ sep :: rest) = c :: s ∧ c ≠ '}' ∧
      jsonPair (c :: s) = some (m.pair, skipComma (sep :: rest)) := by
  have htext : m.text ++ sep :: rest = m.before.text ++ '"' :: (spelled m.key ++ '"' ::
      (m.behindKey.text ++ ':' :: (m.beforeValue.text ++ (m.value.text
        ++ (m.after.text ++ sep :: rest))))) := by simp [JsonMember.text]
  have hstart : HeadNot isSpace (m.value.text ++ (m.after.text ++ sep :: rest)) := by
    cases hv : m.value with
    | str is =>
      rintro c ⟨rfl⟩
      decide
    | bare tok hne htok =>
      obtain ⟨c, t, rfl⟩ := exists_cons_of_ne_nil hne
      rintro d ⟨rfl⟩
      exact (isBareChar_spec (htok c mem_cons_self)).1
  obtain ⟨s, hvalue, hskip⟩ := jsonValue_text hm.2 m.after hsep rest
  have hkey := extractJsonString_spelled (m.behindKey.text ++ ':' :: (m.beforeValue.text
    ++ (m.value.text ++ (m.after.text ++ sep :: rest)))) m.key hm.1
  rw [htext, skipSpace_blank m.before (by decide)]
  refine ⟨'"', _, rfl, by decide, ?_⟩
  rw [jsonPair_eq hkey (skipSpace_blank m.behindKey (by decide) _)
    (by rw [skipSpace_append m.beforeValue.isSpace hstart, hvalue]), hskip]
  rfl

/-- The members of an object up to the room for them. -/
theorem jsonPairs_members (rest : List Char) : ∀ (ms : List JsonMember) (n : Nat), ms ≠ [] →
    (∀ m ∈ ms.take n, m.Fits) →
    jsonPairs n (membersText ms ++ '}' :: rest) = some ((ms.take n).map JsonMember.pair,
        if ms.length ≤ n then '}' :: rest else membersText (ms.drop n) ++ '}' :: rest)
  | [], _, hne, _ => absurd rfl hne
  | m :: ms, 0, _, _ => rfl
  | [m], n + 1, _, hfit => by
    obtain ⟨c, s, hskip, hc, hpair⟩ := jsonPair_member (hfit m mem_cons_self) (.inr rfl) rest
    show jsonPairs (n + 1) (m.text ++ '}' :: rest) = _
    rw [jsonPairs, hskip]
    dsimp only
    rw [if_neg hc, hpair]
    dsimp only
    have hend : jsonPairs n (skipComma ('}' :: rest)) = some ([], '}' :: rest) := by
      show jsonPairs n ('}' :: rest) = _
      cases n with
      | zero => rfl
      | succ n =>
        rw [jsonPairs]
        exact if_pos rfl
    rw [hend, take_succ_cons, take_nil]
    rfl
  | m :: m' :: ms, n + 1, _, hfit => by
    have ih := jsonPairs_members rest (m' :: ms) n (cons_ne_nil _ _)
      fun p hp => hfit p (mem_cons_of_mem m hp)
    obtain ⟨c, s, hskip, hc, hpair⟩ := jsonPair_member (hfit m mem_cons_self) (.inl rfl)
      (membersText (m' :: ms) ++ '}' :: rest)
    have hassoc : membersText (m :: m' :: ms) ++ '}' :: rest
        = m.text ++ ',' :: (membersText (m' :: ms) ++ '}' :: rest) := by simp [membersText]
    rw [hassoc, jsonPairs, hskip]
    dsimp only
    rw [if_neg hc, hpair]
    dsimp only
    rw [show skipComma (',' :: (membersText (m' :: ms) ++ '}' :: rest))
      = membersText (m' :: ms) ++ '}' :: rest from rfl, ih]
    by_cases hle : (m' :: ms).length ≤ n
    · rw [if_pos hle, if_pos (by rw [length_cons]; omega)]
      rfl
    · rw [if_neg hle, if_neg (by rw [length_cons]; omega)]
      rfl

/-! ## §5. Reading objects and arrays. -/

namespace JsonObject

/-- The keys as they are copied. -/
def copiedKeys (o : JsonObject) : List (List Char) := o.members.map fun m => stripped m.key

/-- The values as they are copied. -/
def copiedValues (o : JsonObject) : List (List Char) := o.members.map fun m => m.value.copied

/-- The members that are read fit. -/
def Fits (o : JsonObject) : Prop := ∀ m ∈ o.members.take maxPairs, m.Fits

end JsonObject

/-- The objects that are read fit: none is read behind one with too many members. -/
def ObjectsFit : List JsonObject → Prop
  | [] => True
  | o :: os => o.Fits ∧ (o.members.length ≤ maxPairs → ObjectsFit os)

/-- A member starts with white space or its quote. -/
theorem membersText_head {ms : List JsonMember} (hne : ms ≠ []) (rest : List Char) :
    (membersText ms ++ rest).head? ≠ some '}' ∧
      ∃ s, skipSpace (membersText ms ++ rest) = '"' :: s := by
  obtain ⟨m, ms, rfl⟩ := exists_cons_of_ne_nil hne
  obtain ⟨u, hu⟩ : ∃ u, m.text = m.before.text ++ '"' :: u := ⟨_, rfl⟩
  obtain ⟨v, hv⟩ : ∃ v, membersText (m :: ms) = m.text ++ v := by
    cases ms with
    | nil => exact ⟨[], (append_nil _).symm⟩
    | cons m' ms => exact ⟨_, rfl⟩
  obtain ⟨s, hs⟩ : ∃ s, membersText (m :: ms) ++ rest = m.before.text ++ '"' :: s := by
    rw [hv, hu]
    exact ⟨u ++ v ++ rest, by simp⟩
  rw [hs]
  refine ⟨?_, s, skipSpace_blank m.before (by decide) s⟩
  cases hb : m.before.text with
  | nil => simp
  | cons c t =>
    have hc := m.before.isSpace c (by rw [hb]; exact mem_cons_self)
    rintro ⟨rfl⟩
    cases hc

theorem jsonPairs_body {o : JsonObject} (ho : o.Fits) (rest : List Char) :
    jsonPairs maxPairs (o.body ++ '}' :: rest) =
      some ((o.members.take maxPairs).map JsonMember.pair,
        if o.members.length ≤ maxPairs then '}' :: rest
        else membersText (o.members.drop maxPairs) ++ '}' :: rest) := by
  by_cases hne : o.members = []
  · have hbody : o.body = o.inside.text := if_pos hne
    rw [hbody, hne]
    show jsonPairs (31 + 1) _ = _
    rw [jsonPairs, skipSpace_blank o.inside (by decide)]
    rfl
  · have hbody : o.body = membersText o.members := if_neg hne
    rw [hbody]
    exact jsonPairs_members rest o.members maxPairs hne ho

/-- One turn on an object with room for its members. -/
theorem jsonArrayLoop_object {o : JsonObject} (ho : o.Fits) (hlen : o.members.length ≤ maxPairs)
    {sep : Char} (hsep : sep = ',' ∨ sep = ']') (fuel : Nat) (h : Option Nat)
    (out rest : List Char) :
    jsonArrayLoop (fuel + 1) h out (o.text ++ sep :: rest) =
      jsonArrayLoop fuel (some (h.getD o.members.length))
        ((if h = none then jsonHeader o.copiedKeys else out)
          ++ jsonRow (h.getD o.members.length) o.copiedValues)
        (skipComma (sep :: rest)) := by
  have htext : o.text ++ sep :: rest
      = o.before.text ++ '{' :: (o.body ++ '}' :: (o.after.text ++ sep :: rest)) := by
    simp [JsonObject.text]
  have hstop : isSpace sep = false := by
    rcases hsep with rfl | rfl
    · decide
    · decide
  have hkeys : (o.members.map JsonMember.pair).map (·.1) = o.copiedKeys := map_map
  have hvalues : (o.members.map JsonMember.pair).map (·.2) = o.copiedValues := map_map
  rw [htext, jsonArrayLoop, skipSpace_blank o.before (by decide)]
  dsimp only
  rw [if_neg (by decide), if_pos rfl, jsonPairs_body ho]
  dsimp only
  rw [if_pos hlen, take_of_length_le hlen, hkeys, hvalues, length_map, head?_cons,
    if_pos rfl, tail_cons, skipSpace_blank o.after hstop]

/-- With more members than there is room for, the next one stands where an
object or the end of the array is expected. -/
theorem jsonArrayLoop_crowded {o : JsonObject} (ho : o.Fits) (hlen : maxPairs < o.members.length)
    (fuel : Nat) (h : Option Nat) (out rest : List Char) :
    jsonArrayLoop (fuel + 2) h out (o.text ++ rest) = none := by
  have htext : o.text ++ rest
      = o.before.text ++ '{' :: (o.body ++ '}' :: (o.after.text ++ rest)) := by
    simp [JsonObject.text]
  have hleft : o.members.drop maxPairs ≠ [] := by
    intro heq
    have hdrop := congrArg length heq
    rw [length_drop, length_nil] at hdrop
    omega
  obtain ⟨hhead, s, hs⟩ := membersText_head hleft ('}' :: (o.after.text ++ rest))
  rw [htext, jsonArrayLoop, skipSpace_blank o.before (by decide)]
  dsimp only
  rw [if_neg (by decide), if_pos rfl, jsonPairs_body ho]
  dsimp only
  rw [if_neg (show ¬ o.members.length ≤ maxPairs by omega), if_neg hhead, hs]
  show jsonArrayLoop (fuel + 1) _ _ ('"' :: s) = none
  rfl

theorem jsonArrayLoop_end (fuel : Nat) (h : Option Nat) (out tail : List Char) :
    jsonArrayLoop (fuel + 1) h out (']' :: tail) = some (h, out) := by
  rfl

/-- **The loop over the objects.**  Induction on them; the first one fixes the
number of columns, and one object too large makes the loop give up. -/
theorem jsonArrayLoop_objects (tail : List Char) : ∀ (os : List JsonObject) (o : JsonObject)
    (fuel : Nat) (h : Option Nat) (out : List Char), ObjectsFit (o :: os) →
    (o :: os).length < fuel →
    jsonArrayLoop fuel h out (objectsText (o :: os) ++ ']' :: tail) =
      if ∀ p ∈ o :: os, p.members.length ≤ maxPairs then
        some (some (h.getD o.members.length), (if h = none then jsonHeader o.copiedKeys else out)
            ++ (o :: os).flatMap fun p => jsonRow (h.getD o.members.length) p.copiedValues)
      else none
  | os, o, 0, _, _, _, hfuel => absurd hfuel (Nat.not_lt_zero _)
  | os, o, 1, _, _, _, hfuel => by
    rw [length_cons] at hfuel
    omega
  | [], o, fuel + 2, h, out, ⟨ho, _⟩, _ => by
    by_cases hlen : o.members.length ≤ maxPairs
    · have hall : ∀ p ∈ [o], p.members.length ≤ maxPairs := by
        intro p hp
        rw [mem_singleton.mp hp]
        exact hlen
      rw [if_pos hall, flatMap_singleton]
      show jsonArrayLoop (fuel + 2) h out (o.text ++ ']' :: tail) = _
      rw [jsonArrayLoop_object ho hlen (.inr rfl)]
      exact jsonArrayLoop_end fuel _ _ tail
    · rw [if_neg fun hall => hlen (hall o mem_cons_self)]
      exact jsonArrayLoop_crowded ho (by omega) fuel h out _
  | o' :: os, o, fuel + 2, h, out, ⟨ho, hfit⟩, hfuel => by
    have hassoc : objectsText (o :: o' :: os) ++ ']' :: tail
        = o.text ++ ',' :: (objectsText (o' :: os) ++ ']' :: tail) := by simp [objectsText]
    rw [hassoc]
    by_cases hlen : o.members.length ≤ maxPairs
    · have ih := jsonArrayLoop_objects tail os o' (fuel + 1) (some (h.getD o.members.length))
        ((if h = none then jsonHeader o.copiedKeys else out)
          ++ jsonRow (h.getD o.members.length) o.copiedValues)
        (hfit hlen) (by simp only [length_cons] at hfuel ⊢; omega)
      rw [jsonArrayLoop_object ho hlen (.inl rfl)]
      refine ih.trans ?_
      by_cases hall : ∀ p ∈ o' :: os, p.members.length ≤ maxPairs
      · have hall' : ∀ p ∈ o :: o' :: os, p.members.length ≤ maxPairs := by
          exact forall_mem_cons.mpr ⟨hlen, hall⟩
        have hcons : (o :: o' :: os).flatMap (fun p => jsonRow (h.getD o.members.length) p.copiedValues)
            = jsonRow (h.getD o.members.length) o.copiedValues
              ++ (o' :: os).flatMap fun p => jsonRow (h.getD o.members.length) p.copiedValues :=
          flatMap_cons
        rw [if_pos hall, if_pos hall', hcons, ← append_assoc]
        rfl
      · rw [if_neg hall, if_neg fun h' => hall fun p hp => h' p (mem_cons_of_mem o hp)]
    · rw [if_neg fun hall => hlen (hall o mem_cons_self)]
      exact jsonArrayLoop_crowded ho (by omega) fuel h out _

end Toke.Compress
