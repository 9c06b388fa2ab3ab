/-
  Toke.Stdlib.JwtRoundTrip — **WHAT VERIFYING A SIGNED TOKEN READS.**

  The payload is a sequence of members `"key":"value"` and `"key":number`.
  A search for a key passes every other member whose text has no quote; only
  the audience, which stands last and is not read, may hide a look-alike.

  `claims_survive_iff` says when the claims come back as they were signed.
-/
import Toke.Stdlib.Jwt

namespace Toke.Stdlib

open List Searching

variable {x : UInt8} {k v d s : List UInt8}

/-! ## §1. The payload. -/

/-- `"key":"value"` -/
def strMember (key value : List UInt8) : List UInt8 :=
  34 :: (key ++ 34 :: 58 :: 34 :: (value ++ [34]))

/-- `"key":number` -/
def intMember (key digits : List UInt8) : List UInt8 := 34 :: (key ++ 34 :: 58 :: digits)

/-- Subject and issuer, each followed by a comma. -/
def leadText (c : JwtClaims) : List UInt8 :=
  (c.subject.toList.flatMap fun s => strMember (ascii "sub") s ++ [44]) ++
    c.issuer.toList.flatMap fun s => strMember (ascii "iss") s ++ [44]

/-- The audience and the closing brace. -/
def audienceText (c : JwtClaims) : List UInt8 :=
  (c.audience.toList.flatMap fun s => 44 :: strMember (ascii "aud") s) ++ [125]

/-- The expiry, if there is one. -/
def expiryText (c : JwtClaims) : List UInt8 :=
  if c.expiresAt ≠ 0 then 44 :: intMember (ascii "exp") (decimal c.expiresAt) else []

/-- What follows subject and issuer. -/
abbrev numbersText (c : JwtClaims) (iat : Int64) : List UInt8 :=
  intMember (ascii "iat") (decimal iat) ++ (expiryText c ++ audienceText c)

/-- The payload without the limit of the buffer. -/
def payloadText (c : JwtClaims) (iat : Int64) : List UInt8 :=
  123 :: (leadText c ++ (intMember (ascii "iat") (decimal iat) ++ (expiryText c ++ audienceText c)))

/-- The openings of the members as they are printed. -/
theorem ascii_openings : ascii "\"sub\":\"" = 34 :: (ascii "sub" ++ [34, 58, 34]) ∧
    ascii "\"iss\":\"" = 34 :: (ascii "iss" ++ [34, 58, 34]) ∧
    ascii "\"iat\":" = 34 :: (ascii "iat" ++ [34, 58]) ∧
    ascii ",\"exp\":" = 44 :: 34 :: (ascii "exp" ++ [34, 58]) ∧
    ascii ",\"aud\":\"" = 44 :: 34 :: (ascii "aud" ++ [34, 58, 34]) := by decide +kernel

theorem ascii_marks : ascii "\x7b" = [123] ∧ ascii "\x7d" = [125] ∧ ascii "," = [44] ∧
    ascii "\"" = [34] := by decide +kernel

theorem flatten_payloadPieces (c : JwtClaims) (iat : Int64) :
    (payloadPieces c iat).flatten = payloadText c iat := by
  obtain ⟨sub, iss, i, e, aud⟩ := c
  obtain ⟨hsub, hiss, hiat, hexp, haud⟩ := ascii_openings
  obtain ⟨hopen, hclose, hcomma, hquote⟩ := ascii_marks
  unfold payloadPieces payloadText leadText expiryText audienceText strMember intMember
  rw [hsub, hiss, hiat, hexp, haud, hopen, hclose, hcomma, hquote]
  cases sub <;> cases iss <;> cases aud <;> by_cases he : e = 0 <;> simp [he]

theorem length_decimal (i : Int64) : (decimal i).length ≤ 20 := by
  have hlow := i.le_toInt
  have hhigh := i.toInt_lt
  have hdigits : (decimalNat i.toInt.natAbs).length ≤ 19 := by
    unfold decimalNat
    by_cases hzero : i.toInt.natAbs = 0
    · rw [if_pos hzero]
      decide
    · rw [if_neg hzero, length_map, length_reverse]
      exact (Nat.digits_length_le_iff (by decide) _).mpr (by omega)
  unfold decimal
  by_cases hneg : i.toInt < 0
  · rw [if_pos hneg, length_cons]
    omega
  · rw [if_neg hneg]
    omega

/-- **The payload fits its buffer.** -/
theorem payloadJson_eq (c : JwtClaims) (iat : Int64) : payloadJson c iat = payloadText c iat := by
  have hfits : (payloadPieces c iat).flatten.length < payloadSize c := by
    rw [flatten_payloadPieces]
    have hiat := length_decimal iat
    have hkeys : (ascii "sub").length = 3 ∧ (ascii "iss").length = 3 ∧ (ascii "iat").length = 3 ∧
        (ascii "exp").length = 3 ∧ (ascii "aud").length = 3 := by decide +kernel
    obtain ⟨sub, iss, i, e, aud⟩ := c
    have hexp := length_decimal e
    unfold payloadText leadText expiryText audienceText strMember intMember payloadSize
    cases sub <;> cases iss <;> cases aud <;> by_cases he : e = 0 <;> simp [he] <;> omega
  unfold payloadJson
  rw [(Printing.printAll_fits hfits).1, flatten_payloadPieces]

/-! ## §2. Passing over members. -/

/-- A key without the marks that surround it. -/
structure IsKey (key : List UInt8) : Prop where
  quote : 34 ∉ key
  comma : key.head? ≠ some 44
  colon : key.head? ≠ some 58
  ne : key ≠ []

/-- The keys of the payload. -/
theorem isKey_all : IsKey (ascii "sub") ∧ IsKey (ascii "iss") ∧ IsKey (ascii "iat") ∧
    IsKey (ascii "exp") ∧ IsKey (ascii "aud") :=
  have h : ∀ {key : List UInt8}, (34 ∉ key ∧ key.head? ≠ some 44 ∧ key.head? ≠ some 58 ∧ key ≠ []) →
      IsKey key := fun h => ⟨h.1, h.2.1, h.2.2.1, h.2.2.2⟩
  ⟨h (by decide +kernel), h (by decide +kernel), h (by decide +kernel), h (by decide +kernel),
    h (by decide +kernel)⟩

/-- The pattern that is searched for; `w` is the quote of a text, or nothing. -/
def pattern (key w : List UInt8) : List UInt8 := 34 :: (key ++ 34 :: 58 :: w)

section

variable {key w : List UInt8}

theorem head_ne_of_start {t : List UInt8} (hne : key ≠ []) (hx : key.head? ≠ some x)
    (u : List UInt8) : ¬ key ++ u <+: x :: t := by
  obtain ⟨y, key, rfl⟩ := exists_cons_of_ne_nil hne
  intro h
  rw [cons_append, cons_prefix_cons] at h
  exact hx (by rw [head?_cons, h.1])

/-- The quote before a mark is not the opening of the key. -/
theorem pass_quote (hk : IsKey key) (hx : x = 44 ∨ x = 58) (t : List UInt8) :
    afterFirst (pattern key w) (34 :: x :: t) = afterFirst (pattern key w) (x :: t) := by
  refine afterFirst_pass (head_ne_of_start hk.ne ?_ _)
  rcases hx with rfl | rfl
  · exact hk.comma
  · exact hk.colon

/-- Another key is passed, up to its colon. -/
theorem pass_key (hk : IsKey key) (hquote : 34 ∉ k) (hne : key ≠ k)
    (t : List UInt8) : afterFirst (pattern key w) (34 :: (k ++ 34 :: 58 :: t)) =
      afterFirst (pattern key w) t := by
  have hno : ¬ key ++ 34 :: 58 :: w <+: k ++ 34 :: 58 :: t := fun h =>
    hne ((delimited_iff hk.quote hquote).mp h).1
  unfold pattern
  rw [afterFirst_pass hno, afterFirst_skip hquote]
  have hcolon := pass_quote (w := w) hk (.inr rfl) t
  unfold pattern at hcolon
  rw [hcolon, afterFirst_next (fun h => by simp [cons_prefix_cons] at h)]

/-- A member with another key and a value without quotes is passed. -/
theorem pass_strMember (hk : IsKey key) (hquote : 34 ∉ k) (hne : key ≠ k)
    (hv : 34 ∉ v) (t : List UInt8) :
    afterFirst (pattern key w) (strMember k v ++ 44 :: t) = afterFirst (pattern key w) (44 :: t) := by
  have hassoc : strMember k v ++ 44 :: t = 34 :: (k ++ 34 :: 58 :: (34 :: (v ++ 34 :: 44 :: t))) := by
    simp [strMember]
  rw [hassoc, pass_key hk hquote hne]
  -- the value itself may read like the key, but what follows it is a comma
  have hno : ¬ key ++ 34 :: 58 :: w <+: v ++ 34 :: 44 :: t := by
    intro h
    have hcomma := ((delimited_iff hk.quote hv).mp h).2
    simp [cons_prefix_cons] at hcomma
  have hcomma := pass_quote (w := w) hk (.inl rfl) t
  unfold pattern at hcomma ⊢
  rw [afterFirst_pass hno, afterFirst_skip hv, hcomma]

/-- A number with another key is passed. -/
theorem pass_intMember (hk : IsKey key) (hquote : 34 ∉ k) (hne : key ≠ k)
    (hd : 34 ∉ d) (t : List UInt8) :
    afterFirst (pattern key w) (intMember k d ++ t) = afterFirst (pattern key w) t := by
  have hassoc : intMember k d ++ t = 34 :: (k ++ 34 :: 58 :: (d ++ t)) := by simp [intMember]
  rw [hassoc, pass_key hk hquote hne]
  exact afterFirst_skip hd t

theorem pass_comma (t : List UInt8) :
    afterFirst (pattern key w) (44 :: t) = afterFirst (pattern key w) t :=
  afterFirst_next fun h => by simp [pattern] at h

theorem not_mem_decimal (hx : isDecimal x = false) (hminus : x ≠ 45) (i : Int64) :
    x ∉ decimal i := by
  have hnat : ∀ n, x ∉ decimalNat n := by
    intro n h
    rw [decimalNat_isDecimal n x h] at hx
    cases hx
  unfold decimal
  by_cases hneg : i.toInt < 0
  · rw [if_pos hneg, mem_cons, not_or]
    exact ⟨hminus, hnat _⟩
  · rw [if_neg hneg]
    exact hnat _

theorem quote_not_mem_decimal (i : Int64) : 34 ∉ decimal i :=
  not_mem_decimal (by decide) (by decide) i

end

/-! ## §3. The claims that are read. -/

/-- A claim that is absent or has no quote. -/
def QuoteFree (o : Option (List UInt8)) : Prop := ∀ s, o = some s → 34 ∉ s

section

variable {key w : List UInt8}

theorem pass_optional (hk : IsKey key) (hquote : 34 ∉ k) (hne : key ≠ k)
    {o : Option (List UInt8)} (ho : QuoteFree o) (t : List UInt8) :
    afterFirst (pattern key w) ((o.toList.flatMap fun s => strMember k s ++ [44]) ++ t) =
      afterFirst (pattern key w) t := by
  cases o with
  | none => rfl
  | some s =>
    rw [Option.toList_some, flatMap_singleton, append_assoc, singleton_append,
      pass_strMember hk hquote hne (ho s rfl), pass_comma]

theorem pass_brace (t : List UInt8) :
    afterFirst (pattern key w) (123 :: t) = afterFirst (pattern key w) t :=
  afterFirst_next fun h => by simp [pattern] at h

/-- The expiry is passed by the search for another key. -/
theorem pass_expiry (hk : IsKey key) (hne : key ≠ ascii "exp") (c : JwtClaims) (t : List UInt8) :
    afterFirst (pattern key w) (expiryText c ++ t) = afterFirst (pattern key w) t := by
  unfold expiryText
  by_cases hexp : c.expiresAt ≠ 0
  · rw [if_pos hexp, cons_append, pass_comma,
      pass_intMember hk isKey_all.2.2.2.1.quote hne (quote_not_mem_decimal _)]
  · rw [if_neg hexp]
    rfl

theorem found_str (key v t : List UInt8) :
    afterFirst (pattern key [34]) (strMember key v ++ t) = some (v ++ 34 :: t) := by
  have hsplit : strMember key v ++ t = pattern key [34] ++ (v ++ 34 :: t) := by
    simp [strMember, pattern]
  rw [hsplit, afterFirst_here]

theorem found_int (key d t : List UInt8) :
    afterFirst (pattern key []) (intMember key d ++ t) = some (d ++ t) := by
  have hsplit : intMember key d ++ t = pattern key [] ++ (d ++ t) := by simp [intMember, pattern]
  rw [hsplit, afterFirst_here]

/-- Up to the first quote. -/
def quotedValue (p : List UInt8) : Option (List UInt8) :=
  if 34 ∈ p then some ((p.takeWhile (· ≠ 34)).take 511) else none

/-- `json_get_int64` skips blanks before the number. -/
def numberAt (p : List UInt8) : Option Int64 := strtoll (p.dropWhile isBlank)

theorem take_pattern (hk : key.length ≤ 100) (hw : w.length ≤ 1) :
    (34 :: key ++ 34 :: 58 :: w).take 127 = pattern key w := by
  rw [take_of_length_le (by simp; omega)]
  rfl

theorem jsonGetStr_eq (hk : key.length ≤ 100) (json : List UInt8) :
    jsonGetStr json key 512 = (afterFirst (pattern key [34]) json).bind quotedValue := by
  unfold jsonGetStr
  rw [take_pattern hk (by simp)]
  rfl

theorem jsonGetInt64_eq (hk : key.length ≤ 100) (json : List UInt8) :
    jsonGetInt64 json key = (afterFirst (pattern key []) json).bind numberAt := by
  unfold jsonGetInt64
  rw [take_pattern hk (by simp)]
  rfl

theorem length_keys : (ascii "sub").length ≤ 100 ∧ (ascii "iss").length ≤ 100 ∧
    (ascii "iat").length ≤ 100 ∧ (ascii "exp").length ≤ 100 := by decide +kernel

/-- A value is read as it is if it has no quote itself. -/
theorem quotedValue_eq_iff (hv : v.length < 512) (t : List UInt8) :
    quotedValue (v ++ 34 :: t) = some v ↔ 34 ∉ v := by
  unfold quotedValue
  rw [if_pos (by simp), Option.some_inj]
  constructor
  · intro heq hmem
    rw [← heq] at hmem
    have hne := mem_takeWhile_imp (mem_of_mem_take hmem)
    simp at hne
  · intro hfree
    have hall : ∀ x ∈ v, decide (x ≠ 34) := fun x hx =>
      decide_eq_true fun h => hfree (h ▸ hx)
    rw [takeWhile_append_of_pos hall, takeWhile_cons_of_neg (by simp), append_nil,
      take_of_length_le (by omega)]

/-- The search goes on in the audience. -/
theorem pass_audience (hk : IsKey key) (hne : key ≠ ascii "aud") {c : JwtClaims} {a : List UInt8}
    (ha : c.audience = some a) : afterFirst (pattern key w) (audienceText c) =
      afterFirst (pattern key w) ((34 :: a) ++ [34, 125]) := by
  have hassoc : audienceText c = 44 :: 34 :: (ascii "aud" ++ 34 :: 58 :: ((34 :: a) ++ [34, 125])) := by
    simp [audienceText, ha, strMember]
  rw [hassoc, pass_comma, pass_key hk isKey_all.2.2.2.2.quote hne]

theorem no_audience {c : JwtClaims} (ha : c.audience = none) :
    afterFirst (pattern key w) (audienceText c) = none := by
  have hempty : audienceText c = [125] := by simp [audienceText, ha]
  rw [hempty]
  simp [afterFirst, pattern]

/-- A match that is not inside `s` leaves less than the two letters behind it. -/
theorem short_rest {pat r : List UInt8} (hno : ¬ pat <:+: s)
    (h : afterFirst pat (s ++ [34, 125]) = some r) : r.length ≤ 1 ∧ r <:+ [34, 125] := by
  obtain ⟨l, hl⟩ := afterFirst_eq h
  have hlen := congrArg length hl
  simp only [length_append, length_cons, length_nil] at hlen
  have hshort : r.length ≤ 1 := by
    by_contra hlong
    refine hno ?_
    have hpre : l ++ pat <+: s :=
      prefix_of_prefix_length_le (hl ▸ prefix_append (l ++ pat) r)
        (prefix_append s [34, 125]) (by rw [length_append]; omega)
    exact (infix_append' l pat []).trans (by simpa using hpre.isInfix)
  refine ⟨hshort, ?_⟩
  exact suffix_of_suffix_length_le (hl ▸ suffix_append (l ++ pat) r)
    (suffix_append s [34, 125]) (by simp; omega)

/-- **An absent claim is found in the audience** if the audience holds its opening. -/
theorem audience_str_iff (hk : IsKey key) (hne : key ≠ ascii "aud") (c : JwtClaims) :
    (afterFirst (pattern key [34]) (audienceText c)).bind quotedValue = none ↔
      ∀ a, c.audience = some a → ¬ pattern key [34] <:+: 34 :: a := by
  cases ha : c.audience with
  | none =>
    rw [no_audience ha]
    exact iff_of_true rfl (fun a h => by cases h)
  | some a =>
    rw [pass_audience hk hne ha]
    constructor
    · intro hnone a' ha' hin
      cases ha'
      obtain ⟨r, hr⟩ := afterFirst_isSome hin
      rw [afterFirst_append _ hr, Option.bind_some, quotedValue, if_pos (by simp)] at hnone
      cases hnone
    · intro hfree
      cases hfound : afterFirst (pattern key [34]) ((34 :: a) ++ [34, 125]) with
      | none => rfl
      | some r =>
        -- the pattern ended with the closing quote: no quote is left
        obtain ⟨hlen, hsuf⟩ := short_rest (hfree a rfl) hfound
        have hquote : 34 ∉ r := by
          intro hmem
          rcases r with _ | ⟨x, _ | ⟨y, r⟩⟩
          · cases hmem
          · rw [mem_singleton] at hmem
            subst hmem
            exact absurd hsuf (by decide)
          · simp at hlen
        rw [Option.bind_some, quotedValue, if_neg hquote]

theorem numberAt_quote (r t : List UInt8) : numberAt (r ++ 34 :: t) = numberAt r := by
  unfold numberAt
  rw [Items.dropWhile_append_stop rfl, strtoll_quote]

theorem numberAt_decimal (i : Int64) (hx : isDecimal x = false) (t : List UInt8) :
    numberAt (decimal i ++ x :: t) = some i := by
  have hfirst : ∃ d ds, decimal i = d :: ds ∧ isBlank d = false := by
    unfold decimal
    by_cases hneg : i.toInt < 0
    · rw [if_pos hneg]
      exact ⟨45, _, rfl, by decide⟩
    · rw [if_neg hneg]
      obtain ⟨d, ds, hds⟩ := exists_cons_of_ne_nil (decimalNat_ne_nil i.toInt.natAbs)
      have hdec := decimalNat_isDecimal i.toInt.natAbs d (hds ▸ mem_cons_self)
      refine ⟨d, ds, hds, ?_⟩
      have h32 : d ≠ 32 := by
        rintro rfl
        cases hdec
      have h9 : d ≠ 9 := by
        rintro rfl
        cases hdec
      simp [isBlank, h32, h9]
  obtain ⟨d, ds, hds, hd⟩ := hfirst
  have hdrop : (decimal i ++ x :: t).dropWhile isBlank = decimal i ++ x :: t := by
    rw [hds, cons_append, dropWhile_cons_of_neg (by rw [hd]; exact Bool.false_ne_true)]
  unfold numberAt
  rw [hdrop, strtoll_decimal i hx]

/-- The audience, or the brace, ends the number before it. -/
theorem audienceText_head (c : JwtClaims) :
    ∃ x t, audienceText c = x :: t ∧ isDecimal x = false := by
  cases ha : c.audience with
  | none => exact ⟨125, [], by simp [audienceText, ha], by decide⟩
  | some a => exact ⟨44, strMember (ascii "aud") a ++ [125], by simp [audienceText, ha], by decide⟩

theorem expiryText_head (c : JwtClaims) :
    ∃ x t, expiryText c ++ audienceText c = x :: t ∧ isDecimal x = false := by
  unfold expiryText
  by_cases hexp : c.expiresAt ≠ 0
  · rw [if_pos hexp]
    exact ⟨44, _, rfl, by decide⟩
  · rw [if_neg hexp]
    exact audienceText_head c

/-- An absent expiry is found in the audience if the audience holds a number under its key. -/
theorem audience_int_iff (hk : IsKey key) (hne : key ≠ ascii "aud") (c : JwtClaims) :
    ((afterFirst (pattern key []) (audienceText c)).bind numberAt).getD 0 = 0 ↔
      ∀ a r, c.audience = some a → afterFirst (pattern key []) (34 :: a) = some r →
        (numberAt r).getD 0 = 0 := by
  cases ha : c.audience with
  | none =>
    rw [no_audience ha]
    exact iff_of_true rfl (fun a r h => by cases h)
  | some a =>
    rw [pass_audience hk hne ha]
    cases hin : afterFirst (pattern key []) (34 :: a) with
    | some r =>
      rw [afterFirst_append _ hin, Option.bind_some, numberAt_quote]
      constructor
      · intro hzero a' r' ha' hr'
        cases ha'
        rw [hin] at hr'
        injection hr' with hr'
        exact hr' ▸ hzero
      · exact fun h => h a r rfl hin
    | none =>
      -- the pattern ends with a colon, so it cannot reach into the closing quote
      have hno : ¬ pattern key [] <:+: 34 :: a := by
        intro h
        obtain ⟨r, hr⟩ := afterFirst_isSome h
        rw [hin] at hr
        cases hr
      have hnone : afterFirst (pattern key []) ((34 :: a) ++ [34, 125]) = none := by
        cases hfound : afterFirst (pattern key []) ((34 :: a) ++ [34, 125]) with
        | none => rfl
        | some r =>
          obtain ⟨hlen, _⟩ := short_rest hno hfound
          obtain ⟨l, hl⟩ := afterFirst_eq hfound
          have hpat : l ++ pattern key [] ++ r = (l ++ 34 :: (key ++ [34])) ++ (58 :: r) := by
            simp [pattern]
          rw [hpat] at hl
          rcases r with _ | ⟨x, _ | ⟨y, r⟩⟩
          · have hl' : (34 :: a ++ [34]) ++ [125] = (l ++ 34 :: (key ++ [34])) ++ [58] := by
              rw [← hl]
              simp
            exact absurd (append_inj' hl' rfl).2 (by decide)
          · have hlast := (append_inj' hl rfl).2
            exact absurd (cons.inj hlast).1 (by decide)
          · simp at hlen
      rw [hnone]
      refine iff_of_true rfl fun a' r' ha' hr' => ?_
      cases ha'
      rw [hin] at hr'
      cases hr'

end

/-! ## §4. When the claims survive. -/

section

variable (c : JwtClaims) (iat : Int64)

/-- The subject stands first: nothing can come before it. -/
theorem subject_present (hs : c.subject = some s) (hlen : s.length < 512) :
    jsonGetStr (payloadText c iat) (ascii "sub") 512 = c.subject ↔ 34 ∉ s := by
  have hsplit : payloadText c iat = 123 :: (strMember (ascii "sub") s ++ (44 ::
      ((c.issuer.toList.flatMap fun s => strMember (ascii "iss") s ++ [44]) ++ numbersText c iat))) := by
    simp [payloadText, leadText, hs]
  rw [jsonGetStr_eq length_keys.1, hsplit, pass_brace, found_str, Option.bind_some, hs,
    quotedValue_eq_iff hlen]

/-- The search for the issuer passes a subject without quotes. -/
theorem pass_subject {key w : List UInt8} (hk : IsKey key) (hne : key ≠ ascii "sub")
    (hsub : QuoteFree c.subject) : afterFirst (pattern key w) (payloadText c iat) =
      afterFirst (pattern key w) ((c.issuer.toList.flatMap fun s => strMember (ascii "iss") s ++ [44]) ++ numbersText c iat) := by
  unfold payloadText leadText
  rw [pass_brace, append_assoc, pass_optional hk isKey_all.1.quote hne hsub]

theorem issuer_present (hsub : QuoteFree c.subject) (hs : c.issuer = some s)
    (hlen : s.length < 512) :
    jsonGetStr (payloadText c iat) (ascii "iss") 512 = c.issuer ↔ 34 ∉ s := by
  have hsplit : (c.issuer.toList.flatMap fun s => strMember (ascii "iss") s ++ [44]) ++ numbersText c iat =
      strMember (ascii "iss") s ++ (44 :: numbersText c iat) := by simp [hs]
  rw [jsonGetStr_eq length_keys.2.1, pass_subject c iat isKey_all.2.1 (by decide +kernel) hsub, hsplit,
    found_str, Option.bind_some, hs, quotedValue_eq_iff hlen]

/-- A search for another key than those of subject and issuer reaches the numbers. -/
theorem pass_texts {key w : List UInt8} (hk : IsKey key) (hsub : key ≠ ascii "sub")
    (hiss : key ≠ ascii "iss") (hs : QuoteFree c.subject) (hi : QuoteFree c.issuer) :
    afterFirst (pattern key w) (payloadText c iat) = afterFirst (pattern key w) (numbersText c iat) := by
  rw [pass_subject c iat hk hsub hs, pass_optional hk isKey_all.2.1.quote hiss hi]

/-- The numbers are passed by the search for a text. -/
theorem pass_numbers {key w : List UInt8} (hk : IsKey key) (hiat : key ≠ ascii "iat")
    (hexp : key ≠ ascii "exp") : afterFirst (pattern key w) (numbersText c iat) =
      afterFirst (pattern key w) (audienceText c) := by
  rw [pass_intMember hk isKey_all.2.2.1.quote hiat (quote_not_mem_decimal iat), pass_expiry hk hexp]

theorem subject_absent (hs : c.subject = none) (hi : QuoteFree c.issuer) :
    jsonGetStr (payloadText c iat) (ascii "sub") 512 = c.subject ↔
      ∀ a, c.audience = some a → ¬ pattern (ascii "sub") [34] <:+: 34 :: a := by
  have hlead : payloadText c iat = 123 ::
      ((c.issuer.toList.flatMap fun s => strMember (ascii "iss") s ++ [44]) ++ numbersText c iat) := by
    simp [payloadText, leadText, hs]
  rw [jsonGetStr_eq length_keys.1, hs, hlead, pass_brace,
    pass_optional isKey_all.1 isKey_all.2.1.quote (by decide +kernel) hi,
    pass_numbers c iat isKey_all.1 (by decide +kernel) (by decide +kernel),
    audience_str_iff isKey_all.1 (by decide +kernel)]

theorem issuer_absent (hs : QuoteFree c.subject) (hi : c.issuer = none) :
    jsonGetStr (payloadText c iat) (ascii "iss") 512 = c.issuer ↔
      ∀ a, c.audience = some a → ¬ pattern (ascii "iss") [34] <:+: 34 :: a := by
  rw [jsonGetStr_eq length_keys.2.1, pass_subject c iat isKey_all.2.1 (by decide +kernel) hs, hi,
    Option.toList_none, flatMap_nil, nil_append,
    pass_numbers c iat isKey_all.2.1 (by decide +kernel) (by decide +kernel),
    audience_str_iff isKey_all.2.1 (by decide +kernel)]

theorem issuedAt_read (hs : QuoteFree c.subject) (hi : QuoteFree c.issuer) :
    jsonGetInt64 (payloadText c iat) (ascii "iat") = some iat := by
  obtain ⟨x, t, htext, hx⟩ := expiryText_head c
  rw [jsonGetInt64_eq length_keys.2.2.1, pass_texts c iat isKey_all.2.2.1 (by decide +kernel)
    (by decide +kernel) hs hi, found_int, htext]
  exact numberAt_decimal iat hx t

theorem expiresAt_read (hs : QuoteFree c.subject) (hi : QuoteFree c.issuer) :
    (jsonGetInt64 (payloadText c iat) (ascii "exp")).getD 0 = c.expiresAt ↔
      (c.expiresAt = 0 → ∀ a r, c.audience = some a →
        afterFirst (pattern (ascii "exp") []) (34 :: a) = some r → (numberAt r).getD 0 = 0) := by
  have hk := isKey_all.2.2.2.1
  rw [jsonGetInt64_eq length_keys.2.2.2, pass_texts c iat hk (by decide +kernel)
    (by decide +kernel) hs hi, pass_intMember hk isKey_all.2.2.1.quote (by decide +kernel) (quote_not_mem_decimal iat)]
  by_cases hexp : c.expiresAt = 0
  · have hnone : expiryText c = [] := by
      unfold expiryText
      rw [if_neg (fun h => h hexp)]
    rw [hnone, hexp]
    have haudience := audience_int_iff hk (by decide +kernel) c
    exact ⟨fun h _ => haudience.mp h, fun h => haudience.mpr (h rfl)⟩
  · obtain ⟨x, t, htext, hx⟩ := audienceText_head c
    have hsome : expiryText c = 44 :: intMember (ascii "exp") (decimal c.expiresAt) := by
      unfold expiryText
      rw [if_pos hexp]
    rw [hsome, cons_append, pass_comma, found_int, Option.bind_some, htext,
      numberAt_decimal c.expiresAt hx t]
    exact iff_of_true rfl fun h => absurd h hexp

end

/-- Claims whose texts are C strings shorter than the buffers that read them,
with a time of issue. -/
structure Admissible (c : JwtClaims) : Prop where
  texts : ∀ o ∈ [c.subject, c.issuer, c.audience], ∀ s, o = some s → 0 ∉ s ∧ s.length < 512
  issued : c.issuedAt ≠ 0

section

variable {c : JwtClaims}

theorem nul_not_mem_decimal (i : Int64) : 0 ∉ decimal i :=
  not_mem_decimal (by decide) (by decide) i

theorem nul_not_mem_strMember (hk : 0 ∉ k) (hv : 0 ∉ v) : 0 ∉ strMember k v := by
  simp [strMember, hk, hv]

theorem nul_not_mem_intMember (hk : 0 ∉ k) (hd : 0 ∉ d) : 0 ∉ intMember k d := by
  simp [intMember, hk, hd]

theorem nul_not_mem_optional {o : Option (List UInt8)} {f : List UInt8 → List UInt8}
    (hf : ∀ s, o = some s → 0 ∉ f s) : 0 ∉ o.toList.flatMap f := by
  cases o with
  | none => exact not_mem_nil
  | some s =>
    rw [Option.toList_some, flatMap_singleton]
    exact hf s rfl

theorem nul_not_mem_payload (h : Admissible c) (iat : Int64) : 0 ∉ payloadText c iat := by
  have hkeys : 0 ∉ ascii "sub" ∧ 0 ∉ ascii "iss" ∧ 0 ∉ ascii "iat" ∧ 0 ∉ ascii "exp" ∧
      0 ∉ ascii "aud" := by decide +kernel
  obtain ⟨ksub, kiss, kiat, kexp, kaud⟩ := hkeys
  have hlead : ∀ k o, 0 ∉ k → o ∈ [c.subject, c.issuer, c.audience] →
      0 ∉ o.toList.flatMap fun s => strMember k s ++ [44] := by
    intro k o hk ho
    refine nul_not_mem_optional fun s hs => ?_
    simp [nul_not_mem_strMember hk (h.texts o ho s hs).1]
  have haud : 0 ∉ c.audience.toList.flatMap fun s => 44 :: strMember (ascii "aud") s := by
    refine nul_not_mem_optional fun s hs => ?_
    simp [nul_not_mem_strMember kaud (h.texts _ (by simp) s hs).1]
  have hexp : 0 ∉ expiryText c := by
    unfold expiryText
    by_cases he : c.expiresAt ≠ 0
    · simp [nul_not_mem_intMember kexp (nul_not_mem_decimal c.expiresAt)]
    · rw [if_neg he]
      exact not_mem_nil
  have hiat := nul_not_mem_intMember kiat (nul_not_mem_decimal iat)
  simp only [payloadText, leadText, audienceText, mem_cons, mem_append, not_or]
  exact ⟨by decide, ⟨hlead _ _ ksub (by simp), hlead _ _ kiss (by simp)⟩, hiat, hexp, haud, by decide⟩

theorem jwtSplit_token {a b : List UInt8} (ha : 46 ∉ a) (hb : 46 ∉ b) (hd : 46 ∉ d) :
    jwtSplit (a ++ 46 :: b ++ 46 :: d) = some (a, b, d) := by
  have hjoin : a ++ 46 :: b ++ 46 :: d = [46].intercalate [a, b, d] := by
    simp [intercalate_singleton]
  have hparts : ∀ l ∈ [a, b, d], 46 ∉ l := by
    intro l hl
    fin_cases hl
    · exact ha
    · exact hb
    · exact hd
  unfold jwtSplit
  rw [hjoin, splitOn_intercalate 46 hparts (by simp)]

theorem dot_not_mem (bs : List UInt8) : 46 ∉ b64urlencode bs := fun h =>
  absurd (b64urlencode_letters bs 46 h) (by decide +kernel)

theorem algAllowed_header : algAllowed (b64urlencode headerJson) := by
  unfold algAllowed
  decide +kernel

/-- **A signed token is accepted**, and its claims are those of the payload. -/
theorem authJwtverify_sign (hmac : List UInt8 → List UInt8 → List UInt8) (now : Int64)
    (h : Admissible c) (secret : List UInt8) :
    authJwtverify hmac (authJwtsign hmac now c secret) secret =
      .ok (readClaims (payloadText c c.issuedAt)) := by
  have hnul := nul_not_mem_payload h c.issuedAt
  have hsig : ∀ m p, signatureOk hmac secret (m, p, b64urlencode (hmac secret (m ++ 46 :: p))) :=
    fun m p => (signatureOk_iff hmac secret _).mpr (b64urldecode_encode _)
  simp only [authJwtverify, authJwtsign, if_pos h.issued]
  rw [jwtSplit_token (dot_not_mem _) (dot_not_mem _) (dot_not_mem _)]
  simp only [algAllowed_header, hsig, Bool.not_true, Bool.false_eq_true, if_false,
    b64urldecode_encode, payloadJson_eq, cstr_of_not_mem hnul]

/-- Texts that cannot be read as something else: no quote in subject and
issuer, and no opening of an absent claim in the audience. -/
structure Faithful (c : JwtClaims) : Prop where
  subject : QuoteFree c.subject
  issuer : QuoteFree c.issuer
  noSubject : c.subject = none → ∀ a, c.audience = some a →
    ¬ pattern (ascii "sub") [34] <:+: 34 :: a
  noIssuer : c.issuer = none → ∀ a, c.audience = some a → ¬ pattern (ascii "iss") [34] <:+: 34 :: a
  /-- the first number under the expiry's key in the audience, if any, is zero -/
  noExpiry : c.expiresAt = 0 → ∀ a r, c.audience = some a →
    afterFirst (pattern (ascii "exp") []) (34 :: a) = some r → (numberAt r).getD 0 = 0

/-- **The signed claims come back exactly when they are faithful.** -/
theorem claims_survive_iff (hmac : List UInt8 → List UInt8 → List UInt8) (now : Int64)
    (c : JwtClaims) (secret : List UInt8) (h : Admissible c) :
    authJwtverify hmac (authJwtsign hmac now c secret) secret =
      .ok ⟨c.subject, c.issuer, c.issuedAt, c.expiresAt, none⟩ ↔ Faithful c := by
  have hlen : ∀ o ∈ [c.subject, c.issuer, c.audience], ∀ s, o = some s → s.length < 512 :=
    fun o ho s hs => (h.texts o ho s hs).2
  rw [authJwtverify_sign hmac now h secret]
  constructor
  · intro heq
    injection heq with heq
    simp only [readClaims, JwtClaims.mk.injEq, and_true] at heq
    obtain ⟨hsub, hiss, _, hexp⟩ := heq
    have hs : QuoteFree c.subject := fun s hs =>
      (subject_present c c.issuedAt hs (hlen _ (by simp) s hs)).mp hsub
    have hi : QuoteFree c.issuer := fun s hi =>
      (issuer_present c c.issuedAt hs hi (hlen _ (by simp) s hi)).mp hiss
    exact ⟨hs, hi, fun hnone => (subject_absent c c.issuedAt hnone hi).mp hsub,
      fun hnone => (issuer_absent c c.issuedAt hs hnone).mp hiss,
      (expiresAt_read c c.issuedAt hs hi).mp hexp⟩
  · intro hf
    have hsub : jsonGetStr (payloadText c c.issuedAt) (ascii "sub") 512 = c.subject := by
      cases hs : c.subject with
      | none => exact hs ▸ (subject_absent c c.issuedAt hs hf.issuer).mpr (hf.noSubject hs)
      | some s =>
        exact hs ▸ (subject_present c c.issuedAt hs (hlen _ (by simp) s hs)).mpr (hf.subject s hs)
    have hiss : jsonGetStr (payloadText c c.issuedAt) (ascii "iss") 512 = c.issuer := by
      cases hi : c.issuer with
      | none => exact hi ▸ (issuer_absent c c.issuedAt hf.subject hi).mpr (hf.noIssuer hi)
      | some s =>
        exact hi ▸ (issuer_present c c.issuedAt hf.subject hi (hlen _ (by simp) s hi)).mpr
          (hf.issuer s hi)
    have hiat := issuedAt_read c c.issuedAt hf.subject hf.issuer
    have hexp := (expiresAt_read c c.issuedAt hf.subject hf.issuer).mpr hf.noExpiry
    rw [readClaims, hsub, hiss, hiat, hexp]
    rfl

end

/-- Any MAC shows the same: here the first bytes of key and message. -/
def sampleMac (key message : List UInt8) : List UInt8 := (key ++ message).take 32

/-- A token without issuer whose audience holds one. -/
def forgedClaims : JwtClaims :=
  ⟨some (ascii "bob"), none, 1700000000, 0, some (ascii "x\",\"iss\":\"root\",\"exp\":9")⟩

/-- **Text in the audience adds an issuer and an expiry.** -/
theorem forged_issuer_read :
    authJwtverify sampleMac (authJwtsign sampleMac 0 forgedClaims [1, 2]) [1, 2] =
      .ok ⟨some (ascii "bob"), some (ascii "root"), 1700000000, 9, none⟩ := by decide +kernel

/-- Plain claims. -/
def plainClaims : JwtClaims :=
  ⟨some (ascii "bob"), some (ascii "toke"), 1700000000, 1800000000, some (ascii "api")⟩

theorem claims_survive_plain : Faithful plainClaims := by
  have hadm : Admissible plainClaims := by
    refine ⟨?_, by decide +kernel⟩
    simp only [forall_mem_cons, not_mem_nil, false_implies, implies_true, and_true]
    refine ⟨fun s hs => ?_, fun s hs => ?_, fun s hs => ?_⟩ <;>
      · cases hs
        decide +kernel
  exact (claims_survive_iff sampleMac 0 plainClaims [1, 2] hadm).mp (by decide +kernel)

end Toke.Stdlib
