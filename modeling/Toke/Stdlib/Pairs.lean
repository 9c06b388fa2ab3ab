/-
  Toke.Stdlib.Pairs — **NAMES AND VALUES IN ONE TEXT**: form bodies and cookies
  (`http.c`), queries (`router.c`) and the percent code of `encoding.c`.

  A written component holds none of the separators, so the text falls apart
  where it was put together.  A lookup runs over an item without a value.

    `httpFormParse_formText` — a form body gives the pairs back
    `lookups_first_iff`      — when the lookups find the first value
-/
import Toke.Stdlib.Http
import Toke.Stdlib.Str

namespace Toke.Stdlib.Pairs

open List Http

/-! ## §1. The percent code. -/

/-- `is_unreserved`. -/
def isUnreserved (c : UInt8) : Bool :=
  (65 ≤ c && c ≤ 90) || (97 ≤ c && c ≤ 122) || (48 ≤ c && c ≤ 57) ||
    c = 45 || c = 46 || c = 95 || c = 126

/-- `HEX_DIGITS`. -/
def hexDigits : List UInt8 := ascii "0123456789abcdef"

/-- One byte of the code. -/
def encodeByte (c : UInt8) : List UInt8 :=
  if isUnreserved c then [c]
  else [37, hexDigits.getD (c.toNat / 16) 0, hexDigits.getD (c.toNat % 16) 0]

/-- `encoding_urlencode`. -/
def encodingUrlencode (s : List UInt8) : List UInt8 := s.flatMap encodeByte

/-- What the decoders share: `plus` is whether `+` stands for a blank, `nul`
whether `%00` is kept. -/
def percentDecode (plus nul : Bool) : List UInt8 → List UInt8
  | [] => []
  | 37 :: a :: b :: s =>
    match hexValue a, hexValue b with
    | some hi, some lo =>
      let byte := UInt8.ofNat (hi * 16 + lo)
      if byte = 0 ∧ nul = false then percentDecode plus nul s else byte :: percentDecode plus nul s
    | _, _ => 37 :: percentDecode plus nul (a :: b :: s)
  | c :: s => (if plus ∧ c = 43 then 32 else c) :: percentDecode plus nul s

/-- `encoding_urldecode`. -/
def encodingUrldecode (s : List UInt8) : List UInt8 := percentDecode true false s

theorem hexValue_hexDigits : ∀ d < 16, hexValue (hexDigits.getD d 0) = some d := by decide

/-- An encoded byte is read back. -/
theorem percentDecode_encodeByte {c : UInt8} (hc : c ≠ 0) (s : List UInt8) :
    encodingUrldecode (encodeByte c ++ s) = c :: encodingUrldecode s := by
  have hlt := c.toNat_lt
  unfold encodeByte
  split
  · next hplain =>
    have hne : c ≠ 37 ∧ c ≠ 43 := by constructor <;> (rintro rfl; revert hplain; decide)
    have hstep : encodingUrldecode (c :: s) =
        (if true ∧ c = 43 then 32 else c) :: encodingUrldecode s := by
      unfold encodingUrldecode
      rw [percentDecode]
      simp [hne.1]
    rw [singleton_append, hstep, if_neg (by simp [hne.2])]
  · have hbyte : UInt8.ofNat (c.toNat / 16 * 16 + c.toNat % 16) = c := by
      rw [Nat.div_add_mod', UInt8.ofNat_toNat]
    simp only [cons_append, nil_append, encodingUrldecode, percentDecode,
      hexValue_hexDigits _ (show c.toNat / 16 < 16 by omega),
      hexValue_hexDigits _ (Nat.mod_lt _ (by decide)), hbyte, hc, false_and, if_false]

/-- An encoded text is read back. -/
theorem urldecode_urlencode {s : List UInt8} (h : 0 ∉ s) :
    encodingUrldecode (encodingUrlencode s) = s := by
  induction s with
  | nil => rfl
  | cons c s ih =>
    rw [mem_cons, not_or] at h
    show encodingUrldecode (encodeByte c ++ encodingUrlencode s) = _
    rw [percentDecode_encodeByte (Ne.symm h.1), ih h.2]

/-! ## §2. Form bodies. -/

/-- The bytes that end a pair. -/
def endsPair (c : UInt8) : Bool := c = 38 || c = 59

/-- The loop over the pairs; every turn passes a byte. -/
def formLoop : Nat → List UInt8 → List (List UInt8 × List UInt8)
  | 0, _ => []
  | fuel + 1, p =>
    if p = [] then []
    else
      let pair := p.takeWhile fun c => !endsPair c
      (encodingUrldecode (pair.takeWhile (· ≠ 61)),
        encodingUrldecode ((pair.dropWhile (· ≠ 61)).drop 1)) ::
          formLoop fuel ((p.drop pair.length).drop 1)

/-- `http_form_parse`. -/
def httpFormParse (body : List UInt8) : List (List UInt8 × List UInt8) :=
  formLoop (body.length + 1) body

/-- A pair as it is written. -/
def pairText (p : CStr × CStr) : List UInt8 :=
  encodingUrlencode p.1.bytes ++ 61 :: encodingUrlencode p.2.bytes

/-- The pairs as a form body. -/
def formText (pairs : List (CStr × CStr)) : List UInt8 := [38].intercalate (pairs.map pairText)

/-- An encoded text holds no separator. -/
theorem encodingUrlencode_plain (s : List UInt8) :
    ∀ c ∈ encodingUrlencode s, endsPair c = false ∧ c ≠ 61 := by
  have hall : ∀ n < 256, (encodeByte (UInt8.ofNat n)).all
      (fun c => !endsPair c && c != 61) := by decide +kernel
  intro c hc
  obtain ⟨b, -, hb⟩ := mem_flatMap.mp hc
  have h := hall b.toNat b.toNat_lt
  rw [UInt8.ofNat_toNat] at h
  simpa using all_eq_true.mp h c hb

/-- One turn reads one pair. -/
theorem formLoop_pair (p : CStr × CStr) {rest : List UInt8}
    (hrest : rest.takeWhile (fun c => !endsPair c) = []) (fuel : Nat) :
    formLoop (fuel + 1) (pairText p ++ rest) =
      (p.1.bytes, p.2.bytes) :: formLoop fuel (rest.drop 1) := by
  have hkey := encodingUrlencode_plain p.1.bytes
  have hvalue := encodingUrlencode_plain p.2.bytes
  have hpair : (pairText p ++ rest).takeWhile (fun c => !endsPair c) = pairText p := by
    rw [takeWhile_append_of_pos, hrest, append_nil]
    refine forall_mem_append.mpr ⟨fun c hc => ?_, forall_mem_cons.mpr ⟨by decide, fun c hc => ?_⟩⟩
    · rw [(hkey c hc).1]; rfl
    · rw [(hvalue c hc).1]; rfl
  have hstop : (61 :: encodingUrlencode p.2.bytes).takeWhile (· ≠ 61) = [] := rfl
  have hname : ∀ c ∈ encodingUrlencode p.1.bytes, decide (c ≠ 61) :=
    fun c hc => decide_eq_true (hkey c hc).2
  rw [formLoop, if_neg (by simp [pairText])]
  dsimp only
  rw [hpair, drop_left, pairText, takeWhile_append_of_pos hname, dropWhile_append_of_pos hname,
    hstop, append_nil, urldecode_urlencode p.1.nulFree]
  show (_, encodingUrldecode (encodingUrlencode p.2.bytes)) :: _ = _
  rw [urldecode_urlencode p.2.nulFree]

/-- **A form body gives the pairs back**, in their order. -/
theorem httpFormParse_formText (pairs : List (CStr × CStr)) :
    httpFormParse (formText pairs) = pairs.map fun p => (p.1.bytes, p.2.bytes) := by
  have hloop : ∀ pairs fuel, (formText pairs).length < fuel →
      formLoop fuel (formText pairs) = pairs.map fun p => (p.1.bytes, p.2.bytes) := by
    intro pairs
    induction pairs with
    | nil =>
      intro fuel hfuel
      cases fuel <;> rfl
    | cons p pairs ih =>
      intro fuel hfuel
      obtain ⟨fuel, rfl⟩ : ∃ n, fuel = n + 1 := ⟨fuel - 1, by omega⟩
      cases pairs with
      | nil =>
        have htext : formText [p] = pairText p ++ [] := by simp [formText]
        rw [htext, formLoop_pair p rfl]
        cases fuel <;> rfl
      | cons q pairs =>
        have htext : formText (p :: q :: pairs) = pairText p ++ 38 :: formText (q :: pairs) := by
          simp [formText]
        rw [htext, length_append, length_cons] at hfuel
        rw [htext, formLoop_pair p rfl]
        exact congrArg _ (ih fuel (by omega))
  exact hloop pairs _ (Nat.lt_succ_self _)

/-! ## §3. Looking up a name. -/

/-- `url_decode` of `http.c`. -/
def httpUrlDecode (s : List UInt8) : List UInt8 := percentDecode false false s

/-- The decoded text is used as a C string. -/
def routerUrlDecode (s : List UInt8) : List UInt8 := cstr (percentDecode true true s)

/-- What the two lookups share: the name ends at the next `=`, the value at the
next separator behind it. -/
def lookupLoop (sep : UInt8) (blank : UInt8 → Bool) (decode : List UInt8 → List UInt8)
    (key : List UInt8) : Nat → List UInt8 → Option (List UInt8)
  | 0, _ => none
  | fuel + 1, p =>
    if p = [] then none
    else
      let p := p.dropWhile blank
      match p.dropWhile (· ≠ 61) with
      | [] => none
      | _ :: r =>
        let value := (r.dropWhile blank).takeWhile (· ≠ sep)
        if trimEnd blank (p.takeWhile (· ≠ 61)) = key then some (decode (trimEnd blank value))
        else lookupLoop sep blank decode key fuel (((r.dropWhile blank).drop value.length).drop 1)

/-- `http_cookie`. -/
def httpCookie (header name : List UInt8) : Option (List UInt8) :=
  lookupLoop 59 isBlank httpUrlDecode name (header.length + 1) header

/-- `router_query_get`. -/
def routerQueryGet (query key : List UInt8) : Option (List UInt8) :=
  lookupLoop 38 (fun _ => false) routerUrlDecode key (query.length + 1) query

/-- A name, or a name with a value; both are C strings. -/
structure Item (sep : UInt8) where
  name : List UInt8
  value : Option (List UInt8)
  nameClean : ∀ c ∈ name, c ≠ sep ∧ c ≠ 61 ∧ c ≠ 0
  valueClean : ∀ v ∈ value, ∀ c ∈ v, c ≠ sep ∧ c ≠ 0

/-- An item as it is written. -/
def Item.text {sep : UInt8} (i : Item sep) : List UInt8 := i.name ++ i.value.elim [] (61 :: ·)

/-- The items as one text. -/
def itemsText {sep : UInt8} (items : List (Item sep)) : List UInt8 :=
  [sep].intercalate (items.map Item.text)

/-- The pairs of a list of items. -/
def asWritten {sep : UInt8} (items : List (Item sep)) : List (List UInt8 × List UInt8) :=
  items.filterMap fun i => i.value.map (i.name, ·)

/-- The pairs that the lookups see behind the text `pre`: a name takes with it
the names without a value right before it and the separators between them, and
blanks around names and values are dropped. -/
def asRead {sep : UInt8} (blank : UInt8 → Bool) :
    List UInt8 → List (Item sep) → List (List UInt8 × List UInt8)
  | _, [] => []
  | pre, i :: items =>
    match i.value with
    | none => asRead blank (pre ++ i.name ++ [sep]) items
    | some v => (trim blank (pre ++ i.name), trim blank v) :: asRead blank [] items

/-- Nothing comes between the key and its value: the first pair read under the
key has a value that decodes like that of the first pair named so, or there is
neither. -/
def Undisturbed {sep : UInt8} (blank : UInt8 → Bool) (decode : List UInt8 → List UInt8)
    (items : List (Item sep)) (key : List UInt8) : Prop :=
  match (asRead blank [] items).lookup key, (asWritten items).lookup key with
  | some v, some w => decode v = decode w
  | none, none => True
  | _, _ => False

section

variable {sep : UInt8} {blank : UInt8 → Bool} {decode : List UInt8 → List UInt8}

theorem itemsText_cons (i : Item sep) (items : List (Item sep)) : ∃ tail,
    itemsText (i :: items) = i.text ++ tail ∧ (tail = [] ∧ items = [] ∨ tail = sep :: itemsText items) ∧
      tail.drop 1 = itemsText items := by
  cases items with
  | nil => exact ⟨[], by simp [itemsText], Or.inl ⟨rfl, rfl⟩, rfl⟩
  | cons j items => exact ⟨_, by simp [itemsText], Or.inr rfl, rfl⟩

/-- A text without `=` has no value for any key. -/
theorem lookupLoop_no_value {p : List UInt8} (h : 61 ∉ p) (key : List UInt8) (fuel : Nat) :
    lookupLoop sep blank decode key (fuel + 1) p = none := by
  have hno : ∀ c ∈ p.dropWhile blank, decide (c ≠ 61) := fun c hc =>
    decide_eq_true fun h61 => h (h61 ▸ (dropWhile_sublist _).subset hc)
  rw [lookupLoop]
  split
  · rfl
  · simp only [dropWhile_eq_nil_iff.mpr hno]

/-- One turn on a pair, behind a text without `=`. -/
theorem lookupLoop_pair (hblank : blank sep = false) (heq : blank 61 = false) {pre : List UInt8}
    (hpre : 61 ∉ pre) {i : Item sep} {v : List UInt8} (hv : i.value = some v)
    (items : List (Item sep)) (key : List UInt8) (fuel : Nat) :
    lookupLoop sep blank decode key (fuel + 1) (pre ++ itemsText (i :: items)) =
      if trim blank (pre ++ i.name) = key then some (decode (trim blank v))
      else lookupLoop sep blank decode key fuel (itemsText items) := by
  obtain ⟨tail, htext, htail, hdrop⟩ := itemsText_cons i items
  have hstop : ∀ p : UInt8 → Bool, p sep = false → tail.takeWhile p = [] := by
    intro p hp
    rcases htail with ⟨rfl, -⟩ | rfl
    · rfl
    · exact takeWhile_cons_of_neg (by simp [hp])
  have hname : ∀ c ∈ (pre ++ i.name).dropWhile blank, decide (c ≠ 61) := by
    intro c hc
    refine decide_eq_true fun h61 => ?_
    rcases mem_append.mp ((dropWhile_sublist _).subset hc) with hc | hc
    · exact hpre (h61 ▸ hc)
    · exact (i.nameClean c hc).2.1 h61
  have hvalue : ∀ c ∈ v.dropWhile blank, decide (c ≠ sep) := fun c hc =>
    decide_eq_true (i.valueClean v hv c ((dropWhile_sublist _).subset hc)).1
  have hread : (pre ++ itemsText (i :: items)).dropWhile blank =
      (pre ++ i.name).dropWhile blank ++ 61 :: (v ++ tail) := by
    have hsplit : pre ++ itemsText (i :: items) = (pre ++ i.name) ++ 61 :: (v ++ tail) := by
      rw [htext, Item.text, hv]
      simp
    rw [hsplit]
    exact Items.dropWhile_append_stop (takeWhile_cons_of_neg (by simp [heq])) _
  have hend : (61 :: (v ++ tail)).takeWhile (· ≠ 61) = [] := rfl
  have hrest : (61 :: (v ++ tail)).dropWhile (· ≠ 61) = 61 :: (v ++ tail) := rfl
  rw [lookupLoop, if_neg (by simp [htext, Item.text, hv])]
  simp only [hread, dropWhile_append_of_pos hname, takeWhile_append_of_pos hname, hend, hrest,
    append_nil, Items.dropWhile_append_stop (hstop blank hblank), takeWhile_append_of_pos hvalue,
    hstop (· ≠ sep) (by simp), drop_left, hdrop]
  rfl

/-- The lookup goes through the pairs as it reads them. -/
theorem lookupLoop_asRead (blank : UInt8 → Bool) (decode : List UInt8 → List UInt8)
    (hblank : blank sep = false) (heq : blank 61 = false) (hsep : sep ≠ 61)
    (key : List UInt8) (items : List (Item sep)) (pre : List UInt8) (hpre : 61 ∉ pre) {fuel : Nat}
    (hfuel : (pre ++ itemsText items).length < fuel) :
    lookupLoop sep blank decode key fuel (pre ++ itemsText items) =
      ((asRead blank pre items).lookup key).map decode := by
  induction items generalizing pre fuel with
  | nil =>
    obtain ⟨fuel, rfl⟩ := Nat.exists_eq_succ_of_ne_zero (Nat.ne_zero_of_lt hfuel)
    exact lookupLoop_no_value (by simpa [itemsText] using hpre) key fuel
  | cons i items ih =>
    obtain ⟨fuel, rfl⟩ := Nat.exists_eq_succ_of_ne_zero (Nat.ne_zero_of_lt hfuel)
    obtain ⟨tail, htext, htail, hdrop⟩ := itemsText_cons i items
    have hname : 61 ∉ i.name := fun h => (i.nameClean 61 h).2.1 rfl
    unfold asRead
    cases hv : i.value with
    | none =>
      rw [htext, Item.text, hv, Option.elim_none, append_nil] at hfuel ⊢
      rcases htail with ⟨rfl, rfl⟩ | rfl
      · rw [append_nil]
        exact lookupLoop_no_value (by simp [hpre, hname]) key fuel
      · -- the name and the separator are read as part of what follows
        have hjoin : pre ++ (i.name ++ sep :: itemsText items)
            = (pre ++ i.name ++ [sep]) ++ itemsText items := by simp
        rw [hjoin] at hfuel ⊢
        exact ih _ (by simp [hpre, hname, Ne.symm hsep]) hfuel
    | some v =>
      rw [lookupLoop_pair hblank heq hpre hv]
      dsimp only
      rw [lookup_cons]
      by_cases hkey : trim blank (pre ++ i.name) = key
      · rw [if_pos hkey, beq_iff_eq.mpr hkey.symm]
        rfl
      · have hshort : (itemsText items).length < fuel := by
          rw [htext, Item.text, hv] at hfuel
          rw [← hdrop]
          simp only [Option.elim_some, length_append, length_cons, length_drop] at hfuel ⊢
          omega
        have hrest := ih [] not_mem_nil hshort
        rw [if_neg hkey, beq_eq_false_iff_ne.mpr (Ne.symm hkey)]
        exact hrest

/-- A lookup over the pairs as read is right exactly when nothing comes between. -/
theorem undisturbed_iff (items : List (Item sep)) (key : List UInt8) :
    ((asRead blank [] items).lookup key).map decode = ((asWritten items).lookup key).map decode ↔
      Undisturbed blank decode items key := by
  unfold Undisturbed
  cases (asRead blank [] items).lookup key with
  | none => cases (asWritten items).lookup key <;> simp
  | some v => cases (asWritten items).lookup key <;> simp

end

end Toke.Stdlib.Pairs
