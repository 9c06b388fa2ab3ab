/-
  Toke.Stdlib.JsonObjects — **LOOKING INTO AN OBJECT** of `json.c`: `find_json_key`, `json_keys`,
  `json_str`, and the objects that `json_from_pairs` writes.

  A member that starts with its quote reads the same before every separator
  (`Entry`), so an object put together from members is taken apart into them.
  Keys are compared as they are written: an escaped one is not found.

    `jsonFromPairs_readsBack_iff` — when the pairs can be read back
-/
import Toke.Stdlib.Json

namespace Toke.Stdlib.Json

open List

/-! ## §1. The readers. -/

/-- The kinds of errors. -/
inductive JsonErr where
  | missing (key : List Char)
  | type (msg : String)
deriving DecidableEq

/-- One member from its opening quote on: the text between the quotes of the
key, what is left from the value on, and what is left behind it.  The errors
are those of `json_keys`. -/
def member (fuel : Nat) : List Char → Except JsonErr (List Char × List Char × List Char)
  | '"' :: ks =>
    match skipBody ks with
    | none => .error (.type "bad key")
    | some ke =>
      match skipWs ke with
      | ':' :: r =>
        match skipValueD fuel 0 (skipWs r) with
        | none => .error (.type "bad value")
        | some ve => .ok (ks.take (ks.length - ke.length - 1), skipWs r, ve)
      | _ => .error (.type "bad object")
  | _ => .error (.type "bad object")

/-- The loop of `find_json_key`. -/
def findLoop (key : List Char) : Nat → List Char → Option (List Char × List Char)
  | 0, _ => none
  | fuel + 1, p =>
    match member fuel (skipWs p) with
    | .error _ => none
    | .ok (k, vs, ve) =>
      if k = key then some (vs, ve)
      else
        match skipWs ve with
        | ',' :: r => findLoop key fuel r
        | _ => none

/-- `find_json_key`: what is left from the value on, and behind it. -/
def findJsonKey (raw key : List Char) : Option (List Char × List Char) :=
  match skipWs raw with
  | '\x7b' :: r => findLoop key (skipFuel raw) r
  | _ => none

/-- `json_has`. -/
def jsonHas (raw key : List Char) : Bool := (findJsonKey raw key).isSome

/-- A backslash stands for the next character; at the end that is the quote. -/
def unquote : List Char → List Char
  | [] => []
  | ['\\'] => ['"']
  | '\\' :: c :: r => c :: unquote r
  | c :: r => c :: unquote r

/-- `json_str`. -/
def jsonStr (raw key : List Char) : Except JsonErr (List Char) :=
  match findJsonKey raw key with
  | none => .error (.missing key)
  | some ('"' :: vs, ve) => .ok (unquote (vs.take (vs.length - ve.length - 1)))
  | some _ => .error (.type "not a string")

/-- The two passes of `json_keys` walk over the same members. -/
def keysLoop : Nat → List Char → Except JsonErr (List (List Char))
  | 0, _ => .ok []
  | fuel + 1, q =>
    if q = [] then .ok []
    else
      match member fuel (skipWs q) with
      | .error e => .error e
      | .ok (k, _, ve) =>
        match skipWs ve with
        | '\x7d' :: _ => .ok [unquote k]
        | ',' :: r => (keysLoop fuel r).map (unquote k :: ·)
        | _ => .error (.type "bad object")

/-- `json_keys`. -/
def jsonKeys (raw : List Char) : Except JsonErr (List (List Char)) :=
  match skipWs raw with
  | '\x7b' :: r =>
    match skipWs r with
    | '\x7d' :: _ => .ok []
    | q => keysLoop (skipFuel raw) q
  | _ => .error (.type "not an object")

/-- One character of `json_enc`. -/
def escape (c : Char) : List Char :=
  if c = '"' then ['\\', '"'] else if c = '\\' then ['\\', '\\'] else [c]

/-- `json_enc`. -/
def jsonEnc (v : List Char) : List Char := '"' :: (v.flatMap escape ++ ['"'])

/-- `json_from_pairs`. -/
def jsonFromPairs (pairs : List (List Char × List Char)) : List Char :=
  '\x7b' :: ([','].intercalate (pairs.map fun p => jsonEnc p.1 ++ ':' :: jsonEnc p.2) ++ ['\x7d'])

theorem member_of {fuel : Nat} {ks ke r ve : List Char} (hkey : skipBody ks = some ke)
    (hcolon : skipWs ke = ':' :: r) (hvalue : skipValueD fuel 0 (skipWs r) = some ve) :
    member fuel ('"' :: ks) = .ok (ks.take (ks.length - ke.length - 1), skipWs r, ve) := by
  simp only [member, hkey, hcolon, hvalue]

/-- A pass through the members, up to the separator. -/
theorem skipMembers_of {fuel : Nat} {ks ke r ve q : List Char} {c : Char}
    (hkey : skipBody ks = some ke) (hcolon : skipWs ke = ':' :: r)
    (hvalue : skipValueD fuel 1 (skipWs r) = some ve) (hsep : skipWs ve = c :: q)
    (hc : c = ',' ∨ c = '\x7d') : skipMembers (fuel + 1) 0 ('"' :: ks) =
      if c = ',' then skipMembers fuel 0 q else some q := by
  have hquote : skipString (skipWs ('"' :: ks)) = some ke := hkey
  rw [skipMembers]
  simp only [hquote, hcolon, hvalue, hsep]
  rcases hc with rfl | rfl <;> rfl

/-! ## §2. Objects of entries. -/

/-- A member without blanks around it, which reads the same before a comma and
before the closing brace. -/
structure Entry where
  text : List Char
  key : List Char
  value : List Char
  quote : text.head? = some '"'
  reads : ∀ {fuel c q}, c = ',' ∨ c = '\x7d' → 3 * text.length ≤ fuel →
    member fuel (text ++ c :: q) = .ok (key, value ++ c :: q, c :: q)
  skips : ∀ {fuel c q}, c = ',' ∨ c = '\x7d' → 3 * text.length ≤ fuel →
    skipMembers (fuel + 1) 0 (text ++ c :: q) =
      if c = ',' then skipMembers fuel 0 q else some q

/-- The entries and the closing brace. -/
def bodyText (es : List Entry) : List Char := [','].intercalate (es.map Entry.text) ++ ['\x7d']

/-- The text of an object. -/
def objectText (es : List Entry) : List Char := '\x7b' :: bodyText es

/-- The text of at least one entry, with the fuel that a loop over it has. -/
inductive Body : List Entry → Nat → List Char → Prop where
  | last {e : Entry} {fuel : Nat} (h : 3 * e.text.length ≤ fuel) :
      Body [e] (fuel + 1) (e.text ++ ['\x7d'])
  | more {e : Entry} {es : List Entry} {fuel : Nat} {p : List Char}
      (h : 3 * e.text.length ≤ fuel) (hes : Body es fuel p) :
      Body (e :: es) (fuel + 1) (e.text ++ ',' :: p)

section

variable {es : List Entry} {c : Char} {p : List Char} {fuel : Nat}

theorem body_of : ∀ {es : List Entry} {fuel : Nat}, es ≠ [] → 3 * (bodyText es).length < fuel →
    Body es fuel (bodyText es) := by
  intro es
  induction es with
  | nil => exact fun h => absurd rfl h
  | cons e es ih =>
    intro fuel _ hfuel
    obtain ⟨fuel, rfl⟩ : ∃ n, fuel = n + 1 := ⟨fuel - 1, by omega⟩
    cases es with
    | nil =>
      have htext : bodyText [e] = e.text ++ ['\x7d'] := by simp [bodyText]
      rw [htext, length_append] at hfuel
      rw [htext]
      exact .last (by omega)
    | cons e' es =>
      have htext : bodyText (e :: e' :: es) = e.text ++ ',' :: bodyText (e' :: es) := by
        simp [bodyText]
      rw [htext, length_append, length_cons] at hfuel
      rw [htext]
      exact .more (by omega) (ih (cons_ne_nil _ _) (by omega))

theorem skipWs_of_head (h : p.head? = some c) (hc : isWs c = false) : skipWs p = p := by
  obtain ⟨r, rfl⟩ := head?_eq_some_iff.mp h
  exact dropWhile_cons_of_neg (by simp [hc])

theorem Entry.skipWs_text (e : Entry) (r : List Char) : skipWs (e.text ++ r) = e.text ++ r := by
  refine skipWs_of_head (c := '"') ?_ rfl
  rw [head?_append, e.quote]
  rfl

theorem findLoop_body (key : List Char) (h : Body es fuel p) : ∃ r, findLoop key fuel p =
    (es.find? (·.key = key)).map fun e => (e.value ++ r, r) := by
  induction h with
  | @last e fuel h =>
    refine ⟨['\x7d'], ?_⟩
    rw [findLoop, e.skipWs_text, e.reads (.inr rfl) h]
    by_cases hk : e.key = key <;> simp [skipWs, isWs]
  | @more e es fuel p h hes ih =>
    rw [findLoop, e.skipWs_text, e.reads (.inl rfl) h]
    obtain ⟨r, hr⟩ := ih
    by_cases hk : e.key = key
    · exact ⟨',' :: p, by simp [hk]⟩
    · exact ⟨r, by simp [hk, skipWs, isWs, hr]⟩

theorem keysLoop_body (h : Body es fuel p) :
    keysLoop fuel p = .ok (es.map fun e => unquote e.key) := by
  induction h with
  | @last e fuel h =>
    rw [keysLoop, e.skipWs_text, e.reads (.inr rfl) h]
    simp [skipWs, isWs]
  | @more e es fuel p h hes ih =>
    rw [keysLoop, e.skipWs_text, e.reads (.inl rfl) h]
    simp [skipWs, isWs, ih, Except.map]

theorem skipMembers_body (h : Body es fuel p) : skipMembers fuel 0 p = some [] := by
  induction h with
  | @last e fuel h => exact e.skips (.inr rfl) h
  | @more e es fuel p h hes ih =>
    rw [e.skips (.inl rfl) h]
    exact ih

/-! An object is taken apart into its entries. -/

theorem findJsonKey_object (es : List Entry) (key : List Char) :
    ∃ r, findJsonKey (objectText es) key =
      (es.find? (·.key = key)).map fun e => (e.value ++ r, r) := by
  by_cases hes : es = []
  · subst hes
    exact ⟨[], rfl⟩
  · refine findLoop_body key (body_of hes ?_)
    simp only [skipFuel, objectText, length_cons]
    omega

theorem bodyText_quote (hes : es ≠ []) : ∃ r, bodyText es = '"' :: r := by
  obtain ⟨e, es, rfl⟩ := exists_cons_of_ne_nil hes
  obtain ⟨r, hr⟩ := head?_eq_some_iff.mp e.quote
  cases es <;> simp [bodyText, hr]

theorem jsonKeys_object (es : List Entry) :
    jsonKeys (objectText es) = .ok (es.map fun e => unquote e.key) := by
  by_cases hes : es = []
  · subst hes
    rfl
  · obtain ⟨r, hr⟩ := bodyText_quote hes
    have hbody : Body es (skipFuel (objectText es)) (bodyText es) := by
      refine body_of hes ?_
      simp only [skipFuel, objectText, length_cons]
      omega
    have hkeys := keysLoop_body hbody
    simp only [objectText, hr] at hkeys ⊢
    exact hkeys

theorem jsonDec_object (es : List Entry) : jsonDec (objectText es) := by
  by_cases hes : es = []
  · subst hes
    decide +kernel
  · obtain ⟨r, hr⟩ := bodyText_quote hes
    have hskip : skipMembers (3 * (bodyText es).length + 5) 0 (bodyText es) = some [] :=
      skipMembers_body (body_of hes (by omega))
    have hfuel : skipFuel (objectText es) = 3 * (bodyText es).length + 5 + 1 := by
      simp only [skipFuel, objectText, length_cons]
      omega
    show (skipObjectD (skipFuel (objectText es)) 0 (objectText es)).isSome
    rw [hfuel, objectText, skipObjectD, hr]
    rw [hr] at hskip
    show (skipMembers _ 0 ('"' :: r)).isSome
    rw [hskip]
    rfl

end

/-! ## §3. Objects of pairs. -/

section

variable {s : List Char}

theorem skipBody_escape (s q : List Char) : skipBody (s.flatMap escape ++ '"' :: q) = some q := by
  have hchar : ∀ (c : Char) (r : List Char), skipBody (escape c ++ r) = skipBody r := by
    intro c r
    unfold escape
    split_ifs with hquote hback
    · rfl
    · rfl
    · simp [skipBody, hback]
  induction s with
  | nil => rfl
  | cons c s ih => rw [flatMap_cons, append_assoc, hchar, ih]

theorem unquote_escape (s : List Char) : unquote (s.flatMap escape) = s := by
  have hchar : ∀ (c : Char) (r : List Char), unquote (escape c ++ r) = c :: unquote r := by
    intro c r
    unfold escape
    split_ifs with hquote hback
    · rw [hquote]
      rfl
    · rw [hback]
      rfl
    · simp [unquote, hback]
  induction s with
  | nil => rfl
  | cons c s ih => rw [flatMap_cons, hchar, ih]

theorem jsonEnc_append (s q : List Char) :
    jsonEnc s ++ q = '"' :: (s.flatMap escape ++ '"' :: q) := by simp [jsonEnc]

/-- The text between the quotes. -/
theorem take_quoted (s q : List Char) :
    (s ++ '"' :: q).take ((s ++ '"' :: q).length - q.length - 1) = s := by
  have hlen : (s ++ '"' :: q).length - q.length - 1 = s.length := by
    rw [length_append, length_cons]
    omega
  rw [hlen, take_left']
  rfl

theorem skipValueD_enc (fuel d : Nat) (hd : d ≤ maxDepth) (v q : List Char) :
    skipValueD (fuel + 1) d (jsonEnc v ++ q) = some q := by
  rw [jsonEnc_append, skipValueD, if_neg (by omega)]
  exact skipBody_escape v q

/-- The member that `json_from_pairs` writes. -/
def pairEntry (p : List Char × List Char) : Entry where
  text := jsonEnc p.1 ++ ':' :: jsonEnc p.2
  key := p.1.flatMap escape
  value := jsonEnc p.2
  quote := rfl
  reads := by
    intro fuel c q _ hfuel
    obtain ⟨fuel, rfl⟩ : ∃ n, fuel = n + 1 := ⟨fuel - 1, by simp [jsonEnc] at hfuel; omega⟩
    rw [append_assoc, jsonEnc_append, member_of (skipBody_escape _ _) rfl
      (skipValueD_enc fuel 0 (by decide) p.2 (c :: q)), take_quoted]
    rfl
  skips := by
    intro fuel c q hc hfuel
    obtain ⟨fuel, rfl⟩ : ∃ n, fuel = n + 1 := ⟨fuel - 1, by simp [jsonEnc] at hfuel; omega⟩
    rw [append_assoc, jsonEnc_append]
    refine skipMembers_of (skipBody_escape _ _) rfl
      (skipValueD_enc fuel 1 (by decide) p.2 (c :: q)) (skipWs_of_head rfl ?_) hc
    rcases hc with rfl | rfl <;> rfl

theorem jsonFromPairs_eq (pairs : List (List Char × List Char)) :
    jsonFromPairs pairs = objectText (pairs.map pairEntry) := by
  rw [objectText, bodyText, map_map]
  rfl

/-- The pairs can be read back from the document. -/
def ReadsBack (pairs : List (List Char × List Char)) (j : List Char) : Prop :=
  jsonDec j = true ∧ jsonKeys j = .ok (pairs.map Prod.fst) ∧
    (∀ k, jsonHas j k = true ↔ k ∈ pairs.map Prod.fst) ∧ ∀ p ∈ pairs, jsonStr j p.1 = .ok p.2

variable {pairs : List (List Char × List Char)}

theorem jsonHas_pairs (k : List Char) :
    jsonHas (jsonFromPairs pairs) k ↔ ∃ p ∈ pairs, p.1.flatMap escape = k := by
  obtain ⟨r, hr⟩ := findJsonKey_object (pairs.map pairEntry) k
  rw [jsonHas, jsonFromPairs_eq, hr, Option.isSome_map, find?_isSome]
  simp [pairEntry]

/-- The characters that are escaped. -/
def escapedBytes (s : List Char) : Nat := s.countP fun c => c = '"' || c = '\\'

theorem escapedBytes_eq_zero : escapedBytes s = 0 ↔ '"' ∉ s ∧ '\\' ∉ s := by
  rw [escapedBytes, countP_eq_zero]
  constructor
  · intro h
    exact ⟨fun hc => h _ hc rfl, fun hc => h _ hc rfl⟩
  · rintro ⟨hquote, hback⟩ c hc
    have hne : c ≠ '"' ∧ c ≠ '\\' := ⟨fun h => hquote (h ▸ hc), fun h => hback (h ▸ hc)⟩
    simp [hne.1, hne.2]

theorem escapedBytes_escape (s : List Char) : escapedBytes (s.flatMap escape) = 2 * escapedBytes s := by
  have hchar : ∀ c, escapedBytes (escape c) = 2 * escapedBytes [c] := by
    intro c
    unfold escape
    split_ifs with hquote hback
    · rw [hquote]
      rfl
    · rw [hback]
      rfl
    · simp [escapedBytes, hquote, hback]
  induction s with
  | nil => rfl
  | cons c s ih =>
    show escapedBytes (escape c ++ s.flatMap escape) = 2 * escapedBytes ([c] ++ s)
    have hc := hchar c
    unfold escapedBytes at ih hc ⊢
    rw [countP_append, countP_append]
    omega

theorem escape_plain (h : escapedBytes s = 0) : s.flatMap escape = s := by
  rw [escapedBytes_eq_zero] at h
  induction s with
  | nil => rfl
  | cons c s ih =>
    simp only [mem_cons, not_or] at h
    rw [flatMap_cons, ih ⟨h.1.2, h.2.2⟩, escape, if_neg (Ne.symm h.1.1), if_neg (Ne.symm h.2.1)]
    rfl

/-- **When the pairs can be read back**: no key holds a quote or a backslash.
Values may hold them. -/
theorem jsonFromPairs_readsBack_iff (pairs : List (List Char × List Char))
    (hdistinct : (pairs.map Prod.fst).Nodup) :
    ReadsBack pairs (jsonFromPairs pairs) ↔ ∀ p ∈ pairs, '"' ∉ p.1 ∧ '\\' ∉ p.1 := by
  constructor
  · rintro ⟨-, -, hhas, -⟩ p hp
    rw [← escapedBytes_eq_zero]
    by_contra hmarks
    -- an escaped key is found, so it is a key too, with twice the escapedBytes
    have hgrow : ∀ n, ∃ k ∈ pairs.map Prod.fst, n < escapedBytes k := by
      intro n
      induction n with
      | zero => exact ⟨p.1, mem_map_of_mem hp, by omega⟩
      | succ n ih =>
        obtain ⟨k, hk, hn⟩ := ih
        obtain ⟨q, hq, rfl⟩ := mem_map.mp hk
        refine ⟨_, (hhas _).mp ((jsonHas_pairs _).mpr ⟨q, hq, rfl⟩), ?_⟩
        rw [escapedBytes_escape]
        omega
    obtain ⟨k, hk, hn⟩ := hgrow ((pairs.map Prod.fst).map escapedBytes).sum
    have hle := le_sum_of_mem (mem_map_of_mem (f := escapedBytes) hk)
    omega
  · intro hplain
    have hkeys : ∀ p ∈ pairs, p.1.flatMap escape = p.1 := fun p hp =>
      escape_plain (escapedBytes_eq_zero.mpr (hplain p hp))
    refine ⟨?_, ?_, fun k => ?_, fun p hp => ?_⟩
    · rw [jsonFromPairs_eq]
      exact jsonDec_object _
    · rw [jsonFromPairs_eq, jsonKeys_object, map_map]
      exact congrArg _ (map_congr_left fun p _ => unquote_escape p.1)
    · rw [jsonHas_pairs, mem_map]
      refine exists_congr fun p => and_congr_right fun hp => ?_
      rw [hkeys p hp]
    · obtain ⟨r, hr⟩ := findJsonKey_object (pairs.map pairEntry) p.1
      obtain ⟨q, hq⟩ : ∃ q, pairs.find? (fun q => (pairEntry q).key = p.1) = some q :=
        Option.isSome_iff_exists.mp (find?_isSome.mpr ⟨p, hp, decide_eq_true (hkeys p hp)⟩)
      have hmem := mem_of_find?_eq_some hq
      have hkey := find?_some hq
      rw [decide_eq_true_eq] at hkey
      obtain rfl : q = p :=
        inj_on_of_nodup_map hdistinct hmem hp ((hkeys q hmem).symm.trans hkey)
      have hfind : findJsonKey (jsonFromPairs pairs) q.1 = some (jsonEnc q.2 ++ r, r) := by
        rw [jsonFromPairs_eq, hr, find?_map]
        exact congrArg (Option.map _) (congrArg (Option.map _) hq)
      rw [jsonEnc_append] at hfind
      rw [jsonStr, hfind]
      show Except.ok (unquote _) = _
      rw [take_quoted, unquote_escape]

theorem quoted_value_kept : ReadsBack [("k".toList, "\"\\".toList), ([], "v".toList)]
    (jsonFromPairs [("k".toList, "\"\\".toList), ([], "v".toList)]) :=
  (jsonFromPairs_readsBack_iff _ (by decide)).mpr (by decide)

/-- A key with a quote is found under its escaped spelling only. -/
theorem quoted_key_lost : let pairs := [("a\"b".toList, "v".toList)]
    (pairs.map Prod.fst).Nodup ∧ jsonHas (jsonFromPairs pairs) "a\"b".toList = false ∧
      jsonStr (jsonFromPairs pairs) "a\"b".toList = .error (.missing "a\"b".toList) ∧
      jsonHas (jsonFromPairs pairs) "a\\\"b".toList = true := by
  decide +kernel

end

end Toke.Stdlib.Json
