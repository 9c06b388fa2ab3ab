/-
  Toke.Interface.Text — **THE SCANNER ON WELL-FORMED TEXT.**

  What the emitter prints is made of quoted strings, the word `true`, arrays
  and objects (`IsValue`).  On such a text the scanner of `names.c` finds
  exactly what was printed: the end of a value, the members of an object, the
  items of an array.
-/
import Toke.Interface.Emit
import Toke.Interface.Record

namespace Toke

open List Nesting

variable {s v r p : List Char} {c : Char} {ms : List (List Char × List Char)}
    {xs : List (List Char)}

/-! ## §1. Quotations. -/

/-- A quoted string. -/
def quoted (s : List Char) : List Char := '"' :: (s ++ ['"'])

/-- A text that `json_str` prints as it is. -/
def Clean (s : List Char) : Prop := ∀ c ∈ s, c ≠ '"' ∧ c ≠ '\\' ∧ 0x20 ≤ c.toNat

theorem Clean.quote_not_mem (h : Clean s) : '"' ∉ s :=
  fun hm => (h _ hm).1 rfl

theorem Clean.append {t : List Char} (hs : Clean s) (ht : Clean t) : Clean (s ++ t) := by
  exact forall_mem_append.mpr ⟨hs, ht⟩

theorem jsonChar_clean (h : c ≠ '"' ∧ c ≠ '\\' ∧ 0x20 ≤ c.toNat) : jsonChar c = [c] := by
  obtain ⟨hq, hb, hc⟩ := h
  have hctrl : ∀ d : Char, d.toNat < 0x20 → c ≠ d := by
    intro d hd heq
    rw [heq] at hc
    omega
  unfold jsonChar
  rw [if_neg hq, if_neg hb, if_neg (hctrl '\n' (by decide)), if_neg (hctrl '\r' (by decide)),
    if_neg (hctrl '\t' (by decide)), if_neg (by omega)]

theorem jsonStr_clean (h : Clean s) : jsonStr s = s := by
  induction s with
  | nil => rfl
  | cons c s ih =>
    show jsonChar c ++ jsonStr s = c :: s
    rw [jsonChar_clean (h c mem_cons_self), ih fun x hx => h x (mem_cons_of_mem _ hx)]
    rfl

theorem jsonString_clean (h : Clean s) : jsonString s = quoted s := by
  rw [jsonString, jsonStr_clean h, quoted]

theorem untilQuote_append (h : '"' ∉ s) (r : List Char) :
    untilQuote (s ++ '"' :: r) = some (s, r) := by
  have hs : ∀ c ∈ s, (decide (c ≠ '"')) := by
    intro c hc
    exact decide_eq_true fun heq => h (heq ▸ hc)
  unfold untilQuote
  rw [dropWhile_append_of_pos hs, takeWhile_append_of_pos hs]
  simp

theorem strValue_quoted (h : '"' ∉ s) (size : Nat) (r : List Char) :
    strValue size (quoted s ++ r) = some (s.take (size - 1)) := by
  have hd : (quoted s ++ r).dropWhile isBlank = '"' :: (s ++ '"' :: r) := by simp [quoted, isBlank]
  rw [strValue, hd]
  simp only [untilQuote_append h, Option.map_some]

/-! ## §2. Values. -/

/-- The text of an array. -/
def arrText (xs : List (List Char)) : List Char := '[' :: (commaSep xs ++ [']'])

/-- A member of an object. -/
def memberText (m : List Char × List Char) : List Char := quoted m.1 ++ ": ".toList ++ m.2

/-- The text of an object. -/
def objText (ms : List (List Char × List Char)) : List Char :=
  '\x7b' :: (commaSep (ms.map memberText) ++ ['\x7d'])

/-- The texts of values. -/
inductive IsValue : List Char → Prop where
  | str {s : List Char} (h : '"' ∉ s) : IsValue (quoted s)
  | word : IsValue "true".toList
  | arr {xs : List (List Char)} (h : ∀ x ∈ xs, IsValue x) : IsValue (arrText xs)
  | obj {ms : List (List Char × List Char)} (hk : ∀ m ∈ ms, '"' ∉ m.1)
      (hv : ∀ m ∈ ms, IsValue m.2) : IsValue (objText ms)

theorem level_plain (h : s.all fun c => c ≠ '"' && !jsonMarks.opens c &&
    !jsonMarks.closes c) : Level jsonMarks s := by
  refine Level.plain fun c hc => ?_
  have hc := all_eq_true.mp h c hc
  simp only [Bool.and_eq_true, decide_eq_true_eq, Bool.not_eq_eq_eq_not] at hc
  exact ⟨hc.1.1, hc.1.2, hc.2⟩

theorem level_comma : Level jsonMarks ", ".toList := level_plain (by decide)

theorem level_quoted (h : '"' ∉ s) : Level jsonMarks (quoted s) :=
  Level.quoted h

theorem level_members (hk : ∀ m ∈ ms, '"' ∉ m.1)
    (hv : ∀ m ∈ ms, Level jsonMarks m.2) : Level jsonMarks (commaSep (ms.map memberText)) := by
  refine level_comma.intercalate fun x hx => ?_
  obtain ⟨m, hm, rfl⟩ := mem_map.mp hx
  exact ((level_quoted (hk m hm)).append (level_plain (by decide))).append (hv m hm)

theorem IsValue.level (h : IsValue v) : Level jsonMarks v := by
  induction h with
  | str h => exact level_quoted h
  | word => exact level_plain (by decide)
  | arr _ ih =>
    exact (level_comma.intercalate ih).bracket (by decide) (by decide) (by decide) (by decide)
      (by decide)
  | obj hk _ ih =>
    exact (level_members hk ih).bracket (by decide) (by decide) (by decide) (by decide)
      (by decide)

theorem scanValue_quoted (h : '"' ∉ s) (r : List Char) : scanValue (quoted s ++ r) = some r := by
  show (untilQuote (s ++ ['"'] ++ r)).map Prod.snd = some r
  rw [append_assoc, singleton_append, untilQuote_append h]
  rfl

theorem scanValue_bracket {o : Char} (hs : Level jsonMarks s) (ho : jsonMarks.opens o)
    (hoq : o ≠ '"') (hc : jsonMarks.closes c) (hco : jsonMarks.opens c = false)
    (hcq : c ≠ '"') (r : List Char) :
    scanValue (o :: (s ++ [c]) ++ r) = some r := by
  show scanValue (o :: (s ++ [c] ++ r)) = some r
  rw [scanValue, if_neg hoq, if_pos ho, append_assoc]
  exact closing_bracket hs ho hoq hc hco hcq r

theorem scanValue_arr (h : ∀ x ∈ xs, IsValue x) (r : List Char) :
    scanValue (arrText xs ++ r) = some r :=
  scanValue_bracket (level_comma.intercalate fun x hx => (h x hx).level) (by decide) (by decide)
    (by decide) (by decide) (by decide) r

theorem scanValue_obj (hk : ∀ m ∈ ms, '"' ∉ m.1) (hv : ∀ m ∈ ms, IsValue m.2)
    (r : List Char) : scanValue (objText ms ++ r) = some r :=
  scanValue_bracket (level_members hk fun m hm => (hv m hm).level) (by decide) (by decide)
    (by decide) (by decide) (by decide) r

/-- What may follow a value inside a list. -/
def Delim (r : List Char) : Prop := ∃ c t, r = c :: t ∧ (c = ',' ∨ c = '\x7d' ∨ c = ']')

/-- **The end of a value is found.** -/
theorem scanValue_value (h : IsValue v) (hr : Delim r) : scanValue (v ++ r) = some r := by
  cases h with
  | str h => exact scanValue_quoted h r
  | arr h => exact scanValue_arr h r
  | obj hk hv => exact scanValue_obj hk hv r
  | word => obtain ⟨c, t, rfl, rfl | rfl | rfl⟩ := hr <;> rfl

/-- A value never starts with a blank or a separator. -/
theorem IsValue.head (h : IsValue v) : ∃ c t, v = c :: t ∧ isSeparator c = false := by
  cases h with
  | str _ => exact ⟨_, _, rfl, by decide⟩
  | word => exact ⟨_, _, rfl, by decide⟩
  | arr _ => exact ⟨_, _, rfl, by decide⟩
  | obj _ _ => exact ⟨_, _, rfl, by decide⟩

theorem isBlank_false (h : isSeparator c = false) : isBlank c = false := by
  simp only [isSeparator, Bool.or_eq_false_iff] at h
  exact h.1.1.1

theorem commaSep_cons (x : List Char) (xs : List (List Char)) :
    commaSep (x :: xs) = x ++ xs.flatMap (", ".toList ++ ·) := Items.intercalate_cons _ x xs

/-- What is left of a list after an item: the closing bracket, or a comma and
the other items. -/
theorem dropWhile_items (hc : isSeparator c = false)
    (hx : ∀ x ∈ xs, ∃ d t, x = d :: t ∧ isSeparator d = false) (r : List Char) :
    (xs.flatMap (", ".toList ++ ·) ++ c :: r).dropWhile isSeparator = commaSep xs ++ c :: r := by
  cases xs with
  | nil => simp [commaSep, hc]
  | cons x xs =>
    obtain ⟨d, t, rfl, hd⟩ := hx x mem_cons_self
    rw [commaSep_cons, flatMap_cons]
    show ([',', ' '] ++ d :: t ++ _ ++ c :: r).dropWhile isSeparator = _
    simp only [cons_append, nil_append]
    rw [dropWhile_cons_of_pos (by decide), dropWhile_cons_of_pos (by decide),
      dropWhile_cons_of_neg (by simp [hd])]

/-- A list starts with its first item or its closing bracket. -/
theorem dropWhile_commaSep (hc : isSeparator c = false)
    (hx : ∀ x ∈ xs, ∃ d t, x = d :: t ∧ isSeparator d = false) (r : List Char) :
    (commaSep xs ++ c :: r).dropWhile isSeparator = commaSep xs ++ c :: r := by
  cases xs with
  | nil => exact dropWhile_cons_of_neg (by simp [hc])
  | cons x xs =>
    obtain ⟨d, t, rfl, hd⟩ := hx x mem_cons_self
    rw [commaSep_cons]
    exact dropWhile_cons_of_neg (by simp [hd])

theorem quoted_heads (ss : List (List Char)) :
    ∀ x ∈ ss.map quoted, ∃ d t, x = d :: t ∧ isSeparator d = false := by
  intro x hx
  obtain ⟨s, -, rfl⟩ := mem_map.mp hx
  exact ⟨_, _, rfl, by decide⟩

theorem delim_items (hc : c = '\x7d' ∨ c = ']') (r : List Char) :
    Delim (xs.flatMap (", ".toList ++ ·) ++ c :: r) := by
  cases xs with
  | nil => exact ⟨c, r, rfl, Or.inr hc⟩
  | cons x xs => exact ⟨',', _, rfl, Or.inl rfl⟩

/-! ## §3. Objects and their keys. -/

theorem nextMember_member {k : List Char} (hk : '"' ∉ k) (hv : IsValue v)
    (hp : p.dropWhile isSeparator = memberText (k, v) ++ r) : nextMember p = some (k, v ++ r) := by
  obtain ⟨c, t, rfl, hc⟩ := hv.head
  have hq : p.dropWhile isSeparator = '"' :: (k ++ '"' :: ':' :: ' ' :: c :: (t ++ r)) := by
    rw [hp, memberText, quoted]
    simp
  have hblank : (' ' :: c :: (t ++ r)).dropWhile isBlank = c :: (t ++ r) := by
    rw [dropWhile_cons_of_pos (by decide), dropWhile_cons_of_neg (by simp [isBlank_false hc])]
  have hcolon : (':' :: ' ' :: c :: (t ++ r)).dropWhile isBlank = ':' :: ' ' :: c :: (t ++ r) :=
    dropWhile_cons_of_neg (by decide)
  rw [nextMember, hq]
  simp only [untilQuote_append hk, hcolon, hblank, cons_append]

theorem nextMember_end (hp : p.dropWhile isSeparator = '\x7d' :: r) : nextMember p = none := by
  rw [nextMember, hp]
  rfl

/-- The loop of `objKey` on the members that are left. -/
theorem objKeyLoop_members (key : List Char) (hk : ∀ m ∈ ms, '"' ∉ m.1)
    (hv : ∀ m ∈ ms, IsValue m.2) :
    ∀ (fuel : Nat) (p : List Char), ms.length < fuel →
      p.dropWhile isSeparator = commaSep (ms.map memberText) ++ '\x7d' :: r →
      ∃ q, objKeyLoop key fuel p = (ms.lookup key).map (· ++ q) := by
  induction ms with
  | nil =>
    intro fuel p hfuel hp
    obtain ⟨fuel, rfl⟩ := Nat.exists_eq_add_one_of_ne_zero (Nat.ne_of_gt hfuel)
    refine ⟨[], ?_⟩
    rw [objKeyLoop, nextMember_end hp]
    rfl
  | cons m ms ih =>
    intro fuel p hfuel hp
    obtain ⟨fuel, rfl⟩ := Nat.exists_eq_add_one_of_ne_zero (by omega : fuel ≠ 0)
    obtain ⟨k, v⟩ := m
    have hk0 : '"' ∉ k := hk (k, v) mem_cons_self
    have hv0 : IsValue v := hv (k, v) mem_cons_self
    rw [map_cons, commaSep_cons, append_assoc] at hp
    have hnext := nextMember_member hk0 hv0 hp
    by_cases hkey : k = key
    · subst hkey
      refine ⟨(ms.map memberText).flatMap (", ".toList ++ ·) ++ '\x7d' :: r, ?_⟩
      simp [objKeyLoop, hnext]
    · have hkey' : (key == k) = false := by simpa using fun h => hkey h.symm
      simp only [lookup_cons, hkey', objKeyLoop, hnext, if_neg hkey,
        scanValue_value hv0 (delim_items (Or.inl rfl) r)]
      refine ih (forall_mem_cons.mp hk).2
        (forall_mem_cons.mp hv).2 fuel _ ?_ ?_
      · simp only [length_cons] at hfuel
        omega
      · refine dropWhile_items (by decide) (fun x hx => ?_) r
        obtain ⟨m, -, rfl⟩ := mem_map.mp hx
        exact ⟨_, _, rfl, by decide⟩

/-- An object text as its members. -/
structure Obj where
  members : List (List Char × List Char)
  keys_clean : ∀ m ∈ members, '"' ∉ m.1
  values : ∀ m ∈ members, IsValue m.2

/-- The text of an object. -/
def Obj.text (o : Obj) : List Char := objText o.members

/-- **A key of a printed object is found, at its own value.** -/
theorem objKey_text (o : Obj) (key : String) :
    ∃ q, objKey o.text key = (o.members.lookup key.toList).map (· ++ q) := by
  refine objKeyLoop_members key.toList o.keys_clean o.values _ _ ?_ ?_ (r := [])
  · have hlen : o.members.length ≤ (commaSep (o.members.map memberText)).length := by
      rw [← length_map (f := memberText)]
      refine Items.length_le_intercalate (by decide) fun x hx => ?_
      obtain ⟨m, -, rfl⟩ := mem_map.mp hx
      exact cons_ne_nil _ _
    show o.members.length < (objText o.members).length
    simp only [objText, length_cons, length_append]
    omega
  · cases o.members with
    | nil => rfl
    | cons m ms =>
      rw [map_cons, commaSep_cons]
      rfl

theorem strMember_text (o : Obj) (size : Nat) {key : String} (hs : '"' ∉ s)
    (h : o.members.lookup key.toList = some (quoted s)) :
    strMember size o.text key = some (s.take (size - 1)) := by
  obtain ⟨q, hq⟩ := objKey_text o key
  rw [strMember, hq, h]
  exact strValue_quoted hs size q

/-! ## §4. Arrays. -/

theorem upTo_append (a q : List Char) : upTo (a ++ q) q = a := by
  simp [upTo]

theorem arrayMember_text {α : Type} (o : Obj) {key : String} (hxs : ∀ x ∈ xs, IsValue x)
    (h : o.members.lookup key.toList = some (arrText xs)) (items : List Char → List α) :
    arrayMember o.text key items = some (items (commaSep xs ++ [']'])) := by
  obtain ⟨q, hq⟩ := objKey_text o key
  have hobj : objKey o.text key = some ('[' :: (commaSep xs ++ [']'] ++ q)) := by
    rw [hq, h]
    rfl
  have hend : scanValue ('[' :: (commaSep xs ++ [']'] ++ q)) = some q := scanValue_arr hxs q
  rw [arrayMember, hobj]
  simp only [hend, Option.map_some, upTo_append]

theorem paramLoop_items {ss : List (List Char)} (hss : ∀ s ∈ ss, '"' ∉ s) (r : List Char) :
    ∀ (fuel : Nat) (p : List Char), ss.length ≤ fuel →
      p.dropWhile isSeparator = commaSep (ss.map quoted) ++ ']' :: r →
      paramLoop fuel p = ss.map (·.take 127) := by
  induction ss with
  | nil =>
    intro fuel p _ hp
    cases fuel with
    | zero => rfl
    | succ fuel =>
      rw [paramLoop, hp]
      rfl
  | cons s ss ih =>
    intro fuel p hfuel hp
    obtain ⟨fuel, rfl⟩ := Nat.exists_eq_add_one_of_ne_zero (by
      intro h
      simp [h] at hfuel : fuel ≠ 0)
    have hs := hss s mem_cons_self
    rw [map_cons, commaSep_cons] at hp
    have hval := strValue_quoted hs 128 ((ss.map quoted).flatMap (", ".toList ++ ·) ++ ']' :: r)
    have hscan := scanValue_quoted hs ((ss.map quoted).flatMap (", ".toList ++ ·) ++ ']' :: r)
    have hrest := ih (forall_mem_cons.mp hss).2 fuel
      ((ss.map quoted).flatMap (", ".toList ++ ·) ++ ']' :: r)
      (by simpa using hfuel)
      (dropWhile_items (by decide) (quoted_heads ss) r)
    rw [paramLoop, hp]
    simp only [quoted, cons_append, append_assoc] at hval hscan hrest ⊢
    simp only [hval, hscan, hrest, map_cons]

/-- The record of a field. -/
def fieldObj (name type : List Char) (hn : '"' ∉ name) (ht : '"' ∉ type) : Obj where
  members := [("name".toList, quoted name), ("type".toList, quoted type)]
  keys_clean := by simp only [forall_mem_cons]; exact ⟨by decide, by decide, by simp⟩
  values := by simp only [forall_mem_cons]; exact ⟨.str hn, .str ht, by simp⟩

theorem Obj.isValue (o : Obj) : IsValue o.text := .obj o.keys_clean o.values

theorem Obj.head (o : Obj) : ∃ t, o.text = '\x7b' :: t := ⟨_, rfl⟩

/-- A record is scanned as one value. -/
theorem Obj.scan (o : Obj) (q : List Char) : ∃ t, o.text ++ q = '\x7b' :: t ∧
    scanValue ('\x7b' :: t) = some q ∧ upTo ('\x7b' :: t) q = o.text :=
  ⟨_, rfl, scanValue_obj o.keys_clean o.values q, upTo_append o.text q⟩

theorem fieldLoop_cons {fuel : Nat} {q : List Char} (o : Obj)
    (hp : p.dropWhile isSeparator = o.text ++ q) {name type : List Char}
    (hn : strMember 128 o.text "name" = some name) (ht : strMember 128 o.text "type" = some type) :
    fieldLoop (fuel + 1) p = (bareName name, type) :: fieldLoop fuel q := by
  obtain ⟨t, ho, hscan, hobj⟩ := o.scan q
  rw [ho] at hp
  rw [fieldLoop, hp]
  simp only [hscan, hobj, hn, ht, Option.getD_some]

/-- **The fields of a printed array are read back**, names without their sigil. -/
theorem fieldLoop_items {fs : List (List Char × List Char)}
    (hn : ∀ f ∈ fs, '"' ∉ f.1) (ht : ∀ f ∈ fs, '"' ∉ f.2) (r : List Char) :
    ∀ (fuel : Nat) (p : List Char), fs.length ≤ fuel →
      p.dropWhile isSeparator = commaSep (fs.map fun f =>
        objText [("name".toList, quoted f.1), ("type".toList, quoted f.2)]) ++ ']' :: r →
      fieldLoop fuel p = fs.map fun f => (bareName (f.1.take 127), f.2.take 127) := by
  induction fs with
  | nil =>
    intro fuel p _ hp
    cases fuel with
    | zero => rfl
    | succ fuel =>
      rw [fieldLoop, hp]
      rfl
  | cons f fs ih =>
    intro fuel p hfuel hp
    obtain ⟨fuel, rfl⟩ := Nat.exists_eq_add_one_of_ne_zero (by
      intro h
      simp [h] at hfuel : fuel ≠ 0)
    have hn0 := hn f mem_cons_self
    have ht0 := ht f mem_cons_self
    rw [map_cons, commaSep_cons, append_assoc] at hp
    rw [fieldLoop_cons (fieldObj f.1 f.2 hn0 ht0) hp
      (strMember_text _ 128 hn0 rfl) (strMember_text _ 128 ht0 rfl)]
    congr 1
    refine ih (forall_mem_cons.mp hn).2
      (forall_mem_cons.mp ht).2 fuel _ (by simpa using hfuel) ?_
    refine dropWhile_items (by decide) (fun x hx => ?_) r
    obtain ⟨g, -, rfl⟩ := mem_map.mp hx
    exact ⟨_, _, rfl, by decide⟩

end Toke
