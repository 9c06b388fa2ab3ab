/-
  Toke.Compress.JsonRows — **WHICH VALUES END UP UNDER WHICH KEY.**

  `compress_json` writes the keys of the first object once and the values of
  every object by POSITION; the keys of the later objects are read and thrown
  away.  `ideal` is what the format promises: one row for each object, with the
  value it gives to each header key.

    `compressJson_array`  — what is written for an array of flat objects
    `rows_eq_iff`         — positional rows against rows by key
    `keepsKeys_iff`       — the promise is kept exactly when every object lists
                            its values in the order of the header
-/
import Toke.Compress.JsonText

namespace Toke.Compress

open List

/-! ## §1. The promise. -/

namespace JsonObject

/-- The keys. -/
def keys (o : JsonObject) : List (List Char) := o.members.map fun m => decoded m.key

/-- The value that the object gives to a key; nothing for a key it lacks. -/
def lookup (o : JsonObject) (k : List Char) : List Char :=
  (o.members.find? fun m => decoded m.key = k).elim [] fun m => m.value.value

/-- The row of the object under the header `ks`. -/
def idealRow (ks : List (List Char)) (o : JsonObject) : List Char :=
  ['\t'].intercalate (ks.map o.lookup) ++ ['\n']

end JsonObject

namespace JsonArray

/-- The header with the keys of the first object, and a row for each object. -/
def ideal (a : JsonArray) : List Char :=
  match a.objects with
  | [] => []
  | o :: os => jsonHeader o.keys ++ (o :: os).flatMap (JsonObject.idealRow o.keys)

/-- **The promise**: whenever the output is a table, it is the ideal one. -/
def KeepsKeys (a : JsonArray) : Prop :=
  ∀ out, compressJson a.text = some out → out.take 8 = jsonMagic → out = a.ideal

/-- Every object lists, in the order of the header, the values it gives to the
keys of the header, and those keys are spelled without escapes that change a
character. -/
def InOrder (a : JsonArray) : Prop :=
  ∀ o ∈ a.objects.head?, o.members ≠ [] ∧ (∀ m ∈ o.members, stripped m.key = decoded m.key) ∧
    ∀ p ∈ a.objects, p.copiedValues.take o.members.length = o.keys.map p.lookup

/-- No value has a tab or a line end in it. -/
def Clean (a : JsonArray) : Prop :=
  ∀ o ∈ a.objects, ∀ m ∈ o.members, '\t' ∉ m.value.value ∧ '\n' ∉ m.value.value

end JsonArray

/-! ## §2. What is written. -/

theorem objectsText_head (o : JsonObject) (os : List JsonObject) (rest : List Char) :
    ∃ s, skipSpace (objectsText (o :: os) ++ rest) = '{' :: s := by
  obtain ⟨u, hu⟩ : ∃ u, o.text = o.before.text ++ '{' :: u := ⟨_, rfl⟩
  obtain ⟨v, hv⟩ : ∃ v, objectsText (o :: os) = o.text ++ v := by
    cases os with
    | nil => exact ⟨[], (append_nil _).symm⟩
    | cons o' os => exact ⟨_, rfl⟩
  refine ⟨u ++ v ++ rest, ?_⟩
  have htext : objectsText (o :: os) ++ rest = o.before.text ++ '{' :: (u ++ v ++ rest) := by
    rw [hv, hu]
    simp
  rw [htext, skipSpace_blank o.before (by decide)]

theorem length_objectsText : ∀ os : List JsonObject, os.length ≤ (objectsText os).length
  | [] => Nat.le_refl _
  | [o] => by
    show 1 ≤ o.text.length
    rw [JsonObject.text, length_append, length_cons]
    omega
  | o :: o' :: os => by
    have ih := length_objectsText (o' :: os)
    show (o' :: os).length + 1 ≤ (o.text ++ ',' :: objectsText (o' :: os)).length
    rw [length_append, length_cons (a := ',')]
    omega

theorem skipSpace_skipSpace (s : List Char) : skipSpace (skipSpace s) = skipSpace s :=
  skipSpace_append (w := []) nofun (headNot_dropWhile isSpace s)

theorem jsonArrayLoop_skipSpace (fuel : Nat) (h : Option Nat) (out s : List Char) :
    jsonArrayLoop fuel h out (skipSpace s) = jsonArrayLoop fuel h out s := by
  cases fuel with
  | zero => rfl
  | succ fuel => rw [jsonArrayLoop, jsonArrayLoop, skipSpace_skipSpace]

/-- The branch for an array. -/
theorem compressJson_bracket {s r : List Char} (hne : s ≠ []) (h : skipSpace s = '[' :: r) :
    compressJson s = if (skipSpace r).head? = some '{' then
        match jsonArrayLoop r.length none [] r with
        | some (some _, out) => some out
        | _ => some (compressText s)
      else some (compressText s) := by
  simp only [compressJson, hne, h, jsonArrayLoop_skipSpace]
  rfl

/-- **What `compress_json` writes for an array of flat objects** whose keys and
values fit their buffers. -/
theorem compressJson_array {a : JsonArray} (hfit : ObjectsFit a.objects) : compressJson a.text =
      match a.objects with
      | [] => some (compressText a.text)
      | o :: os =>
        if ∀ p ∈ o :: os, p.members.length ≤ maxPairs then
          some (jsonHeader o.copiedKeys
            ++ (o :: os).flatMap fun p => jsonRow o.members.length p.copiedValues)
        else some (compressText a.text) := by
  have hne : a.text ≠ [] := by
    intro heq
    have hlen := congrArg length heq
    rw [JsonArray.text, length_append] at hlen
    simp at hlen
  have hstart : skipSpace a.text = '[' :: ((if a.objects = [] then a.inside.text
      else objectsText a.objects) ++ ']' :: a.behind) := skipSpace_blank a.before (by decide) _
  rw [compressJson_bracket hne hstart]
  cases hobj : a.objects with
  | nil =>
    rw [if_pos rfl, skipSpace_blank a.inside (by decide)]
    rfl
  | cons o os =>
    rw [if_neg (cons_ne_nil o os)]
    obtain ⟨s, hs⟩ := objectsText_head o os (']' :: a.behind)
    have hfuel : (o :: os).length < (objectsText (o :: os) ++ ']' :: a.behind).length := by
      have := length_objectsText (o :: os)
      rw [length_append, length_cons (a := ']')]
      omega
    rw [hs, head?_cons, if_pos rfl, jsonArrayLoop_objects a.behind os o _ none []
      (by rw [← hobj]; exact hfit) hfuel]
    dsimp only
    by_cases hall : ∀ p ∈ o :: os, p.members.length ≤ maxPairs
    · rw [if_pos hall, if_pos hall]
      rfl
    · rw [if_neg hall, if_neg hall]

/-! ## §3. The header. -/

theorem length_utf8 (n : Nat) : (utf8 n).length ≤ 4 := by
  unfold utf8
  split_ifs <;> simp

theorem length_opened {t : List Char} {n : Nat} (ht : t.length ≤ n) (hi : Option Nat) (c : Char) :
    (hi.elim [] utf8 ++ c :: t).length ≤ n + 1 + hi.elim 0 fun _ => 4 := by
  have hopen : (hi.elim [] utf8).length ≤ hi.elim 0 fun _ => 4 := by
    cases hi with
    | none => exact Nat.le_refl _
    | some hi => exact length_utf8 hi
  rw [length_append, length_cons]
  omega

/-- No string is longer than its copy: `\uXXXX` is copied as five characters. -/
theorem length_decodeFrom : ∀ (is : List StrItem) (hi : Option Nat),
    (decodeFrom hi is).length ≤ (stripped is).length + hi.elim 0 fun _ => 4
  | [], none => Nat.le_refl _
  | [], some hi => by
    have := length_utf8 hi
    show (utf8 hi).length ≤ 0 + 4
    omega
  | .char c h :: is, hi => by
    have hleft : decodeFrom hi (.char c h :: is) = hi.elim [] utf8 ++ c :: decodeFrom none is := by
      cases hi <;> rfl
    rw [hleft]
    exact length_opened (length_decodeFrom is none) hi c
  | .escape e h :: is, hi => by
    have hleft : decodeFrom hi (.escape e h :: is) = hi.elim [] utf8 ++ e.2 :: decodeFrom none is := by
      cases hi <;> rfl
    rw [hleft]
    exact length_opened (length_decodeFrom is none) hi e.2
  | .unicode a b c d h :: is, hi => by
    have ih := length_decodeFrom is none
    have ihOpen := length_decodeFrom is (some (codeUnit a b c d))
    have hunit := length_utf8 (codeUnit a b c d)
    change (decodeFrom none is).length ≤ (stripped is).length + 0 at ih
    change (decodeFrom (some _) is).length ≤ (stripped is).length + 4 at ihOpen
    show _ ≤ (stripped is).length + 1 + 1 + 1 + 1 + 1 + _
    cases hi with
    | none =>
      unfold decodeFrom
      dsimp only
      split_ifs
      · show (decodeFrom _ is).length ≤ _
        omega
      · rw [length_append]
        omega
    | some hi =>
      have hhi := length_utf8 hi
      show _ ≤ _ + 4
      unfold decodeFrom
      dsimp only
      split_ifs
      · show (utf8 hi ++ decodeFrom _ is).length ≤ _
        rw [length_append]
        omega
      · rw [length_append]
        have := length_utf8 (0x10000 + (hi - 0xD800) * 1024 + (codeUnit a b c d - 0xDC00))
        omega
      · rw [length_append, length_append]
        omega

theorem length_decoded (is : List StrItem) : (decoded is).length ≤ (stripped is).length :=
  length_decodeFrom is none

/-- A text without the separator ends no later than any other text that is
followed by it. -/
theorem length_le_of_sep {c : Char} {a b x y : List Char} (ha : c ∉ a)
    (h : a ++ c :: x = b ++ c :: y) : a.length ≤ b.length := by
  rcases append_eq_append_iff.mp h with ⟨u, rfl, -⟩ | ⟨u, rfl, hu⟩
  · rw [length_append]
    omega
  · cases u with
    | nil => simp
    | cons d u =>
      obtain ⟨rfl, -⟩ := cons.inj hu
      exact absurd (mem_append_right b mem_cons_self) ha

theorem notMem_intercalate {c sep : Char} (hne : c ≠ sep) {l : List (List Char)}
    (h : ∀ v ∈ l, c ∉ v) : c ∉ [sep].intercalate l := by
  cases l with
  | nil => exact not_mem_nil
  | cons v l =>
    obtain ⟨hv, hl⟩ := forall_mem_cons.mp h
    simp [Items.intercalate_cons, hv, hne]
    exact hl

/-- Copies with commas between them are the strings themselves only one by one,
because no string is longer than its copy. -/
theorem intercalate_copies {α : Type} (f g : α → List Char) (sep : Char) : ∀ l : List α,
    (∀ x ∈ l, (g x).length ≤ (f x).length) →
    ([sep].intercalate (l.map g)).length ≤ ([sep].intercalate (l.map f)).length ∧
      ([sep].intercalate (l.map f) = [sep].intercalate (l.map g) → ∀ x ∈ l, f x = g x)
  | [], _ => ⟨Nat.le_refl _, nofun⟩
  | [x], h => by
    rw [map_singleton, map_singleton, intercalate_singleton, intercalate_singleton]
    refine ⟨h x mem_cons_self, fun heq y hy => ?_⟩
    rw [mem_singleton.mp hy]
    exact heq
  | x :: x' :: l, h => by
    have hx := h x mem_cons_self
    obtain ⟨hle, hinj⟩ := intercalate_copies f g sep (x' :: l)
      (forall_mem_cons.mp h).2
    rw [map_cons, map_cons] at hle hinj
    rw [map_cons, map_cons, map_cons, map_cons, intercalate_cons_cons, intercalate_cons_cons]
    refine ⟨?_, fun heq => ?_⟩
    · rw [length_append, length_append, length_append, length_append]
      omega
    · have hlen := congrArg length heq
      simp only [length_append] at hlen
      obtain ⟨hhead, htail⟩ := append_inj
        (show f x ++ ([sep] ++ _) = g x ++ ([sep] ++ _) by simpa using heq) (by omega)
      exact forall_mem_cons.mpr ⟨hhead, hinj (append_cancel_left htail)⟩

theorem isHex_toNat {c : Char} (h : isHex c) : 48 ≤ c.toNat := by
  simp only [isHex, isDigit, Bool.or_eq_true, Bool.and_eq_true, decide_eq_true_eq] at h
  rcases h with (h | h) | h
  · exact h.1
  · have hle : 97 ≤ c.toNat := h.1
    omega
  · have hle : 65 ≤ c.toNat := h.1
    omega

theorem escapeTable_toNat : ∀ e ∈ escapeTable, 32 ≤ e.1.toNat := by decide

/-- A copied string has no control characters. -/
theorem stripped_toNat (is : List StrItem) : ∀ c ∈ stripped is, 32 ≤ c.toNat := by
  intro c hc
  obtain ⟨i, -, hi⟩ := mem_flatMap.mp hc
  cases i with
  | char d h =>
    obtain rfl := mem_singleton.mp hi
    unfold isStrChar at h
    simp only [Bool.and_eq_true, decide_eq_true_eq] at h
    exact h.1.1
  | escape e h =>
    obtain rfl := mem_singleton.mp hi
    exact escapeTable_toNat e h
  | unicode a b d e h =>
    rcases mem_cons.mp hi with rfl | hmem
    · decide
    · have := isHex_toNat (all_eq_true.mp h c hmem)
      omega

theorem notMem_copied (v : JsonScalar) : '\t' ∉ v.copied ∧ '\n' ∉ v.copied := by
  cases v with
  | str is =>
    exact ⟨fun h => absurd (stripped_toNat is _ h) (by decide),
      fun h => absurd (stripped_toNat is _ h) (by decide)⟩
  | bare tok hne htok =>
    exact ⟨fun h => absurd (htok _ h) (by decide), fun h => absurd (htok _ h) (by decide)⟩

/-- **The header decides its keys.**  Its line ends where the copies end, and
the strings are not longer than that. -/
theorem jsonHeader_inj {o : JsonObject} {x y : List Char}
    (h : jsonHeader o.copiedKeys ++ x = jsonHeader o.keys ++ y) :
    (∀ m ∈ o.members, stripped m.key = decoded m.key) ∧ x = y := by
  have hcount : o.copiedKeys.length = o.keys.length := by
    rw [JsonObject.copiedKeys, JsonObject.keys, length_map, length_map]
  obtain ⟨hle, hinj⟩ := intercalate_copies (fun m : JsonMember => stripped m.key)
    (fun m => decoded m.key) ',' o.members fun m _ => length_decoded m.key
  have hline : [','].intercalate o.copiedKeys ++ '\n' :: x = [','].intercalate o.keys ++ '\n' :: y := by
    unfold jsonHeader at h
    rw [hcount] at h
    simpa using h
  have hnot : '\n' ∉ [','].intercalate o.copiedKeys := by
    refine notMem_intercalate (by decide) fun k hk hmem => ?_
    obtain ⟨m, -, rfl⟩ := mem_map.mp hk
    exact absurd (stripped_toNat m.key _ hmem) (by decide)
  have hge := length_le_of_sep hnot hline
  obtain ⟨hkeys, htail⟩ := append_inj hline (Nat.le_antisymm hge hle)
  exact ⟨hinj hkeys, (cons.inj htail).2⟩

/-! ## §4. The rows. -/

/-- A row that has all its columns. -/
theorem jsonRow_complete : ∀ (n : Nat) (vs : List (List Char)), n < vs.length →
    jsonRow (n + 1) vs = ['\t'].intercalate (vs.take (n + 1)) ++ ['\n']
  | _, [], h => absurd h (Nat.not_lt_zero _)
  | 0, v :: vs, _ => by
    rw [take_succ_cons, take_zero, intercalate_singleton]
    rfl
  | n + 1, v :: vs, h => by
    have hlt : n < vs.length := Nat.lt_of_succ_lt_succ h
    have ih := jsonRow_complete n vs hlt
    obtain ⟨w, ws, rfl⟩ := exists_cons_of_ne_nil (ne_nil_of_length_pos (by omega) : vs ≠ [])
    show v ++ '\t' :: jsonRow (n + 1) (w :: ws) = _
    rw [ih, show (v :: w :: ws).take (n + 1 + 1) = v :: w :: ws.take n from rfl]
    simp

/-- A row ends its line exactly when it has all its columns. -/
theorem count_jsonRow : ∀ (n : Nat) {vs : List (List Char)}, (∀ v ∈ vs, '\n' ∉ v) →
    (jsonRow n vs).count '\n' = if 0 < n ∧ n ≤ vs.length then 1 else 0
  | 0, vs, _ => rfl
  | n + 1, [], _ => rfl
  | n + 1, v :: vs, h => by
    have hv : v.count '\n' = 0 := count_eq_zero_of_not_mem (h v mem_cons_self)
    have hvs : ∀ w ∈ vs, '\n' ∉ w := (forall_mem_cons.mp h).2
    have ih := count_jsonRow n hvs
    rw [jsonRow, count_append, count_cons, hv, ih, length_cons]
    cases n with
    | zero =>
      show 0 + ((if 0 < 0 ∧ 0 ≤ vs.length then 1 else 0) + 1) = _
      rw [if_neg fun h => absurd h.1 (Nat.lt_irrefl 0),
        if_pos ⟨Nat.zero_lt_one, Nat.le_add_left 1 vs.length⟩]
    | succ n =>
      show 0 + ((if 0 < n + 1 ∧ n + 1 ≤ vs.length then 1 else 0) + 0) = _
      by_cases hle : n + 1 ≤ vs.length
      · rw [if_pos ⟨Nat.succ_pos n, hle⟩, if_pos ⟨Nat.succ_pos _, by omega⟩]
      · rw [if_neg fun h => hle h.2, if_neg fun h => hle (by omega)]

section Rows

variable {ks : List (List Char)} {os : List JsonObject}

theorem notMem_copiedValues (o : JsonObject) : ∀ v ∈ o.copiedValues, '\t' ∉ v ∧ '\n' ∉ v := by
  intro v hv
  obtain ⟨m, -, rfl⟩ := mem_map.mp hv
  exact notMem_copied m.value

theorem notMem_lookup {o : JsonObject}
    (ho : ∀ m ∈ o.members, '\t' ∉ m.value.value ∧ '\n' ∉ m.value.value) (k : List Char) :
    '\t' ∉ o.lookup k ∧ '\n' ∉ o.lookup k := by
  unfold JsonObject.lookup
  cases hfind : o.members.find? fun m => decoded m.key = k with
  | none => exact ⟨not_mem_nil, not_mem_nil⟩
  | some m => exact ho m (mem_of_find?_eq_some hfind)

/-- Each positional row ends at most one line. -/
theorem count_rows_le (n : Nat) : ∀ os : List JsonObject,
    (os.flatMap fun o => jsonRow n o.copiedValues).count '\n' ≤ os.length ∧
      ((os.flatMap fun o => jsonRow n o.copiedValues).count '\n' = os.length →
        ∀ o ∈ os, 0 < n ∧ n ≤ o.copiedValues.length)
  | [] => ⟨Nat.le_refl _, fun _ => nofun⟩
  | o :: os => by
    obtain ⟨hle, hall⟩ := count_rows_le n os
    have hrow := count_jsonRow n fun v hv => (notMem_copiedValues o v hv).2
    rw [flatMap_cons, count_append, hrow, length_cons]
    by_cases hc : 0 < n ∧ n ≤ o.copiedValues.length
    · rw [if_pos hc]
      refine ⟨by omega, fun heq p hp => ?_⟩
      rcases mem_cons.mp hp with rfl | hp
      · exact hc
      · exact hall (by omega) p hp
    · rw [if_neg hc]
      exact ⟨by omega, fun heq => absurd heq (by omega)⟩

theorem count_idealRows (hclean : ∀ o ∈ os, ∀ m ∈ o.members, '\t' ∉ m.value.value ∧ '\n' ∉ m.value.value) :
    (os.flatMap (JsonObject.idealRow ks)).count '\n' = os.length := by
  induction os with
  | nil => rfl
  | cons o os ih =>
    have hline : (['\t'].intercalate (ks.map o.lookup)).count '\n' = 0 := by
      refine count_eq_zero_of_not_mem (notMem_intercalate (by decide) fun v hv => ?_)
      obtain ⟨k, -, rfl⟩ := mem_map.mp hv
      exact (notMem_lookup (hclean o mem_cons_self) k).2
    rw [flatMap_cons, count_append, ih (forall_mem_cons.mp hclean).2,
      JsonObject.idealRow, count_append, hline, length_cons]
    show 0 + 1 + os.length = _
    omega

/-- Columns between tabs are the columns one by one. -/
theorem columns_inj {vs ws : List (List Char)} (hv : ∀ v ∈ vs, '\t' ∉ v) (hw : ∀ w ∈ ws, '\t' ∉ w)
    (hvne : vs ≠ []) (hwne : ws ≠ []) (h : ['\t'].intercalate vs = ['\t'].intercalate ws) : vs = ws := by
  rw [← splitOn_intercalate '\t' hv hvne, h, splitOn_intercalate '\t' hw hwne]

/-- **Line by line.**  Induction on the objects, all of whose rows are complete. -/
theorem rows_inj (hks : ks ≠ [])
    (hclean : ∀ o ∈ os, ∀ m ∈ o.members, '\t' ∉ m.value.value ∧ '\n' ∉ m.value.value)
    (hall : ∀ o ∈ os, ks.length ≤ o.copiedValues.length)
    (h : (os.flatMap fun o => jsonRow ks.length o.copiedValues)
      = os.flatMap (JsonObject.idealRow ks)) :
    ∀ o ∈ os, o.copiedValues.take ks.length = ks.map o.lookup := by
  induction os with
  | nil => exact nofun
  | cons o os ih =>
    have hpos : 0 < ks.length := length_pos_of_ne_nil hks
    have hle := hall o mem_cons_self
    have hlookup := notMem_lookup (hclean o mem_cons_self)
    have hrow : jsonRow ks.length o.copiedValues
        = ['\t'].intercalate (o.copiedValues.take ks.length) ++ ['\n'] := by
      have hsucc : ks.length - 1 + 1 = ks.length := by omega
      have hcomplete := jsonRow_complete (ks.length - 1) o.copiedValues (by omega)
      rwa [hsucc] at hcomplete
    have htake : ∀ v ∈ o.copiedValues.take ks.length, '\t' ∉ v ∧ '\n' ∉ v :=
      fun v hv => notMem_copiedValues o v (mem_of_mem_take hv)
    have hmap : ∀ v ∈ ks.map o.lookup, '\t' ∉ v ∧ '\n' ∉ v := by
      intro v hv
      obtain ⟨k, -, rfl⟩ := mem_map.mp hv
      exact hlookup k
    rw [flatMap_cons, flatMap_cons, hrow, JsonObject.idealRow, append_assoc, append_assoc] at h
    -- neither line has a line end in it, so both end at the same place
    have hge := length_le_of_sep (notMem_intercalate (by decide) fun v hv => (htake v hv).2) h
    have hge' := length_le_of_sep (notMem_intercalate (by decide) fun v hv => (hmap v hv).2) h.symm
    obtain ⟨hline, hrest⟩ := append_inj h (Nat.le_antisymm hge hge')
    have hne : o.copiedValues.take ks.length ≠ [] := by
      refine ne_nil_of_length_pos ?_
      rw [length_take]
      omega
    intro p hp
    rcases mem_cons.mp hp with rfl | hp
    · exact columns_inj (fun v hv => (htake v hv).1) (fun v hv => (hmap v hv).1) hne
        (by simpa using hks) hline
    · exact ih (forall_mem_cons.mp hclean).2
        (forall_mem_cons.mp hall).2 (cons.inj hrest).2 p hp

/-- **Positional rows are the rows by key** exactly when there is a column and
every object lists the values of the header keys first, in their order. -/
theorem rows_eq_iff (hos : os ≠ [])
    (hclean : ∀ o ∈ os, ∀ m ∈ o.members, '\t' ∉ m.value.value ∧ '\n' ∉ m.value.value) :
    (os.flatMap fun o => jsonRow ks.length o.copiedValues) = os.flatMap (JsonObject.idealRow ks) ↔
      ks ≠ [] ∧ ∀ o ∈ os, o.copiedValues.take ks.length = ks.map o.lookup := by
  constructor
  · intro h
    have hcount : (os.flatMap fun o => jsonRow ks.length o.copiedValues).count '\n' = os.length := by
      rw [h, count_idealRows hclean]
    have hall := (count_rows_le ks.length os).2 hcount
    obtain ⟨o, ho⟩ := exists_mem_of_ne_nil os hos
    have hks : ks ≠ [] := ne_nil_of_length_pos (hall o ho).1
    exact ⟨hks, rows_inj hks hclean (fun p hp => (hall p hp).2) h⟩
  · rintro ⟨hks, hall⟩
    have hpos : 0 < ks.length := length_pos_of_ne_nil hks
    have hrow : ∀ o ∈ os, jsonRow ks.length o.copiedValues = o.idealRow ks := by
      intro o ho
      have hlen := congrArg length (hall o ho)
      rw [length_take, length_map] at hlen
      have hcomplete := jsonRow_complete (ks.length - 1) o.copiedValues (by omega)
      rw [show ks.length - 1 + 1 = ks.length by omega, hall o ho] at hcomplete
      exact hcomplete
    exact flatMap_congr hrow

end Rows

/-! ## §5. The promise, settled. -/

/-- The fallback does not look like a table. -/
theorem compressText_not_table {s : List Char} (hne : s ≠ []) : (compressText s).take 8 ≠ jsonMagic := by
  intro h
  have hfour : ((compressText s).take 8).take 4 = jsonMagic.take 4 := by rw [h]
  have htext : (compressText s).take 4 = magic := by
    rw [compressText_eq hne]
    exact take_left' rfl
  rw [take_take, show min 4 8 = 4 from rfl, htext] at hfour
  cases hfour

theorem jsonHeader_magic (ks : List (List Char)) (x : List Char) :
    (jsonHeader ks ++ x).take 8 = jsonMagic := by
  unfold jsonHeader
  rw [append_assoc, append_assoc, append_assoc]
  exact take_left' (by decide)

/-- **Values stay under their own key** exactly when some object is too large
for the table or every object lists its values in the order of the header. -/
theorem keepsKeys_iff (a : JsonArray) (hclean : a.Clean) (hfit : ObjectsFit a.objects) :
    a.KeepsKeys ↔ (∃ o ∈ a.objects, maxPairs < o.members.length) ∨ a.InOrder := by
  have hne : a.text ≠ [] := by
    intro heq
    have hlen := congrArg length heq
    rw [JsonArray.text, length_append] at hlen
    simp at hlen
  have hwritten := compressJson_array hfit
  unfold JsonArray.KeepsKeys JsonArray.InOrder JsonArray.ideal
  rw [hwritten]
  cases hobj : a.objects with
  | nil =>
    refine ⟨fun _ => .inr nofun, fun _ out hout htable => ?_⟩
    cases hout
    exact absurd htable (compressText_not_table hne)
  | cons o os =>
    have hclean' : ∀ p ∈ o :: os, ∀ m ∈ p.members, '\t' ∉ m.value.value ∧ '\n' ∉ m.value.value := by
      rw [← hobj]
      exact hclean
    have hlen : o.keys.length = o.members.length := length_map _
    have hrows := @rows_eq_iff o.keys (o :: os) (cons_ne_nil o os) hclean'
    rw [hlen] at hrows
    dsimp only
    by_cases hall : ∀ p ∈ o :: os, p.members.length ≤ maxPairs
    · rw [if_pos hall]
      have hnone : ¬ ∃ p ∈ o :: os, maxPairs < p.members.length := by
        rintro ⟨p, hp, hlt⟩
        exact absurd (hall p hp) (by omega)
      constructor
      · intro h
        obtain ⟨hkeys, hbody⟩ := jsonHeader_inj (h _ rfl (jsonHeader_magic _ _))
        obtain ⟨hks, hvalues⟩ := hrows.mp hbody
        refine .inr fun p hp => ?_
        obtain rfl : o = p := Option.some.inj hp
        exact ⟨fun hnil => hks (by rw [JsonObject.keys, hnil]; rfl), hkeys, hvalues⟩
      · rintro (hex | hin)
        · exact absurd hex hnone
        · obtain ⟨hmem, hkeys, hvalues⟩ := hin o rfl
          intro out hout _
          cases hout
          have hcopied : o.copiedKeys = o.keys := map_congr_left hkeys
          rw [hcopied, hrows.mpr ⟨by simpa [JsonObject.keys] using hmem, hvalues⟩]
    · rw [if_neg hall]
      refine ⟨fun _ => .inl ?_, fun _ out hout htable => ?_⟩
      · push Not at hall
        exact hall
      · cases hout
        exact absurd htable (compressText_not_table hne)

/-- No white space. -/
def noBlank : Blank := ⟨[], nofun⟩

/-- `"k":v` with a one-letter key and a one-digit value. -/
def digitMember (k v : Char) (hk : isStrChar k = true) (hv : isBareChar v = true) : JsonMember :=
  { before := noBlank, key := [.char k hk], behindKey := noBlank, beforeValue := noBlank,
    value := .bare [v] (List.cons_ne_nil v []) (by simpa using hv), after := noBlank }

/-- Two objects with the keys `a` and `b` in the order that the second one is given. -/
def twoObjects (second : List JsonMember) : JsonArray :=
  { before := noBlank, inside := noBlank, behind := []
    objects :=
      [⟨noBlank, noBlank, [digitMember 'a' '1' rfl rfl, digitMember 'b' '2' rfl rfl], noBlank⟩,
       ⟨noBlank, noBlank, second, noBlank⟩] }

/-- The second object lists its keys as the first. -/
def sameOrder : JsonArray := twoObjects [digitMember 'a' '3' rfl rfl, digitMember 'b' '4' rfl rfl]

/-- The second object lists its keys the other way. -/
def otherOrder : JsonArray := twoObjects [digitMember 'b' '4' rfl rfl, digitMember 'a' '3' rfl rfl]

/-- The hypotheses hold of an array whose objects agree in their order. -/
theorem sameOrder_keepsKeys : sameOrder.Clean ∧ ObjectsFit sameOrder.objects ∧
    (sameOrder.KeepsKeys ↔
      (∃ o ∈ sameOrder.objects, maxPairs < o.members.length) ∨ sameOrder.InOrder) := by
  have hclean : sameOrder.Clean := by
    simp [JsonArray.Clean, sameOrder, twoObjects, digitMember, JsonScalar.value]
  have hfit : ObjectsFit sameOrder.objects := by
    simp [ObjectsFit, JsonObject.Fits, maxPairs, JsonMember.Fits, JsonScalar.Fits, sameOrder, twoObjects, digitMember,
      stripped, StrItem.stripped, maxWordLen]
  exact ⟨hclean, hfit, keepsKeys_iff sameOrder hclean hfit⟩

/-- Keys in another order: the column of `a` holds the value of `b`. -/
theorem otherOrder_mixed :
    otherOrder.text = "[\x7b\"a\":1,\"b\":2\x7d,\x7b\"b\":4,\"a\":3\x7d]".toList ∧
      compressJson otherOrder.text = some "TK:JSON:2 a,b\n1\t2\n4\t3\n".toList ∧
      otherOrder.ideal = "TK:JSON:2 a,b\n1\t2\n3\t4\n".toList := by decide +kernel

end Toke.Compress
