/-
  Toke.Http2.HpackSync — **THE TWO HPACK TABLES STAY EQUAL.**

  `writeField` says which bytes a field is written as; from there on no output
  buffer is in the way.  The decoder takes these bytes back to the field if its
  table is the encoder's, and both tables then make the same insertion
  (`fields_mirror`).  `tables_synchronised` is this for whole connections.
  Two machine integers bound it: the returned length is an `int`, and so is the
  index of an entry.
-/
import Toke.Http2.Hpack

namespace Toke.Http2

open List Mirroring Evicting

open Stdlib (CString)

variable {value : Nat} {t : HpackTable} {h : HpackEntry} {v : CString}

/-! ## §1. Integers. -/

theorem putByte_eq (cap : Nat) (out : List UInt8) (b : UInt8) :
    putByte cap out b = limited cap out [b] := by
  unfold putByte limited
  rw [length_singleton]
  split <;> split <;> first | rfl | omega

theorem putBytes_eq (cap : Nat) (out s : List UInt8) : putBytes cap out s = limited cap out s := by
  unfold putBytes limited
  split <;> split <;> first | rfl | omega

/-- The bytes behind the first one. -/
def groups : Nat → Nat → List UInt8
  | 0, _ => []
  | fuel + 1, value =>
    if value < 128 then [UInt8.ofNat value]
    else (UInt8.ofNat (value % 128) ||| 0x80) :: groups fuel (value / 128)

theorem encodeGroups_eq (cap : Nat) : ∀ (n : Nat) (out : List UInt8) (value : Nat),
    value < 128 ^ (n + 1) → encodeGroups cap (n + 1) out value = limited cap out (groups (n + 1) value) := by
  intro n
  induction n with
  | zero =>
    intro out value hv
    unfold encodeGroups groups
    rw [if_pos (by omega), if_pos (by omega), putByte_eq]
  | succ n ih =>
    intro out value hv
    unfold encodeGroups groups
    by_cases hlast : value < 128
    · rw [if_pos hlast, if_pos hlast, putByte_eq]
    · have hnext : value / 128 < 128 ^ (n + 1) := by
        rw [Nat.div_lt_iff_lt_mul (by omega)]
        exact hv
      rw [if_neg hlast, if_neg hlast, putByte_eq]
      simp only [ih _ _ hnext]
      exact limited_cons cap out _ _

/-- A group as a byte, without and with the mark that more follow. -/
theorem group_byte : ∀ v < 128, (UInt8.ofNat v &&& 0x7F).toNat = v ∧ UInt8.ofNat v &&& 0x80 = 0 ∧
    ((UInt8.ofNat v ||| 0x80) &&& 0x7F).toNat = v ∧ (UInt8.ofNat v ||| 0x80) &&& 0x80 ≠ 0 := by
  decide +kernel

/-- The decoder adds up modulo `2 ^ 32`, and gives up where a sixth group would
follow. -/
theorem decodeGroups_groups_mod : ∀ (n value out k : Nat) (r : List UInt8),
    value < 128 ^ (n + 1) → k ≤ 4 →
    decodeGroups (groups (n + 1) value ++ r) out (7 * k)
        = some ((out + value * 2 ^ (7 * k)) % 2 ^ 32, r) ∨
      2 ^ 35 ≤ value * 2 ^ (7 * k) ∧ decodeGroups (groups (n + 1) value ++ r) out (7 * k) = none := by
  intro n
  have hsingle : ∀ (n value out k : Nat) (r : List UInt8), value < 128 →
      decodeGroups (groups (n + 1) value ++ r) out (7 * k)
        = some ((out + value * 2 ^ (7 * k)) % 2 ^ 32, r) := by
    intro n value out k r hlast
    obtain ⟨hlow, hstop, -, -⟩ := group_byte value hlast
    unfold groups
    rw [if_pos hlast, singleton_append]
    unfold decodeGroups
    rw [if_pos hstop, hlow]
  induction n with
  | zero => exact fun value out k r hv _ => .inl (hsingle 0 value out k r hv)
  | succ n ih =>
    intro value out k r hv hk
    by_cases hlast : value < 128
    · exact .inl (hsingle _ value out k r hlast)
    · obtain ⟨-, -, hlow, hmore⟩ := group_byte (value % 128) (Nat.mod_lt _ (by omega))
      have hnext : value / 128 < 128 ^ (n + 1) := by
        rw [Nat.div_lt_iff_lt_mul (by omega)]
        exact hv
      have hpow : 2 ^ (7 * (k + 1)) = 128 * 2 ^ (7 * k) := by
        rw [show 7 * (k + 1) = 7 + 7 * k by omega, Nat.pow_add]
      have hsplit : value * 2 ^ (7 * k)
          = value % 128 * 2 ^ (7 * k) + value / 128 * 2 ^ (7 * (k + 1)) := by
        conv_lhs => rw [← Nat.mod_add_div value 128]
        ring
      unfold groups
      rw [if_neg hlast, cons_append]
      unfold decodeGroups
      rw [if_neg hmore]
      by_cases hfifth : k = 4
      · subst hfifth
        exact .inr ⟨by omega, if_pos (by decide)⟩
      · rw [if_neg (by omega), hlow]
        have hrest := ih (value / 128) ((out + value % 128 * 2 ^ (7 * k)) % 2 ^ 32) (k + 1) r hnext
          (by omega)
        rw [Nat.mod_add_mod, Nat.add_assoc, ← hsplit] at hrest
        exact hrest.imp_right fun h => ⟨by omega, h.2⟩

/-- The decoder's sum is exact while it stays below `2 ^ 32`. -/
theorem decodeGroups_groups (n value out k : Nat) (r : List UInt8) (hv : value < 128 ^ (n + 1))
    (hk : k ≤ 4) (hsum : out + value * 2 ^ (7 * k) < 2 ^ 32) :
    decodeGroups (groups (n + 1) value ++ r) out (7 * k) = some (out + value * 2 ^ (7 * k), r) := by
  rcases decodeGroups_groups_mod n value out k r hv hk with h | ⟨hlarge, -⟩
  · rw [h, Nat.mod_eq_of_lt hsum]
  · omega

/-- An integer with `pattern` in the high bits of its first byte. -/
def intBytes (value bits : Nat) (pattern : UInt8) : List UInt8 :=
  if value < (lowMask bits).toNat then [pattern ||| UInt8.ofNat value]
  else (pattern ||| lowMask bits) :: groups 5 (value - (lowMask bits).toNat)

theorem hpackEncodeInt_eq (cap : Nat) (out : List UInt8) (bits : Nat) (pattern : UInt8)
    (hv : value < 2 ^ 32) :
    hpackEncodeInt cap out value bits pattern = limited cap out (intBytes value bits pattern) := by
  unfold hpackEncodeInt intBytes
  by_cases hsmall : value < (lowMask bits).toNat
  · rw [if_pos hsmall, if_pos hsmall, putByte_eq]
  · have hgroups : value - (lowMask bits).toNat < 128 ^ (4 + 1) := by omega
    rw [if_neg hsmall, if_neg hsmall, putByte_eq]
    simp only [encodeGroups_eq cap 4 _ _ hgroups]
    exact limited_cons cap out _ _

/-- The pattern leaves the low bits of the first byte to the integer. -/
def Marks (bits : Nat) (pattern : UInt8) : Prop :=
  ∀ v ≤ (lowMask bits).toNat, (pattern ||| UInt8.ofNat v) &&& lowMask bits = UInt8.ofNat v

instance (bits : Nat) (pattern : UInt8) : Decidable (Marks bits pattern) :=
  inferInstanceAs (Decidable (∀ v ≤ (lowMask bits).toNat, _))

theorem intBytes_head (value bits : Nat) (pattern : UInt8) :
    ∃ v ≤ (lowMask bits).toNat, ∃ rest, intBytes value bits pattern = (pattern ||| UInt8.ofNat v) :: rest := by
  unfold intBytes
  split
  · exact ⟨value, by omega, [], rfl⟩
  · refine ⟨(lowMask bits).toNat, Nat.le_refl _, groups 5 (value - (lowMask bits).toNat), ?_⟩
    rw [UInt8.ofNat_toNat]

/-- **Integers come back**, at any width the code uses and any `uint32_t`. -/
theorem hpackDecodeInt_intBytes {bits : Nat} {pattern : UInt8} (m : Marks bits pattern)
    (hv : value < 2 ^ 32) (r : List UInt8) :
    hpackDecodeInt (intBytes value bits pattern ++ r) bits = some (value, r) := by
  have hmask : (lowMask bits).toNat < 256 := UInt8.toNat_lt _
  unfold intBytes
  by_cases hsmall : value < (lowMask bits).toNat
  · have hval : (UInt8.ofNat value).toNat = value := by
      exact Nat.mod_eq_of_lt (by omega)
    rw [if_pos hsmall, singleton_append]
    unfold hpackDecodeInt
    dsimp only
    rw [m value (by omega), if_pos (UInt8.lt_iff_toNat_lt.mpr (by omega)), hval]
  · have hlow := m _ (Nat.le_refl _)
    rw [UInt8.ofNat_toNat] at hlow
    have hgroups := decodeGroups_groups 4 (value - (lowMask bits).toNat) (lowMask bits).toNat 0 r
      (by omega) (by omega) (by omega)
    rw [if_neg hsmall, cons_append]
    unfold hpackDecodeInt
    dsimp only
    rw [hlow, if_neg (UInt8.lt_irrefl _), hgroups]
    congr 2
    omega

/-! ## §2. The search. -/

theorem hpackStatic_length : hpackStatic.length = hpackStaticSize := rfl

/-- Both tables are one list to an index. -/
theorem hpackLookup_succ (t : HpackTable) (k : Nat) :
    hpackLookup t (k + 1) = (hpackStatic ++ t.entries)[k]? := by
  unfold hpackLookup
  rw [if_neg (Nat.succ_ne_zero k)]
  by_cases hk : k + 1 ≤ hpackStaticSize
  · rw [if_pos hk, Nat.add_sub_cancel, getElem?_append_left (by rw [hpackStatic_length]; omega)]
  · rw [if_neg hk, getElem?_append_right (by rw [hpackStatic_length]; omega)]
    congr 1

/-- What the search found is there: an equal entry, or one with the name. -/
theorem findEntry_spec (h : HpackEntry) : ∀ (es : List HpackEntry) (i foundName : Nat),
    ((findEntry h es i foundName).1 ≠ 0 →
      ∃ k, es[k]? = some h ∧ (findEntry h es i foundName).1 = (i + k) % 2 ^ 32) ∧
    ((findEntry h es i foundName).2 ≠ 0 → (findEntry h es i foundName).2 = foundName ∨
      ∃ k e, es[k]? = some e ∧ e.name = h.name ∧
        (findEntry h es i foundName).2 = (i + k) % 2 ^ 32) := by
  intro es
  induction es with
  | nil =>
    intro i foundName
    exact ⟨fun hf => absurd rfl hf, fun _ => .inl rfl⟩
  | cons e es ih =>
    intro i foundName
    -- a hit further on is one place behind in the whole list
    have hshift : ∀ fn, ((findEntry h es (i + 1) fn).1 ≠ 0 → ∃ k, (e :: es)[k]? = some h ∧
          (findEntry h es (i + 1) fn).1 = (i + k) % 2 ^ 32) ∧
        ((findEntry h es (i + 1) fn).2 ≠ 0 → (findEntry h es (i + 1) fn).2 = fn ∨
          ∃ k e', (e :: es)[k]? = some e' ∧ e'.name = h.name ∧
            (findEntry h es (i + 1) fn).2 = (i + k) % 2 ^ 32) := by
      intro fn
      obtain ⟨hentry, hname⟩ := ih (i + 1) fn
      constructor
      · intro hf
        obtain ⟨k, hk, heq⟩ := hentry hf
        exact ⟨k + 1, by rwa [getElem?_cons_succ], by rw [heq]; congr 1; omega⟩
      · intro hf
        rcases hname hf with hsame | ⟨k, e', hk, hn, heq⟩
        · exact .inl hsame
        · exact .inr ⟨k + 1, e', by rwa [getElem?_cons_succ], hn, by rw [heq]; congr 1; omega⟩
    unfold findEntry
    by_cases hn : e.name = h.name
    · rw [if_pos hn]
      by_cases hv : e.value = h.value
      · rw [if_pos hv]
        have heq : e = h := by
          exact congrArg₂ HpackEntry.mk hn hv
        exact ⟨fun _ => ⟨0, by rw [heq]; rfl, rfl⟩, fun _ => .inl rfl⟩
      · rw [if_neg hv]
        obtain ⟨hentry, hname⟩ := hshift (if foundName = 0 then i % 2 ^ 32 else foundName)
        refine ⟨hentry, fun hf => ?_⟩
        rcases hname hf with hsame | hfound
        · -- the name was noted here, or earlier
          by_cases hzero : foundName = 0
          · rw [if_pos hzero] at hsame ⊢
            exact .inr ⟨0, e, rfl, hn, hsame⟩
          · rw [if_neg hzero] at hsame ⊢
            exact .inl hsame
        · exact .inr hfound
    · rw [if_neg hn]
      exact hshift foundName

/-- The table has fewer entries than an `int` has indices. -/
def Indexable (t : HpackTable) : Prop := hpackStaticSize + t.entries.length < 2 ^ 32

theorem lookup_of_static {k : Nat} {e : HpackEntry}
    (h : hpackStatic[k]? = some e) : hpackLookup t ((1 + k) % 2 ^ 32) = some e := by
  have hk : k < hpackStaticSize := by
    exact (List.getElem?_eq_some_iff.mp h).1
  have hsmall : 1 + k < 2 ^ 32 := by
    unfold hpackStaticSize at hk
    omega
  rw [Nat.mod_eq_of_lt hsmall, Nat.add_comm, hpackLookup_succ,
    getElem?_append_left (by rw [hpackStatic_length]; exact hk)]
  exact h

theorem lookup_of_dynamic (ht : Indexable t) {k : Nat} {e : HpackEntry}
    (h : t.entries[k]? = some e) :
    hpackLookup t ((hpackStaticSize + 1 + k) % 2 ^ 32) = some e := by
  have hk : k < t.entries.length := (List.getElem?_eq_some_iff.mp h).1
  have hsmall : hpackStaticSize + 1 + k < 2 ^ 32 := by
    unfold Indexable at ht
    omega
  rw [Nat.mod_eq_of_lt hsmall, show hpackStaticSize + 1 + k = hpackStaticSize + k + 1 by omega,
    hpackLookup_succ, getElem?_append_right (by rw [hpackStatic_length]; omega),
    hpackStatic_length, Nat.add_sub_cancel_left]
  exact h

/-- **Indices mean what they were found for.** -/
theorem findIndices_spec (ht : Indexable t) (h : HpackEntry) :
    ((findIndices t h).1 ≠ 0 → hpackLookup t (findIndices t h).1 = some h) ∧
    ((findIndices t h).2 ≠ 0 →
      ∃ e, hpackLookup t (findIndices t h).2 = some e ∧ e.name = h.name) := by
  obtain ⟨hsEntry, hsName⟩ := findEntry_spec h hpackStatic 1 0
  obtain ⟨hdEntry, hdName⟩ := findEntry_spec h t.entries (hpackStaticSize + 1)
    (findEntry h hpackStatic 1 0).2
  have hstatic : (findEntry h hpackStatic 1 0).2 ≠ 0 →
      ∃ e, hpackLookup t (findEntry h hpackStatic 1 0).2 = some e ∧ e.name = h.name := by
    intro hf
    rcases hsName hf with hzero | ⟨k, e, hk, hn, heq⟩
    · exact absurd hzero hf
    · exact ⟨e, by rw [heq]; exact lookup_of_static hk, hn⟩
  unfold findIndices
  by_cases hmiss : (findEntry h hpackStatic 1 0).1 = 0
  · rw [if_pos hmiss]
    constructor
    · intro hf
      obtain ⟨k, hk, heq⟩ := hdEntry hf
      rw [heq]
      exact lookup_of_dynamic ht hk
    · intro hf
      rcases hdName hf with hsame | ⟨k, e, hk, hn, heq⟩
      · rw [hsame] at hf ⊢
        exact hstatic hf
      · exact ⟨e, by rw [heq]; exact lookup_of_dynamic ht hk, hn⟩
  · rw [if_neg hmiss]
    refine ⟨fun hf => ?_, hstatic⟩
    obtain ⟨k, hk, heq⟩ := hsEntry hf
    rw [heq]
    exact lookup_of_static hk

theorem findEntry_lt (h : HpackEntry) (es : List HpackEntry) (i : Nat) {foundName : Nat}
    (hname : foundName < 2 ^ 32) :
    (findEntry h es i foundName).1 < 2 ^ 32 ∧ (findEntry h es i foundName).2 < 2 ^ 32 := by
  have hmod : ∀ n, n % 2 ^ 32 < 2 ^ 32 := fun n => Nat.mod_lt n (by decide)
  obtain ⟨hentry, hfound⟩ := findEntry_spec h es i foundName
  constructor
  · by_cases hzero : (findEntry h es i foundName).1 = 0
    · omega
    · obtain ⟨k, -, heq⟩ := hentry hzero
      exact heq ▸ hmod _
  · by_cases hzero : (findEntry h es i foundName).2 = 0
    · omega
    · rcases hfound hzero with hsame | ⟨k, -, -, -, heq⟩
      · rw [hsame]
        exact hname
      · exact heq ▸ hmod _

theorem findIndices_lt (t : HpackTable) (h : HpackEntry) :
    (findIndices t h).1 < 2 ^ 32 ∧ (findIndices t h).2 < 2 ^ 32 := by
  have hstatic := findEntry_lt h hpackStatic 1 (Nat.two_pow_pos 32)
  unfold findIndices
  dsimp only
  split
  · exact findEntry_lt h t.entries (hpackStaticSize + 1) hstatic.2
  · exact hstatic

/-! ## §3. One field. -/

/-- Name and value are shorter than `2 ^ 28` bytes. -/
def Short (h : HpackEntry) : Prop := h.name.length < 2 ^ 28 ∧ h.value.length < 2 ^ 28

instance (h : HpackEntry) : Decidable (Short h) := inferInstanceAs (Decidable (_ ∧ _))

/-- The bytes of a string; its length is written as a `uint32_t`. -/
def stringBytes (s : CString) : List UInt8 := intBytes (s.length % 2 ^ 32) 7 0x00 ++ s.bytes

theorem encodeString_eq (cap : Nat) (out : List UInt8) (s : CString) :
    encodeString cap out s = limited cap out (stringBytes s) := by
  unfold encodeString stringBytes
  rw [hpackEncodeInt_eq cap out 7 0x00 (Nat.mod_lt _ (by decide))]
  simp only [putBytes_eq]
  exact limited_bind cap out _ _

/-- The bytes the encoder writes for strings never carry the Huffman mark. -/
theorem string_mark : ∀ v ≤ (lowMask 7).toNat, (0x00 ||| UInt8.ofNat v) &&& 0x80 = 0 := by
  decide +kernel

theorem hpackDecodeString_stringBytes {s : CString} (hs : s.length < 2 ^ 28) (r : List UInt8) :
    hpackDecodeString (stringBytes s ++ r) = some (s, r) := by
  have hint := hpackDecodeInt_intBytes (show Marks 7 0x00 by decide +kernel)
    (show s.length < 2 ^ 32 by omega) (s.bytes ++ r)
  obtain ⟨v, hv, rest, hhead⟩ := intBytes_head s.length 7 0x00
  have hroom : ¬ (s.bytes ++ r).length < s.length := by
    rw [length_append]
    show ¬ s.length + r.length < s.length
    omega
  unfold stringBytes
  rw [Nat.mod_eq_of_lt (show s.length < 2 ^ 32 by omega), append_assoc]
  rw [hhead, cons_append] at hint ⊢
  unfold hpackDecodeString
  dsimp only
  have hblock : s.bytes.length < (s.length + 1) % 2 ^ 32 := by
    rw [Nat.mod_eq_of_lt (by omega)]
    exact Nat.lt_succ_self _
  rw [hint, Option.bind_some, if_neg hroom, if_neg (not_not.mpr (string_mark v hv))]
  unfold CString.length at hblock ⊢
  rw [take_left, drop_left, intoBlock, if_pos hblock, CString.ofBytes_bytes]
  rfl

/-- The bytes of a field behind an index: a name that has none, and the value. -/
def literalBytes (index : Nat) (h : HpackEntry) : List UInt8 :=
  intBytes index 6 0x40 ++ ((if index ≠ 0 then [] else stringBytes h.name) ++ stringBytes h.value)

/-- What `encodeField` appends, and the table it leaves. -/
def writeField (t : HpackTable) (h : HpackEntry) : HpackTable × List UInt8 :=
  let found := findIndices t h
  if found.1 ≠ 0 then (t, intBytes found.1 7 0x80) else (hpackInsert t h, literalBytes found.2 h)

/-- A field is written whole or not at all. -/
theorem encodeField_eq (cap : Nat) (t : HpackTable) (out : List UInt8) (h : HpackEntry) :
    encodeField cap t out h
      = (limited cap out (writeField t h).2).map fun o => ((writeField t h).1, o) := by
  obtain ⟨hlt₁, hlt₂⟩ := findIndices_lt t h
  unfold encodeField writeField
  by_cases hindex : (findIndices t h).1 ≠ 0
  · rw [if_pos hindex, if_pos hindex, hpackEncodeInt_eq cap out 7 0x80 hlt₁]
  · rw [if_neg hindex, if_neg hindex]
    unfold literalBytes
    by_cases hname : (findIndices t h).2 ≠ 0
    · rw [if_pos hname, if_pos hname, hpackEncodeInt_eq cap out 6 0x40 hlt₂, nil_append,
        ← limited_bind]
      simp only [encodeString_eq, Option.map_bind, Function.comp_def]
    · have hzero : (findIndices t h).2 = 0 := not_not.mp hname
      have hbyte : intBytes 0 6 0x40 = [0x40] := by decide
      rw [if_neg hname, if_neg hname, hzero, hbyte, putByte_eq]
      simp only [encodeString_eq, ← limited_bind, Option.map_bind, Function.comp_def]

theorem hpackInsert_maxSize (t : HpackTable) (e : HpackEntry) :
    (hpackInsert t e).maxSize = t.maxSize := by
  unfold hpackInsert
  split <;> rfl

theorem writeField_maxSize (t : HpackTable) (h : HpackEntry) :
    (writeField t h).1.maxSize = t.maxSize := by
  unfold writeField
  dsimp only
  split
  · rfl
  · exact hpackInsert_maxSize t h

/-- Every entry counts with at least 32. -/
theorem length_le_totalSize (entries : List HpackEntry) :
    entries.length * 32 ≤ totalSize entries := by
  induction entries with
  | nil => exact Nat.le_refl _
  | cons e es ih =>
    have hcons : totalSize (e :: es) = e.entrySize + totalSize es := total_cons e es
    have hentry : 32 ≤ e.entrySize := Nat.le_add_left 32 _
    rw [length_cons]
    omega

/-- The size is that of the entries, and keeps the limit. -/
def HpackTable.Counted (t : HpackTable) : Prop := t.size = totalSize t.entries ∧ t.size ≤ t.maxSize

/-- Dropping keeps the count, and what is left fits if what is to come fits alone. -/
theorem evictLoop_spec {room max : Nat} (hroom : room ≤ max) :
    ∀ (count : Nat) (entries : List HpackEntry) (size : Nat),
      entries.length ≤ count → size = totalSize entries →
      (evictLoop room max count entries size).2
          = totalSize (evictLoop room max count entries size).1 ∧
        (evictLoop room max count entries size).2 + room ≤ max := by
  intro count
  induction count with
  | zero =>
    intro entries size hcount hsize
    obtain rfl : entries = [] := length_eq_zero_iff.mp (by omega)
    have hzero : size = 0 := hsize
    exact ⟨hsize, by show size + room ≤ max; omega⟩
  | succ count ih =>
    intro entries size hcount hsize
    unfold evictLoop
    split
    · -- too large: an empty list is not, so there is an entry to drop
      cases hlast : entries.getLast? with
      | none =>
        obtain rfl : entries = [] := getLast?_eq_none_iff.mp hlast
        have hzero : size = 0 := hsize
        omega
      | some e =>
        have htotal : totalSize entries = totalSize entries.dropLast + e.entrySize :=
          total_dropLast hlast
        have hlen : entries.dropLast.length ≤ count := by
          rw [length_dropLast]
          omega
        exact ih entries.dropLast (size - e.entrySize) hlen (by omega)
    · exact ⟨hsize, by show size + room ≤ max; omega⟩

theorem HpackTable.Counted.resize (h : t.Counted) (newMax : Nat) :
    (hpackTableResize t newMax).Counted :=
  evictLoop_spec (Nat.zero_le newMax) _ t.entries t.size (Nat.le_refl _) h.1

theorem HpackTable.Counted.insert (ht : t.Counted) (e : HpackEntry) : (hpackInsert t e).Counted := by
  unfold hpackInsert
  split
  · exact ⟨rfl, Nat.zero_le _⟩
  · next hfits =>
      obtain ⟨hsize, hroom⟩ := evictLoop_spec (Nat.not_lt.mp hfits) _ t.entries t.size
        (Nat.le_refl _) ht.1
      refine ⟨?_, hroom⟩
      dsimp only
      rw [hsize, Nat.add_comm]
      exact (total_cons e _).symm

/-- The largest size of the table leaves every entry an index. -/
def Roomy (t : HpackTable) : Prop := t.Counted ∧ hpackStaticSize + t.maxSize / 32 < 2 ^ 32

theorem Roomy.indexable (h : Roomy t) : Indexable t := by
  have hlen := length_le_totalSize t.entries
  obtain ⟨⟨hsize, hfits⟩, hmax⟩ := h
  unfold Indexable
  omega

/-- The first byte tells the decoder what kind of field it is. -/
theorem field_mark : (∀ v ≤ (lowMask 7).toNat, (0x80 ||| UInt8.ofNat v) &&& 0x80 ≠ 0) ∧
    ∀ v ≤ (lowMask 6).toNat, (0x40 ||| UInt8.ofNat v) &&& 0x80 = 0 ∧
      (0x40 ||| UInt8.ofNat v) &&& 0x40 ≠ 0 := by decide +kernel

theorem decodeLiteral_literalBytes {index : Nat} (hlt : index < 2 ^ 32) (hs : Short h)
    (hname : index ≠ 0 → ∃ e, hpackLookup t index = some e ∧ e.name = h.name) (r : List UInt8) :
    decodeLiteral t (literalBytes index h ++ r) 6 = some (h, r) := by
  unfold decodeLiteral literalBytes
  rw [append_assoc, hpackDecodeInt_intBytes (show Marks 6 0x40 by decide +kernel) hlt,
    Option.bind_some]
  dsimp only
  have hvalue := hpackDecodeString_stringBytes hs.2 r
  by_cases hindex : index ≠ 0
  · obtain ⟨e, hlookup, hn⟩ := hname hindex
    rw [if_pos hindex, nil_append, if_pos (by omega), hlookup, Option.map_some,
      Option.bind_some, hn]
    rw [hvalue]
    rfl
  · have hread := hpackDecodeString_stringBytes hs.1 (stringBytes h.value ++ r)
    rw [if_neg hindex, if_neg (by omega), append_assoc, hread, Option.bind_some]
    rw [hvalue]
    rfl

/-- **One field**: the decoder undoes the encoder, and both tables move alike. -/
theorem decodeField_writeField (ht : Roomy t) (hs : Short h) (r : List UInt8) :
    decodeField t ((writeField t h).2 ++ r) = some ((writeField t h).1, some h, r) := by
  obtain ⟨hlt₁, hlt₂⟩ := findIndices_lt t h
  obtain ⟨hentry, hname⟩ := findIndices_spec ht.indexable h
  unfold writeField
  by_cases hindex : (findIndices t h).1 ≠ 0
  · have hint := hpackDecodeInt_intBytes (show Marks 7 0x80 by decide +kernel) hlt₁ r
    obtain ⟨v, hv, rest, hhead⟩ := intBytes_head (findIndices t h).1 7 0x80
    rw [if_pos hindex]
    rw [hhead, cons_append] at hint ⊢
    unfold decodeField
    dsimp only
    rw [if_pos (field_mark.1 v hv), hint, Option.bind_some]
    rw [hentry hindex]
    rfl
  · have hliteral := decodeLiteral_literalBytes hlt₂ hs hname r
    obtain ⟨v, hv, rest, hhead⟩ := intBytes_head (findIndices t h).2 6 0x40
    obtain ⟨hhigh, hmark⟩ := field_mark.2 v hv
    rw [if_neg hindex]
    unfold literalBytes at hliteral ⊢
    rw [hhead, cons_append, cons_append] at hliteral ⊢
    unfold decodeField
    dsimp only
    rw [if_neg (not_not.mpr hhigh), if_pos hmark, hliteral]
    rfl

theorem intBytes_ne_nil (value bits : Nat) (pattern : UInt8) : intBytes value bits pattern ≠ [] := by
  obtain ⟨v, -, rest, hhead⟩ := intBytes_head value bits pattern
  rw [hhead]
  exact cons_ne_nil _ _

theorem fields_mirror : Mirrors Roomy Short writeField decodeField where
  reads := fun _ _ r ht hs => decodeField_writeField ht hs r
  nonempty := by
    intro t h
    unfold writeField
    dsimp only
    split
    · exact intBytes_ne_nil _ 7 0x80
    · exact append_ne_nil_of_left_ne_nil (intBytes_ne_nil _ 6 0x40) _
  stays := by
    intro t h ht
    refine ⟨?_, (writeField_maxSize t h).symm ▸ ht.2⟩
    unfold writeField
    dsimp only
    split
    · exact ht.1
    · exact ht.1.insert h

/-! ## §4. Header blocks. -/

/-- A call of `hpack_encode`: the fields, and the size of the output buffer. -/
structure HeaderList where
  headers : List HpackEntry
  outCap : Nat

/-- One header list on its way: what `hpack_encode` returned, what
`hpack_decode` made of that many bytes, and both tables afterwards. -/
structure Exchange where
  sent : List HpackEntry
  ret : Int
  received : Option (List HpackEntry)
  encoder : HpackTable
  decoder : HpackTable

/-- One list written and read. -/
def exchange (encoder decoder : HpackTable) (l : HeaderList) : Exchange :=
  let encoded := hpackEncode encoder l.headers l.outCap
  let decoded := hpackDecode decoder (encoded.out.take encoded.ret.toNat)
  ⟨l.headers, encoded.ret, decoded.2, encoded.table, decoded.1⟩

/-- Header lists encoded one after another with one table and decoded with
another. -/
def exchanges : HpackTable → HpackTable → List HeaderList → List Exchange
  | _, _, [] => []
  | encoder, decoder, l :: ls =>
    exchange encoder decoder l
      :: exchanges (exchange encoder decoder l).encoder (exchange encoder decoder l).decoder ls

/-- The list came back and the tables agree. -/
def Exchange.Faithful (x : Exchange) : Prop :=
  x.received = some x.sent ∧ x.encoder.entries = x.decoder.entries

/-- The returned length of a call that succeeds is the number of bytes written,
if the output buffer is smaller than `2 ^ 32`. -/
theorem bmod_length {n : Nat} (hn : n < 2 ^ 32) (hpos : 0 ≤ Int.bmod n (2 ^ 32)) :
    (Int.bmod n (2 ^ 32)).toNat = n := by
  rw [Int.bmod_def] at hpos ⊢
  split <;> omega

/-- A list that fits is written whole; one that does not is an error. -/
theorem hpackEncode_cases {l : HeaderList} (hshort : ∀ h ∈ l.headers, Short h) :
    ((writeAll writeField t l.headers).2.length ≤ l.outCap ∧ hpackEncode t l.headers l.outCap
        = ⟨(writeAll writeField t l.headers).1, (writeAll writeField t l.headers).2,
            Int.bmod (writeAll writeField t l.headers).2.length (2 ^ 32)⟩) ∨
    (l.outCap < (writeAll writeField t l.headers).2.length ∧
      (hpackEncode t l.headers l.outCap).ret = -1) := by
  have hstep : ∀ s out a, Short a → encodeField l.outCap s out a
      = (limited l.outCap out (writeField s a).2).map fun o => ((writeField s a).1, o) :=
    fun s out a _ => encodeField_eq l.outCap s out a
  obtain ⟨hout, hstate⟩ := writeWhile_eq hstep l.headers t [] hshort (Nat.zero_le _)
  unfold hpackEncode
  generalize writeWhile (encodeField l.outCap) t [] l.headers = run at *
  obtain ⟨table, written⟩ := run
  by_cases hfit : (writeAll writeField t l.headers).2.length ≤ l.outCap
  · rw [limited_of_le (by simpa using hfit)] at hout
    have hwritten : written = some (writeAll writeField t l.headers).2 := hout
    have htable : table = (writeAll writeField t l.headers).1 := hstate (by simpa using hfit)
    subst hwritten htable
    exact .inl ⟨hfit, rfl⟩
  · rw [limited_of_lt (by simpa using hfit)] at hout
    have hwritten : written = none := hout
    subst hwritten
    exact .inr ⟨by omega, rfl⟩

/-- One list: with equal tables before, it comes back and the tables are equal
after. -/
theorem exchange_faithful (ht : Roomy t) {l : HeaderList} (hshort : ∀ h ∈ l.headers, Short h)
    (hcap : l.outCap < 2 ^ 32) (hret : 0 ≤ (exchange t t l).ret) :
    (exchange t t l).received = some l.headers ∧
    (exchange t t l).encoder = (writeAll writeField t l.headers).1 ∧
    (exchange t t l).decoder = (writeAll writeField t l.headers).1 := by
  have hback : hpackDecode t (writeAll writeField t l.headers).2
      = ((writeAll writeField t l.headers).1, some l.headers) :=
    readAll_writeAll fields_mirror l.headers t _ ht hshort (Nat.le_refl _)
  unfold exchange at hret ⊢
  dsimp only at hret ⊢
  rcases hpackEncode_cases (t := t) hshort with ⟨hfit, hencode⟩ | ⟨-, hfail⟩
  · have hlt := Nat.lt_of_le_of_lt hfit hcap
    rw [hencode] at hret ⊢
    dsimp only at hret ⊢
    rw [bmod_length hlt hret, take_length, hback]
    exact ⟨rfl, rfl, rfl⟩
  · omega

/-- Equal tables stay equal over a whole run. -/
theorem exchanges_faithful : ∀ (ls : List HeaderList) (t : HpackTable), Roomy t →
    (∀ l ∈ ls, ∀ h ∈ l.headers, Short h) → (∀ l ∈ ls, l.outCap < 2 ^ 32) →
    (∀ x ∈ exchanges t t ls, 0 ≤ x.ret) → ∀ x ∈ exchanges t t ls, x.Faithful := by
  intro ls
  induction ls with
  | nil =>
    intro t _ _ _ _ x hx
    cases hx
  | cons l ls ih =>
    intro t ht hshort hcap hret x hx
    obtain ⟨hback, henc, hdec⟩ := exchange_faithful ht (hshort l mem_cons_self)
      (hcap l mem_cons_self) (hret _ mem_cons_self)
    rcases mem_cons.mp hx with rfl | hx
    · exact ⟨hback, by rw [henc, hdec]⟩
    · have hret' := (forall_mem_cons.mp hret).2
      rw [henc, hdec] at hx hret'
      exact ih _ (writeAll_good fields_mirror l.headers t ht)
        (forall_mem_cons.mp hshort).2
        (forall_mem_cons.mp hcap).2 hret' x hx

/-- **The tables stay synchronised.**  Header lists are encoded one after
another with one table and decoded with another of the same largest size.  If
the output buffers are smaller than `2 ^ 32` and the table has fewer entries
than an `int` has values, every list comes back and after every list both
tables hold the same entries. -/
theorem tables_synchronised (maxSize : Nat) (ls : List HeaderList)
    (hshort : ∀ l ∈ ls, ∀ h ∈ l.headers, h.name.length < 2 ^ 28 ∧ h.value.length < 2 ^ 28)
    (hok : ∀ x ∈ exchanges (hpackTableInit maxSize) (hpackTableInit maxSize) ls, 0 ≤ x.ret)
    (hcap : ∀ l ∈ ls, l.outCap < 2 ^ 32) (hmax : maxSize / 32 + 61 < 2 ^ 32) :
    ∀ x ∈ exchanges (hpackTableInit maxSize) (hpackTableInit maxSize) ls,
      x.received = some x.sent ∧ x.encoder.entries = x.decoder.entries := by
  have hroomy : Roomy (hpackTableInit maxSize) := by
    refine ⟨⟨rfl, Nat.zero_le _⟩, ?_⟩
    show 61 + maxSize / 32 < 2 ^ 32
    omega
  exact exchanges_faithful ls _ hroomy hshort hcap hok

/-- A static field, a new name, its second value, and a repetition that is only
an index; the table has room for two of the fields. -/
def sampleLists : List HeaderList :=
  [⟨[.ofTexts ":method" "GET", .ofTexts "x" "1"], 64⟩,
   ⟨[.ofTexts "x" "22", .ofTexts "etag" "a", .ofTexts "x" "22"], 64⟩]

theorem sampleLists_synchronised :
    sampleLists.length = 2 ∧ ∀ x ∈ exchanges (hpackTableInit 80) (hpackTableInit 80) sampleLists,
      x.received = some x.sent ∧ x.encoder.entries = x.decoder.entries :=
  ⟨rfl, tables_synchronised 80 sampleLists (by decide +kernel) (by decide +kernel)
    (by decide +kernel) (by decide)⟩

/-! ## §5. A returned length that wraps. -/

/-- A string whose bytes are cut off. -/
theorem hpackDecodeString_truncated (hv : value < 2 ^ 32) {r : List UInt8}
    (hr : r.length < value) : hpackDecodeString (intBytes value 7 0x00 ++ r) = none := by
  have hint := hpackDecodeInt_intBytes (show Marks 7 0x00 by decide +kernel) hv r
  obtain ⟨v, hv, rest, hhead⟩ := intBytes_head value 7 0x00
  rw [hhead, cons_append] at hint ⊢
  unfold hpackDecodeString
  dsimp only
  rw [hint, Option.bind_some, if_pos hr]

/-- A field that is new to the tables. -/
def longHeader (v : CString) : HpackEntry := ⟨.ofText "x", v⟩

/-- Sixteen such fields with values one byte below the length limit take
`2 ^ 32 + 112` bytes. -/
def longList (v : CString) : HeaderList := ⟨List.replicate 16 (longHeader v), 2 ^ 32 + 112⟩

theorem longHeader_written (hv : v.length = 2 ^ 28 - 1) :
    writeField (hpackTableInit 0) (longHeader v)
      = (hpackTableInit 0, [0x40, 1, 120] ++ (intBytes (2 ^ 28 - 1) 7 0x00 ++ v.bytes)) := by
  have hfind : findIndices (hpackTableInit 0) (longHeader v) = (0, 0) := by
    unfold findIndices
    rfl
  have hname : intBytes 0 6 0x40 ++ stringBytes (CString.ofText "x") = [0x40, 1, 120] := by
    decide +kernel
  have hvalue : stringBytes v = intBytes (2 ^ 28 - 1) 7 0x00 ++ v.bytes := by
    unfold stringBytes
    rw [hv]
    rfl
  unfold writeField
  rw [← hvalue, ← hname]
  rfl

/-- Of the block only the first 112 bytes are announced, and they end inside
the first value. -/
theorem announced_lost {rest : List UInt8} (hrest : rest.length = 104) :
    hpackDecode (hpackTableInit 0) ([0x40, 1, 120] ++ (intBytes (2 ^ 28 - 1) 7 0x00 ++ rest))
      = (hpackTableInit 0, none) := by
  have hvalue : hpackDecodeString (intBytes (2 ^ 28 - 1) 7 0x00 ++ rest) = none :=
    hpackDecodeString_truncated (by decide) (by omega)
  generalize intBytes (2 ^ 28 - 1) 7 0x00 ++ rest = tail at *
  have hname : hpackDecodeString ([1, 120] ++ tail) = some (.ofText "x", tail) := by
    have hbytes : stringBytes (.ofText "x") = [1, 120] := by decide +kernel
    rw [← hbytes]
    exact hpackDecodeString_stringBytes (by decide +kernel) tail
  have hfield : decodeField (hpackTableInit 0) (0x40 :: ([1, 120] ++ tail)) = none := by
    have hliteral : decodeLiteral (hpackTableInit 0) (0x40 :: ([1, 120] ++ tail)) 6 = none := by
      have hindex : hpackDecodeInt (0x40 :: ([1, 120] ++ tail)) 6 = some (0, [1, 120] ++ tail) := rfl
      unfold decodeLiteral
      rw [hindex, Option.bind_some]
      dsimp only
      rw [if_neg (by omega), hname, Option.bind_some]
      rw [hvalue]
      rfl
    unfold decodeField
    dsimp only
    rw [if_neg (by decide), hliteral]
    rfl
  show readAll decodeField (([1, 120] ++ tail).length + 1) (hpackTableInit 0)
    (0x40 :: ([1, 120] ++ tail)) = _
  unfold readAll
  rw [hfield]

theorem longList_short (hv : v.length = 2 ^ 28 - 1) : ∀ h ∈ (longList v).headers, Short h := by
  intro h hh
  rw [eq_of_mem_replicate hh]
  have hname : (longHeader v).name.length < 2 ^ 28 := by
    show (CString.ofText "x").length < 2 ^ 28
    decide +kernel
  have hvalue : (longHeader v).value.length < 2 ^ 28 := by
    show v.length < 2 ^ 28
    omega
  exact ⟨hname, hvalue⟩

/-- The block is longer than `2 ^ 32`, and its length is returned as 112. -/
theorem longList_exchange (hv : v.length = 2 ^ 28 - 1) :
    (exchanges (hpackTableInit 0) (hpackTableInit 0) [longList v]).map
      (fun x => (x.ret, x.received)) = [(112, none)] := by
  have hint : (intBytes (2 ^ 28 - 1) 7 0x00).length = 5 := by decide
  have hvalue : v.bytes.length = 2 ^ 28 - 1 := hv
  have hwrite := writeAll_replicate (longHeader_written hv) 16
  have hbytes := congrArg Prod.snd hwrite
  -- the first field is already longer than what is announced
  have htake : ((replicate 16 ([0x40, 1, 120] ++ (intBytes (2 ^ 28 - 1) 7 0x00
        ++ v.bytes))).flatten).take 112
      = [0x40, 1, 120] ++ (intBytes (2 ^ 28 - 1) 7 0x00 ++ v.bytes.take 104) := by
    rw [replicate_succ, flatten_cons]
    rw [take_append_of_le_length (by simp only [length_append]; omega)]
    simp only [take_append, hint, length_cons, length_nil]
    rw [take_of_length_le (by simp), take_of_length_le (by omega)]
  have hlen : ((replicate 16 ([0x40, 1, 120] ++ (intBytes (2 ^ 28 - 1) 7 0x00
        ++ v.bytes))).flatten).length = 2 ^ 32 + 112 := by
    rw [length_flatten, map_replicate, sum_replicate]
    simp only [length_append, hint, length_cons, length_nil, smul_eq_mul]
    omega
  have hrest : (v.bytes.take 104).length = 104 := by
    rw [length_take]
    omega
  have hheaders : (longList v).headers = replicate 16 (longHeader v) := rfl
  rcases hpackEncode_cases (t := hpackTableInit 0) (longList_short hv) with
    ⟨-, hencode⟩ | ⟨hlong, -⟩
  · have hret : Int.bmod ((2 ^ 32 + 112 : Nat) : Int) (2 ^ 32) = 112 := by decide
    rw [hheaders, hwrite, hlen, hret, ← hheaders] at hencode
    show [((exchange _ _ (longList v)).ret, (exchange _ _ (longList v)).received)] = [(112, none)]
    unfold exchange
    rw [hencode]
    dsimp only
    rw [show (112 : Int).toNat = 112 from rfl, htake, announced_lost hrest]
  · rw [hheaders, hbytes, hlen] at hlong
    exact absurd hlong (Nat.lt_irrefl _)

/-- One byte less than `2 ^ 28`. -/
def longValue : CString where
  bytes := List.replicate (2 ^ 28 - 1) 97
  nulFree := fun h => absurd (List.eq_of_mem_replicate h) (by decide)

/-- **A length of 4 GiB is returned as 112**: the call counts as a success, and
what is decoded from that many bytes is an error. -/
theorem longList_lost :
    (∀ h ∈ (longList longValue).headers, h.name.length < 2 ^ 28 ∧ h.value.length < 2 ^ 28) ∧
    (exchanges (hpackTableInit 0) (hpackTableInit 0) [longList longValue]).map
      (fun x => (x.ret, x.received)) = [(112, none)] := by
  have hlength : longValue.length = 2 ^ 28 - 1 := length_replicate
  exact ⟨longList_short hlength, longList_exchange hlength⟩

end Toke.Http2
