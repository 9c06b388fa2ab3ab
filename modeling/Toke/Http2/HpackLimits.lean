/-
  Toke.Http2.HpackLimits — **WHERE HEADER COMPRESSION MEETS ITS LIMITS.**

  Three places of the HPACK code stop early.  `hpack_decode_int` gives up after
  the fifth group, but five groups hold 35 bits and it adds them up in 32.
  `hpack_encode` gives up when its buffer is full, and by then it has entered
  into the table what it wrote before.  The table keeps the newest entries that
  fit (`newest`), but below a limit that the peer sets.

    `hpackInt_exact_iff`         — integers come back; any other result is the
                                   integer of the bytes unless that is over 32 bits
    `hpackEncode_kept_iff`       — when a failed call leaves the table alone
    `hpackTable_accounting_iff`  — what the table holds after any run
-/
import Toke.Http2.Connection
import Toke.Http2.HpackSync
import Toke.Library.Evicting

namespace Toke.Http2

open List Mirroring Evicting

open Stdlib (CString)

variable {cap : Nat} {out : List UInt8} {t : HpackTable} {hs : List HpackEntry}

/-! ## §1. Integers. -/

/-- The groups of seven bits, lowest first. -/
def groupsValue : List UInt8 → Nat
  | [] => 0
  | b :: bs => (b &&& 0x7F).toNat + groupsValue bs * 128

/-- The integer that RFC 7541, section 5.1, assigns to the bytes of one. -/
def rfcInt (bits : Nat) : List UInt8 → Nat
  | [] => 0
  | b :: bs =>
    if b &&& lowMask bits < lowMask bits then (b &&& lowMask bits).toNat
    else (b &&& lowMask bits).toNat + groupsValue bs

/-- The groups that are read, and their sum modulo `2 ^ 32`. -/
theorem decodeGroups_value {buf rest : List UInt8} : ∀ {out m v : Nat},
    decodeGroups buf out m = some (v, rest) →
    ∃ gs, buf = gs ++ rest ∧ v = (out + groupsValue gs * 2 ^ m) % 2 ^ 32 := by
  induction buf with
  | nil =>
    intro out m v h
    cases h
  | cons b bs ih =>
    intro out m v h
    unfold decodeGroups at h
    split at h
    · cases h
      exact ⟨[b], rfl, by simp [groupsValue]⟩
    · split at h
      · cases h
      · obtain ⟨gs, rfl, hv⟩ := ih h
        refine ⟨b :: gs, rfl, ?_⟩
        have hsum : out + groupsValue (b :: gs) * 2 ^ m
            = out + (b &&& 0x7F).toNat * 2 ^ m + groupsValue gs * 2 ^ (m + 7) := by
          rw [groupsValue]
          ring
        rw [hv, hsum, Nat.mod_add_mod]

/-- An integer is read modulo `2 ^ 32`. -/
theorem hpackDecodeInt_value {buf rest : List UInt8} {bits v : Nat}
    (h : hpackDecodeInt buf bits = some (v, rest)) :
    ∃ used, buf = used ++ rest ∧ v = rfcInt bits used % 2 ^ 32 := by
  cases buf with
  | nil => cases h
  | cons b bs =>
    have hbyte := UInt8.toNat_lt (b &&& lowMask bits)
    unfold hpackDecodeInt at h
    dsimp only at h
    split at h
    · next hsmall =>
        cases h
        refine ⟨[b], rfl, ?_⟩
        rw [rfcInt, if_pos hsmall, Nat.mod_eq_of_lt (by omega)]
    · next hfull =>
        obtain ⟨gs, rfl, hv⟩ := decodeGroups_value h
        refine ⟨b :: gs, rfl, ?_⟩
        rw [rfcInt, if_neg hfull, hv, Nat.pow_zero, Nat.mul_one]

/-- A pattern marks whatever integer stands below it. -/
theorem marks_of_clear {bits : Nat} (hlow : 4 ≤ bits) (hhigh : bits ≤ 7) {pattern : UInt8}
    (h : pattern &&& lowMask bits = 0) : Marks bits pattern := by
  have hall : ∀ bits ∈ [4, 5, 6, 7], ∀ p < 256, UInt8.ofNat p &&& lowMask bits = 0 →
      Marks bits (UInt8.ofNat p) := by decide +kernel
  have hbits : bits ∈ [4, 5, 6, 7] := by
    simp only [mem_cons]
    omega
  have hmarks := hall bits hbits pattern.toNat pattern.toNat_lt
  rw [UInt8.ofNat_toNat] at hmarks
  exact hmarks h

/-- **Integers come back, and what is read is exact up to 32 bits.** -/
theorem hpackInt_exact_iff (bits : Nat) :
    (4 ≤ bits → bits ≤ 7 → ∀ pattern, pattern &&& lowMask bits = 0 → ∀ value < 2 ^ 32,
      ∃ written, (∀ cap out, out.length + written.length ≤ cap →
          hpackEncodeInt cap out value bits pattern = some (out ++ written)) ∧
        ∀ rest, hpackDecodeInt (written ++ rest) bits = some (value, rest)) ∧
    ∀ buf v rest, hpackDecodeInt buf bits = some (v, rest) →
      ∃ used, buf = used ++ rest ∧ (v = rfcInt bits used ↔ rfcInt bits used < 2 ^ 32) := by
  constructor
  · intro hlow hhigh pattern hclear value hvalue
    refine ⟨intBytes value bits pattern, ?_, ?_⟩
    · intro cap out hroom
      rw [hpackEncodeInt_eq cap out bits pattern hvalue, limited_of_le hroom]
    · exact hpackDecodeInt_intBytes (marks_of_clear hlow hhigh hclear) hvalue
  · intro buf v rest h
    obtain ⟨used, hbuf, hv⟩ := hpackDecodeInt_value h
    refine ⟨used, hbuf, fun heq => ?_, fun hlt => ?_⟩
    · rw [← heq, hv]
      exact Nat.mod_lt _ (by decide)
    · rw [hv, Nat.mod_eq_of_lt hlt]

/-- Five full groups are 35 bits. -/
theorem hpackDecodeInt_wraps :
    hpackDecodeInt [0x7F, 0xFF, 0xFF, 0xFF, 0xFF, 0x7F] 7 = some (126, []) ∧
      rfcInt 7 [0x7F, 0xFF, 0xFF, 0xFF, 0xFF, 0x7F] = 2 ^ 35 + 126 := by decide +kernel

/-! ## §2. What the table keeps. -/

/-- The newest entries, as many as fit into `max`. -/
abbrev newest (max : Nat) (es : List HpackEntry) : List HpackEntry :=
  front HpackEntry.entrySize max es

/-- Dropping the oldest entries keeps the newest that fit. -/
theorem evictLoop_newest {room max : Nat} (hroom : room ≤ max) :
    ∀ (count : Nat) (entries : List HpackEntry) (size : Nat), entries.length ≤ count →
      size = totalSize entries →
      (evictLoop room max count entries size).1 = newest (max - room) entries
  | 0, entries, size, hcount, _ => by
    obtain rfl : entries = [] := length_eq_zero_iff.mp (by omega)
    rfl
  | count + 1, entries, size, hcount, hsize => by
    unfold evictLoop
    split
    · next hlarge =>
        cases hlast : entries.getLast? with
        | none =>
          obtain rfl : entries = [] := getLast?_eq_none_iff.mp hlast
          rfl
        | some e =>
          have htotal : totalSize entries = totalSize entries.dropLast + e.entrySize :=
            total_dropLast hlast
          have hdrop := front_dropLast (show max - room < totalSize entries by omega)
          have hlen : entries.dropLast.length ≤ count := by
            rw [length_dropLast]
            omega
          exact (evictLoop_newest hroom count _ _ hlen (by omega)).trans hdrop.symm
    · next hfits =>
        have hall : totalSize entries ≤ max - room := by omega
        exact (front_all hall).symm

theorem hpackInsert_entries (ht : t.Counted) (e : HpackEntry) :
    (hpackInsert t e).entries = newest t.maxSize (e :: t.entries) := by
  unfold hpackInsert newest
  rw [front]
  split
  · next hlarge => rw [if_neg (by omega)]
  · next hfits =>
      have hkept := evictLoop_newest (Nat.not_lt.mp hfits) _ t.entries t.size (Nat.le_refl _) ht.1
      rw [if_pos (Nat.not_lt.mp hfits)]
      exact congrArg (e :: ·) hkept

theorem hpackTableResize_entries (ht : t.Counted) (newMax : Nat) :
    (hpackTableResize t newMax).entries = newest newMax t.entries :=
  evictLoop_newest (Nat.zero_le newMax) _ t.entries t.size (Nat.le_refl _) ht.1

/-! ## §3. Failed calls. -/

/-- How many groups of seven bits an integer takes. -/
def groupCount (v : Nat) : Nat :=
  if v < 2 ^ 7 then 1 else if v < 2 ^ 14 then 2 else if v < 2 ^ 21 then 3
  else if v < 2 ^ 28 then 4 else 5

/-- How many bytes an integer takes. -/
def intLength (bits value : Nat) : Nat :=
  if value < 2 ^ bits - 1 then 1 else 1 + groupCount (value - (2 ^ bits - 1))

/-- How many bytes a string takes. -/
def stringLength (s : CString) : Nat := intLength 7 (s.length % 2 ^ 32) + s.length

/-- The index of the first entry of a name, 0 for none. -/
def nameIndex (entries : List HpackEntry) (name : CString) : Nat :=
  (entries.findIdx? (·.name = name)).elim 0 (· + 1)

/-- How many bytes a field takes behind a table with these entries. -/
def fieldLength (entries : List HpackEntry) (h : HpackEntry) : Nat :=
  let all := hpackStatic ++ entries
  if h ∈ all then intLength 7 (all.idxOf h + 1)
  else intLength 6 (nameIndex all h.name)
    + ((if nameIndex all h.name ≠ 0 then 0 else stringLength h.name) + stringLength h.value)

/-- The fields that are entered into a table before the first one that does not
fit into `room` bytes, newest first; nothing if all of them fit. -/
def enteredBefore (maxSize : Nat) :
    Nat → List HpackEntry → List HpackEntry → Option (List HpackEntry)
  | _, _, [] => none
  | room, entries, h :: hs =>
    if room < fieldLength entries h then some []
    else if h ∈ hpackStatic ++ entries then
      enteredBefore maxSize (room - fieldLength entries h) entries hs
    else (enteredBefore maxSize (room - fieldLength entries h) (newest maxSize (h :: entries)) hs).map
      (· ++ [h])

theorem groupCount_step {v : Nat} (hlow : 128 ≤ v) (hhigh : v < 2 ^ 35) :
    groupCount (v / 128) + 1 = groupCount v := by
  have hdiv : ∀ k, v / 128 < 2 ^ k ↔ v < 2 ^ (k + 7) := fun k =>
    (Nat.div_lt_iff_lt_mul (by decide)).trans (by rw [Nat.pow_add])
  unfold groupCount
  rw [if_neg (show ¬ v < 2 ^ 7 by omega)]
  simp only [hdiv, Nat.reduceAdd]
  rw [if_pos hhigh]
  split_ifs <;> rfl

theorem length_groups : ∀ {n v : Nat}, n ≤ 4 → v < 128 ^ (n + 1) →
    (groups (n + 1) v).length = groupCount v
  | 0, v, _, hv => by
    unfold groups groupCount
    rw [if_pos (by omega), if_pos (by omega)]
    rfl
  | n + 1, v, hn, hv => by
    have hmax : 128 ^ (n + 1 + 1) ≤ 128 ^ 5 := Nat.pow_le_pow_right (by decide) (by omega)
    unfold groups
    split
    · next hsmall =>
        unfold groupCount
        rw [if_pos (show v < 2 ^ 7 from hsmall)]
        rfl
    · next hlarge =>
        have hnext : v / 128 < 128 ^ (n + 1) := by
          rw [Nat.div_lt_iff_lt_mul (by decide)]
          exact hv
        rw [length_cons, length_groups (by omega) hnext]
        exact groupCount_step (Nat.not_lt.mp hlarge) (Nat.lt_of_lt_of_le hv hmax)

theorem length_intBytes {value bits : Nat} (hbits : bits ≤ 8) (hv : value < 2 ^ 32)
    (pattern : UInt8) : (intBytes value bits pattern).length = intLength bits value := by
  have hmask : (lowMask bits).toNat = 2 ^ bits - 1 := by
    have hle : 2 ^ bits ≤ 2 ^ 8 := Nat.pow_le_pow_right (by decide) hbits
    exact Nat.mod_eq_of_lt (by omega)
  unfold intBytes intLength
  rw [hmask]
  split
  · rfl
  · rw [length_cons, length_groups (Nat.le_refl 4) (by omega), Nat.add_comm]

theorem length_stringBytes (s : CString) : (stringBytes s).length = stringLength s := by
  rw [stringBytes, length_append, length_intBytes (by decide) (Nat.mod_lt _ (by decide))]
  rfl

/-- The search in one of the tables. -/
theorem findEntry_eq (h : HpackEntry) : ∀ (es : List HpackEntry) {i : Nat} (name : Nat), 0 < i →
    i + es.length ≤ 2 ^ 32 →
    (h ∈ es → (findEntry h es i name).1 = i + es.idxOf h) ∧
      (h ∉ es → findEntry h es i name = (0, if name = 0 then
        (es.findIdx? (·.name = h.name)).elim 0 (i + ·) else name))
  | [], _, name, _, _ => ⟨fun hmem => (not_mem_nil hmem).elim, fun _ => by
      simp only [findEntry, findIdx?_nil, Option.elim_none]
      split
      · next hzero => rw [hzero]
      · rfl⟩
  | e :: es, i, name, hi, hlen => by
    rw [length_cons] at hlen
    have hsmall : i % 2 ^ 32 = i := Nat.mod_eq_of_lt (by omega)
    have ih := fun name => findEntry_eq h es (i := i + 1) name (by omega) (by omega)
    unfold findEntry
    rw [idxOf_cons, findIdx?_cons]
    by_cases hname : e.name = h.name
    · rw [if_pos hname]
      by_cases hvalue : e.value = h.value
      · have heq : e = h := congrArg₂ HpackEntry.mk hname hvalue
        rw [if_pos hvalue, heq, hsmall]
        exact ⟨fun _ => by simp, fun hout => (hout mem_cons_self).elim⟩
      · have hne : ¬ h = e := fun heq => hvalue (heq ▸ rfl)
        have hbeq : (e == h) = false := beq_eq_false_iff_ne.mpr (Ne.symm hne)
        obtain ⟨hin, hout⟩ := ih (if name = 0 then i % 2 ^ 32 else name)
        rw [if_neg hvalue, mem_cons, or_iff_right hne, hbeq]
        refine ⟨fun hmem => ?_, fun hmem => ?_⟩
        · rw [hin hmem]
          simp only [cond_false]
          omega
        · rw [hout hmem, hsmall]
          simp only [hname, decide_true, if_true, Option.elim_some]
          by_cases hzero : name = 0
          · rw [if_pos hzero, if_neg (by omega), if_pos hzero]
            rfl
          · rw [if_neg hzero, if_neg hzero, if_neg hzero]
    · have hne : ¬ h = e := fun heq => hname (heq ▸ rfl)
      have hbeq : (e == h) = false := beq_eq_false_iff_ne.mpr (Ne.symm hne)
      obtain ⟨hin, hout⟩ := ih name
      rw [if_neg hname, mem_cons, or_iff_right hne, hbeq]
      refine ⟨fun hmem => ?_, fun hmem => ?_⟩
      · rw [hin hmem]
        simp only [cond_false]
        omega
      · rw [hout hmem]
        simp only [hname, decide_false, Bool.false_eq_true, if_false]
        congr 2
        cases es.findIdx? (·.name = h.name) with
        | none => rfl
        | some k =>
          simp only [Option.map_some, Option.elim_some]
          omega

/-- **The search**: the place of the field in both tables, else that of its name. -/
theorem findIndices_eq (ht : Indexable t) (h : HpackEntry) :
    (h ∈ hpackStatic ++ t.entries → (findIndices t h).1 = (hpackStatic ++ t.entries).idxOf h + 1) ∧
      (h ∉ hpackStatic ++ t.entries →
        findIndices t h = (0, nameIndex (hpackStatic ++ t.entries) h.name)) := by
  unfold Indexable at ht
  have hlen : hpackStatic.length = 61 := rfl
  have hsize : hpackStaticSize = 61 := rfl
  obtain ⟨hin, hout⟩ := findEntry_eq h hpackStatic 0 (i := 1) Nat.one_pos (by omega)
  have hrest := fun name => findEntry_eq h t.entries name (i := hpackStaticSize + 1) (Nat.succ_pos _)
    (by omega)
  unfold findIndices
  rw [mem_append, idxOf_append]
  by_cases hstatic : h ∈ hpackStatic
  · have hfound := hin hstatic
    rw [if_neg (by omega), if_pos hstatic, hfound]
    exact ⟨fun _ => Nat.add_comm _ _, fun hno => (hno (.inl hstatic)).elim⟩
  · rw [hout hstatic, if_pos rfl, if_pos rfl, if_neg hstatic, or_iff_right hstatic, hlen]
    refine ⟨fun hmem => ?_, fun hmem => ?_⟩
    · rw [(hrest _).1 hmem]
      omega
    · rw [(hrest _).2 hmem, nameIndex, findIdx?_append, hlen, hsize]
      congr 1
      cases hpackStatic.findIdx? (·.name = h.name) with
      | none =>
        cases t.entries.findIdx? (·.name = h.name) with
        | none => rfl
        | some k =>
          simp only [Option.elim_none, Option.none_or, Option.map_some, Option.elim_some, if_true]
          omega
      | some k => exact (if_neg (Nat.succ_ne_zero k ∘ (Nat.add_comm k 1).trans)).trans (Nat.add_comm 1 k)

/-- How long a field is, and what it does to the table. -/
theorem writeField_eq (ht : Indexable t) (h : HpackEntry) :
    (writeField t h).2.length = fieldLength t.entries h ∧
      (writeField t h).1 = if h ∈ hpackStatic ++ t.entries then t else hpackInsert t h := by
  obtain ⟨hin, hout⟩ := findIndices_eq ht h
  obtain ⟨hlt₁, hlt₂⟩ := findIndices_lt t h
  unfold writeField fieldLength
  dsimp only
  by_cases hmem : h ∈ hpackStatic ++ t.entries
  · have hfound := hin hmem
    rw [if_pos (by omega), if_pos hmem, if_pos hmem, ← hfound]
    exact ⟨length_intBytes (by decide) hlt₁ _, rfl⟩
  · have hfound := hout hmem
    rw [hfound] at hlt₂ ⊢
    rw [if_neg (not_not.mpr rfl), if_neg hmem, if_neg hmem]
    refine ⟨?_, rfl⟩
    dsimp only
    unfold literalBytes
    rw [length_append, length_append, length_intBytes (by decide) hlt₂, length_stringBytes]
    split
    · rfl
    · rw [length_stringBytes]

/-- The loop of `hpack_encode` from some state on. -/
abbrev encodeFrom (cap : Nat) (t : HpackTable) (out : List UInt8) (hs : List HpackEntry) :
    HpackTable × Option (List UInt8) := writeWhile (encodeField cap) t out hs

/-- **Where the loop stops** and the table it leaves there. -/
theorem encodeFrom_entered (ht : Roomy t) (hs : List HpackEntry) (hout : out.length ≤ cap) :
    (∀ ins, enteredBefore t.maxSize (cap - out.length) t.entries hs = some ins →
      (encodeFrom cap t out hs).2 = none ∧ (encodeFrom cap t out hs).1.Counted ∧
        (encodeFrom cap t out hs).1.maxSize = t.maxSize ∧
        (encodeFrom cap t out hs).1.entries = newest t.maxSize (ins ++ t.entries)) ∧
    (enteredBefore t.maxSize (cap - out.length) t.entries hs = none →
      ∃ o, (encodeFrom cap t out hs).2 = some o ∧ o.length ≤ cap) := by
  induction hs generalizing t out with
  | nil => exact ⟨fun ins h => (by cases h), fun _ => ⟨out, rfl, hout⟩⟩
  | cons h hs ih =>
    obtain ⟨hlen, htable⟩ := writeField_eq ht.indexable h
    have hkeep : newest t.maxSize t.entries = t.entries :=
      front_all (Nat.le_trans (Nat.le_of_eq ht.1.1.symm) ht.1.2)
    have hnext := fields_mirror.stays t h ht
    unfold encodeFrom writeWhile enteredBefore
    rw [encodeField_eq]
    by_cases hroom : cap - out.length < fieldLength t.entries h
    · rw [if_pos hroom, limited_of_lt (by omega)]
      refine ⟨fun ins hins => ?_, fun hnone => by cases hnone⟩
      cases hins
      exact ⟨rfl, ht.1, rfl, hkeep.symm⟩
    · have hwritten : (out ++ (writeField t h).2).length = out.length + fieldLength t.entries h := by
        rw [length_append, hlen]
      rw [if_neg hroom, limited_of_le (by omega), Option.map_some]
      dsimp only
      have hrest := @ih (out ++ (writeField t h).2) (writeField t h).1 hnext (by omega)
      rw [hwritten, writeField_maxSize, ← Nat.sub_sub] at hrest
      by_cases hmem : h ∈ hpackStatic ++ t.entries
      · rw [if_pos hmem] at htable ⊢
        rw [htable] at hrest ⊢
        exact hrest
      · rw [if_neg hmem] at htable ⊢
        rw [htable, hpackInsert_entries ht.1] at hrest
        rw [htable]
        refine ⟨fun ins hins => ?_, fun hnone => hrest.2 (Option.map_eq_none_iff.mp hnone)⟩
        obtain ⟨before, hbefore, rfl⟩ := Option.map_eq_some_iff.mp hins
        obtain ⟨hfail, hcounted, hmax, hentries⟩ := hrest.1 before hbefore
        refine ⟨hfail, hcounted, hmax, hentries.trans ?_⟩
        rw [append_assoc, singleton_append]
        exact front_append_front (Nat.le_refl _) before (h :: t.entries)

/-- Below `2 ^ 32 - 1` no length is returned as `-1`. -/
theorem hpackEncode_fails_iff (hcap : cap < 2 ^ 32 - 1) (ht : Roomy t) :
    (hpackEncode t hs cap).ret = -1 ↔ (enteredBefore t.maxSize cap t.entries hs).isSome := by
  have hrun := encodeFrom_entered ht hs (length_nil.trans_le (Nat.zero_le cap))
  rw [length_nil, Nat.sub_zero] at hrun
  unfold hpackEncode
  unfold encodeFrom at hrun
  generalize writeWhile (encodeField cap) t [] hs = run at hrun ⊢
  obtain ⟨t', written⟩ := run
  cases hentered : enteredBefore t.maxSize cap t.entries hs with
  | some ins =>
    obtain ⟨hfail, -⟩ := hrun.1 ins hentered
    obtain rfl : written = none := hfail
    exact ⟨fun _ => rfl, fun _ => rfl⟩
  | none =>
    obtain ⟨o, hsome, hle⟩ := hrun.2 hentered
    obtain rfl : written = some o := hsome
    refine ⟨fun hret => ?_, fun h => nomatch h⟩
    dsimp only at hret
    rw [Int.bmod_def] at hret
    split at hret <;> omega

/-- **A call that fails leaves the table as it was** exactly when what it
entered before has left no trace: nothing was entered, or the newest entries
that fit are the old ones again. -/
theorem hpackEncode_kept_iff {t : HpackTable} (ht : Roomy t) (headers : List HpackEntry) {cap : Nat}
    (hcap : cap < 2 ^ 32 - 1) :
    ((hpackEncode t headers cap).ret = -1 → (hpackEncode t headers cap).table = t) ↔
      ∀ ins ∈ enteredBefore t.maxSize cap t.entries headers,
        newest t.maxSize (ins ++ t.entries) = t.entries := by
  have htable : (hpackEncode t headers cap).table = (encodeFrom cap t [] headers).1 := by
    unfold hpackEncode encodeFrom
    generalize writeWhile (encodeField cap) t [] headers = run
    obtain ⟨t', _ | out⟩ := run <;> rfl
  have hrun := encodeFrom_entered ht headers (length_nil.trans_le (Nat.zero_le cap))
  rw [length_nil, Nat.sub_zero] at hrun
  rw [htable, hpackEncode_fails_iff hcap ht]
  cases hentered : enteredBefore t.maxSize cap t.entries headers with
  | none => exact ⟨fun _ ins hins => (nomatch hins), fun _ h => (nomatch h)⟩
  | some ins =>
    obtain ⟨-, hcounted, hmax, hentries⟩ := hrun.1 ins hentered
    constructor
    · intro hkept ins' hins
      cases hins
      rw [← hentries, hkept rfl]
    · intro hsame _
      have hold := hentries.trans (hsame ins rfl)
      -- the entries and the limit are the old ones, so the size is
      have hsize := hcounted.1
      generalize (encodeFrom cap t [] headers).1 = t' at *
      cases t
      cases t'
      simp only at hmax hold hsize
      rw [HpackTable.mk.injEq]
      exact ⟨hold, by rw [hsize, hold]; exact ht.1.1.symm, hmax⟩

/-- A field that is entered, and one that does not fit behind it. -/
def lateFailure : List HpackEntry := [.ofTexts "x" "1", .ofTexts "y" "22"]

theorem hpackEncode_kept_early :
    (hpackEncode (hpackTableInit 4096) lateFailure 4).table = hpackTableInit 4096 :=
  (hpackEncode_kept_iff (t := hpackTableInit 4096) ⟨⟨rfl, Nat.zero_le _⟩, by decide⟩ lateFailure
    (by decide)).mpr (by decide +kernel) (by decide +kernel)

/-- The first field is in the table of the failed call. -/
theorem hpackEncode_table_changed : (hpackEncode (hpackTableInit 4096) lateFailure 8).ret = -1 ∧
    (hpackEncode (hpackTableInit 4096) lateFailure 8).table.entries = [.ofTexts "x" "1"] := by
  decide +kernel

/-! ## §4. The accounting of the table. -/

/-- A change of a table. -/
inductive TableCall where
  | insert (e : HpackEntry)
  | resize (newMax : Nat)

/-- The function of `http2.c`. -/
def HpackTable.call (t : HpackTable) : TableCall → HpackTable
  | .insert e => hpackInsert t e
  | .resize newMax => hpackTableResize t newMax

/-- What a table is for: a limit, and the newest entries below it. -/
structure NewestTable where
  maxSize : Nat
  entries : List HpackEntry

/-- A change of what is kept. -/
def NewestTable.call (s : NewestTable) : TableCall → NewestTable
  | .insert e => ⟨s.maxSize, newest s.maxSize (e :: s.entries)⟩
  | .resize newMax => ⟨newMax, newest newMax s.entries⟩

/-- A field of a header block, as RFC 7541, section 6, has them. -/
inductive FieldRep where
  | indexed (index : Nat)
  | literal (entered : Bool) (name : Nat ⊕ CString) (value : CString)
  | sizeUpdate (newSize : Nat)

/-- A literal field: the index of its name or the name, then the value. -/
def literalRep (entered : Bool) (buf : List UInt8) (bits : Nat) : Option (FieldRep × List UInt8) :=
  (hpackDecodeInt buf bits).bind fun (index, rest) =>
    (if 0 < index then some (.inl index, rest)
      else (hpackDecodeString rest).map fun (name, rest) => (.inr name, rest)).bind
    fun (name, rest) =>
      (hpackDecodeString rest).map fun (value, rest) => (.literal entered name value, rest)

/-- The field at the front of a block, read without a table. -/
def fieldRep (buf : List UInt8) : Option (FieldRep × List UInt8) :=
  match buf with
  | [] => none
  | b :: _ =>
    if b &&& 0x80 ≠ 0 then (hpackDecodeInt buf 7).map fun (index, rest) => (.indexed index, rest)
    else if b &&& 0x40 ≠ 0 then literalRep true buf 6
    else if b &&& 0x20 ≠ 0 then (hpackDecodeInt buf 5).map fun (n, rest) => (.sizeUpdate n, rest)
    else literalRep false buf 4

/-- The fields of a block up to the first malformed one. -/
def fieldReps : Nat → List UInt8 → List FieldRep
  | 0, _ => []
  | fuel + 1, buf =>
    match fieldRep buf with
    | none => []
    | some (f, rest) => f :: fieldReps fuel rest

/-- The entry of an index, counted from 1 through both tables. -/
def entryAt (entries : List HpackEntry) : Nat → Option HpackEntry
  | 0 => none
  | k + 1 => (hpackStatic ++ entries)[k]?

/-- The changes a field asks for; nothing if its index has no entry. -/
def FieldRep.calls (entries : List HpackEntry) : FieldRep → Option (List TableCall)
  | .indexed index => (entryAt entries index).map fun _ => []
  | .literal entered (.inl index) value => (entryAt entries index).map fun e =>
      if entered then [.insert ⟨e.name, value⟩] else []
  | .literal entered (.inr name) value => some (if entered then [.insert ⟨name, value⟩] else [])
  | .sizeUpdate newSize => some [.resize newSize]

/-- The changes of a list of fields, up to an index without an entry. -/
def fieldsCalls : NewestTable → List FieldRep → List TableCall
  | _, [] => []
  | s, f :: fs =>
    match f.calls s.entries with
    | none => []
    | some cs => cs ++ fieldsCalls (cs.foldl NewestTable.call s) fs

/-- A call, or a header block to decode. -/
inductive TableEvent where
  | call (c : TableCall)
  | block (buf : List UInt8)

/-- The table after an event. -/
def HpackTable.after (t : HpackTable) : TableEvent → HpackTable
  | .call c => t.call c
  | .block buf => (hpackDecode t buf).1

/-- The changes an event asks for. -/
def NewestTable.calls (s : NewestTable) : TableEvent → List TableCall
  | .call c => [c]
  | .block buf => fieldsCalls s (fieldReps buf.length buf)

/-- Every change a run asks for. -/
def history : NewestTable → List TableEvent → List TableCall
  | _, [] => []
  | s, e :: es => s.calls e ++ history ((s.calls e).foldl NewestTable.call s) es

/-- The entries of the calls, newest first. -/
def inserted (cs : List TableCall) : List HpackEntry :=
  (cs.flatMap fun | .insert e => [e] | .resize _ => []).reverse

/-- After these calls the table counts its entries and keeps its limit, and it
holds the newest entries that fit. -/
def Accounted (maxSize : Nat) (cs : List TableCall) : Prop :=
  let t := cs.foldl HpackTable.call (hpackTableInit maxSize)
  t.size = (t.entries.map fun e => e.name.length + e.value.length + 32).sum ∧
    t.size ≤ t.maxSize ∧ t.entries <+: inserted cs ∧
    t.entries = (cs.foldl NewestTable.call ⟨maxSize, []⟩).entries

/-- The decoding table of a connection, with the size its settings announce. -/
def decodingTable : HpackTable := hpackTableInit h2SettingsDefault.headerTableSize

/-- The table holds what it should. -/
structure HpackTable.Holds (t : HpackTable) (s : NewestTable) : Prop where
  counted : t.Counted
  maxSize : t.maxSize = s.maxSize
  entries : t.entries = s.entries

theorem HpackTable.Holds.call {s : NewestTable} (h : t.Holds s) (c : TableCall) :
    (t.call c).Holds (s.call c) := by
  cases c with
  | insert e =>
    refine ⟨h.counted.insert e, (hpackInsert_maxSize t e).trans h.maxSize, ?_⟩
    exact (hpackInsert_entries h.counted e).trans (by rw [h.maxSize, h.entries]; rfl)
  | resize n =>
    refine ⟨h.counted.resize n, rfl, ?_⟩
    exact (hpackTableResize_entries h.counted n).trans (by rw [h.entries]; rfl)

theorem HpackTable.Holds.calls {s : NewestTable} (cs : List TableCall) (h : t.Holds s) :
    (cs.foldl HpackTable.call t).Holds (cs.foldl NewestTable.call s) := by
  induction cs generalizing t s with
  | nil => exact h
  | cons c cs ih => exact ih (h.call c)

theorem hpackLookup_entryAt (t : HpackTable) (index : Nat) :
    hpackLookup t index = entryAt t.entries index := by
  cases index with
  | zero => rfl
  | succ k => exact hpackLookup_succ t k

/-- A literal is read as a representation, and its name is looked up. -/
theorem decodeLiteral_rep (entered : Bool) (buf : List UInt8) (bits : Nat) :
    ((decodeLiteral t buf bits).map fun (e, rest) =>
        (if entered then [TableCall.insert e] else [], rest)) =
      (literalRep entered buf bits).bind fun (f, rest) => (f.calls t.entries).map (·, rest) := by
  unfold decodeLiteral literalRep
  cases hpackDecodeInt buf bits with
  | none => rfl
  | some read =>
    obtain ⟨index, rest⟩ := read
    simp only [Option.bind_some, hpackLookup_entryAt]
    by_cases hindex : 0 < index
    · rw [if_pos hindex, if_pos hindex, Option.bind_some]
      dsimp only
      cases hname : entryAt t.entries index with
      | none =>
        cases hpackDecodeString rest with
        | none => rfl
        | some read => simp only [Option.map_some, Option.bind_some, FieldRep.calls, hname]; rfl
      | some e =>
        simp only [Option.map_some, Option.bind_some]
        cases hpackDecodeString rest with
        | none => rfl
        | some read => simp only [Option.map_some, Option.bind_some, FieldRep.calls, hname]
    · rw [if_neg hindex, if_neg hindex]
      cases hpackDecodeString rest with
      | none => rfl
      | some read =>
        obtain ⟨name, rest⟩ := read
        simp only [Option.bind_some, Option.map_some]
        cases hpackDecodeString rest with
        | none => rfl
        | some read => rfl

/-- One turn of the decoder makes the calls of one field. -/
theorem decodeField_rep (t : HpackTable) (buf : List UInt8) :
    ((decodeField t buf).map fun (t', _, rest) => (t', rest)) =
      (fieldRep buf).bind fun (f, rest) =>
        (f.calls t.entries).map fun cs => (cs.foldl HpackTable.call t, rest) := by
  have hliteral := fun entered bits => congrArg
    (Option.map fun p : List TableCall × List UInt8 => (p.1.foldl HpackTable.call t, p.2))
    (decodeLiteral_rep (t := t) entered buf bits)
  simp only [Option.map_map, Option.map_bind, Function.comp_def] at hliteral
  unfold decodeField fieldRep
  cases buf with
  | nil => rfl
  | cons b bs =>
    dsimp only
    by_cases h80 : b &&& 0x80 ≠ 0
    · rw [if_pos h80, if_pos h80]
      cases hpackDecodeInt (b :: bs) 7 with
      | none => rfl
      | some read =>
        simp only [Option.bind_some, Option.map_some, FieldRep.calls, hpackLookup_entryAt]
        cases entryAt t.entries read.1 <;> rfl
    rw [if_neg h80, if_neg h80]
    by_cases h40 : b &&& 0x40 ≠ 0
    · rw [if_pos h40, if_pos h40, Option.map_map]
      exact hliteral true 6
    rw [if_neg h40, if_neg h40]
    by_cases h20 : b &&& 0x20 ≠ 0
    · rw [if_pos h20, if_pos h20]
      cases hpackDecodeInt (b :: bs) 5 <;> rfl
    · rw [if_neg h20, if_neg h20, Option.map_map]
      exact hliteral false 4

theorem readAll_calls : ∀ (fuel : Nat) {t : HpackTable} {s : NewestTable} (buf : List UInt8),
    t.Holds s → (readAll decodeField fuel t buf).1 =
      (fieldsCalls s (fieldReps fuel buf)).foldl HpackTable.call t
  | 0, _, _, [], _ => rfl
  | 0, _, _, _ :: _, _ => rfl
  | _ + 1, _, _, [], _ => rfl
  | fuel + 1, t, s, b :: bs, h => by
    have hturn := decodeField_rep t (b :: bs)
    unfold readAll fieldReps
    cases hrep : fieldRep (b :: bs) with
    | none =>
      rw [hrep, Option.bind_none, Option.map_eq_none_iff] at hturn
      rw [hturn]
      rfl
    | some read =>
      obtain ⟨f, rest⟩ := read
      rw [hrep, Option.bind_some, h.entries] at hturn
      dsimp only at hturn ⊢
      unfold fieldsCalls
      cases hcalls : f.calls s.entries with
      | none =>
        rw [hcalls, Option.map_none, Option.map_eq_none_iff] at hturn
        rw [hturn]
        rfl
      | some cs =>
        rw [hcalls, Option.map_some, Option.map_eq_some_iff] at hturn
        obtain ⟨⟨t', e, rest'⟩, hrun, heq⟩ := hturn
        cases heq
        rw [hrun, foldl_append]
        exact readAll_calls fuel _ (h.calls cs)

/-- **A run is its calls, one after another.** -/
theorem after_calls : ∀ (es : List TableEvent) {t : HpackTable} {s : NewestTable}, t.Holds s →
    es.foldl HpackTable.after t = (history s es).foldl HpackTable.call t
  | [], _, _, _ => rfl
  | e :: es, t, s, h => by
    have hone : t.after e = (s.calls e).foldl HpackTable.call t := by
      cases e with
      | call c => rfl
      | block buf => exact readAll_calls buf.length buf h
    rw [history, foldl_append, ← hone, foldl_cons]
    exact after_calls es (hone ▸ h.calls (s.calls e))

theorem init_holds (maxSize : Nat) : (hpackTableInit maxSize).Holds ⟨maxSize, []⟩ :=
  ⟨⟨rfl, Nat.zero_le _⟩, rfl, rfl⟩

theorem newestCalls_front (s : NewestTable) (cs : List TableCall) :
    (cs.foldl NewestTable.call s).entries <+: inserted cs ++ s.entries := by
  induction cs using reverseRecOn with
  | nil => exact prefix_refl s.entries
  | append_singleton cs c ih =>
    have hnew : inserted (cs ++ [c]) = inserted [c] ++ inserted cs := by simp [inserted]
    have hone : ∀ s : NewestTable, (s.call c).entries <+: inserted [c] ++ s.entries := by
      intro s
      cases c <;> exact front_begins _ _
    rw [foldl_append, hnew, append_assoc]
    exact (hone _).trans ((prefix_append_right_inj _).mpr ih)

theorem calls_accounted (maxSize : Nat) (cs : List TableCall) : Accounted maxSize cs := by
  have h := (init_holds maxSize).calls cs
  refine ⟨h.counted.1, h.counted.2, ?_, h.entries⟩
  rw [h.entries]
  exact (newestCalls_front ⟨maxSize, []⟩ cs).trans (append_nil _ ▸ prefix_refl _)

theorem calls_maxSize {m : Nat} : ∀ {cs : List TableCall} {t : HpackTable}, t.maxSize ≤ m →
    (∀ n, .resize n ∈ cs → n ≤ m) → (cs.foldl HpackTable.call t).maxSize ≤ m
  | [], _, ht, _ => ht
  | c :: cs, t, ht, h => by
    have hone : (t.call c).maxSize ≤ m := by
      cases c with
      | insert e => exact (hpackInsert_maxSize t e).trans_le ht
      | resize n => exact h n mem_cons_self
    show (cs.foldl HpackTable.call (t.call c)).maxSize ≤ m
    exact calls_maxSize hone fun n hn => h n (mem_cons_of_mem c hn)

/-- **The table is accounted for**, whatever happens to it: a run is its calls,
and after any calls the table is counted and holds the newest entries that fit.
The decoding table stays within the announced size exactly when no size update
goes beyond it. -/
theorem hpackTable_accounting_iff (es : List TableEvent) :
    (∀ maxSize, es.foldl HpackTable.after (hpackTableInit maxSize) =
        (history ⟨maxSize, []⟩ es).foldl HpackTable.call (hpackTableInit maxSize)) ∧
    (∀ maxSize cs, Accounted maxSize cs) ∧
    ((∀ cs, cs <+: history ⟨h2SettingsDefault.headerTableSize, []⟩ es →
        (cs.foldl HpackTable.call decodingTable).maxSize ≤ h2SettingsDefault.headerTableSize) ↔
      ∀ n, .resize n ∈ history ⟨h2SettingsDefault.headerTableSize, []⟩ es →
        n ≤ h2SettingsDefault.headerTableSize) := by
  refine ⟨fun maxSize => after_calls es (init_holds maxSize), calls_accounted, ?_, ?_⟩
  · intro hmax n hn
    obtain ⟨before, behind, hsplit⟩ := append_of_mem hn
    have hlast := hmax (before ++ [.resize n]) ⟨behind, by rw [hsplit]; simp⟩
    rw [foldl_append] at hlast
    exact hlast
  · intro h cs hcs
    exact calls_maxSize (Nat.le_refl _) fun n hn => h n (hcs.subset hn)

/-- A size update of 16384 bytes. -/
theorem hpackDecode_exceeds_announced :
    (hpackDecode decodingTable [0x3f, 0xe1, 0x7f]).1.maxSize = 16384 := by decide +kernel

end Toke.Http2
