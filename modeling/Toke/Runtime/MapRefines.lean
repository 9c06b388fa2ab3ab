/-
  Toke.Runtime.MapRefines — **THE MAP IS AN INSERTION-ORDERED DICTIONARY.**

  The abstract map is an association list: `Dict.put` keeps the position of a
  key that is there and adds a new key at the end.  Each function of the
  runtime has one lemma that says what it does to the list behind the struct;
  `run_refines` puts them together for sequences of calls.
-/
import Toke.Runtime.MapTable

namespace Toke.Runtime

open List

variable {key : Int64}

/-! ## §1. Association lists. -/

/-- A dictionary: keys and values in the order of first insertion. -/
abbrev Dict := List Entry

/-- The new value at the key's place, or at the end. -/
def Dict.put (key val : Int64) : Dict → Dict
  | [] => [(key, val)]
  | e :: es => if e.1 = key then (key, val) :: es else e :: Dict.put key val es

/-- The value under a key. -/
def Dict.get (d : Dict) (key : Int64) : Option Int64 := (d.find? fun e => e.1 = key).map Prod.snd

/-- The keys in order. -/
def Dict.keys (d : Dict) : List Int64 := d.map Prod.fst

theorem Dict.put_eq (key val : Int64) (d : Dict) : Dict.put key val d =
    match d.findIdx? (fun e => e.1 = key) with
    | none => d ++ [(key, val)]
    | some i => d.set i (key, val) := by
  induction d with
  | nil => rfl
  | cons e es ih =>
    rw [findIdx?_cons, Dict.put]
    by_cases he : e.1 = key
    · rw [if_pos he, decide_eq_true he]
      rfl
    · rw [if_neg he, decide_eq_false he, ih]
      cases es.findIdx? (fun e => e.1 = key) <;> rfl

theorem Dict.length_put_le (key val : Int64) : ∀ d : Dict, (Dict.put key val d).length ≤ d.length + 1
  | [] => Nat.le_refl _
  | e :: es => by
    rw [Dict.put]
    by_cases he : e.1 = key
    · rw [if_pos he]
      exact Nat.le_succ _
    · rw [if_neg he]
      exact Nat.succ_le_succ (Dict.length_put_le key val es)

theorem Dict.isSome_get (d : Dict) (key : Int64) :
    (d.get key).isSome = (d.findIdx? fun e => e.1 = key).isSome := by
  rw [Dict.get, Option.isSome_map, findIdx?_isSome, Bool.eq_iff_iff, find?_isSome, any_eq_true]

theorem findIdx_key {d : Dict} {i : Nat}
    (h : d.findIdx? (fun e => e.1 = key) = some i) : ∃ e, d[i]? = some e ∧ e.1 = key := by
  obtain ⟨hlt, hkey, _⟩ := findIdx?_eq_some_iff_getElem.mp h
  exact ⟨d[i], getElem?_eq_getElem hlt, of_decide_eq_true hkey⟩

/-! ## §2. The operations. -/

section

-- no proof here depends on what the hash computes
attribute [local irreducible] tkMapHashInt

variable {hp : Heap} {m : TkMapImpl} {es : Dict} {ss : List (Option Nat)}

theorem indexed_empty (hashes : List UInt64) (n : Nat) :
    Indexed hashes 0 (List.replicate n none) := by
  have hnone : ∀ j e, ¬ Holds (replicate n none) j e := by
    intro j e h
    have hmem := mem_of_getElem? h
    cases eq_of_mem_replicate hmem
  exact ⟨fun j e h => absurd h (hnone j e), fun e he => absurd he (Nat.not_lt_zero e),
    fun j e _ h => absurd h (hnone j e)⟩

/-- **`tk_map_rehash` builds a table over all entries.** -/
theorem tkMapRehash_eq (hr : Rep hp m es ss) {n a : Nat} (hn : n = 2 ^ a) (hroom : es.length < n) :
    ∃ hp' m' ss', tkMapRehash hp m n = .ok (hp', m') ∧ ss'.length = n ∧ m'.cap = m.cap ∧
      Rep hp' m' es ss' ∧ Indexed (es.map fun e => tkMapHashInt e.1) es.length ss' ∧
      Evolves hp m hp' m' := by
  have hne := hr.slots.ne_next
  have hframe : Frame hp.slots
      (release (Blocks.alloc hp.slots (replicate n none)) m.slots) m.slots
      (some hp.slots.length) := by
    intro q xs hq hqne
    obtain ⟨hq', hfresh⟩ := frame_alloc hp.slots m.slots (replicate n none) q xs hq hqne
    exact ⟨(block_release hqne).trans hq', hfresh⟩
  have hpoints : Points (release (Blocks.alloc hp.slots (replicate n none)) m.slots)
      (some hp.slots.length) (replicate n none) n := by
    have hblock : Blocks.block (release (Blocks.alloc hp.slots (replicate n none)) m.slots)
        hp.slots.length = some (replicate n none ++ []) := by
      rw [block_release hne.symm, Blocks.block_alloc_self, append_nil]
    have hnew := Points.block hblock
    rw [length_replicate] at hnew
    exact hnew
  have hr₀ : Rep ⟨hp.maps, hp.entries, hp.hashes,
      release (Blocks.alloc hp.slots (replicate n none)) m.slots⟩
      ⟨m.entries, m.len, m.cap, n, some hp.slots.length, m.hashes⟩ es (replicate n none) :=
    ⟨hr.len, length_replicate.symm, hr.small, hr.entries, hr.hashes, hpoints⟩
  obtain ⟨hp', ss', hins, hlen, hr', hidx, hev⟩ := insertAll_eq es.length hr₀
    (length_replicate.trans hn) (indexed_empty _ n) (Nat.zero_add _)
    (by rw [length_replicate]; exact hroom)
  refine ⟨hp', ⟨m.entries, m.len, m.cap, n, some hp.slots.length, m.hashes⟩, ss', ?_, hlen.trans length_replicate,
    rfl, hr', hidx, ⟨hev.maps, hev.entries, hev.hashes, hframe.trans hev.slots⟩⟩
  rw [← hr.len, ← range_eq_range'] at hins
  simp only [tkMapRehash, hins, Except.map]

/-- Room for one more entry, or 2 ^ 30 entries and no more memory. -/
theorem ensureRoom_eq (hr : Rep hp m es ss) :
    (ensureRoom hp m = .error .noMemory ∧ 2 ^ 30 ≤ es.length) ∨
    ∃ hp' m', ensureRoom hp m = .ok (hp', m') ∧ Rep hp' m' es ss ∧ es.length < m'.cap ∧
      Evolves hp m hp' m' := by
  have hle := hr.entries.length_le
  unfold ensureRoom
  by_cases hfull : m.len ≥ m.cap
  · have hcap : es.length = m.cap := by
      have := hr.len
      omega
    rw [if_pos hfull]
    unfold growCap
    by_cases hfits : (if m.cap ≠ 0 then m.cap * 2 else minCap) ≤ intMax
    · right
      have hmore : m.cap < (if m.cap ≠ 0 then m.cap * 2 else minCap) := by
        unfold minCap
        split <;> omega
      generalize hnc : (if m.cap ≠ 0 then m.cap * 2 else minCap) = nc at hfits hmore
      have hes := hr.entries.resize hcap (Nat.le_of_lt hmore)
      have hhs := hr.hashes.resize (by rw [length_map]; exact hcap) (Nat.le_of_lt hmore)
      refine ⟨⟨hp.maps, resize hp.entries m.entries nc, resize hp.hashes m.hashes nc, hp.slots⟩,
        ⟨some hp.entries.length, m.len, nc, m.nslots, m.slots, some hp.hashes.length⟩,
        by rw [if_pos hfits]; rfl, ⟨hr.len, hr.nslots, hfits, hes.1, hhs.1, hr.slots⟩,
        ?_, ⟨rfl, hes.2, hhs.2, .refl _ _⟩⟩
      show es.length < nc
      omega
    · left
      refine ⟨by rw [if_neg hfits]; rfl, ?_⟩
      unfold minCap intMax at hfits
      split at hfits <;> omega
  · rw [if_neg hfull]
    refine .inr ⟨hp, m, rfl, hr, ?_, .refl _ _⟩
    have := hr.len
    omega

/-- A table with room for one more entry. -/
theorem ensureSlot_eq (hr : Rep hp m es ss) (hs : Sound es ss) :
    ∃ hp' m' ss', ensureSlot hp m = .ok (hp', m') ∧ m'.cap = m.cap ∧ Rep hp' m' es ss' ∧
      (∃ a, ss'.length = 2 ^ a) ∧ (es.length + 1) * 10 ≤ ss'.length * 7 ∧
      Indexed (es.map fun e => tkMapHashInt e.1) es.length ss' ∧ Evolves hp m hp' m' := by
  have hload := hs.load
  have hlen := hr.len
  have hnslots := hr.nslots
  unfold ensureSlot
  by_cases hover : (m.len + 1) * 10 > m.nslots * 7
  · -- the table doubles
    rw [if_pos hover]
    have hpow : ∃ a, (if m.nslots ≠ 0 then m.nslots * 2 else minSlots) = 2 ^ a := by
      by_cases hzero : m.nslots = 0
      · exact ⟨4, by rw [if_neg (fun h => h hzero)]; rfl⟩
      · obtain ⟨a, ha⟩ := hs.size.resolve_left (by omega)
        exact ⟨a + 1, by rw [if_pos hzero, hnslots, ha, Nat.pow_succ]⟩
    have hroom : (es.length + 1) * 10 ≤ (if m.nslots ≠ 0 then m.nslots * 2 else minSlots) * 7 := by
      unfold minSlots
      -- the load of a table of one slot is zero
      rcases Nat.lt_or_ge m.nslots 2 with hsmall | hlarge
      · split <;> omega
      · rw [if_pos (by omega)]
        omega
    obtain ⟨a, ha⟩ := hpow
    obtain ⟨hp', m', ss', hre, hn, hcap, hr', hidx, hev⟩ := tkMapRehash_eq hr ha (by omega)
    exact ⟨hp', m', ss', hre, hcap, hr', ⟨a, hn.trans ha⟩, by omega, hidx, hev⟩
  · rw [if_neg hover]
    refine ⟨hp, m, ss, rfl, rfl, hr, ?_, by omega, hs.index, .refl _ _⟩
    exact hs.size.resolve_left (by omega)

/-- The table does not look at entries behind those it indexes. -/
theorem Indexed.append {hashes : List UInt64} {k : Nat} (h : Indexed hashes k ss)
    (hk : k ≤ hashes.length) (more : List UInt64) : Indexed (hashes ++ more) k ss := by
  refine ⟨h.below, h.once, fun j e w hj hw => h.reach j e w hj ?_⟩
  have hlt : e < hashes.length := Nat.lt_of_lt_of_le (h.below j e hj) hk
  rw [List.getElem?_append_left hlt] at hw
  exact hw

theorem appendEntry_eq (hr : Rep hp m es ss) (hcap : es.length < m.cap) {a : Nat}
    (hsize : ss.length = 2 ^ a) (hload : (es.length + 1) * 10 ≤ ss.length * 7)
    (hidx : Indexed (es.map fun e => tkMapHashInt e.1) es.length ss)
    (hnodup : (es.map Prod.fst).Nodup) (key val : Int64) (hnew : key ∉ es.map Prod.fst) :
    ∃ hp' m' ss', appendEntry hp m key val (tkMapHashInt key) = .ok (hp', m') ∧
      Rep hp' m' (es ++ [(key, val)]) ss' ∧ Sound (es ++ [(key, val)]) ss' ∧
      Evolves hp m hp' m' := by
  obtain ⟨entries, hstore, hpe, hfe⟩ := hr.entries.store_push hcap (key, val)
  have hhcap : (es.map fun e => tkMapHashInt e.1).length < m.cap := by
    rw [length_map]
    exact hcap
  obtain ⟨hashes, hstoreh, hph, hfh⟩ := hr.hashes.store_push hhcap (tkMapHashInt key)
  rw [length_map] at hstoreh
  have hmap : (es ++ [(key, val)]).map (fun e => tkMapHashInt e.1) =
      es.map (fun e => tkMapHashInt e.1) ++ [tkMapHashInt key] := by rw [map_append, map_singleton]
  have hlen : (es ++ [(key, val)]).length = es.length + 1 := by rw [length_append, length_singleton]
  have hr₁ : Rep ⟨hp.maps, entries, hashes, hp.slots⟩
      ⟨m.entries, m.len + 1, m.cap, m.nslots, m.slots, m.hashes⟩ (es ++ [(key, val)]) ss :=
    ⟨by rw [hlen, hr.len], hr.nslots, hr.small, hpe, hmap ▸ hph, hr.slots⟩
  have hidx₁ : Indexed ((es ++ [(key, val)]).map fun e => tkMapHashInt e.1) es.length ss := by
    rw [hmap]
    exact hidx.append (by rw [length_map]) _
  obtain ⟨hp', ss', hins, hlen', hr', hidx', hev⟩ := tkMapSlotInsert_eq hr₁ hsize hidx₁
    (by omega) (by omega)
  refine ⟨hp', ⟨m.entries, m.len + 1, m.cap, m.nslots, m.slots, m.hashes⟩, ss', ?_, hr',
    ⟨?_, .inr ⟨a, hlen'.trans hsize⟩, by omega, hlen ▸ hidx'⟩,
    ⟨hev.maps, hfe.trans hev.entries, hfh.trans hev.hashes, hev.slots⟩⟩
  · simp only [appendEntry, hr.len, hstore, Except.bind, hstoreh]
    rw [hr.len] at hins
    rw [hins]
    rfl
  · rw [map_append]
    exact List.Nodup.append hnodup (nodup_singleton key) (by simpa using hnew)

/-- **`tk_map_put` puts into the dictionary.** -/
theorem tkMapPut_eq (hr : Rep hp m es ss) (hs : Sound es ss) (key val : Int64) :
    (tkMapPut hp m key val = .error .noMemory ∧ 2 ^ 30 ≤ es.length) ∨
    ∃ hp' m' ss', tkMapPut hp m key val = .ok (hp', m') ∧ Rep hp' m' (es.put key val) ss' ∧
      Sound (es.put key val) ss' ∧ Evolves hp m hp' m' := by
  unfold tkMapPut
  rw [tkMapFind_eq hr hs]
  cases hfind : es.findIdx? (fun e => e.1 = key) with
  | some i =>
    -- the key is there: one value changes
    obtain ⟨e, he, hkey⟩ := findIdx_key hfind
    have hlt := (List.getElem?_eq_some_iff.mp he).1
    have hsame : ∀ {β : Type} (f : Entry → β), (∀ v, f (key, v) = f e) →
        (es.set i (key, val)).map f = es.map f := by
      intro β f hf
      have hget : (es.map f)[i]? = some (f e) := by rw [getElem?_map, he, Option.map_some]
      obtain ⟨hi, hval⟩ := List.getElem?_eq_some_iff.mp hget
      rw [map_set, hf val, ← hval, set_getElem_self]
    obtain ⟨entries, hstore, hpoints, hframe⟩ := hr.entries.store_set hlt (e.1, val)
    rw [hkey] at hpoints
    rw [Dict.put_eq, hfind]
    refine .inr ⟨⟨hp.maps, entries, hp.hashes, hp.slots⟩, m, ss, ?_, ?_, ?_, ?_⟩
    · simp only [Except.bind, hr.entries.load he, hstore, Except.map]
    · refine ⟨by rw [hr.len, length_set], hr.nslots, hr.small, hpoints, ?_, hr.slots⟩
      rw [hsame (fun e => tkMapHashInt e.1) fun v => by rw [hkey]]
      exact hr.hashes
    · refine ⟨?_, hs.size, by rw [length_set]; exact hs.load, ?_⟩
      · rw [hsame Prod.fst fun v => hkey.symm]
        exact hs.keys
      · rw [hsame (fun e => tkMapHashInt e.1) (fun v => by rw [hkey]), length_set]
        exact hs.index
    · exact ⟨rfl, hframe, .refl _ _, .refl _ _⟩
  | none =>
    -- a new key: room, a slot, and the entry at the end
    have hnew : key ∉ es.map Prod.fst := by
      intro hmem
      obtain ⟨e, he, hkey⟩ := mem_map.mp hmem
      have hno := findIdx?_eq_none_iff.mp hfind e he
      exact absurd hkey (of_decide_eq_false hno)
    rw [Dict.put_eq, hfind]
    show (Except.bind (ensureRoom hp m) _ = _ ∧ _) ∨ _
    rcases ensureRoom_eq hr with ⟨hfull, hbig⟩ | ⟨hp₁, m₁, hroom, hr₁, hcap₁, hev₁⟩
    · left
      rw [hfull]
      exact ⟨rfl, hbig⟩
    · right
      obtain ⟨hp₂, m₂, ss₂, hslot, hcap₂, hr₂, ⟨a, hsize⟩, hload, hidx, hev₂⟩ :=
        ensureSlot_eq hr₁ hs
      obtain ⟨hp₃, m₃, ss₃, happ, hr₃, hs₃, hev₃⟩ :=
        appendEntry_eq hr₂ (by omega) hsize hload hidx hs.keys key val hnew
      refine ⟨hp₃, m₃, ss₃, ?_, hr₃, hs₃, (hev₁.trans hev₂).trans hev₃⟩
      simp only [Except.bind, hroom, hslot, happ]

/-- A map without entries. -/
def emptyMap : TkMapImpl := ⟨none, 0, 0, 0, none, none⟩

theorem rep_emptyMap (hp : Heap) : Rep hp emptyMap [] [] :=
  ⟨rfl, rfl, Nat.zero_le _, .null, .null, .null⟩

theorem sound_nil : Sound [] [] :=
  ⟨nodup_nil, .inl rfl, Nat.le_refl _, indexed_empty _ 0⟩

/-- The search for a table size ends, at one that keeps the load. -/
theorem cloneSlots_eq (len : Nat) : ∀ (fuel a : Nat), 2 * len ≤ 2 ^ a * (fuel + 1) →
    ∃ b, cloneSlots len (fuel + 1) (2 ^ a) = .ok (2 ^ b) ∧ len * 10 ≤ 2 ^ b * 7 := by
  intro fuel
  induction fuel with
  | zero =>
    intro a hle
    have hfits : overLoaded len (2 ^ a) = false := by
      exact decide_eq_false (by omega)
    refine ⟨a, ?_, by omega⟩
    rw [cloneSlots, hfits, if_neg Bool.false_ne_true]
  | succ fuel ih =>
    intro a hle
    rw [cloneSlots]
    by_cases hover : overLoaded len (2 ^ a)
    · rw [if_pos hover]
      refine ih (a + 1) ?_
      have hstep : 2 ^ a * (fuel + 1 + 1) ≤ 2 ^ (a + 1) * (fuel + 1) := by
        rw [Nat.pow_succ, Nat.mul_assoc]
        exact Nat.mul_le_mul_left _ (by omega)
      omega
    · rw [if_neg hover]
      refine ⟨a, rfl, ?_⟩
      have hle := not_lt.mp (fun h => hover (decide_eq_true h))
      omega

/-- **`tk_map_clone` makes a map of its own with the same entries.** -/
theorem tkMapClone_eq (hr : Rep hp m es ss) (hs : Sound es ss) :
    ∃ hp' d ss', tkMapClone hp m = .ok (hp', d) ∧ Rep hp' d es ss' ∧ Sound es ss' ∧
      Evolves hp emptyMap hp' d := by
  have hlen := hr.len
  unfold tkMapClone
  by_cases hpos : 0 < m.len
  · have hcap : es.length ≤ (if m.len > minCap then m.len else minCap) := by split <;> omega
    have hsmall : (if m.len > minCap then m.len else minCap) ≤ intMax := by
      have hle := hr.entries.length_le
      have hint := hr.small
      split
      · omega
      · unfold minCap intMax
        omega
    have hhlen : (es.map fun e => tkMapHashInt e.1).length = es.length := length_map _
    rw [if_pos hpos]
    generalize (if m.len > minCap then m.len else minCap) = cap at hcap hsmall
    have hes := hr.entries.copyBlock hcap
    have hhs := hr.hashes.copyBlock (hhlen.trans_le hcap)
    rw [hhlen] at hhs
    rw [← hlen] at hes hhs
    have hr₀ : Rep ⟨hp.maps, copyBlock hp.entries m.entries m.len cap,
        copyBlock hp.hashes m.hashes m.len cap, hp.slots⟩
        ⟨some hp.entries.length, m.len, cap, 0, none, some hp.hashes.length⟩ es [] :=
      ⟨hlen, rfl, hsmall, hes.1, hhs.1, .null⟩
    obtain ⟨b, hsize, hload⟩ := cloneSlots_eq m.len m.len 4 (by omega)
    obtain ⟨hp', d, ss', hre, hn, _, hr', hidx, hev⟩ :=
      tkMapRehash_eq hr₀ (n := 2 ^ b) rfl (by have := Nat.two_pow_pos b; omega)
    refine ⟨hp', d, ss', ?_, hr', ⟨hs.keys, .inr ⟨b, hn⟩, by omega, hidx⟩,
      ⟨hev.maps, hes.2.trans hev.entries, hhs.2.trans hev.hashes, hev.slots⟩⟩
    have hmin : minSlots = 2 ^ 4 := by decide
    rw [← hmin] at hsize
    rw [hsize]
    exact hre
  · have hnil : es = [] := length_eq_zero_iff.mp (by omega)
    subst hnil
    rw [if_neg hpos]
    exact ⟨hp, emptyMap, [], rfl, rep_emptyMap hp, sound_nil, .refl _ _⟩

theorem lookupOr_eq (hr : Rep hp m es ss) (hs : Sound es ss) (key dflt : Int64) :
    lookupOr hp m key dflt = .ok ((es.get key).getD dflt) := by
  unfold lookupOr Dict.get
  rw [tkMapFind_eq hr hs, find?_eq_bind_findIdx?_getElem?]
  cases hfind : es.findIdx? (fun e => e.1 = key) with
  | none => rfl
  | some i =>
    obtain ⟨e, he, _⟩ := findIdx_key hfind
    simp only [Except.bind, hr.entries.load he, Except.map, Option.bind_some, he,
      Option.map_some, Option.getD_some]

theorem mapM_ok {α β : Type} {f : α → Except Fault β} {g : α → β} : ∀ {xs : List α},
    (∀ x ∈ xs, f x = .ok (g x)) → xs.mapM f = .ok (xs.map g)
  | [], _ => rfl
  | x :: xs, h => by
    rw [mapM_cons, h x mem_cons_self, mapM_ok fun y hy => h y (mem_cons_of_mem x hy)]
    rfl

theorem tkMapKeys_eq (hr : Rep hp m es ss) : tkMapKeys hp m = .ok es.keys := by
  have hload : ∀ i ∈ range m.len,
      (load hp.entries m.entries i).map Prod.fst = .ok (es.keys[i]?.getD 0) := by
    intro i hi
    have hlt : i < es.length := by
      rw [← hr.len]
      exact mem_range.mp hi
    have hget := getElem?_eq_getElem hlt
    rw [hr.entries.load hget, Dict.keys, getElem?_map, hget]
    rfl
  unfold tkMapKeys
  rw [mapM_ok hload, hr.len]
  congr 1
  refine ext_getElem (by simp [Dict.keys]) fun i h₁ h₂ => ?_
  rw [getElem_map, getElem_range, getElem?_eq_getElem h₂, Option.getD_some]

end

/-! ## §3. Maps side by side on the heap. -/

/-- The blocks of `o` are not blocks of `m`. -/
structure Apart (o m : TkMapImpl) : Prop where
  entries : o.entries = none ∨ o.entries ≠ m.entries
  hashes : o.hashes = none ∨ o.hashes ≠ m.hashes
  slots : o.slots = none ∨ o.slots ≠ m.slots

theorem Apart.symm {o m : TkMapImpl} (h : Apart o m) : Apart m o := by
  have flip : ∀ {p q : Option Nat}, p = none ∨ p ≠ q → q = none ∨ q ≠ p := by
    intro p q hpq
    rcases hpq with rfl | hne
    · exact or_iff_not_imp_left.mpr id
    · exact .inr hne.symm
  exact ⟨flip h.entries, flip h.hashes, flip h.slots⟩

theorem apart_emptyMap (o : TkMapImpl) : Apart o emptyMap :=
  ⟨em _, em _, em _⟩

theorem Frame.apart {α : Type} {s s' : Blocks.Store α} {p p' o : Option Nat} {xs : List α} {n : Nat}
    (h : Frame s s' p p') (ho : Points s o xs n) (hne : o = none ∨ o ≠ p) :
    o = none ∨ o ≠ p' := by
  cases ho with
  | null => exact .inl rfl
  | @block q xs rest hb => exact .inr (h q _ hb (hne.resolve_left (by simp))).2

section

variable {hp hp' : Heap} {m m' o : TkMapImpl} {es : Dict} {ss : List (Option Nat)}

/-- What happens to one map leaves the others as they are. -/
theorem Evolves.other (h : Evolves hp m hp' m') (ho : Rep hp o es ss) (hne : Apart o m) :
    Rep hp' o es ss ∧ Apart o m' :=
  ⟨⟨ho.len, ho.nslots, ho.small, h.entries.points ho.entries hne.entries,
      h.hashes.points ho.hashes hne.hashes, h.slots.points ho.slots hne.slots⟩,
    h.entries.apart ho.entries hne.entries, h.hashes.apart ho.hashes hne.hashes,
    h.slots.apart ho.slots hne.slots⟩

/-- A map's data is in its blocks, not in the list of structs. -/
theorem Rep.with_maps (hr : Rep hp m es ss) (maps : List TkMapImpl) :
    Rep ⟨maps, hp.entries, hp.hashes, hp.slots⟩ m es ss :=
  ⟨hr.len, hr.nslots, hr.small, hr.entries, hr.hashes, hr.slots⟩

/-- The heap holds the dictionaries `ds`, each in blocks of its own. -/
structure Models (hp : Heap) (ds : List Dict) : Prop where
  length : hp.maps.length = ds.length
  each : ∀ (i : Nat) (m : TkMapImpl) (d : Dict), hp.maps[i]? = some m →
    ds[i]? = some d → ∃ ss, Rep hp m d ss ∧ Sound d ss
  apart : ∀ (i j : Nat) (m o : TkMapImpl), i ≠ j → hp.maps[i]? = some m → hp.maps[j]? = some o → Apart o m

variable {ds : List Dict}

theorem Models.get (h : Models hp ds) {i : Nat} {m : TkMapImpl}
    (hm : hp.maps[i]? = some m) : ∃ d ss, ds[i]? = some d ∧ Rep hp m d ss ∧ Sound d ss := by
  have hlt : i < ds.length := by
    rw [← h.length]
    exact (List.getElem?_eq_some_iff.mp hm).1
  obtain ⟨ss, hr, hs⟩ := h.each i m ds[i] hm (getElem?_eq_getElem hlt)
  exact ⟨ds[i], ss, getElem?_eq_getElem hlt, hr, hs⟩

/-- One map changes or is added; the others stay. -/
theorem Models.change (h : Models hp ds) {i : Nat} {maps : List TkMapImpl} {ds' : List Dict}
    (hlen : maps.length = ds'.length) (hold : ∀ j ≠ i, maps[j]? = hp.maps[j]? ∧ ds'[j]? = ds[j]?)
    (hnew : maps[i]? = some m' ∧ ds'[i]? = some es)
    (hapart : ∀ j o, j ≠ i → hp.maps[j]? = some o → Apart o m)
    (hev : Evolves hp m hp' m') (hr : Rep hp' m' es ss) (hs : Sound es ss) :
    Models ⟨maps, hp'.entries, hp'.hashes, hp'.slots⟩ ds' := by
  have hother : ∀ {j o}, j ≠ i → maps[j]? = some o →
      (∃ d ss, ds'[j]? = some d ∧ Rep hp' o d ss ∧ Sound d ss) ∧ Apart o m' := by
    intro j o hj ho
    rw [(hold j hj).1] at ho
    obtain ⟨d, ss', hd, hro, hso⟩ := h.get ho
    obtain ⟨hro', hap⟩ := hev.other hro (hapart j o hj ho)
    exact ⟨⟨d, ss', (hold j hj).2.trans hd, hro', hso⟩, hap⟩
  refine ⟨hlen, fun j o d ho hd => ?_, fun j k o o' hjk ho ho' => ?_⟩
  · by_cases hj : j = i
    · subst hj
      obtain rfl := Option.some.inj (hnew.1.symm.trans ho)
      obtain rfl := Option.some.inj (hnew.2.symm.trans hd)
      exact ⟨ss, hr.with_maps _, hs⟩
    · obtain ⟨⟨d', ss', hd', hro, hso⟩, -⟩ := hother hj ho
      obtain rfl := Option.some.inj (hd'.symm.trans hd)
      exact ⟨ss', hro.with_maps _, hso⟩
  · by_cases hj : j = i
    · subst hj
      obtain rfl := Option.some.inj (hnew.1.symm.trans ho)
      exact (hother hjk.symm ho').2
    · by_cases hk : k = i
      · subst hk
        obtain rfl := Option.some.inj (hnew.1.symm.trans ho')
        exact (hother hj ho).2.symm
      · exact h.apart j k o o' hjk ((hold j hj).1 ▸ ho) ((hold k hk).1 ▸ ho')

/-- Changing one map changes one dictionary. -/
theorem Models.set (h : Models hp ds) {i : Nat} (hm : hp.maps[i]? = some m)
    (hev : Evolves hp m hp' m') (hr : Rep hp' m' es ss) (hs : Sound es ss) :
    Models ⟨hp'.maps.set i m', hp'.entries, hp'.hashes, hp'.slots⟩ (ds.set i es) := by
  have hi := (List.getElem?_eq_some_iff.mp hm).1
  rw [hev.maps]
  refine h.change (by rw [length_set, length_set, h.length]) (fun j hj => ?_)
    ⟨getElem?_set_self hi, getElem?_set_self (h.length ▸ hi)⟩
    (fun j o hj ho => h.apart i j m o hj.symm hm ho) hev hr hs
  exact ⟨getElem?_set_ne hj.symm, getElem?_set_ne hj.symm⟩

/-- A fresh map is one more dictionary; the old ones stay. -/
theorem Models.push (h : Models hp ds) (hev : Evolves hp emptyMap hp' m') (hr : Rep hp' m' es ss)
    (hs : Sound es ss) :
    Models ⟨hp'.maps ++ [m'], hp'.entries, hp'.hashes, hp'.slots⟩ (ds ++ [es]) := by
  have hlen := h.length
  rw [hev.maps]
  refine h.change (i := hp.maps.length) (by simp [hlen]) (fun j hj => by grind)
    ⟨getElem?_concat_length, by rw [hlen]; exact getElem?_concat_length⟩
    (fun _ o _ _ => apart_emptyMap o) hev hr hs

end

/-! ## §4. Calls. -/

/-- The dictionary behind a handle; `some none` is `NULL`, `none` is no handle at all. -/
def dictAt (ds : List Dict) : Nat → Option (Option Dict)
  | 0 => some none
  | i + 1 => ds[i]?.map some

/-- Put under a handle, in place. -/
def dictPut (ds : List Dict) (h : Nat) (key val : Int64) : Option (List Dict) :=
  (dictAt ds h).map fun d =>
    match d with
    | none => ds
    | some d => ds.set (h - 1) (d.put key val)

/-- What a call means for dictionaries: `set` makes a new one. -/
def dictExec (ds : List Dict) : Call → Option (List Dict × Result)
  | .new => some (ds ++ [[]], .handle (ds.length + 1))
  | .put h key val => (dictPut ds h key val).map fun ds => (ds, .unit)
  | .setInplace h key val => (dictPut ds h key val).map fun ds => (ds, .handle h)
  | .set h key val =>
    (dictAt ds h).map fun d =>
      match d with
      | none => (ds, .handle h)
      | some d => (ds ++ [d.put key val], .handle (ds.length + 1))
  | .get h key => (dictAt ds h).map fun d => (ds, .value ((d.bind (Dict.get · key)).getD 0))
  | .getor h key dflt =>
    (dictAt ds h).map fun d => (ds, .value ((d.bind (Dict.get · key)).getD dflt))
  | .contains h key => (dictAt ds h).map fun d => (ds, .present (d.bind (Dict.get · key)).isSome)
  | .keys h => (dictAt ds h).map fun d => (ds, .list ((d.map Dict.keys).getD []))
  | .len h => (dictAt ds h).map fun d => (ds, .count ((d.map List.length).getD 0))

/-- A sequence of calls on dictionaries; `none` when a call is on no map. -/
def dictRun : List Call → List Dict → Option (List Dict × List Result)
  | [], ds => some (ds, [])
  | c :: cs, ds => (dictExec ds c).bind fun r => (dictRun cs r.1).map fun r' => (r'.1, r.2 :: r'.2)

section

variable {hp : Heap} {ds : List Dict}

variable {a : Nat} {key val : Int64} {r : Result}

/-- A handle leads to `NULL` on both sides or to a map and its dictionary. -/
theorem Models.deref (h : Models hp ds) {d : Option Dict} (ha : dictAt ds a = some d) :
    (d = none ∧ hp.deref a = .ok none) ∨
    ∃ i m d' ss, a = i + 1 ∧ d = some d' ∧ ds[i]? = some d' ∧ hp.deref a = .ok (some m) ∧
      hp.maps[i]? = some m ∧ Rep hp m d' ss ∧ Sound d' ss := by
  cases a with
  | zero =>
    injection ha with ha
    exact .inl ⟨ha.symm, rfl⟩
  | succ i =>
    obtain ⟨d', hd', rfl⟩ := Option.map_eq_some_iff.mp ha
    have hlt : i < hp.maps.length := by
      rw [h.length]
      exact (List.getElem?_eq_some_iff.mp hd').1
    have hm := getElem?_eq_getElem hlt
    obtain ⟨ss, hr, hs⟩ := h.each i _ d' hm hd'
    refine .inr ⟨i, hp.maps[i], d', ss, rfl, rfl, hd', ?_, hm, hr, hs⟩
    simp only [Heap.deref, hm]

variable {ds' : List Dict}

theorem putAt_refines (h : Models hp ds) (hput : dictPut ds a key val = some ds') :
    (putAt hp a key val = .error .noMemory ∧ ∃ d ∈ ds, 2 ^ 30 ≤ d.length) ∨
    ∃ hp', putAt hp a key val = .ok hp' ∧ Models hp' ds' := by
  obtain ⟨d, ha, hds'⟩ := Option.map_eq_some_iff.mp hput
  unfold putAt
  rcases h.deref ha with ⟨rfl, hnull⟩ | ⟨i, m, d', ss, rfl, rfl, hd', hm, hmaps, hr, hs⟩
  · rw [hnull]
    exact .inr ⟨hp, rfl, hds' ▸ h⟩
  · rw [hm]
    show (Except.map _ (tkMapPut hp m key val) = _ ∧ _) ∨ _
    rcases tkMapPut_eq hr hs key val with ⟨hfull, hbig⟩ | ⟨hp', m', ss', hok, hr', hs', hev⟩
    · rw [hfull]
      exact .inl ⟨rfl, d', mem_of_getElem? hd', hbig⟩
    · right
      refine ⟨⟨hp'.maps.set i m', hp'.entries, hp'.hashes, hp'.slots⟩, ?_, ?_⟩
      · show Except.map _ (tkMapPut hp m key val) = _
        rw [hok]
        rfl
      · rw [← hds']
        exact h.set hmaps hev hr' hs'

variable {d : Dict}

/-- `tk_map_set_w`: a clone, and a put into the clone. -/
theorem exec_set_eq {m : TkMapImpl} {ss : List (Option Nat)} (hr : Rep hp m d ss) (hs : Sound d ss)
    (hm : hp.deref a = .ok (some m)) (key val : Int64) :
    (exec hp (.set a key val) = .error .noMemory ∧ 2 ^ 30 ≤ d.length) ∨
    ∃ hp' m' ss', exec hp (.set a key val) =
        .ok (⟨hp'.maps ++ [m'], hp'.entries, hp'.hashes, hp'.slots⟩, .handle (hp'.maps.length + 1)) ∧
      Rep hp' m' (d.put key val) ss' ∧ Sound (d.put key val) ss' ∧ Evolves hp emptyMap hp' m' := by
  obtain ⟨hp₁, c, ss₁, hclone, hr₁, hs₁, hev₁⟩ := tkMapClone_eq hr hs
  rcases tkMapPut_eq hr₁ hs₁ key val with ⟨hfull, hbig⟩ | ⟨hp₂, m₂, ss₂, hok, hr₂, hs₂, hev₂⟩
  · left
    refine ⟨?_, hbig⟩
    simp only [exec, hm, Except.bind, hclone, hfull, Except.map]
  · right
    refine ⟨hp₂, m₂, ss₂, ?_, hr₂, hs₂, hev₁.trans hev₂⟩
    simp only [exec, hm, Except.bind, hclone, hok, Except.map, Heap.push]

/-- A call that only reads. -/
theorem read_refines (h : Models hp ds) {r : Option Dict → Result} {res : Result}
    (hread : (dictAt ds a).map (fun d => (ds, r d)) = some (ds', res))
    {f : Option TkMapImpl → Except Fault (Heap × Result)} (hnull : f none = .ok (hp, r none))
    (hsome : ∀ m d ss, Rep hp m d ss → Sound d ss → f (some m) = .ok (hp, r (some d))) :
    ∃ hp', (hp.deref a).bind f = .ok (hp', res) ∧ Models hp' ds' := by
  obtain ⟨d, ha, heq⟩ := Option.map_eq_some_iff.mp hread
  cases heq
  rcases h.deref ha with ⟨rfl, hm⟩ | ⟨i, m, d', ss, rfl, rfl, _, hm, _, hr, hs⟩
  · exact ⟨hp, by rw [hm]; exact hnull, h⟩
  · exact ⟨hp, by rw [hm]; exact hsome m d' ss hr hs, h⟩

/-- **One call**: the result is that of the dictionaries, and so is the heap. -/
theorem exec_refines (h : Models hp ds) {c : Call} (hc : dictExec ds c = some (ds', r)) :
    (exec hp c = .error .noMemory ∧ ∃ d ∈ ds, 2 ^ 30 ≤ d.length) ∨
    ∃ hp', exec hp c = .ok (hp', r) ∧ Models hp' ds' := by
  have hput : ∀ {a key val} {res : Result},
      (dictPut ds a key val).map (fun ds => (ds, res)) = some (ds', r) →
      ((putAt hp a key val).map (fun hp => (hp, res)) = .error .noMemory ∧
        ∃ d ∈ ds, 2 ^ 30 ≤ d.length) ∨
      ∃ hp', (putAt hp a key val).map (fun hp => (hp, res)) = .ok (hp', r) ∧ Models hp' ds' := by
    intro a key val res hc
    obtain ⟨ds₁, hput, heq⟩ := Option.map_eq_some_iff.mp hc
    cases heq
    rcases putAt_refines h hput with ⟨hfull, hbig⟩ | ⟨hp', hok, hm⟩
    · exact .inl ⟨by rw [hfull]; rfl, hbig⟩
    · exact .inr ⟨hp', by rw [hok]; rfl, hm⟩
  cases c with
  | new =>
    cases hc
    have hpush := h.push (.refl hp emptyMap) (rep_emptyMap hp) sound_nil
    refine .inr ⟨⟨hp.maps ++ [emptyMap], hp.entries, hp.hashes, hp.slots⟩, ?_, hpush⟩
    rw [← h.length]
    rfl
  | put a key val => exact hput hc
  | setInplace a key val => exact hput hc
  | set a key val =>
    obtain ⟨d, ha, heq⟩ := Option.map_eq_some_iff.mp hc
    rcases h.deref ha with ⟨rfl, hm⟩ | ⟨i, m, d', ss, rfl, rfl, hd', hm, _, hr, hs⟩
    · cases heq
      exact .inr ⟨hp, by rw [exec, hm]; rfl, h⟩
    · cases heq
      rcases exec_set_eq hr hs hm key val with ⟨hfull, hbig⟩ | ⟨hp', m', ss', hok, hr', hs', hev⟩
      · exact .inl ⟨hfull, d', mem_of_getElem? hd', hbig⟩
      · refine .inr ⟨_, ?_, h.push hev hr' hs'⟩
        rw [hok, hev.maps, h.length]
  | get a key =>
    refine .inr (read_refines h hc rfl fun m d ss hr hs => ?_)
    show Except.map _ (lookupOr hp m key 0) = _
    rw [lookupOr_eq hr hs]
    rfl
  | getor a key dflt =>
    refine .inr (read_refines h hc rfl fun m d ss hr hs => ?_)
    show Except.map _ (lookupOr hp m key dflt) = _
    rw [lookupOr_eq hr hs]
    rfl
  | contains a key =>
    refine .inr (read_refines h hc rfl fun m d ss hr hs => ?_)
    show Except.map _ (tkMapFind hp m key (tkMapHashInt key)) = _
    rw [tkMapFind_eq hr hs]
    show Except.ok (hp, Result.present _) = .ok (hp, Result.present (Dict.get d key).isSome)
    rw [Dict.isSome_get]
  | keys a =>
    refine .inr (read_refines h hc rfl fun m d ss hr _ => ?_)
    show Except.map _ (tkMapKeys hp m) = _
    rw [tkMapKeys_eq hr]
    rfl
  | len a =>
    refine .inr (read_refines h hc rfl fun m d ss hr _ => ?_)
    show Except.ok (hp, Result.count m.len) = _
    rw [hr.len]
    rfl

theorem dictAt_mem (ha : dictAt ds a = some (some d)) : d ∈ ds := by
  cases a with
  | zero => cases ha
  | succ i =>
    obtain ⟨d', hd', heq⟩ := Option.map_eq_some_iff.mp ha
    cases heq
    exact mem_of_getElem? hd'

theorem length_dictPut (hput : dictPut ds a key val = some ds') {n : Nat}
    (hn : ∀ d ∈ ds, d.length ≤ n) :
    ∀ d ∈ ds', d.length ≤ n + 1 := by
  obtain ⟨d, ha, rfl⟩ := Option.map_eq_some_iff.mp hput
  cases d with
  | none => exact fun d hd => Nat.le_succ_of_le (hn d hd)
  | some d =>
    intro d' hd'
    rcases mem_or_eq_of_mem_set hd' with hold | rfl
    · exact Nat.le_succ_of_le (hn d' hold)
    · have hmem := dictAt_mem ha
      exact Nat.le_trans (Dict.length_put_le key val d) (Nat.succ_le_succ (hn d hmem))

/-- A call adds at most one entry to a dictionary. -/
theorem length_dictExec {c : Call} (hc : dictExec ds c = some (ds', r)) {n : Nat}
    (hn : ∀ d ∈ ds, d.length ≤ n) :
    ∀ d ∈ ds', d.length ≤ n + 1 := by
  have hsame : ∀ d ∈ ds, d.length ≤ n + 1 := fun d hd => Nat.le_succ_of_le (hn d hd)
  have hread : ∀ {a : Nat} {f : Option Dict → Result},
      (dictAt ds a).map (fun d => (ds, f d)) = some (ds', r) → ds = ds' := by
    intro a f h
    obtain ⟨_, _, heq⟩ := Option.map_eq_some_iff.mp h
    exact congrArg Prod.fst heq
  have happend : ∀ {e : Dict}, e.length ≤ n + 1 → ∀ d ∈ ds ++ [e], d.length ≤ n + 1 := by
    intro e he d hd
    rcases mem_append.mp hd with hold | hnew
    · exact hsame d hold
    · rw [mem_singleton.mp hnew]
      exact he
  cases c with
  | new =>
    cases hc
    exact happend (Nat.zero_le _)
  | put a key val | setInplace a key val =>
    obtain ⟨ds₁, hput, heq⟩ := Option.map_eq_some_iff.mp hc
    cases heq
    exact length_dictPut hput hn
  | set a key val =>
    obtain ⟨d, ha, heq⟩ := Option.map_eq_some_iff.mp hc
    cases d with
    | none =>
      cases heq
      exact hsame
    | some d =>
      cases heq
      exact happend (Nat.le_trans (Dict.length_put_le key val d)
        (Nat.succ_le_succ (hn d (dictAt_mem ha))))
  | get a key => exact hread hc ▸ hsame
  | getor a key dflt => exact hread hc ▸ hsame
  | contains a key => exact hread hc ▸ hsame
  | keys a => exact hread hc ▸ hsame
  | len a => exact hread hc ▸ hsame

theorem run_models : ∀ (cs : List Call) {hp : Heap} {ds ds' : List Dict} {rs : List Result}
    {n : Nat}, Models hp ds → (∀ d ∈ ds, d.length ≤ n) → dictRun cs ds = some (ds', rs) →
    (run cs hp = .error .noMemory ∧ 2 ^ 30 ≤ n + cs.length) ∨
    ∃ hp', run cs hp = .ok (hp', rs) ∧ Models hp' ds'
  | [], hp, ds, ds', rs, n, h, _, hrun => by
    cases hrun
    exact .inr ⟨hp, rfl, h⟩
  | c :: cs, hp, ds, ds', rs, n, h, hn, hrun => by
    obtain ⟨⟨ds₁, r⟩, hc, hrest⟩ := Option.bind_eq_some_iff.mp hrun
    obtain ⟨⟨ds₂, rs₂⟩, hcs, heq⟩ := Option.map_eq_some_iff.mp hrest
    cases heq
    rw [length_cons]
    unfold run
    rcases exec_refines h hc with ⟨hfull, d, hd, hbig⟩ | ⟨hp₁, hok, h₁⟩
    · have hle := hn d hd
      rw [hfull]
      exact .inl ⟨rfl, by omega⟩
    · rw [hok]
      show (Except.map _ (run cs hp₁) = _ ∧ _) ∨ ∃ hp', Except.map _ (run cs hp₁) = _ ∧ _
      rcases run_models cs h₁ (length_dictExec hc hn) hcs with ⟨hfull, hbig⟩ | ⟨hp₂, hok₂, h₂⟩
      · rw [hfull]
        exact .inl ⟨rfl, by omega⟩
      · rw [hok₂]
        exact .inr ⟨hp₂, rfl, h₂⟩

theorem models_empty : Models Heap.empty [] :=
  ⟨rfl, fun _ _ _ h => by simp [Heap.empty] at h, fun _ _ _ _ _ h => by simp [Heap.empty] at h⟩

/-- `set` leaves every map that was there as it was. -/
theorem set_keeps (h : Models hp ds) {hp' : Heap} (hset : exec hp (.set a key val) = .ok (hp', r))
    {i : Nat} {m : TkMapImpl} {ss : List (Option Nat)} (hm : hp.maps[i]? = some m)
    (hr : Rep hp m d ss) :
    hp'.maps[i]? = some m ∧ Rep hp' m d ss := by
  cases hat : dictAt ds a with
  | none =>
    -- no such map: the call does not return
    have hwild : hp.deref a = .error .wild := by
      cases a with
      | zero => cases hat
      | succ j =>
        have hnone : hp.maps[j]? = none := by
          rw [getElem?_eq_none_iff, h.length]
          exact getElem?_eq_none_iff.mp (Option.map_eq_none_iff.mp hat)
        simp only [Heap.deref, hnone]
    rw [exec, hwild] at hset
    cases hset
  | some d₀ =>
    rcases h.deref hat with ⟨rfl, hnull⟩ | ⟨j, o, d', ss', rfl, rfl, _, ho, _, hro, hso⟩
    · rw [exec, hnull] at hset
      cases hset
      exact ⟨hm, hr⟩
    · rcases exec_set_eq hro hso ho key val with ⟨hfull, _⟩ | ⟨hp₁, m₁, ss₁, hok, _, _, hev⟩
      · rw [hfull] at hset
        cases hset
      · rw [hok] at hset
        cases hset
        have hold := (hev.other hr (apart_emptyMap m)).1
        refine ⟨?_, hold.with_maps _⟩
        show (hp₁.maps ++ [m₁])[i]? = some m
        rw [hev.maps, List.getElem?_append_left (List.getElem?_eq_some_iff.mp hm).1]
        exact hm

/-- **The runtime's maps are insertion-ordered dictionaries.**  A sequence of
calls on maps returns what the association lists return.  In the state it
reaches each struct holds its list behind a table of size zero or a power of
two, with a free slot, in which each entry stands in exactly one slot,
reachable from its hash; and a `set` from there changes no map.  Memory runs
out only beyond 2 ^ 30 calls. -/
theorem run_refines (cs : List Call) {ds : List Dict} {rs : List Result}
    (hcalls : dictRun cs [] = some (ds, rs)) :
    (run cs Heap.empty = .error .noMemory ∧ 2 ^ 30 ≤ cs.length) ∨
    ∃ hp, run cs Heap.empty = .ok (hp, rs) ∧ hp.maps.length = ds.length ∧
      (∀ (i : Nat) (m : TkMapImpl) (d : Dict), hp.maps[i]? = some m → ds[i]? = some d →
        ∃ ss, Rep hp m d ss ∧ Sound d ss ∧
          (0 < ss.length → ∃ j < ss.length, occupied ss j = false)) ∧
      ∀ (a : Nat) (key val : Int64) (hp' : Heap) (r : Result),
        exec hp (.set a key val) = .ok (hp', r) →
        ∀ (i : Nat) (m : TkMapImpl) (d : Dict) (ss : List (Option Nat)), hp.maps[i]? = some m →
          Rep hp m d ss → hp'.maps[i]? = some m ∧ Rep hp' m d ss := by
  have hnone : ∀ d ∈ ([] : List Dict), d.length ≤ 0 := fun d hd => absurd hd not_mem_nil
  rcases run_models cs models_empty hnone hcalls with ⟨hfull, hbig⟩ | ⟨hp, hok, h⟩
  · exact .inl ⟨hfull, by omega⟩
  · refine .inr ⟨hp, hok, h.length, fun i m d hm hd => ?_, ?_⟩
    · obtain ⟨ss, hr, hs⟩ := h.each i m d hm hd
      refine ⟨ss, hr, hs, fun hpos => hs.index.exists_free ?_⟩
      have hload := hs.load
      omega
    · intro a key val hp' r hset i m d ss hm hr
      exact set_keeps h hset hm hr

/-- Two maps, the second a `set` of the first. -/
def sampleCalls : List Call :=
  [.new, .put 1 5 50, .put 1 3 30, .set 1 7 70, .setInplace 2 5 51, .keys 2, .get 1 5, .get 2 5,
    .getor 1 7 (-1), .contains 2 7, .len 1]

theorem run_refines_sample :
    dictRun sampleCalls [] = some ([[(5, 50), (3, 30)], [(5, 51), (3, 30), (7, 70)]],
      [.handle 1, .unit, .unit, .handle 2, .handle 2, .list [5, 3, 7], .value 50, .value 51,
        .value (-1), .present true, .count 2]) ∧
    ∃ hp, run sampleCalls Heap.empty = .ok (hp, [.handle 1, .unit, .unit, .handle 2, .handle 2,
      .list [5, 3, 7], .value 50, .value 51, .value (-1), .present true, .count 2]) := by
  refine (and_iff_left_of_imp fun hcalls => ?_).mpr (by decide)
  rcases run_refines sampleCalls hcalls with ⟨_, hbig⟩ | ⟨hp, hok, _⟩
  · exact absurd hbig (by decide)
  · exact ⟨hp, hok⟩

end

end Toke.Runtime
