/-
  Toke.Runtime.MapTable — **WHAT A MAP STRUCT MEANS**, and that its table is kept.

  `Rep hp m es ss` says that the struct `m` holds the entries `es` and the
  slots `ss`; `Sound es ss` is the invariant of the table: its size is zero or
  a power of two, the load is at most 7/10, each entry stands in exactly one
  slot and is reachable from its hash.
-/
import Toke.Runtime.Map
import Toke.Library.Probing

namespace Toke.Runtime

open List

variable {i j e a : Nat}

/-! ## §1. Pointers and frames. -/

section

variable {α : Type} {s : Blocks.Store α} {p : Option Nat} {xs : List α} {n : Nat}

/-- The pointer leads to a block of `n` elements that starts with `xs`. -/
inductive Points (s : Blocks.Store α) : Option Nat → List α → Nat → Prop where
  | null : Points s none [] 0
  | block {q : Nat} {xs rest : List α} (h : Blocks.block s q = some (xs ++ rest)) :
      Points s (some q) xs (xs.length + rest.length)

theorem Points.length_le (h : Points s p xs n) : xs.length ≤ n := by
  cases h with
  | null => exact Nat.le_refl _
  | block _ => omega

/-- A live pointer is not the next one that is handed out. -/
theorem Points.ne_next (h : Points s p xs n) : p ≠ some s.length := by
  cases h with
  | null => exact fun h => by cases h
  | block hb =>
    intro h
    injection h with h
    exact absurd (h ▸ Blocks.lt_of_block hb) (Nat.lt_irrefl _)

theorem Points.load (h : Points s p xs n) {x : α} (hi : xs[i]? = some x) :
    load s p i = .ok x := by
  cases h with
  | null => cases hi
  | @block q xs rest hb =>
    unfold Runtime.load
    rw [Option.bind_some, Blocks.read_eq hb,
      List.getElem?_append_left (List.getElem?_eq_some_iff.mp hi).1, hi]

theorem Points.contents (h : Points s p xs n) (hfull : xs.length = n) : contents s p = xs := by
  cases h with
  | null => rfl
  | @block q xs rest hb =>
    have hrest : rest = [] := length_eq_zero_iff.mp (by omega)
    unfold Runtime.contents
    rw [Option.bind_some, hb, hrest, append_nil]
    rfl

/-- Everything that was live stays as it is, apart from the block behind `p`,
and the new pointer `p'` leads to none of it. -/
def Frame (s s' : Blocks.Store α) (p p' : Option Nat) : Prop :=
  ∀ q xs, Blocks.block s q = some xs → some q ≠ p → Blocks.block s' q = some xs ∧ some q ≠ p'

theorem Frame.refl (s : Blocks.Store α) (p : Option Nat) : Frame s s p p :=
  fun _ _ h hne => ⟨h, hne⟩

theorem Frame.trans {s s' s'' : Blocks.Store α} {p p' p'' : Option Nat} (h : Frame s s' p p')
    (h' : Frame s' s'' p' p'') : Frame s s'' p p'' := by
  intro q xs hq hne
  obtain ⟨hq', hne'⟩ := h q xs hq hne
  exact h' q xs hq' hne'

theorem Frame.points {s' : Blocks.Store α} {p' o : Option Nat} (h : Frame s s' p p')
    (ho : Points s o xs n) (hne : o = none ∨ o ≠ p) : Points s' o xs n := by
  cases ho with
  | null => exact .null
  | @block q xs rest hb =>
    have hq : some q ≠ p := by
      rcases hne with hne | hne
      · cases hne
      · exact hne
    exact .block (h q _ hb hq).1

/-- A write into a block changes nothing else. -/
theorem store_block {q : Nat} {xs ys rest : List α} {x : α} (hb : Blocks.block s q = some ys)
    (hi : i < ys.length) (hset : ys.set i x = xs ++ rest) (hn : xs.length + rest.length = n) :
    ∃ s', store s (some q) i x = .ok s' ∧ Points s' (some q) xs n ∧
      Frame s s' (some q) (some q) := by
  refine ⟨s.set q (some (xs ++ rest)), ?_, ?_, ?_⟩
  · unfold store
    rw [Option.bind_some, Blocks.write_eq hb hi, hset]
  · exact hn ▸ .block (Blocks.block_set_self hb _)
  · intro r zs hr hne
    have hqr : r ≠ q := fun h => hne (by rw [h])
    exact ⟨by rw [Blocks.block_set_ne hqr]; exact hr, hne⟩

/-- Overwriting an element. -/
theorem Points.store_set (h : Points s p xs n) (hi : i < xs.length) (x : α) :
    ∃ s', store s p i x = .ok s' ∧ Points s' p (xs.set i x) n ∧ Frame s s' p p := by
  cases h with
  | null => simp at hi
  | @block q xs rest hb =>
    have hlt : i < (xs ++ rest).length := by
      rw [length_append]
      omega
    exact store_block hb hlt (set_append_left i x hi) (by rw [length_set])

/-- Writing the first element behind `xs`. -/
theorem Points.store_push (h : Points s p xs n) (hlt : xs.length < n) (x : α) :
    ∃ s', store s p xs.length x = .ok s' ∧ Points s' p (xs ++ [x]) n ∧ Frame s s' p p := by
  cases h with
  | null => simp at hlt
  | @block q xs rest hb =>
    obtain ⟨y, rest, rfl⟩ := exists_cons_of_length_pos (by omega : 0 < rest.length)
    have hlen : xs.length < (xs ++ y :: rest).length := by
      rw [length_append]
      omega
    have hset : (xs ++ y :: rest).set xs.length x = xs ++ [x] ++ rest := by
      rw [set_append_right _ _ (Nat.le_refl _), Nat.sub_self, append_assoc]
      rfl
    refine store_block hb hlen hset ?_
    rw [length_append, length_singleton, length_cons]
    omega

theorem length_release (s : Blocks.Store α) (p : Option Nat) : (release s p).length = s.length := by
  cases p with
  | none => rfl
  | some q => exact Blocks.length_free s q

/-- A new block behind the old ones. -/
theorem frame_alloc (s : Blocks.Store α) (p : Option Nat) (ys : List α) :
    Frame s (Blocks.alloc s ys) p (some s.length) := by
  intro q xs hq _
  refine ⟨Blocks.block_alloc hq ys, fun h => ?_⟩
  have hlt := Blocks.lt_of_block hq
  injection h with h
  omega

theorem block_release {q : Nat} (hne : some q ≠ p) :
    Blocks.block (release s p) q = Blocks.block s q := by
  cases p with
  | none => rfl
  | some r => exact Blocks.block_free_ne (fun h => hne (by rw [h]))

/-- The elements in a fresh block with room behind them. -/
theorem points_alloc [Inhabited α] (s : Blocks.Store α) {n' : Nat} (hn : xs.length ≤ n') :
    Points (Blocks.alloc s (xs ++ replicate (n' - xs.length) default)) (some s.length) xs n' := by
  have hnew : Points (Blocks.alloc s (xs ++ replicate (n' - xs.length) default))
      (some s.length) xs (xs.length + (replicate (n' - xs.length) default).length) :=
    .block (Blocks.block_alloc_self _ _)
  rwa [length_replicate, Nat.add_sub_cancel' hn] at hnew

/-- `realloc` moves the elements to a fresh block. -/
theorem Points.resize [Inhabited α] (h : Points s p xs n) (hfull : xs.length = n) {n' : Nat}
    (hn : n ≤ n') : Points (resize s p n') (some s.length) xs n' ∧
      Frame s (resize s p n') p (some s.length) := by
  unfold Runtime.resize
  rw [h.contents hfull]
  refine ⟨length_release s p ▸ points_alloc _ (by omega), fun q ys hq hne => ?_⟩
  exact ⟨Blocks.block_alloc ((block_release hne).trans hq) _, (frame_alloc s p [] q ys hq hne).2⟩

/-- `malloc` and `memcpy` leave the original alone. -/
theorem Points.copyBlock [Inhabited α] (h : Points s p xs n) {n' : Nat} (hn : xs.length ≤ n') :
    Points (copyBlock s p xs.length n') (some s.length) xs n' ∧
      Frame s (copyBlock s p xs.length n') none (some s.length) := by
  have htake : (Runtime.contents s p).take xs.length = xs := by
    cases h with
    | null => rfl
    | @block q xs rest hb =>
      unfold Runtime.contents
      rw [Option.bind_some, hb, Option.getD_some, take_left]
  unfold Runtime.copyBlock
  rw [htake]
  exact ⟨points_alloc s hn, frame_alloc s none _⟩

end

/-! ## §2. The invariant. -/

/-- The slot holds an entry. -/
def occupied (ss : List (Option Nat)) (j : Nat) : Bool := (ss[j]?.getD none).isSome

/-- The slot holds entry `e`. -/
def Holds (ss : List (Option Nat)) (j e : Nat) : Prop := ss[j]? = some (some e)

theorem Holds.occupied {ss : List (Option Nat)} (h : Holds ss j e) :
    occupied ss j := by
  unfold Runtime.occupied
  rw [h]
  rfl

/-- The slot where the search for a key with hash `h` begins. -/
def home (ss : List (Option Nat)) (h : UInt64) : Nat := h.toNat % ss.length

/-- The slots index the first `k` entries, whose hashes are given. -/
structure Indexed (hashes : List UInt64) (k : Nat) (ss : List (Option Nat)) : Prop where
  below : ∀ j e, Holds ss j e → e < k
  once : ∀ e < k, ∃! j, Holds ss j e
  reach : ∀ j e h, Holds ss j e → hashes[e]? = some h →
    Probing.Clear ss.length (occupied ss) (home ss h) j

/-- **The invariant of a map**: entries with distinct keys, and a table over them. -/
structure Sound (es : List Entry) (ss : List (Option Nat)) : Prop where
  keys : (es.map Prod.fst).Nodup
  size : ss.length = 0 ∨ ∃ a, ss.length = 2 ^ a
  load : es.length * 10 ≤ ss.length * 7
  index : Indexed (es.map fun e => tkMapHashInt e.1) es.length ss

/-- The struct `m` holds the entries `es` and the slots `ss`. -/
structure Rep (hp : Heap) (m : TkMapImpl) (es : List Entry) (ss : List (Option Nat)) : Prop where
  len : m.len = es.length
  nslots : m.nslots = ss.length
  small : m.cap ≤ intMax
  entries : Points hp.entries m.entries es m.cap
  hashes : Points hp.hashes m.hashes (es.map fun e => tkMapHashInt e.1) m.cap
  slots : Points hp.slots m.slots ss m.nslots

/-- The structs of the heap and all blocks but those of `m` stay; the blocks of
`m'` are those of `m` or fresh. -/
structure Evolves (hp : Heap) (m : TkMapImpl) (hp' : Heap) (m' : TkMapImpl) : Prop where
  maps : hp'.maps = hp.maps
  entries : Frame hp.entries hp'.entries m.entries m'.entries
  hashes : Frame hp.hashes hp'.hashes m.hashes m'.hashes
  slots : Frame hp.slots hp'.slots m.slots m'.slots

theorem Evolves.refl (hp : Heap) (m : TkMapImpl) : Evolves hp m hp m :=
  ⟨rfl, .refl _ _, .refl _ _, .refl _ _⟩

theorem Evolves.trans {hp hp' hp'' : Heap} {m m' m'' : TkMapImpl} (h : Evolves hp m hp' m')
    (h' : Evolves hp' m' hp'' m'') : Evolves hp m hp'' m'' :=
  ⟨h'.maps.trans h.maps, h.entries.trans h'.entries, h.hashes.trans h'.hashes,
    h.slots.trans h'.slots⟩

/-! ## §3. Searching. -/

section

-- no proof here depends on what the hash computes
attribute [local irreducible] tkMapHashInt

variable {hashes : List UInt64} {k : Nat} {ss : List (Option Nat)}

/-- Fewer entries than slots leave a slot free. -/
theorem Indexed.exists_free (h : Indexed hashes k ss) (hlt : k < ss.length) :
    ∃ j < ss.length, occupied ss j = false := by
  by_contra hfull
  push Not at hfull
  -- otherwise the entries of the slots are `ss.length` different numbers below `k`
  have hheld : ∀ j : Fin ss.length, ∃ e : Fin k, Holds ss j e := by
    intro j
    have hocc := hfull j j.isLt
    unfold occupied at hocc
    rw [getElem?_eq_getElem j.isLt] at hocc
    cases hj : ss[j.val] with
    | none => rw [hj] at hocc; exact absurd rfl hocc
    | some e =>
      have hh : Holds ss j e := by
        unfold Holds
        rw [getElem?_eq_getElem j.isLt, hj]
      exact ⟨⟨e, h.below _ _ hh⟩, hh⟩
  choose entry hentry using hheld
  have hinj : Function.Injective entry := by
    intro i j hij
    have hj := hentry j
    rw [← hij] at hj
    exact Fin.ext ((h.once _ (entry i).isLt).unique (hentry i) hj)
  have hcard := Fintype.card_le_of_injective entry hinj
  rw [Fintype.card_fin, Fintype.card_fin] at hcard
  omega

theorem and_mask {n : Nat} (hn : n = 2 ^ a) (x : Nat) : x &&& (n - 1) = x % n := by
  rw [hn, Nat.and_two_pow_sub_one_eq_mod]

/-- What `tk_map_find` compares a slot against. -/
def hits (es : List Entry) (ss : List (Option Nat)) (key : Int64) (j : Nat) : Bool :=
  match ss[j]?.getD none with
  | none => false
  | some e => (es[e]?.map Prod.fst) == some key

variable {hp : Heap} {m : TkMapImpl} {es : List Entry}

theorem findLoop_free (hr : Rep hp m es ss) (hi : ss[i]? = some none) (key : Int64)
    (h : UInt64) (fuel : Nat) : findLoop hp m key h (fuel + 1) i = .ok none := by
  simp only [findLoop, hr.slots.load hi, Except.bind]

/-- Equal keys have equal hashes, so that the comparison of the hashes before
the comparison of the keys changes nothing. -/
theorem findLoop_held (hr : Rep hp m es ss) (hi : Holds ss i e) {entry : Entry}
    (he : es[e]? = some entry) (hsize : ss.length = 2 ^ a) (key : Int64) (fuel : Nat) :
    findLoop hp m key (tkMapHashInt key) (fuel + 1) i = if entry.1 = key then .ok (some e)
      else findLoop hp m key (tkMapHashInt key) fuel ((i + 1) % ss.length) := by
  have hhash : load hp.hashes m.hashes e = .ok (tkMapHashInt entry.1) := by
    refine hr.hashes.load ?_
    rw [getElem?_map, he, Option.map_some]
  have hnext : (i + 1) &&& (m.nslots - 1) = (i + 1) % ss.length := by
    rw [hr.nslots]
    exact and_mask hsize _
  simp only [findLoop, hr.slots.load hi, Except.bind, hhash, hr.entries.load he, hnext]
  by_cases hkey : entry.1 = key
  · rw [hkey, if_pos rfl]
  · rw [if_neg hkey]
    exact ite_self _

theorem slot_cases (hi : i < ss.length) : ss[i]? = some none ∨ ∃ e, Holds ss i e := by
  unfold Holds
  rw [getElem?_eq_getElem hi]
  cases ss[i] with
  | none => exact .inl rfl
  | some e => exact .inr ⟨e, rfl⟩

theorem hits_of_holds (h : Holds ss j e) (key : Int64) :
    hits es ss key j = (es[e]?.map Prod.fst == some key) := by
  unfold hits
  rw [h, Option.getD_some]

theorem hits_elim {key : Int64} (h : hits es ss key j) :
    ∃ e entry, Holds ss j e ∧ es[e]? = some entry ∧ entry.1 = key := by
  cases hj : ss[j]? with
  | none => simp [hits, hj] at h
  | some slot =>
    cases slot with
    | none => simp [hits, hj] at h
    | some e =>
      rw [hits_of_holds hj, beq_iff_eq, Option.map_eq_some_iff] at h
      obtain ⟨entry, hentry, hkey⟩ := h
      exact ⟨e, entry, hj, hentry, hkey⟩

/-- The loop of `tk_map_find` is a search for the key or an empty slot. -/
theorem findLoop_eq (hr : Rep hp m es ss) (hbelow : ∀ j e, Holds ss j e → e < es.length)
    (hsize : ss.length = 2 ^ a) (key : Int64) : ∀ {fuel i : Nat},
    i < ss.length →
    Probing.probe ss.length (fun j => !occupied ss j || hits es ss key j) fuel i = some j →
      findLoop hp m key (tkMapHashInt key) fuel i = .ok (ss[j]?.getD none) := by
  intro fuel
  induction fuel with
  | zero => intro i _ h; cases h
  | succ fuel ih =>
    intro i hi h
    rcases slot_cases hi with hfree | ⟨e, hheld⟩
    · rw [Probing.probe_stop (by simp [occupied, hfree])] at h
      cases h
      rw [findLoop_free hr hfree, hfree, Option.getD_some]
    · have hlt := hbelow i e hheld
      have hentry := getElem?_eq_getElem hlt
      rw [findLoop_held hr hheld hentry hsize]
      by_cases hkey : es[e].1 = key
      · rw [Probing.probe_stop (by simp [hits_of_holds hheld, hentry, hkey])] at h
        cases h
        rw [if_pos hkey, hheld, Option.getD_some]
      · rw [Probing.probe_next (by simp [hheld.occupied, hits_of_holds hheld, hentry, hkey])] at h
        rw [if_neg hkey]
        exact ih (Nat.mod_lt _ (by omega)) h

/-- **`tk_map_find` finds the entry of the key**, and ends. -/
theorem tkMapFind_eq (hr : Rep hp m es ss) (hs : Sound es ss) (key : Int64) :
    tkMapFind hp m key (tkMapHashInt key) = .ok (es.findIdx? fun e => e.1 = key) := by
  unfold tkMapFind
  rcases hs.size with hzero | ⟨a, hsize⟩
  · -- no table yet: no entries either
    have hempty : es = [] := length_eq_zero_iff.mp (by have := hs.load; omega)
    rw [if_pos (hr.nslots.trans hzero), hempty, findIdx?_nil]
  have hpos : 0 < ss.length := hsize ▸ Nat.two_pow_pos a
  have hmask : (tkMapHashInt key).toNat &&& (m.nslots - 1) = home ss (tkMapHashInt key) := by
    rw [hr.nslots]
    exact and_mask hsize _
  have hhome : home ss (tkMapHashInt key) < ss.length := Nat.mod_lt _ hpos
  rw [if_neg (by rw [hr.nslots]; omega), hmask, hr.nslots]
  by_cases hmem : ∃ (e : Nat) (entry : Entry), es[e]? = some entry ∧ entry.1 = key
  · -- the key is there: its slot is reachable and no other slot matches
    obtain ⟨e, entry, hentry, hkey⟩ := hmem
    have hlt := (List.getElem?_eq_some_iff.mp hentry).1
    have honly : ∀ e' entry', es[e']? = some entry' → entry'.1 = key → e' = e := by
      intro e' entry' hentry' hkey'
      have hlt' : e' < (es.map Prod.fst).length := by
        rw [length_map]
        exact (List.getElem?_eq_some_iff.mp hentry').1
      refine (getElem?_inj hlt' hs.keys).mp ?_
      rw [getElem?_map, getElem?_map, hentry, hentry', Option.map_some, Option.map_some,
        hkey, hkey']
    obtain ⟨j, hj, huniq⟩ := hs.index.once e hlt
    have hreach := hs.index.reach j e (tkMapHashInt key) hj
      (by rw [getElem?_map, hentry, Option.map_some, hkey])
    have hhit : hits es ss key j := by
      rw [hits_of_holds hj, hentry, Option.map_some, hkey, beq_self_eq_true]
    have hother : ∀ i, hits es ss key i → i = j := by
      intro i hi
      obtain ⟨e', entry', hheld, hentry', hkey'⟩ := hits_elim hi
      rw [honly e' entry' hentry' hkey'] at hheld
      exact huniq i hheld
    have hprobe := Probing.probe_hit hhome hreach hhit hother
    rw [findLoop_eq hr hs.index.below hsize key hhome hprobe, hj, Option.getD_some]
    congr 1
    symm
    rw [findIdx?_eq_some_iff_getElem]
    refine ⟨hlt, ?_, fun i hi => ?_⟩
    · rw [(List.getElem?_eq_some_iff.mp hentry).2]
      exact decide_eq_true hkey
    · intro hyes
      have hsame := honly i _ (getElem?_eq_getElem (by omega)) (of_decide_eq_true hyes)
      omega
  · -- the key is not there: the search stops at a free slot
    have hno : ∀ i, hits es ss key i = false := by
      intro i
      by_contra hi
      obtain ⟨e, entry, _, hentry, hkey⟩ := hits_elim (Bool.not_eq_false _ ▸ hi)
      exact hmem ⟨e, entry, hentry, hkey⟩
    obtain ⟨j, hj, hfree⟩ := hs.index.exists_free (by have := hs.load; omega)
    obtain ⟨i, hprobe, hend⟩ := Probing.probe_miss hhome hj hfree hno
    rw [findLoop_eq hr hs.index.below hsize key hhome hprobe]
    have hnone : ss[i]?.getD none = none := by simpa [occupied] using hend
    rw [hnone]
    congr 1
    symm
    rw [findIdx?_eq_none_iff]
    intro entry hentry
    obtain ⟨e, he⟩ := mem_iff_getElem?.mp hentry
    exact decide_eq_false fun hkey => hmem ⟨e, entry, he, hkey⟩

/-! ## §4. Inserting into the slots. -/

/-- The loop of `tk_map_slot_insert` is a search for a free slot. -/
theorem freeLoop_eq {slots : Blocks.Store (Option Nat)} (hp : Points slots m.slots ss m.nslots)
    (hn : m.nslots = ss.length) (hsize : ss.length = 2 ^ a) :
    ∀ {fuel i : Nat}, i < ss.length →
    Probing.probe ss.length (fun j => !occupied ss j) fuel i = some j →
      freeLoop slots m fuel i = .ok j := by
  intro fuel
  induction fuel with
  | zero => intro i _ h; cases h
  | succ fuel ih =>
    intro i hi h
    have hnext : (i + 1) &&& (m.nslots - 1) = (i + 1) % ss.length := by
      rw [hn]
      exact and_mask hsize _
    rcases slot_cases hi with hfree | ⟨e, hheld⟩
    · rw [Probing.probe_stop (by simp [occupied, hfree])] at h
      cases h
      simp only [freeLoop, hp.load hfree, Except.bind]
    · rw [Probing.probe_next (by simp [hheld.occupied])] at h
      simp only [freeLoop, hp.load hheld, hnext]
      exact ih (Nat.mod_lt _ (by omega)) h

theorem holds_set {e' : Nat} (hfree : occupied ss j = false) (hj : j < ss.length) :
    Holds (ss.set j (some e)) i e' ↔ (i = j ∧ e' = e) ∨ Holds ss i e' := by
  unfold Holds
  by_cases hij : i = j
  · subst hij
    rw [getElem?_set_self hj]
    constructor
    · intro h
      injection h with h
      injection h with h
      exact .inl ⟨rfl, h.symm⟩
    · rintro (⟨_, rfl⟩ | hheld)
      · rfl
      · have hocc : occupied ss i := Holds.occupied hheld
        rw [hfree] at hocc
        cases hocc
  · rw [getElem?_set_ne (fun h => hij h.symm)]
    exact ⟨.inr, fun h => h.resolve_left fun h => hij h.1⟩

theorem occupied_set (hj : j < ss.length) (h : occupied ss i) :
    occupied (ss.set j (some e)) i := by
  unfold occupied
  by_cases hij : j = i
  · subst hij
    rw [getElem?_set_self hj]
    rfl
  · rw [getElem?_set_ne hij]
    exact h

/-- A reachable free slot may take the next entry. -/
theorem Indexed.set (h : Indexed hashes k ss) (hj : j < ss.length)
    (hfree : occupied ss j = false) {w : UInt64} (hw : hashes[k]? = some w)
    (hreach : Probing.Clear ss.length (occupied ss) (home ss w) j) :
    Indexed hashes (k + 1) (ss.set j (some k)) where
  below := by
    intro i e hi
    rcases (holds_set hfree hj).mp hi with ⟨_, rfl⟩ | hold
    · exact Nat.lt_succ_self _
    · exact Nat.lt_succ_of_lt (h.below i e hold)
  once := by
    intro e he
    rcases Nat.lt_succ_iff_lt_or_eq.mp he with hlt | rfl
    · obtain ⟨i, hi, huniq⟩ := h.once e hlt
      refine ⟨i, (holds_set hfree hj).mpr (.inr hi), fun i' hi' => ?_⟩
      rcases (holds_set hfree hj).mp hi' with ⟨_, rfl⟩ | hold
      · exact absurd hlt (Nat.lt_irrefl _)
      · exact huniq i' hold
    · refine ⟨j, (holds_set hfree hj).mpr (.inl ⟨rfl, rfl⟩), fun i' hi' => ?_⟩
      rcases (holds_set hfree hj).mp hi' with ⟨rfl, _⟩ | hold
      · rfl
      · exact absurd (h.below i' _ hold) (Nat.lt_irrefl _)
  reach := by
    intro i e u hi hu
    have hmono : ∀ {i'}, Probing.Clear ss.length (occupied ss) (home ss u) i' →
        Probing.Clear (ss.set j (some k)).length (occupied (ss.set j (some k)))
          (home (ss.set j (some k)) u) i' := by
      intro i' hclear
      unfold home
      rw [length_set]
      exact hclear.mono fun _ => occupied_set hj
    rcases (holds_set hfree hj).mp hi with ⟨rfl, rfl⟩ | hold
    · rw [hw] at hu
      cases hu
      exact hmono hreach
    · exact hmono (h.reach i e u hold hu)

/-- The slots of the heap replaced. -/
theorem Rep.with_slots (hr : Rep hp m es ss) {slots : Blocks.Store (Option Nat)}
    {ss' : List (Option Nat)} (hlen : ss'.length = ss.length)
    (hp' : Points slots m.slots ss' m.nslots) : Rep ⟨hp.maps, hp.entries, hp.hashes, slots⟩ m es ss' :=
  ⟨hr.len, hr.nslots.trans hlen.symm, hr.small, hr.entries, hr.hashes, hp'⟩

/-- **`tk_map_slot_insert` adds one entry to the table.** -/
theorem tkMapSlotInsert_eq (hr : Rep hp m es ss) (hsize : ss.length = 2 ^ a)
    (hidx : Indexed (es.map fun e => tkMapHashInt e.1) k ss) (hk : k < es.length)
    (hroom : k < ss.length) :
    ∃ hp' ss', tkMapSlotInsert hp m k = .ok hp' ∧ ss'.length = ss.length ∧ Rep hp' m es ss' ∧
      Indexed (es.map fun e => tkMapHashInt e.1) (k + 1) ss' ∧ Evolves hp m hp' m := by
  have hhash : (es.map fun e => tkMapHashInt e.1)[k]? = some (tkMapHashInt es[k].1) := by
    rw [getElem?_map, getElem?_eq_getElem hk, Option.map_some]
  have hhome : home ss (tkMapHashInt es[k].1) < ss.length := Nat.mod_lt _ (by omega)
  obtain ⟨i, hi, hfree⟩ := hidx.exists_free hroom
  obtain ⟨j, hj⟩ := Probing.probe_isSome (p := fun j => !occupied ss j) hhome hi (by simp [hfree])
  obtain ⟨hlt, hjfree, hreach⟩ := Probing.probe_free hhome hj
  have hmask : (tkMapHashInt es[k].1).toNat &&& (m.nslots - 1) = home ss (tkMapHashInt es[k].1) := by
    rw [hr.nslots]
    exact and_mask hsize _
  have hloop : freeLoop hp.slots m m.nslots (home ss (tkMapHashInt es[k].1)) = .ok j := by
    have hfound := freeLoop_eq hr.slots hr.nslots hsize hhome hj
    rw [← hr.nslots] at hfound
    exact hfound
  obtain ⟨slots, hstore, hpoints, hframe⟩ := hr.slots.store_set hlt (some k)
  refine ⟨⟨hp.maps, hp.entries, hp.hashes, slots⟩, ss.set j (some k), ?_, length_set,
    hr.with_slots length_set hpoints, hidx.set hlt hjfree hhash hreach,
    ⟨rfl, .refl _ _, .refl _ _, hframe⟩⟩
  simp only [tkMapSlotInsert, hr.hashes.load hhash, Except.bind, hmask, hloop, hstore, Except.map]

/-- Inserting the entries from `k` on. -/
theorem insertAll_eq (n : Nat) : ∀ {k : Nat} {hp : Heap} {ss : List (Option Nat)},
    Rep hp m es ss → ss.length = 2 ^ a →
    Indexed (es.map fun e => tkMapHashInt e.1) k ss → k + n = es.length →
    es.length < ss.length →
    ∃ hp' ss', insertAll m (List.range' k n) hp = .ok hp' ∧ ss'.length = ss.length ∧
      Rep hp' m es ss' ∧ Indexed (es.map fun e => tkMapHashInt e.1) es.length ss' ∧
      Evolves hp m hp' m := by
  induction n with
  | zero =>
    intro k hp ss hr _ hidx hk _
    exact ⟨hp, ss, rfl, rfl, hr, hk ▸ hidx, .refl _ _⟩
  | succ n ih =>
    intro k hp ss hr hsize hidx hk hroom
    obtain ⟨hp₁, ss₁, hins, hlen₁, hr₁, hidx₁, hev₁⟩ :=
      tkMapSlotInsert_eq hr hsize hidx (by omega) (by omega)
    obtain ⟨hp₂, ss₂, hrest, hlen₂, hr₂, hidx₂, hev₂⟩ :=
      ih hr₁ (hlen₁.trans hsize) hidx₁ (by omega) (by omega)
    refine ⟨hp₂, ss₂, ?_, hlen₂.trans hlen₁, hr₂, hidx₂, hev₁.trans hev₂⟩
    rw [range'_succ, insertAll, hins]
    exact hrest

end

end Toke.Runtime
