/-
  Toke.Runtime.Map — **THE MAP OF THE RUNTIME** (`collections_glue.c`), int-keyed.

  A map is a struct with pointers to three arrays: the entries in insertion
  order, their hashes, and the table of slots.  The arrays live in block
  stores, so that a shared, stale or overrun array would show.  A handle is
  the address of a struct, `0` is `NULL`.

    `tkMapFind`, `tkMapSlotInsert`, `tkMapRehash`   — the table
    `tkMapPut`, `tkMapGet`, `tkMapClone`            — the operations
    `exec`, `run`                                   — calls and sequences of calls
-/
import Toke.Library.Blocks

namespace Toke.Runtime

/-! ## §1. The heap. -/

/-- `TkMapEntry`. -/
abbrev Entry := Int64 × Int64

/-- `TkMapImpl`; a slot holds an index into the entries, `none` is `-1`. -/
structure TkMapImpl where
  entries : Option Nat
  len : Nat
  cap : Nat
  nslots : Nat
  slots : Option Nat
  hashes : Option Nat
  deriving Repr, DecidableEq

/-- The maps and their blocks. -/
structure Heap where
  maps : List TkMapImpl
  entries : Blocks.Store Entry
  hashes : Blocks.Store UInt64
  slots : Blocks.Store (Option Nat)

/-- What can go wrong: an access outside live memory, a request that cannot be
served, a loop without end. -/
inductive Fault where
  | wild
  | noMemory
  | endless
  deriving Repr, DecidableEq

/-- `p[i]`. -/
def load {α : Type} (s : Blocks.Store α) (p : Option Nat) (i : Nat) : Except Fault α :=
  match p.bind fun p => Blocks.read s p i with
  | some x => .ok x
  | none => .error .wild

/-- `p[i] = x`. -/
def store {α : Type} (s : Blocks.Store α) (p : Option Nat) (i : Nat) (x : α) :
    Except Fault (Blocks.Store α) :=
  match p.bind fun p => Blocks.write s p i x with
  | some s => .ok s
  | none => .error .wild

/-- `free(p)`; freeing `NULL` does nothing. -/
def release {α : Type} (s : Blocks.Store α) : Option Nat → Blocks.Store α
  | none => s
  | some p => Blocks.free s p

/-- The contents behind a pointer that may be `NULL`. -/
def contents {α : Type} (s : Blocks.Store α) (p : Option Nat) : List α :=
  (p.bind (Blocks.block s)).getD []

/-- `realloc(p, n)`: a block of `n` elements with the old contents in front. -/
def resize {α : Type} [Inhabited α] (s : Blocks.Store α) (p : Option Nat) (n : Nat) :
    Blocks.Store α :=
  Blocks.alloc (release s p)
    (contents s p ++ List.replicate (n - (contents s p).length) default)

/-! ## §2. The table. -/

/-- `tk_map_hash_int`: the finaliser of splitmix64. -/
def tkMapHashInt (k : Int64) : UInt64 :=
  let z := k.toUInt64 + 0x9e3779b97f4a7c15
  let z := (z ^^^ (z >>> 30)) * 0xbf58476d1ce4e5b9
  let z := (z ^^^ (z >>> 27)) * 0x94d049bb133111eb
  z ^^^ (z >>> 31)

/-- `TK_MAP_MIN_SLOTS`. -/
def minSlots : Nat := 16

/-- `TK_MAP_MIN_CAP`. -/
def minCap : Nat := 8

/-- The probe loop of `tk_map_find`.  After `nslots` steps every slot has been
seen once and the loop would go on for ever. -/
def findLoop (hp : Heap) (m : TkMapImpl) (key : Int64) (h : UInt64) :
    Nat → Nat → Except Fault (Option Nat)
  | 0, _ => .error .endless
  | fuel + 1, i =>
    (load hp.slots m.slots i).bind fun slot =>
      match slot with
      | none => .ok none
      | some e =>
        (load hp.hashes m.hashes e).bind fun he =>
          if he = h then
            (load hp.entries m.entries e).bind fun entry =>
              if entry.1 = key then .ok (some e)
              else findLoop hp m key h fuel ((i + 1) &&& (m.nslots - 1))
          else findLoop hp m key h fuel ((i + 1) &&& (m.nslots - 1))

/-- `tk_map_find`: the index of the entry, or `none`. -/
def tkMapFind (hp : Heap) (m : TkMapImpl) (key : Int64) (h : UInt64) : Except Fault (Option Nat) :=
  if m.nslots = 0 then .ok none
  else findLoop hp m key h m.nslots (h.toNat &&& (m.nslots - 1))

/-- The probe loop of `tk_map_slot_insert`. -/
def freeLoop (slots : Blocks.Store (Option Nat)) (m : TkMapImpl) : Nat → Nat → Except Fault Nat
  | 0, _ => .error .endless
  | fuel + 1, i =>
    (load slots m.slots i).bind fun slot =>
      match slot with
      | none => .ok i
      | some _ => freeLoop slots m fuel ((i + 1) &&& (m.nslots - 1))

/-- `tk_map_slot_insert`. -/
def tkMapSlotInsert (hp : Heap) (m : TkMapImpl) (e : Nat) : Except Fault Heap :=
  (load hp.hashes m.hashes e).bind fun h =>
    (freeLoop hp.slots m m.nslots (h.toNat &&& (m.nslots - 1))).bind fun i =>
      (store hp.slots m.slots i (some e)).map fun slots => { hp with slots := slots }

/-- `for (int e = …; e < m->len; e++) tk_map_slot_insert(m, e)`. -/
def insertAll (m : TkMapImpl) : List Nat → Heap → Except Fault Heap
  | [], hp => .ok hp
  | e :: es, hp => (tkMapSlotInsert hp m e).bind (insertAll m es)

/-- `tk_map_rehash`: a fresh table, then every entry in order. -/
def tkMapRehash (hp : Heap) (m : TkMapImpl) (nslots : Nat) : Except Fault (Heap × TkMapImpl) :=
  let slots := release (Blocks.alloc hp.slots (List.replicate nslots none)) m.slots
  let m' := { m with slots := some hp.slots.length, nslots := nslots }
  (insertAll m' (List.range m.len) { hp with slots := slots }).map fun hp => (hp, m')

/-! ## §3. The operations. -/

/-- `INT_MAX`. -/
def intMax : Nat := 2147483647

/-- The grown capacity; past `INT_MAX` the product overflows and the request,
converted to `size_t`, is for most of the address space. -/
def growCap (cap : Nat) : Except Fault Nat :=
  let nc := if cap ≠ 0 then cap * 2 else minCap
  if nc ≤ intMax then .ok nc else .error .noMemory

/-- Room for one more entry. -/
def ensureRoom (hp : Heap) (m : TkMapImpl) : Except Fault (Heap × TkMapImpl) :=
  if m.len ≥ m.cap then
    (growCap m.cap).map fun nc =>
      ({ hp with
          entries := resize hp.entries m.entries nc
          hashes := resize hp.hashes m.hashes nc },
        { m with
          entries := some hp.entries.length
          hashes := some hp.hashes.length
          cap := nc })
  else .ok (hp, m)

/-- A free slot for one more entry: `(len + 1) / nslots` stays at most 7/10. -/
def ensureSlot (hp : Heap) (m : TkMapImpl) : Except Fault (Heap × TkMapImpl) :=
  if (m.len + 1) * 10 > m.nslots * 7 then
    tkMapRehash hp m (if m.nslots ≠ 0 then m.nslots * 2 else minSlots)
  else .ok (hp, m)

/-- The new entry behind the others. -/
def appendEntry (hp : Heap) (m : TkMapImpl) (key val : Int64) (h : UInt64) :
    Except Fault (Heap × TkMapImpl) :=
  (store hp.entries m.entries m.len (key, val)).bind fun entries =>
    (store hp.hashes m.hashes m.len h).bind fun hashes =>
      let m' := { m with len := m.len + 1 }
      (tkMapSlotInsert { hp with entries := entries, hashes := hashes } m' m.len).map fun hp =>
        (hp, m')

/-- `tk_map_put` on the struct: an overwritten key keeps its position. -/
def tkMapPut (hp : Heap) (m : TkMapImpl) (key val : Int64) : Except Fault (Heap × TkMapImpl) :=
  (tkMapFind hp m key (tkMapHashInt key)).bind fun found =>
    match found with
    | some e =>
      (load hp.entries m.entries e).bind fun entry =>
        (store hp.entries m.entries e (entry.1, val)).map fun entries =>
          ({ hp with entries := entries }, m)
    | none =>
      (ensureRoom hp m).bind fun r =>
        (ensureSlot r.1 r.2).bind fun r => appendEntry r.1 r.2 key val (tkMapHashInt key)

/-- The value under a key, `dflt` without one (`tk_map_get`, `tk_map_getor_w`). -/
def lookupOr (hp : Heap) (m : TkMapImpl) (key dflt : Int64) : Except Fault Int64 :=
  (tkMapFind hp m key (tkMapHashInt key)).bind fun found =>
    match found with
    | some e => (load hp.entries m.entries e).map Prod.snd
    | none => .ok dflt

/-- `(double)len > 0.7 * (double)ns`.  The double nearest to 0.7 is
6305039478318694 / 2 ^ 53; the product is exact, since `ns` is a power of two. -/
def overLoaded (len ns : Nat) : Bool := 6305039478318694 * ns < len * 2 ^ 53

/-- The table size of a clone. -/
def cloneSlots (len : Nat) : Nat → Nat → Except Fault Nat
  | 0, _ => .error .endless
  | fuel + 1, ns => if overLoaded len ns then cloneSlots len fuel (ns * 2) else .ok ns

/-- `malloc` of `n` elements and `memcpy` of the first `len` of another block. -/
def copyBlock {α : Type} [Inhabited α] (s : Blocks.Store α) (p : Option Nat) (len n : Nat) :
    Blocks.Store α := Blocks.alloc s ((contents s p).take len ++ List.replicate (n - len) default)

/-- `tk_map_clone`. -/
def tkMapClone (hp : Heap) (m : TkMapImpl) : Except Fault (Heap × TkMapImpl) :=
  if 0 < m.len then
    let cap := if m.len > minCap then m.len else minCap
    let hp' := { hp with
      entries := copyBlock hp.entries m.entries m.len cap
      hashes := copyBlock hp.hashes m.hashes m.len cap }
    (cloneSlots m.len (m.len + 1) minSlots).bind fun ns =>
      tkMapRehash hp' ⟨some hp.entries.length, m.len, cap, 0, none, some hp.hashes.length⟩ ns
  else .ok (hp, ⟨none, 0, 0, 0, none, none⟩)

/-- The keys in order. -/
def tkMapKeys (hp : Heap) (m : TkMapImpl) : Except Fault (List Int64) :=
  (List.range m.len).mapM fun i => (load hp.entries m.entries i).map Prod.fst

/-! ## §4. Calls. -/

/-- A call of the runtime; maps are given by handle. -/
inductive Call where
  | new
  | put (m : Nat) (key val : Int64)
  | set (m : Nat) (key val : Int64)
  | setInplace (m : Nat) (key val : Int64)
  | get (m : Nat) (key : Int64)
  | getor (m : Nat) (key dflt : Int64)
  | contains (m : Nat) (key : Int64)
  | keys (m : Nat)
  | len (m : Nat)
  deriving Repr, DecidableEq

/-- What a call returns. -/
inductive Result where
  | unit
  | handle (m : Nat)
  | value (v : Int64)
  | present (b : Bool)
  | list (ks : List Int64)
  | count (n : Nat)
  deriving Repr, DecidableEq

/-- The struct behind a handle; `none` is `NULL`. -/
def Heap.deref (hp : Heap) : Nat → Except Fault (Option TkMapImpl)
  | 0 => .ok none
  | h + 1 =>
    match hp.maps[h]? with
    | some m => .ok (some m)
    | none => .error .wild

/-- A new struct at the end. -/
def Heap.push (r : Heap × TkMapImpl) : Heap × Nat :=
  ({ r.1 with maps := r.1.maps ++ [r.2] }, r.1.maps.length + 1)

/-- `tk_map_put` on a handle. -/
def putAt (hp : Heap) (h : Nat) (key val : Int64) : Except Fault Heap :=
  (hp.deref h).bind fun m =>
    match m with
    | none => .ok hp
    | some m => (tkMapPut hp m key val).map fun r => { r.1 with maps := r.1.maps.set (h - 1) r.2 }

/-- One call. -/
def exec (hp : Heap) : Call → Except Fault (Heap × Result)
  | .new => .ok ((Heap.push (hp, ⟨none, 0, 0, 0, none, none⟩)).1,
      .handle (Heap.push (hp, ⟨none, 0, 0, 0, none, none⟩)).2)
  | .put h key val => (putAt hp h key val).map fun hp => (hp, .unit)
  | .set h key val =>
    (hp.deref h).bind fun m =>
      match m with
      | none => .ok (hp, .handle h)
      | some m =>
        (tkMapClone hp m).bind fun r =>
          (tkMapPut r.1 r.2 key val).map fun r => ((Heap.push r).1, .handle (Heap.push r).2)
  | .setInplace h key val => (putAt hp h key val).map fun hp => (hp, .handle h)
  | .get h key =>
    (hp.deref h).bind fun m =>
      match m with
      | none => .ok (hp, .value 0)
      | some m => (lookupOr hp m key 0).map fun v => (hp, .value v)
  | .getor h key dflt =>
    (hp.deref h).bind fun m =>
      match m with
      | none => .ok (hp, .value dflt)
      | some m => (lookupOr hp m key dflt).map fun v => (hp, .value v)
  | .contains h key =>
    (hp.deref h).bind fun m =>
      match m with
      | none => .ok (hp, .present false)
      | some m => (tkMapFind hp m key (tkMapHashInt key)).map fun e => (hp, .present e.isSome)
  | .keys h =>
    (hp.deref h).bind fun m =>
      match m with
      | none => .ok (hp, .list [])
      | some m => (tkMapKeys hp m).map fun ks => (hp, .list ks)
  | .len h =>
    (hp.deref h).bind fun m =>
      match m with
      | none => .ok (hp, .count 0)
      | some m => .ok (hp, .count m.len)

/-- A sequence of calls, with the result of each. -/
def run : List Call → Heap → Except Fault (Heap × List Result)
  | [], hp => .ok (hp, [])
  | c :: cs, hp => (exec hp c).bind fun r => (run cs r.1).map fun r' => (r'.1, r.2 :: r'.2)

/-- Nothing is allocated yet. -/
def Heap.empty : Heap := ⟨[], [], [], []⟩

end Toke.Runtime
