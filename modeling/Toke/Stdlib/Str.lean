/-
  Toke.Stdlib.Str — **STRINGS THAT GROW** (`str.c`, `str_glue.c`): the functions that compute the
  size of a block modulo 2⁶⁴, allocate it and write into it.

    `strBlocks_safe_iff`    — when `str_repeat` and the two paddings stay inside
    `strSplit_exchange_iff` — `str_split`, `str_join`, `str_count` and
                              `str_replace` cut at the same occurrences, and
                              when the replacement fills its block exactly
-/
import Toke.Stdlib.Bytes

namespace Toke.Stdlib

open List

/-- A C string with room for its NUL. -/
structure CStr extends CString where
  fits : bytes.length + 1 < 2 ^ 64

/-- `strlen`. -/
def strlen (bytes : List UInt8) : UInt64 := UInt64.ofNat bytes.length

/-- A block of the given size, and what is copied to which offset of it. -/
structure Block where
  size : UInt64
  writes : List (Nat × List UInt8)

/-- Every byte is written inside. -/
def Block.Safe (b : Block) : Prop := ∀ w ∈ b.writes, ∀ j < w.2.length, w.1 + j < b.size.toNat

/-! ## §1. Repeating and padding. -/

/-- `str_repeat`. -/
def strRepeat (s : CStr) (n : UInt64) : Block :=
  if n = 0 then ⟨1, [(0, [0])]⟩
  else
    let slen := strlen s.bytes
    let total := slen * n
    ⟨total + 1, (List.range n.toNat).map (fun i => ((UInt64.ofNat i * slen).toNat, s.bytes)) ++
      [(total.toNat, [0])]⟩

/-- What the two paddings share; `fill pad` is how they place the string and the
padding. -/
def strPad (s : CStr) (width : UInt64) (fill : UInt64 → List (Nat × List UInt8)) : Block :=
  let slen := strlen s.bytes
  if slen ≥ width then ⟨slen + 1, [(0, s.bytes ++ [0])]⟩
  else ⟨width + 1, fill (width - slen) ++ [(width.toNat, [0])]⟩

/-- `str_pad_left`. -/
def strPadLeft (s : CStr) (width : UInt64) (ch : UInt8) : Block :=
  strPad s width fun pad => [(0, List.replicate pad.toNat ch), (pad.toNat, s.bytes)]

/-- `str_pad_right`. -/
def strPadRight (s : CStr) (width : UInt64) (ch : UInt8) : Block :=
  strPad s width fun pad => [(0, s.bytes), ((strlen s.bytes).toNat, List.replicate pad.toNat ch)]

/-- `tk_str_repeat_w`. -/
def tkStrRepeatW (s : CStr) (n : Int64) : Block := strRepeat s n.toUInt64

/-- `tk_str_padleft_w`. -/
def tkStrPadleftW (s : CStr) (width pad : Int64) : Block :=
  strPadLeft s width.toUInt64 (if pad ≠ 0 then pad.toUInt64.toUInt8 else 0x20)

theorem CStr.strlen_toNat (s : CStr) : (strlen s.bytes).toNat = s.bytes.length :=
  UInt64.toNat_ofNat_of_lt' (Nat.lt_of_succ_lt s.fits)

/-- Repeating is safe exactly if the text and its terminator fit: otherwise some
copy runs over the last address, or the block has no byte at all. -/
theorem strRepeat_safe_iff (s : CStr) (n : UInt64) :
    (strRepeat s n).Safe ↔ s.bytes.length * n.toNat + 1 < 2 ^ 64 := by
  by_cases h0 : n = 0
  · subst h0
    simp [strRepeat, Block.Safe]
  · have hlen := s.strlen_toNat
    rw [strRepeat, if_neg h0]
    constructor
    · intro hsafe
      by_cases hfull : s.bytes.length * n.toNat < 2 ^ 64
      · -- the terminator alone is outside
        have hend := hsafe (_, [0]) (mem_append_right _ (mem_singleton_self _)) 0 (by simp)
        simp only [UInt64.toNat_add, UInt64.toNat_mul, hlen] at hend
        omega
      · -- the copy that reaches the last address
        have hpos : 0 < s.bytes.length := by
          rw [Nat.pos_iff_ne_zero]
          intro h
          rw [h] at hfull
          omega
        have hi : (2 ^ 64 - 1) / s.bytes.length < n.toNat :=
          (Nat.div_lt_iff_lt_mul hpos).mpr (by rw [Nat.mul_comm]; omega)
        have hcopy := hsafe (_, s.bytes)
          (mem_append_left _ (mem_map_of_mem (mem_range.mpr hi)))
          ((2 ^ 64 - 1) % s.bytes.length) (Nat.mod_lt _ hpos)
        have hdiv := Nat.div_add_mod (2 ^ 64 - 1) s.bytes.length
        have hoff : (UInt64.ofNat ((2 ^ 64 - 1) / s.bytes.length) * strlen s.bytes).toNat =
            s.bytes.length * ((2 ^ 64 - 1) / s.bytes.length) := by
          have hq : (2 ^ 64 - 1) / s.bytes.length % 2 ^ 64 = (2 ^ 64 - 1) / s.bytes.length :=
            Nat.mod_eq_of_lt (Nat.lt_of_le_of_lt (Nat.div_le_self _ _) (by decide))
          rw [UInt64.toNat_mul, hlen, UInt64.toNat_ofNat', hq, Nat.mul_comm]
          exact Nat.mod_eq_of_lt (by omega)
        have hsize := (strlen s.bytes * n + 1).toNat_lt
        dsimp only at hcopy
        omega
    · intro hfit w hw j hj
      have htotal : (strlen s.bytes * n).toNat = s.bytes.length * n.toNat := by
        rw [UInt64.toNat_mul, hlen, Nat.mod_eq_of_lt (by omega)]
      have hsize : (strlen s.bytes * n + 1).toNat = s.bytes.length * n.toNat + 1 := by
        rw [UInt64.toNat_add, htotal]
        exact Nat.mod_eq_of_lt hfit
      rcases mem_append.mp hw with hw | hw
      · obtain ⟨i, hi, rfl⟩ := mem_map.mp hw
        have hstep : i * s.bytes.length + s.bytes.length ≤ s.bytes.length * n.toNat := by
          rw [Nat.mul_comm]
          exact Nat.mul_le_mul_left _ (mem_range.mp hi)
        have hsmall := Nat.mul_le_mul_right s.bytes.length (Nat.mod_le i (2 ^ 64))
        simp only [UInt64.toNat_mul, hlen, UInt64.toNat_ofNat'] at hj ⊢
        omega
      · obtain rfl := mem_singleton.mp hw
        simp only [length_singleton] at hj ⊢
        omega

/-- Padding is safe exactly if the width is not the last address, for any way to
fill that stays below the width. -/
theorem strPad_safe_iff (s : CStr) (width : UInt64) (fill : UInt64 → List (Nat × List UInt8))
    (hfill : ∀ pad, pad.toNat + s.bytes.length = width.toNat → ∀ w ∈ fill pad,
      w.1 + w.2.length ≤ width.toNat) :
    (strPad s width fill).Safe ↔ width.toNat + 1 < 2 ^ 64 := by
  have hlen := s.strlen_toNat
  have hfits := s.fits
  by_cases hlong : strlen s.bytes ≥ width
  · have hle : width.toNat ≤ s.bytes.length := hlen ▸ UInt64.le_iff_toNat_le.mp hlong
    rw [strPad, if_pos hlong]
    simp only [Block.Safe, mem_singleton, forall_eq, UInt64.toNat_add, UInt64.toNat_one,
      length_append, length_singleton]
    exact iff_of_true (by omega) (by omega)
  · have hlt := UInt64.lt_iff_toNat_lt.mp (UInt64.not_le.mp hlong)
    have hpad : (width - strlen s.bytes).toNat + s.bytes.length = width.toNat := by
      rw [UInt64.toNat_sub_of_le _ _ (UInt64.le_of_lt (UInt64.not_le.mp hlong))]
      omega
    rw [strPad, if_neg hlong]
    constructor
    · intro hsafe
      have hend := hsafe (_, [0]) (mem_append_right _ (mem_singleton_self _)) 0 (by simp)
      simp only [UInt64.toNat_add] at hend
      omega
    · intro hroom w hw j hj
      have hsize : (width + 1).toNat = width.toNat + 1 := by
        exact Nat.mod_eq_of_lt hroom
      rw [hsize]
      rcases mem_append.mp hw with hw | hw
      · have h := hfill _ hpad w hw
        omega
      · obtain rfl := mem_singleton.mp hw
        simp only [length_singleton] at hj ⊢
        omega

theorem strPadLeft_safe_iff (s : CStr) (width : UInt64) (ch : UInt8) :
    (strPadLeft s width ch).Safe ↔ width.toNat + 1 < 2 ^ 64 := by
  refine strPad_safe_iff s width _ ?_
  intro pad hpad w hw
  fin_cases hw <;> simp <;> omega

/-- **What `str_repeat` and the paddings write is inside what they allocate**
exactly if the size of the block does not wrap. -/
theorem strBlocks_safe_iff (s : CStr) (n width : UInt64) (ch : UInt8) :
    ((strRepeat s n).Safe ∧ (strPadLeft s width ch).Safe ∧ (strPadRight s width ch).Safe) ↔
      s.bytes.length * n.toNat + 1 < 2 ^ 64 ∧ width.toNat + 1 < 2 ^ 64 := by
  have hright : (strPadRight s width ch).Safe ↔ width.toNat + 1 < 2 ^ 64 := by
    refine strPad_safe_iff s width _ ?_
    intro pad hpad w hw
    fin_cases hw <;> simp [s.strlen_toNat] <;> omega
  rw [strRepeat_safe_iff, strPadLeft_safe_iff, hright, and_self]

/-- The text `ab`. -/
def abText : CStr := ⟨⟨[97, 98], by decide⟩, by decide⟩

/-- A text of two letters repeated 2⁶³ times, and a width of -1. -/
theorem negative_unsafe :
    ¬ (tkStrRepeatW abText (-9223372036854775808)).Safe ∧ ¬ (tkStrPadleftW abText (-1) 0).Safe := by
  constructor
  · rw [tkStrRepeatW, strRepeat_safe_iff]
    decide
  · rw [tkStrPadleftW, strPadLeft_safe_iff]
    decide

/-! ## §2. Cutting and joining. -/

/-- `strstr`: the text in front of the first occurrence, and what follows it. -/
def strstr (sub : List UInt8) : List UInt8 → Option (List UInt8 × List UInt8)
  | [] => if sub = [] then some ([], []) else none
  | c :: p =>
    if sub <+: c :: p then some ([], (c :: p).drop sub.length)
    else (strstr sub p).map fun r => (c :: r.1, r.2)

/-- The loop `while ((p = strstr(p, sub)) != NULL) { count++; p += sublen; }`. -/
def countLoop (sub : List UInt8) : Nat → List UInt8 → Nat
  | 0, _ => 0
  | fuel + 1, p =>
    match strstr sub p with
    | none => 0
    | some (_, p) => countLoop sub fuel p + 1

/-- `str_count`. -/
def strCount (s sub : List UInt8) : Nat := if sub = [] then 0 else countLoop sub s.length s

/-- The second loop of `str_split`, and the last segment. -/
def splitLoop (sep : List UInt8) (count : Nat) : Nat → List UInt8 → Nat → List (List UInt8)
  | 0, p, _ => [p]
  | fuel + 1, p, i =>
    match strstr sep p with
    | none => [p]
    | some (piece, rest) =>
      if i < count - 1 then piece :: splitLoop sep count fuel rest (i + 1) else [p]

/-- `str_split`. -/
def strSplit (s sep : List UInt8) : List (List UInt8) :=
  if sep = [] then [] else splitLoop sep (countLoop sep s.length s + 1) s.length s 0

/-- The copying loop of `str_join`. -/
def joinLoop (sep : List UInt8) : List (List UInt8) → List UInt8
  | [] => []
  | [part] => part
  | part :: parts => part ++ sep ++ joinLoop sep parts

/-- The size that is computed for the parts. -/
def joinTotal (sep : List UInt8) : List (List UInt8) → UInt64
  | [] => 0
  | [part] => strlen part
  | part :: parts => strlen part + strlen sep + joinTotal sep parts

/-- A size that is allocated, and what is written there from its start on. -/
structure Filled where
  size : UInt64
  text : List UInt8

/-- What is written, with the terminator. -/
def Filled.written (b : Filled) : List UInt8 := b.text ++ [0]

/-- `str_join`. -/
def strJoin (sep : List UInt8) (parts : List (List UInt8)) : Filled :=
  ⟨joinTotal sep parts + 1, joinLoop sep parts⟩

/-- The loop of `str_replace`. -/
def replaceLoop (old newVal : List UInt8) : Nat → List UInt8 → List UInt8
  | 0, p => p
  | fuel + 1, p =>
    match strstr old p with
    | none => p
    | some (before, p) => before ++ newVal ++ replaceLoop old newVal fuel p

/-- `str_replace`. -/
def strReplace (s old newVal : List UInt8) : Filled :=
  if old = [] then ⟨strlen s + 1, s⟩
  else
    let count := UInt64.ofNat (countLoop old s.length s)
    ⟨strlen s + count * (strlen newVal - strlen old) + 1, replaceLoop old newVal s.length s⟩

/-- The pieces between the leftmost occurrences, the purpose of all these loops;
`skip` letters of the occurrence are still to be passed. -/
def pieces (sep : List UInt8) : Nat → List UInt8 → List (List UInt8)
  | _, [] => [[]]
  | skip + 1, _ :: p => pieces sep skip p
  | 0, c :: p =>
    if sep <+: c :: p then [] :: pieces sep (sep.length - 1) p
    else (pieces sep 0 p).modifyHead (c :: ·)

/-- No occurrence starts inside a piece, with the text behind it taken into account. -/
def Apart (sep : List UInt8) : List (List UInt8) → Prop
  | [] => True
  | part :: parts =>
    (∀ j < part.length, ¬ sep <+: (joinLoop sep (part :: parts)).drop j) ∧ Apart sep parts

variable {sep p a r : List UInt8}

theorem pieces_ne_nil (sep : List UInt8) : ∀ (skip : Nat) (p : List UInt8), pieces sep skip p ≠ []
  | skip, [] => by simp [pieces]
  | skip + 1, _ :: p => pieces_ne_nil sep skip p
  | 0, c :: p => by
    have ih := pieces_ne_nil sep 0 p
    rw [pieces]
    split
    · simp
    · simpa using ih

theorem pieces_skip : ∀ (skip : Nat) (p : List UInt8), pieces sep skip p = pieces sep 0 (p.drop skip)
  | skip, [] => by simp [pieces]
  | 0, _ :: _ => rfl
  | skip + 1, _ :: p => pieces_skip skip p

theorem joinLoop_cons (sep a : List UInt8) {parts : List (List UInt8)} (h : parts ≠ []) :
    joinLoop sep (a :: parts) = a ++ sep ++ joinLoop sep parts := by
  cases parts with
  | nil => exact absurd rfl h
  | cons b parts => rfl

theorem strstr_none (hsep : sep ≠ []) (h : strstr sep p = none) :
    pieces sep 0 p = [p] ∧ ∀ j, ¬ sep <+: p.drop j := by
  induction p with
  | nil => simpa [pieces] using hsep
  | cons c p ih =>
    rw [strstr] at h
    split at h
    · cases h
    next hno =>
      obtain ⟨hcut, hclear⟩ := ih (Option.map_eq_none_iff.mp h)
      refine ⟨by rw [pieces, if_neg hno, hcut]; rfl, ?_⟩
      intro j
      cases j with
      | zero => exact hno
      | succ j => exact hclear j

theorem strstr_some (hsep : sep ≠ []) (h : strstr sep p = some (a, r)) :
    p = a ++ sep ++ r ∧ (∀ j < a.length, ¬ sep <+: p.drop j) ∧
      pieces sep 0 p = a :: pieces sep 0 r := by
  induction p generalizing a with
  | nil =>
    rw [strstr, if_neg hsep] at h
    cases h
  | cons c p ih =>
    rw [strstr] at h
    split at h
    next hyes =>
      obtain ⟨rfl, rfl⟩ := Prod.mk.inj (Option.some.inj h)
      refine ⟨prefix_append_drop hyes, by simp, ?_⟩
      obtain ⟨n, hn⟩ := Nat.exists_eq_succ_of_ne_zero (fun h => hsep (length_eq_zero_iff.mp h))
      rw [pieces, if_pos hyes, pieces_skip, hn]
      rfl
    next hno =>
      obtain ⟨t, ht, heq⟩ := Option.map_eq_some_iff.mp h
      obtain ⟨rfl, rfl⟩ := Prod.mk.inj heq
      obtain ⟨hp, hclear, hcut⟩ := ih ht
      refine ⟨by rw [cons_append, cons_append, ← hp], ?_, ?_⟩
      · intro j hj
        cases j with
        | zero => exact hno
        | succ j => exact hclear j (Nat.lt_of_succ_lt_succ hj)
      · rw [pieces, if_neg hno, hcut]
        rfl

/-- The four loops, turn by turn. -/
theorem loops_pieces (hsep : sep ≠ []) (newVal : List UInt8) {fuel : Nat} :
    ∀ {p : List UInt8}, p.length ≤ fuel → countLoop sep fuel p + 1 = (pieces sep 0 p).length ∧
      (∀ count i, i + (countLoop sep fuel p + 1) = count →
        splitLoop sep count fuel p i = pieces sep 0 p) ∧
      replaceLoop sep newVal fuel p = joinLoop newVal (pieces sep 0 p) ∧
      joinLoop sep (pieces sep 0 p) = p ∧ Apart sep (pieces sep 0 p) := by
  induction fuel with
  | zero =>
    intro p hp
    obtain rfl : p = [] := length_eq_zero_iff.mp (by omega)
    simp [countLoop, splitLoop, replaceLoop, pieces, joinLoop, Apart]
  | succ fuel ih =>
    intro p hp
    rw [countLoop, replaceLoop]
    cases hfind : strstr sep p with
    | none =>
      obtain ⟨hcut, hclear⟩ := strstr_none hsep hfind
      rw [hcut]
      refine ⟨rfl, fun count i _ => by rw [splitLoop, hfind], rfl, rfl, ?_, trivial⟩
      exact fun j _ => hclear j
    | some t =>
      obtain ⟨a, r⟩ := t
      obtain ⟨hsplit, hclear, hcut⟩ := strstr_some hsep hfind
      have hshort : r.length ≤ fuel := by
        have hpos := length_pos_of_ne_nil hsep
        rw [hsplit, length_append, length_append] at hp
        omega
      obtain ⟨hcount, hpieces, hreplace, hjoin, hapart⟩ := ih hshort
      rw [hcut]
      have hback := joinLoop_cons sep a (pieces_ne_nil sep 0 r)
      refine ⟨by simp [hcount], ?_, ?_, ?_, ?_, hapart⟩
      · intro count i hi
        dsimp only at hi
        rw [splitLoop, hfind]
        dsimp only
        rw [if_pos (by omega), hpieces count (i + 1) (by omega)]
      · rw [joinLoop_cons _ _ (pieces_ne_nil sep 0 r), ← hreplace]
      · rw [hback, hjoin, ← hsplit]
      · rw [hback, hjoin, ← hsplit]
        exact hclear

/-- What putting other text between the parts does to the length. -/
theorem length_joinLoop (sep newVal : List UInt8) : ∀ {parts : List (List UInt8)} {n : Nat},
    n + 1 = parts.length → (joinLoop newVal parts).length + n * sep.length =
      (joinLoop sep parts).length + n * newVal.length
  | [_], 0, _ => by simp [joinLoop]
  | a :: b :: parts, n + 1, h => by
    have ih := @length_joinLoop sep newVal (b :: parts) n (Nat.succ.inj h)
    simp only [joinLoop, length_append, Nat.succ_mul] at ih ⊢
    omega

theorem strReplace_text (s : List UInt8) (hsep : sep ≠ []) (newVal : List UInt8) :
    (strReplace s sep newVal).text = joinLoop newVal (pieces sep 0 s) := by
  rw [strReplace, if_neg hsep]
  exact (loops_pieces hsep newVal (Nat.le_refl s.length)).2.2.1

/-- The replacement fills its block exactly if the new text fits in memory. -/
theorem strReplace_size_iff (s : List UInt8) (hsep : sep ≠ []) (newVal : List UInt8) :
    (strReplace s sep newVal).written.length = (strReplace s sep newVal).size.toNat ↔
      (joinLoop newVal (pieces sep 0 s)).length + 1 < 2 ^ 64 := by
  obtain ⟨hcount, -, -, hjoin, -⟩ := loops_pieces hsep newVal (Nat.le_refl s.length)
  have hlen := congrArg UInt64.ofNat (length_joinLoop sep newVal hcount)
  rw [UInt64.ofNat_add, UInt64.ofNat_add, UInt64.ofNat_mul, UInt64.ofNat_mul] at hlen
  have hsize : (strReplace s sep newVal).size =
      UInt64.ofNat ((joinLoop newVal (pieces sep 0 s)).length + 1) := by
    rw [strReplace, UInt64.ofNat_add]
    simp only [strlen]
    grind
  rw [hsize, UInt64.toNat_ofNat', Filled.written, strReplace_text s hsep, length_append,
    length_singleton]
  omega

theorem Apart.not_infix (hsep : sep ≠ []) : ∀ {parts : List (List UInt8)}, Apart sep parts →
    ∀ part ∈ parts, ¬ sep <:+: part
  | part :: parts, h, q, hq, hin => by
    rcases mem_cons.mp hq with rfl | hq
    · obtain ⟨l, r, rfl⟩ := hin
      obtain ⟨rest, hrest⟩ : ∃ rest, joinLoop sep ((l ++ sep ++ r) :: parts) =
          l ++ (sep ++ rest) := by cases parts <;> simp [joinLoop]
      refine h.1 l.length ?_ ?_
      · have hpos := length_pos_of_ne_nil hsep
        simp only [length_append]
        omega
      · rw [hrest, drop_left]
        exact prefix_append _ _
    · exact not_infix hsep h.2 q hq hin

/-- **Splitting, joining, counting and replacing agree**: the parts put together
are the text, no separator starts inside a part, there is one separator fewer
than parts, and replacing is joining with the new text; the replacement fills
its block exactly if the new text and its terminator fit in the address space. -/
theorem strSplit_exchange_iff (s sep newVal : CStr) (hsep : sep.bytes ≠ []) :
    ((strJoin sep.bytes (strSplit s.bytes sep.bytes)).text = s.bytes ∧
        (Apart sep.bytes (strSplit s.bytes sep.bytes) ∧
          ∀ part ∈ strSplit s.bytes sep.bytes, ¬ sep.bytes <:+: part) ∧
        strCount s.bytes sep.bytes = (strSplit s.bytes sep.bytes).length - 1 ∧
        (strReplace s.bytes sep.bytes newVal.bytes).text =
          (strJoin newVal.bytes (strSplit s.bytes sep.bytes)).text ∧
        (strReplace s.bytes sep.bytes newVal.bytes).written.length =
          (strReplace s.bytes sep.bytes newVal.bytes).size.toNat) ↔
      (joinLoop newVal.bytes (pieces sep.bytes 0 s.bytes)).length + 1 < 2 ^ 64 := by
  obtain ⟨hcount, hsplit, -, hjoin, hapart⟩ :=
    loops_pieces hsep newVal.bytes (Nat.le_refl s.bytes.length)
  have hpieces : strSplit s.bytes sep.bytes = pieces sep.bytes 0 s.bytes := by
    rw [strSplit, if_neg hsep]
    exact hsplit _ 0 (Nat.zero_add _)
  rw [← strReplace_size_iff s.bytes hsep, hpieces]
  refine ⟨fun h => h.2.2.2.2, fun h => ⟨hjoin, ⟨hapart, hapart.not_infix hsep⟩, ?_,
    strReplace_text s.bytes hsep newVal.bytes, h⟩⟩
  rw [strCount, if_neg hsep]
  omega

theorem strSplit_exchange_ab : (strReplace abText.bytes [97] abText.bytes).written.length =
    (strReplace abText.bytes [97] abText.bytes).size.toNat :=
  ((strSplit_exchange_iff abText ⟨⟨[97], by decide⟩, by decide⟩ abText (by decide)).mpr
    (by decide)).2.2.2.2

/-- A text of one letter. -/
def letters (m : Nat) (h : m + 1 < 2 ^ 64) : CStr where
  bytes := List.replicate m 97
  nulFree := by simp
  fits := by simpa using h

theorem pieces_letters (newVal : List UInt8) : ∀ m : Nat,
    (joinLoop newVal (pieces [97] 0 (List.replicate m 97))).length = m * newVal.length
  | 0 => by simp [pieces, joinLoop]
  | m + 1 => by
    have ih := pieces_letters newVal m
    rw [replicate_succ, pieces, if_pos (by simp), joinLoop_cons _ _ (pieces_ne_nil _ _ _)]
    show ([] ++ newVal ++ joinLoop newVal (pieces [97] 0 _)).length = _
    rw [nil_append, length_append, ih, Nat.succ_mul, Nat.add_comm]

theorem strReplace_letters {m : Nat} (h : m + 1 < 2 ^ 64) (hbig : 2 ^ 64 ≤ m * m) :
    (strReplace (letters m h).bytes [97] (letters m h).bytes).written.length ≠
      (strReplace (letters m h).bytes [97] (letters m h).bytes).size.toNat := by
  rw [Ne, strReplace_size_iff _ (cons_ne_nil _ _), letters, pieces_letters, length_replicate]
  omega

/-- 2³² letters, each replaced by 2³² letters: the block has a single byte. -/
theorem strReplace_overflows : (strReplace (letters (2 ^ 32) (by decide)).bytes [97]
      (letters (2 ^ 32) (by decide)).bytes).written.length ≠
    (strReplace (letters (2 ^ 32) (by decide)).bytes [97]
      (letters (2 ^ 32) (by decide)).bytes).size.toNat := strReplace_letters _ (by decide)

end Toke.Stdlib
