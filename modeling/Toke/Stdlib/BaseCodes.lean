/-
  Toke.Stdlib.BaseCodes — **BASE32 AND BASE64, WITH THE BUFFERS** (`encoding.c`).

  Every function computes the length of its output in 64 bits, allocates it
  and fills it.  Base32 loads five bytes into an accumulator and writes eight
  letters, the last of them overwritten with `=`.

    `baseCodes_exact_iff` — all three codes give the bytes back inside their
                            buffers; the bound of 2⁶¹ bytes is beyond every
                            address space
-/
import Toke.Library.Regrouping
import Toke.Stdlib.Encoding
import Toke.Stdlib.Str

namespace Toke.Stdlib

open List Regrouping

/-! ## §1. The code. -/

/-- `encoding_b64encode`. -/
def encodingB64encode (data : List UInt8) : Filled :=
  if data = [] then ⟨1, []⟩ else ⟨(strlen data + 2) / 3 * 4 + 1, b64EncodeImpl b64Std true data⟩

/-- `encoding_b64urlencode`, with its buffer. -/
def encodingB64urlencode (data : List UInt8) : Filled :=
  if data = [] then ⟨1, []⟩ else ⟨(strlen data + 2) / 3 * 4 + 1, b64urlencode data⟩

/-- `b64_decode_impl`: the computed length and the bytes. -/
def b64DecodeImpl (alpha s : List UInt8) : Option Filled :=
  (b64Decoded alpha s).map (⟨strlen (stripPadding s) * 6 / 8, ·⟩)

/-- `B32_ALPHA`. -/
def b32Alpha : List UInt8 := ascii "ABCDEFGHIJKLMNOPQRSTUVWXYZ234567"

/-- Up to five bytes are loaded: the accumulator, the number of missing bytes and the rest. -/
def b32Load : Nat → List UInt8 → Nat → Nat → Nat × Nat × List UInt8
  | 0, p, acc, pad => (acc, pad, p)
  | k + 1, [], acc, pad => b32Load k [] (acc <<< 8) (pad + 1)
  | k + 1, b :: p, acc, pad => b32Load k p (acc <<< 8 ||| b.toNat) pad

/-- The first `n` of the eight groups of five bits. -/
def b32Groups (acc n : Nat) : List Nat := (List.range n).map fun k => (acc >>> (35 - 5 * k)) &&& 0x1f

/-- `pad_chars`: how many `=` stand for the missing bytes. -/
def padChars : List Nat := [0, 1, 3, 4, 6]

/-- The loop of `encoding_base32_encode`. -/
def base32Loop : Nat → List UInt8 → List UInt8
  | 0, _ => []
  | _ + 1, [] => []
  | fuel + 1, p =>
    let (acc, pad, rest) := b32Load 5 p 0 0
    let pc := padChars.getD pad 0
    (b32Groups acc (8 - pc)).map (b32Alpha.getD · 0) ++ List.replicate pc 61 ++ base32Loop fuel rest

/-- `encoding_base32_encode`. -/
def encodingBase32Encode (data : List UInt8) : Filled :=
  ⟨(strlen data + 4) / 5 * 8 + 1, base32Loop data.length data⟩

/-- `b32_char_val`. -/
def b32CharVal (c : UInt8) : Option Nat :=
  if 65 ≤ c ∧ c ≤ 90 then some (c - 65).toNat
  else if 97 ≤ c ∧ c ≤ 122 then some (c - 97).toNat
  else if 50 ≤ c ∧ c ≤ 55 then some ((c - 50).toNat + 26)
  else none

/-- `encoding_base32_decode`. -/
def encodingBase32Decode (s : List UInt8) : Option Filled :=
  ((s.filter (· ≠ 61)).mapM b32CharVal).map fun vs => ⟨strlen (s.filter (· ≠ 61)) * 5 / 8,
    regroup 5 64 vs 0 0⟩

/-! ## §2. The letters of base32. -/

theorem b32CharVal_letter : ∀ v < 32, b32CharVal (b32Alpha.getD v 0) = some v ∧
    b32Alpha.getD v 0 ≠ 61 := by decide +kernel

/-- The bits of a byte list. -/
abbrev byteBits (bs : List UInt8) : List Bool := bs.flatMap fun b => bits 8 b.toNat

/-- The groups carry the bits of the accumulator in their order. -/
theorem bits_b32Groups (acc : Nat) : ∀ n ∈ [2, 4, 5, 7, 8],
    (b32Groups acc n).flatMap (bits 5) = (bits 40 acc).take (5 * n) := by
  have hlow : ∀ x k, k < 5 → (x &&& 0x1f).testBit k = x.testBit k := by
    intro x k hk
    rw [Nat.testBit_and, show (0x1f : Nat) = 2 ^ 5 - 1 by decide, Nat.testBit_two_pow_sub_one,
      decide_eq_true hk, Bool.and_true]
  simp [b32Groups, range, range.loop, bits, hlow]

/-- Loading puts the bits of up to `k` bytes behind the others, and zeros for the
missing ones. -/
theorem b32Load_eq (k : Nat) : ∀ (p : List UInt8) (n acc pad : Nat), ∃ acc',
    b32Load k p acc pad = (acc', pad + (k - p.length), p.drop k) ∧ bits (n + 8 * k) acc' =
      bits n acc ++ byteBits (p.take k) ++ List.replicate (8 * (k - p.length)) false := by
  induction k with
  | zero =>
    intro p n acc pad
    exact ⟨acc, by simp [b32Load], by simp⟩
  | succ k ih =>
    intro p n acc pad
    have hn : n + 8 * (k + 1) = n + 8 + 8 * k := by omega
    cases p with
    | nil =>
      obtain ⟨acc', hload, hbits⟩ := ih [] (n + 8) (acc <<< 8) (pad + 1)
      have hzero := bits_push (v := 0) (w := 8) (by decide) n acc
      rw [Nat.or_zero] at hzero
      refine ⟨acc', ?_, ?_⟩
      · simp only [b32Load, hload, drop_nil, length_nil]
        congr 2
        omega
      · have hmore : 8 * (k + 1 - 0) = 8 + 8 * k := by omega
        rw [hn, hbits, hzero, length_nil, hmore, replicate_add]
        simp [bits]
    | cons b p =>
      obtain ⟨acc', hload, hbits⟩ := ih p (n + 8) (acc <<< 8 ||| b.toNat) pad
      refine ⟨acc', ?_, ?_⟩
      · simp [b32Load, hload]
      · rw [hn, hbits, bits_push b.toNat_lt]
        simp

/-- What one turn writes carries the bits of up to five bytes, filled up to a
whole number of digits. -/
theorem b32Load_groups {p : List UInt8} (hp : p ≠ []) : ∃ acc pad tail,
    b32Load 5 p 0 0 = (acc, pad, p.drop 5) ∧ padChars.getD pad 0 ≤ 6 ∧
      8 - padChars.getD pad 0 = (8 * min 5 p.length + 4) / 5 ∧
      (b32Groups acc (8 - padChars.getD pad 0)).flatMap (bits 5) = byteBits (p.take 5) ++ tail ∧
      tail.length = 5 * ((8 * min 5 p.length + 4) / 5) - 8 * min 5 p.length := by
  have hpad : ∀ j < 5, 8 - padChars.getD j 0 ∈ [2, 4, 5, 7, 8] ∧ padChars.getD j 0 ≤ 6 ∧
      8 - padChars.getD j 0 = (8 * (5 - j) + 4) / 5 := by decide
  have hpos := length_pos_of_ne_nil hp
  obtain ⟨acc, hload, hbits⟩ := b32Load_eq 5 p 0 0 0
  obtain ⟨hmem, hle, hsize⟩ := hpad (0 + (5 - p.length)) (by omega)
  have hmin : 5 - (0 + (5 - p.length)) = min 5 p.length := by omega
  rw [hmin] at hsize
  have hacc : bits 40 acc = byteBits (p.take 5) ++ replicate (8 * (5 - p.length)) false := hbits
  have htaken : (byteBits (p.take 5)).length = 8 * min 5 p.length := by
    simp [Nat.mul_comm]
  have hgroups := bits_b32Groups acc _ hmem
  rw [hacc, take_append, take_of_length_le (by rw [htaken]; omega)] at hgroups
  refine ⟨acc, _, _, hload, hle, hsize, hgroups, ?_⟩
  rw [length_take, length_replicate]
  omega

/-- The digits of all turns carry the bits of the data, with fewer than eight to spare. -/
theorem base32Loop_spec {fuel : Nat} : ∀ {p : List UInt8}, p.length ≤ fuel →
    ∃ (vs : List Nat) (tail : List Bool),
      (base32Loop fuel p).filter (· ≠ 61) = vs.map (b32Alpha.getD · 0) ∧ (∀ v ∈ vs, v < 2 ^ 5) ∧
      vs.flatMap (bits 5) = byteBits p ++ tail ∧ tail.length < 8 ∧
      vs.length = (8 * p.length + 4) / 5 ∧
      (base32Loop fuel p).length = (p.length + 4) / 5 * 8 := by
  induction fuel with
  | zero =>
    intro p hp
    obtain rfl : p = [] := length_eq_zero_iff.mp (by omega)
    exact ⟨[], [], by simp [base32Loop]⟩
  | succ fuel ih =>
    intro p hp
    by_cases hne : p = []
    · subst hne
      exact ⟨[], [], by simp [base32Loop]⟩
    · obtain ⟨acc, pad, spare, hload, hle, hsize, hgroups, hspare⟩ := b32Load_groups hne
      obtain ⟨vs, tail, hletters, hlt, hflat, htail, hcount, hlen⟩ :=
        ih (p := p.drop 5) (by rw [length_drop]; omega)
      rw [length_drop] at hcount hlen
      have hloop : base32Loop (fuel + 1) p =
          (b32Groups acc (8 - padChars.getD pad 0)).map (b32Alpha.getD · 0) ++
            replicate (padChars.getD pad 0) 61 ++ base32Loop fuel (p.drop 5) := by
        rw [base32Loop, hload]
        exact hne
      have hdigit : ∀ v ∈ b32Groups acc (8 - padChars.getD pad 0), v < 2 ^ 5 := by
        intro v hv
        obtain ⟨k, -, rfl⟩ := mem_map.mp hv
        exact Nat.lt_succ_of_le Nat.and_le_right
      -- a turn has no spare bits, or it is the last one
      have hlast : spare = [] ∨ p.drop 5 = [] ∧ tail = [] := by
        by_cases hfull : 5 ≤ p.length
        · exact .inl (length_eq_zero_iff.mp (by omega))
        · have hdrop : p.drop 5 = [] := drop_eq_nil_of_le (by omega)
          obtain rfl : vs = [] := length_eq_zero_iff.mp (by omega)
          rw [hdrop] at hflat
          exact .inr ⟨hdrop, hflat.symm⟩
      refine ⟨b32Groups acc (8 - padChars.getD pad 0) ++ vs, spare ++ tail, ?_, ?_, ?_, ?_, ?_, ?_⟩
      · have hkeep : ((b32Groups acc (8 - padChars.getD pad 0)).map (b32Alpha.getD · 0)).filter
            (· ≠ 61) = (b32Groups acc (8 - padChars.getD pad 0)).map (b32Alpha.getD · 0) := by
          refine filter_eq_self.mpr fun c hc => ?_
          obtain ⟨v, hv, rfl⟩ := mem_map.mp hc
          exact decide_eq_true (b32CharVal_letter v (hdigit v hv)).2
        rw [hloop, filter_append, filter_append, hkeep, hletters]
        simp
      · intro v hv
        exact (mem_append.mp hv).elim (hdigit v) (hlt v)
      · have hdata : byteBits p = byteBits (p.take 5) ++ byteBits (p.drop 5) := by
          rw [← flatMap_append, take_append_drop]
        rw [flatMap_append, hgroups, hflat, hdata]
        rcases hlast with rfl | ⟨hdrop, rfl⟩
        · simp
        · simp [hdrop]
      · rw [length_append]
        rcases hlast with rfl | ⟨-, rfl⟩
        · simpa using htail
        · rw [length_nil]
          omega
      · rw [length_append, b32Groups, length_map, length_range]
        omega
      · rw [hloop, length_append, length_append, length_map,
          length_replicate, b32Groups, length_map, length_range]
        omega

/-! ## §3. The three codes. -/

/-- The data comes back, in no more than the computed length. -/
def Returns (data : List UInt8) (decoded : Option Filled) : Prop :=
  ∃ out ∈ decoded, out.text = data ∧ data.length ≤ out.size.toNat

/-- What is written, with the terminator, is no longer than the computed length. -/
def Filled.Fits (out : Filled) : Prop := out.written.length ≤ out.size.toNat

/-- A length of eighths is below 2⁶¹. -/
theorem Returns.short {data s alpha : List UInt8} (h : Returns data (b64DecodeImpl alpha s)) :
    data.length < 2 ^ 61 := by
  obtain ⟨out, hout, -, hlen⟩ := h
  obtain ⟨vs, -, rfl⟩ := Option.map_eq_some_iff.mp hout
  simp only [UInt64.toNat_div, UInt64.reduceToNat] at hlen
  have hlt := (strlen (stripPadding s) * 6).toNat_lt
  omega

/-- The computed length of the decoded text suffices if `k` digits of `w` bits
hold `n` bytes and can be counted. -/
theorem length_le_digits {s : List UInt8} {w : UInt64} {n : Nat} (hfit : s.length * w.toNat < 2 ^ 64)
    (hn : 8 * n ≤ s.length * w.toNat) : n ≤ (strlen s * w / 8).toNat := by
  have hmod : (strlen s * w).toNat = s.length * w.toNat := by
    rw [UInt64.toNat_mul, strlen, UInt64.toNat_ofNat', Nat.mod_mul_mod]
    exact Nat.mod_eq_of_lt hfit
  rw [UInt64.toNat_div, hmod]
  exact (Nat.le_div_iff_mul_le (by decide)).mpr (by rwa [Nat.mul_comm])

theorem b64Impl_returns {alpha data : List UInt8} (h : Readable alpha) (pad : Bool)
    (hlen : data.length < 2 ^ 61) :
    Returns data (b64DecodeImpl alpha (b64EncodeImpl alpha pad data)) ∧
      (b64EncodeImpl alpha pad data).length ≤ (data.length + 2) / 3 * 4 := by
  obtain ⟨n, hn, hpad⟩ : ∃ n ≤ (3 - data.length % 3) % 3,
      (if pad then replicate ((3 - data.length % 3) % 3) (61 : UInt8) else []) =
        replicate n 61 := by
    cases pad with
    | true => exact ⟨_, Nat.le_refl _, rfl⟩
    | false => exact ⟨0, Nat.zero_le _, rfl⟩
  have hcount := length_sextets data
  rw [b64EncodeImpl_eq, hpad]
  constructor
  · rw [b64DecodeImpl, b64Decoded_letters h, strip_letters h n (sextets_lt data)]
    refine ⟨_, rfl, rfl, ?_⟩
    refine length_le_digits ?_ ?_ <;> simp only [length_map, UInt64.reduceToNat] <;> omega
  · rw [length_append, length_map, length_replicate]
    obtain hr | hr | hr : data.length % 3 = 0 ∨ data.length % 3 = 1 ∨ data.length % 3 = 2 := by omega
    all_goals
      omega

theorem base32_returns {data : List UInt8} (hlen : data.length < 2 ^ 61) :
    Returns data (encodingBase32Decode (encodingBase32Encode data).text) ∧
      (encodingBase32Encode data).Fits := by
  obtain ⟨vs, tail, hletters, hlt, hflat, htail, hcount, hsize⟩ :=
    base32Loop_spec (Nat.le_refl data.length)
  constructor
  · have hread : (vs.map (b32Alpha.getD · 0)).mapM b32CharVal = some vs :=
      mapM_map_some fun v hv => (b32CharVal_letter v (hlt v hv)).1
    rw [encodingBase32Decode, encodingBase32Encode, hletters, hread]
    refine ⟨_, rfl, regroup_eq (by decide) (by decide) htail hlt (by decide) hflat, ?_⟩
    refine length_le_digits ?_ ?_ <;> simp only [length_map, UInt64.reduceToNat] <;> omega
  · simp only [Filled.Fits, Filled.written, encodingBase32Encode, length_append, length_singleton, strlen, UInt64.toNat_add, UInt64.toNat_mul, UInt64.toNat_div,
      UInt64.toNat_ofNat', UInt64.reduceToNat]
    omega

/-- **All three codes give the data back inside their computed lengths**, for
every array that fits an address space.  The only arrays on which a length
wraps are those whose bits cannot be counted in 64 bits. -/
theorem baseCodes_exact_iff (data : List UInt8) :
    (Returns data (b64DecodeImpl b64Std (encodingB64encode data).text) ∧
        Returns data (b64DecodeImpl b64Url (encodingB64urlencode data).text) ∧
        Returns data (encodingBase32Decode (encodingBase32Encode data).text) ∧
        (encodingB64encode data).Fits ∧ (encodingB64urlencode data).Fits ∧
        (encodingBase32Encode data).Fits) ↔
      8 * data.length < 2 ^ 64 := by
  have hstd : Readable b64Std := by
    unfold Readable
    decide +kernel
  constructor
  · intro h
    have hshort := h.1.short
    omega
  · intro hbits
    have hlen : data.length < 2 ^ 61 := by omega
    obtain ⟨h32, hfit⟩ := base32_returns hlen
    obtain ⟨hs, hslen⟩ := b64Impl_returns hstd true hlen
    obtain ⟨hu, hulen⟩ := b64Impl_returns b64Url_readable false hlen
    have hroom : ((strlen data + 2) / 3 * 4 + 1).toNat = (data.length + 2) / 3 * 4 + 1 := by
      simp only [strlen, UInt64.toNat_add, UInt64.toNat_mul, UInt64.toNat_div, UInt64.toNat_ofNat',
        UInt64.reduceToNat]
      omega
    by_cases hempty : data = []
    · subst hempty
      exact ⟨hs, hu, h32, by simp [Filled.Fits, Filled.written, encodingB64encode],
        by simp [Filled.Fits, Filled.written, encodingB64urlencode], hfit⟩
    · rw [encodingB64encode, encodingB64urlencode, if_neg hempty, if_neg hempty]
      refine ⟨hs, hu, h32, ?_, ?_, hfit⟩ <;>
        simp only [Filled.Fits, Filled.written, b64urlencode, length_append, length_singleton] <;>
        omega

end Toke.Stdlib
