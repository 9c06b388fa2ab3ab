/-
  Toke.Http2.Huffman — **HUFFMAN STRINGS ARE READ BACK.**

  `hpack_decode_string` keeps the bits it has not used in a number and takes a
  code off its top whenever the table has one there.  Read from the encoder's
  side: the bits of the codes still to come, with the padding behind them, are
  one number of known width, and the decoder holds its top (`Reading`).  A
  code is found exactly when all its bits have arrived, since no code of the
  table is the beginning of another.
-/
import Toke.Http2.HpackLimits

namespace Toke.Http2

open List

open Stdlib (CString)

variable {m pad v : Nat} {s : List UInt8} {st : HuffState}

/-! ## §1. The table. -/

theorem huffTable_bounds : ∀ e ∈ huffTable, 5 ≤ e.2 ∧ e.2 ≤ 30 ∧ e.1 < 2 ^ e.2 := by
  decide +kernel

/-- Continued to 30 bits in every way, two codes never meet. -/
def Distinct (a b : Nat × Nat) : Prop :=
  (a.1 + 1) * 2 ^ (30 - a.2) ≤ b.1 * 2 ^ (30 - b.2) ∨ (b.1 + 1) * 2 ^ (30 - b.2) ≤ a.1 * 2 ^ (30 - a.2)

instance (a b : Nat × Nat) : Decidable (Distinct a b) := inferInstanceAs (Decidable (_ ∨ _))

theorem huffTable_distinct : huffTable.Pairwise Distinct := by decide +kernel

theorem huffTable_apart {i j : Nat} {a b : Nat × Nat} (hi : huffTable[i]? = some a)
    (hj : huffTable[j]? = some b) (hne : i ≠ j) : Distinct a b := by
  obtain ⟨hi', rfl⟩ := List.getElem?_eq_some_iff.mp hi
  obtain ⟨hj', rfl⟩ := List.getElem?_eq_some_iff.mp hj
  have hpair := pairwise_iff_getElem.mp huffTable_distinct
  rcases Nat.lt_or_gt_of_ne hne with hlt | hlt
  · exact hpair i j hi' hj' hlt
  · exact (hpair j i hj' hi' hlt).symm

/-- **The beginning of a code is a code only if it is all of it.** -/
theorem hpackHuffDecodeSym_prefix {c x n : Nat} (hc : huffTable[c]? = some (x, n)) (hm : m ≤ n) :
    hpackHuffDecodeSym (x / 2 ^ (n - m)) m = if m = n then some c else none := by
  obtain ⟨-, h30, -⟩ := huffTable_bounds _ (mem_of_getElem? hc)
  cases hsym : hpackHuffDecodeSym (x / 2 ^ (n - m)) m with
  | none =>
    rw [if_neg]
    rintro rfl
    have hnot := findIdx?_eq_none_iff.mp hsym _ (mem_of_getElem? hc)
    simp at hnot
  | some i =>
    obtain ⟨hi, hfound, -⟩ := findIdx?_eq_some_iff_getElem.mp hsym
    have hentry : huffTable[i]? = some (x / 2 ^ (n - m), m) := by
      rw [getElem?_eq_getElem hi]
      simp only [Bool.and_eq_true, decide_eq_true_eq] at hfound
      exact congrArg some (Prod.ext hfound.2 hfound.1)
    -- the code lies among the continuations of what was found
    have hsame : i = c := by
      by_contra hne
      have hpow : 2 ^ (30 - m) = 2 ^ (n - m) * 2 ^ (30 - n) := by
        rw [← Nat.pow_add]
        congr 1
        omega
      have hlow := Nat.mul_le_mul_right (2 ^ (30 - n)) (Nat.div_mul_le_self x (2 ^ (n - m)))
      have hhigh := Nat.mul_lt_mul_of_pos_right
        (Nat.lt_mul_div_succ x (Nat.two_pow_pos (n - m))) (Nat.two_pow_pos (30 - n))
      have hpos := Nat.two_pow_pos (30 - n)
      rcases huffTable_apart hentry hc hne with h | h
      · rw [hpow] at h
        nlinarith
      · rw [hpow] at h
        nlinarith
    subst hsame
    have heq := Option.some.inj (hentry.symm.trans hc)
    rw [if_pos (congrArg Prod.snd heq)]

/-! ## §2. The encoding. -/

/-- The code of a character and its number of bits. -/
def huffCode (b : UInt8) : Nat × Nat := huffTable.getD b.toNat (0, 0)

/-- The codes of a text and `pad` ones behind them, as a number and its width. -/
def huffBits (pad : Nat) : List UInt8 → Nat × Nat
  | [] => (2 ^ pad - 1, pad)
  | b :: s =>
    ((huffCode b).1 * 2 ^ (huffBits pad s).2 + (huffBits pad s).1, (huffCode b).2 + (huffBits pad s).2)

/-- The ones that fill the last byte. -/
def huffPad (s : List UInt8) : Nat := (8 - (s.map fun b => (huffCode b).2).sum % 8) % 8

/-- `m` bytes, the most significant first. -/
def bigEndian (v : Nat) : Nat → List UInt8
  | 0 => []
  | m + 1 => UInt8.ofNat (v / 256 ^ m) :: bigEndian (v % 256 ^ m) m

/-- The Huffman encoding of RFC 7541, section 5.2. -/
def huffEncode (s : List UInt8) : List UInt8 :=
  bigEndian (huffBits (huffPad s) s).1 ((huffBits (huffPad s) s).2 / 8)

theorem huffCode_entry (b : UInt8) : huffTable[b.toNat]? = some (huffCode b) := by
  have hlen : huffTable.length = 257 := by decide +kernel
  have hlt := b.toNat_lt
  unfold huffCode
  rw [getD_eq_getElem?_getD, getElem?_eq_getElem (by omega)]
  rfl

theorem huffCode_bounds (b : UInt8) :
    5 ≤ (huffCode b).2 ∧ (huffCode b).2 ≤ 30 ∧ (huffCode b).1 < 2 ^ (huffCode b).2 :=
  huffTable_bounds _ (mem_of_getElem? (huffCode_entry b))

theorem huffBits_lt (pad : Nat) (s : List UInt8) : (huffBits pad s).1 < 2 ^ (huffBits pad s).2 := by
  induction s with
  | nil => exact Nat.sub_lt (Nat.two_pow_pos pad) Nat.one_pos
  | cons b s ih =>
    have hcode := (huffCode_bounds b).2.2
    show _ * _ + _ < 2 ^ (_ + _)
    rw [Nat.pow_add]
    nlinarith

theorem huffBits_width (pad : Nat) (s : List UInt8) :
    (huffBits pad s).2 = (s.map fun b => (huffCode b).2).sum + pad := by
  induction s with
  | nil => simp [huffBits]
  | cons b s ih =>
    rw [huffBits, map_cons, sum_cons]
    omega

theorem length_bigEndian (m : Nat) : ∀ v, (bigEndian v m).length = m := by
  induction m with
  | zero => exact fun v => rfl
  | succ m ih => exact fun v => congrArg (· + 1) (ih _)

/-! ## §3. The decoder follows the codes. -/

/-- The decoder holds the top of the number that is still to be read; the `m`
bytes of `v` are to come. -/
structure Reading (pad : Nat) (s : List UInt8) (m v : Nat) (st : HuffState) : Prop where
  going : st.done = false
  width : st.nbits + 8 * m = (huffBits pad s).2
  bits : st.bits = (huffBits pad s).1 / 256 ^ m
  rest : (huffBits pad s).1 % 256 ^ m = v

/-- The next code has not arrived. -/
def Waits (s : List UInt8) (st : HuffState) : Prop := ∀ b ∈ s.head?, st.nbits < (huffCode b).2

theorem pow_256 (m : Nat) : 256 ^ m = 2 ^ (8 * m) := by rw [Nat.pow_mul]

/-- The search of the decoder: it finds the next code once all of it is there. -/
theorem huffMatch_code {b : UInt8} (h : Reading pad (b :: s) m v st) : huffMatch st.bits st.nbits =
      if (huffCode b).2 ≤ st.nbits then some (b.toNat, (huffCode b).2) else none := by
  obtain ⟨h5, h30, hcode⟩ := huffCode_bounds b
  have hwidth : st.nbits + 8 * m = (huffCode b).2 + (huffBits pad s).2 := h.width
  -- the first `k` bits of the number are the first `k` bits of the code
  have htop : ∀ k ≤ st.nbits, k ≤ (huffCode b).2 →
      st.bits / 2 ^ (st.nbits - k) % 2 ^ k = (huffCode b).1 / 2 ^ ((huffCode b).2 - k) := by
    intro k hk hk'
    have hvalue : (huffBits pad (b :: s)).1 / 2 ^ (huffBits pad s).2 = (huffCode b).1 := by
      show ((huffCode b).1 * 2 ^ (huffBits pad s).2 + (huffBits pad s).1) / _ = _
      rw [Nat.mul_comm, Nat.mul_add_div (Nat.two_pow_pos _), Nat.div_eq_of_lt (huffBits_lt pad s),
        Nat.add_zero]
    have hlt : (huffCode b).1 / 2 ^ ((huffCode b).2 - k) < 2 ^ k := by
      rw [Nat.div_lt_iff_lt_mul (Nat.two_pow_pos _), ← Nat.pow_add]
      rwa [show k + ((huffCode b).2 - k) = (huffCode b).2 by omega]
    rw [h.bits, pow_256, Nat.div_div_eq_div_mul, ← Nat.pow_add,
      show 8 * m + (st.nbits - k) = (huffBits pad s).2 + ((huffCode b).2 - k) by omega,
      Nat.pow_add, ← Nat.div_div_eq_div_mul, hvalue, Nat.mod_eq_of_lt hlt]
  have hsearch : ∀ k, k ≤ (huffCode b).2 → (if k ≤ st.nbits then
      (hpackHuffDecodeSym (st.bits / 2 ^ (st.nbits - k) % 2 ^ k) k).map (·, k) else none) =
      if k ≤ st.nbits ∧ k = (huffCode b).2 then some (b.toNat, k) else none := by
    intro k hk
    by_cases hn : k ≤ st.nbits
    · rw [if_pos hn, htop k hn hk, hpackHuffDecodeSym_prefix (x := (huffCode b).1)
        (n := (huffCode b).2) (huffCode_entry b) hk]
      by_cases heq : k = (huffCode b).2
      · rw [if_pos heq, if_pos ⟨hn, heq⟩]
        rfl
      · rw [if_neg heq, if_neg fun h => heq h.2]
        rfl
    · simp [hn]
  unfold huffMatch
  split
  · next hn =>
      rw [findSome?_eq_some_iff]
      refine ⟨range' 5 ((huffCode b).2 - 5), (huffCode b).2,
        range' ((huffCode b).2 + 1) (30 - (huffCode b).2), ?_, ?_, ?_⟩
      · rw [← range'_succ, show 26 = (huffCode b).2 - 5 + (30 - (huffCode b).2 + 1) by omega,
          ← range'_append_1, show 5 + ((huffCode b).2 - 5) = (huffCode b).2 by omega]
      · rw [hsearch _ (Nat.le_refl _), if_pos ⟨hn, rfl⟩]
      · intro k hk
        rw [mem_range'_1] at hk
        rw [hsearch k (by omega), if_neg (by omega)]
  · next hn =>
      rw [findSome?_eq_none_iff]
      intro k hk
      by_cases hkn : k ≤ st.nbits
      · rw [hsearch k (by omega), if_neg (by omega)]
      · rw [if_neg hkn]

/-- Padding is no code. -/
theorem huffMatch_pad : ∀ n < 8, huffMatch (2 ^ n - 1) n = none := by decide +kernel

theorem Reading.bits_lt (h : Reading pad s m v st) : st.bits < 2 ^ st.nbits := by
  rw [h.bits, Nat.div_lt_iff_lt_mul (Nat.pow_pos (by decide)), pow_256, ← Nat.pow_add, h.width]
  exact huffBits_lt pad s

/-- A code is taken off the top. -/
theorem Reading.take {b : UInt8} (h : Reading pad (b :: s) m v st) (hn : (huffCode b).2 ≤ st.nbits)
    (out : List UInt8) :
    Reading pad s m v
      { st with
        bits := st.bits % 2 ^ (st.nbits - (huffCode b).2)
        nbits := st.nbits - (huffCode b).2
        out := out } := by
  have hwidth : st.nbits + 8 * m = (huffCode b).2 + (huffBits pad s).2 := h.width
  have hpow : 2 ^ (huffBits pad s).2 = 256 ^ m * 2 ^ (st.nbits - (huffCode b).2) := by
    rw [pow_256, ← Nat.pow_add]
    congr 1
    omega
  have hvalue : (huffBits pad (b :: s)).1 % 2 ^ (huffBits pad s).2 = (huffBits pad s).1 := by
    show (_ * _ + _) % _ = _
    rw [Nat.mul_comm, Nat.mul_add_mod, Nat.mod_eq_of_lt (huffBits_lt pad s)]
  rw [hpow] at hvalue
  refine ⟨h.going, by show st.nbits - _ + 8 * m = _; omega, ?_, ?_⟩
  · show st.bits % _ = _
    rw [h.bits, ← hvalue, Nat.mod_mul_right_div_self]
  · rw [← hvalue, Nat.mod_mul_right_mod, h.rest]

/-- All codes that are there are taken off. -/
theorem huffDrain_reading (hpad : pad < 8) : ∀ {fuel : Nat} {s : List UInt8}
    {st : HuffState}, st.nbits ≤ fuel → Reading pad s m v st →
    ∃ k, (huffDrain fuel st).out = st.out ++ s.take k ∧
      Reading pad (s.drop k) m v (huffDrain fuel st) ∧ Waits (s.drop k) (huffDrain fuel st) := by
  intro fuel
  induction fuel with
  | zero =>
    intro s st hfuel h
    refine ⟨0, by simp [huffDrain], h, fun b _ => ?_⟩
    have h5 := (huffCode_bounds b).1
    show st.nbits < _
    omega
  | succ fuel ih =>
    intro s st hfuel h
    unfold huffDrain
    split
    · refine ⟨0, by simp, h, fun b _ => ?_⟩
      have h5 := (huffCode_bounds b).1
      omega
    · cases s with
      | nil =>
        have hwidth : st.nbits + 8 * m = pad := h.width
        have hm : m = 0 := by omega
        have hbits : st.bits = (2 ^ pad - 1) / 256 ^ m := h.bits
        subst hm
        rw [Nat.pow_zero, Nat.div_one, show pad = st.nbits by omega] at hbits
        rw [hbits, huffMatch_pad _ (by omega)]
        exact ⟨0, by simp, h, fun b hb => by cases hb⟩
      | cons b s =>
        rw [huffMatch_code h]
        split
        · next hnone =>
            split at hnone
            · cases hnone
            · next hn => exact ⟨0, by simp, h, fun c hc => by cases hc; exact Nat.not_le.mp hn⟩
        · next sym blen hsome =>
            split at hsome
            · next hn =>
                cases hsome
                have hlt := b.toNat_lt
                have h5 := (huffCode_bounds b).1
                rw [if_neg (by omega)]
                obtain ⟨k, hout, hreading, hwaits⟩ := ih (s := s) (by show st.nbits - _ ≤ fuel; omega)
                  (h.take hn (st.out ++ [UInt8.ofNat b.toNat]))
                refine ⟨k + 1, ?_, hreading, hwaits⟩
                rw [hout, UInt8.ofNat_toNat, take_succ_cons, append_assoc, singleton_append]
            · cases hsome

/-- One byte further. -/
theorem huffStep_reading (hpad : pad < 8) (h : Reading pad s (m + 1) v st) (hwaits : Waits s st) :
    ∃ k, (huffStep st (UInt8.ofNat (v / 256 ^ m))).out = st.out ++ s.take k ∧
      Reading pad (s.drop k) m (v % 256 ^ m) (huffStep st (UInt8.ofNat (v / 256 ^ m))) ∧
      Waits (s.drop k) (huffStep st (UInt8.ofNat (v / 256 ^ m))) := by
  -- the bits that wait are fewer than a code's, so they stay below 64
  have hfew : st.nbits < 30 := by
    cases s with
    | nil =>
      have hwidth : st.nbits + 8 * (m + 1) = pad := h.width
      omega
    | cons b s =>
      have hlt := hwaits b rfl
      have h30 := (huffCode_bounds b).2.1
      omega
  have hbits : st.bits < 2 ^ 30 := h.bits_lt.trans (Nat.pow_lt_pow_right (by decide) hfew)
  have hbyte : v / 256 ^ m < 256 := by
    rw [Nat.div_lt_iff_lt_mul (Nat.pow_pos (by decide)), ← Nat.pow_succ', ← h.rest]
    exact Nat.mod_lt _ (Nat.pow_pos (by decide))
  have hnext : st.bits * 256 + v / 256 ^ m = (huffBits pad s).1 / 256 ^ m := by
    rw [h.bits, ← h.rest, Nat.pow_succ, Nat.mod_mul_right_div_self, ← Nat.div_div_eq_div_mul, Nat.mul_comm]
    exact Nat.div_add_mod _ _
  unfold huffStep
  rw [h.going, UInt8.toNat_ofNat', Nat.mod_eq_of_lt hbyte,
    Nat.mod_eq_of_lt (by omega), hnext]
  refine huffDrain_reading hpad (Nat.le_refl _) ⟨rfl, ?_, rfl, ?_⟩
  · have hwidth := h.width
    show st.nbits + 8 + 8 * m = _
    omega
  · rw [← h.rest, Nat.pow_succ, Nat.mod_mul_right_mod]

/-- The first `j` of the bytes to come. -/
theorem foldl_huffStep_reading (hpad : pad < 8) : ∀ {m j v : Nat} {s : List UInt8}
    {st : HuffState}, j ≤ m → Reading pad s m v st → Waits s st →
    ∃ k v' st', (((bigEndian v m).take j).foldl huffStep st).out = st.out ++ s.take k ∧
      Reading pad (s.drop k) (m - j) v' st' ∧ Waits (s.drop k) st' := by
  intro m
  induction m with
  | zero =>
    intro j v s st hj h hwaits
    obtain rfl : j = 0 := by omega
    exact ⟨0, v, st, by simp, h, hwaits⟩
  | succ m ih =>
    intro j v s st hj h hwaits
    cases j with
    | zero => exact ⟨0, v, st, by simp, h, hwaits⟩
    | succ j =>
      obtain ⟨k, hout, hreading, hwaits'⟩ := huffStep_reading hpad h hwaits
      obtain ⟨k', v', st', hout', hreading', hwaits''⟩ := ih (Nat.le_of_succ_le_succ hj) hreading hwaits'
      rw [drop_drop] at hreading' hwaits''
      refine ⟨k + k', v', st', ?_, by rwa [Nat.add_sub_add_right], hwaits''⟩
      rw [bigEndian, take_succ_cons, foldl_cons, hout', hout, append_assoc, take_add]

/-- Every symbol takes at least five bits. -/
theorem huffDrain_length (fuel : Nat) : ∀ st : HuffState,
    5 * (huffDrain fuel st).out.length + (huffDrain fuel st).nbits ≤ 5 * st.out.length + st.nbits := by
  induction fuel with
  | zero => exact fun st => Nat.le_refl _
  | succ fuel ih =>
    intro st
    unfold huffDrain
    split
    · exact Nat.le_refl _
    · split
      · exact Nat.le_refl _
      · next sym blen hmatch =>
          split
          · exact Nat.le_refl _
          · have hblen : 5 ≤ blen ∧ blen ≤ st.nbits := by
              obtain ⟨k, hk, hfound⟩ := exists_of_findSome?_eq_some hmatch
              split at hfound
              · obtain ⟨i, -, heq⟩ := Option.map_eq_some_iff.mp hfound
                cases heq
                rw [mem_range'_1] at hk
                omega
              · cases hfound
            refine (ih _).trans ?_
            simp only [length_append, length_singleton]
            omega

/-- **At most two characters for each byte.** -/
theorem length_huffDecode (bs : List UInt8) : (huffDecode bs).length ≤ 2 * bs.length := by
  have hrun : ∀ (bs : List UInt8) (st : HuffState),
      5 * (bs.foldl huffStep st).out.length ≤ 5 * st.out.length + st.nbits + 8 * bs.length := by
    intro bs
    induction bs with
    | nil =>
      intro st
      show 5 * st.out.length ≤ _
      omega
    | cons b bs ih =>
      intro st
      have hrest := ih (huffStep st b)
      have hstep : 5 * (huffStep st b).out.length + (huffStep st b).nbits
          ≤ 5 * st.out.length + st.nbits + 8 := by
        unfold huffStep
        split
        · omega
        · refine (huffDrain_length _ _).trans ?_
          simp only
          omega
      rw [foldl_cons, length_cons]
      omega
  have hall := hrun bs ⟨0, 0, [], false⟩
  simp only [length_nil] at hall
  unfold huffDecode
  omega

/-- **Huffman codes come back**: all of them from all bytes, and only some from
fewer bytes. -/
theorem huffDecode_take (s : List UInt8) {j : Nat} (hj : j ≤ (huffEncode s).length) :
    ∃ k, huffDecode ((huffEncode s).take j) = s.take k ∧
      (s.length ≤ k ↔ j = (huffEncode s).length) := by
  have hpad : huffPad s < 8 := Nat.mod_lt _ (by decide)
  have hwidth : 8 * ((huffBits (huffPad s) s).2 / 8) = (huffBits (huffPad s) s).2 := by
    have hsum := huffBits_width (huffPad s) s
    unfold huffPad at hsum ⊢
    omega
  have hlt : (huffBits (huffPad s) s).1 < 256 ^ ((huffBits (huffPad s) s).2 / 8) := by
    rw [pow_256, hwidth]
    exact huffBits_lt _ s
  have hlen : (huffEncode s).length = (huffBits (huffPad s) s).2 / 8 := length_bigEndian _ _
  have hstart : Reading (huffPad s) s ((huffBits (huffPad s) s).2 / 8) (huffBits (huffPad s) s).1
      ⟨0, 0, [], false⟩ :=
    ⟨rfl, by rw [hwidth]; exact Nat.zero_add _, (Nat.div_eq_of_lt hlt).symm, Nat.mod_eq_of_lt hlt⟩
  have hwaits : Waits s ⟨0, 0, [], false⟩ := fun b _ => Nat.lt_of_lt_of_le (by decide) (huffCode_bounds b).1
  rw [hlen] at hj ⊢
  obtain ⟨k, v, st, hout, hreading, hstuck⟩ := foldl_huffStep_reading hpad hj hstart hwaits
  refine ⟨k, hout, ?_⟩
  rw [← drop_eq_nil_iff]
  have hrest := hreading.width
  constructor
  · intro hnil
    rw [hnil] at hrest
    have hpadding : (huffBits (huffPad s) []).2 = huffPad s := rfl
    omega
  · intro hall
    cases hdrop : s.drop k with
    | nil => rfl
    | cons b rest =>
      rw [hdrop] at hrest hstuck
      have hcode := hstuck b rfl
      have hsum : (huffBits (huffPad s) (b :: rest)).2
          = (huffCode b).2 + (huffBits (huffPad s) rest).2 := rfl
      omega

/-! ## §4. String literals. -/

/-- The bytes of any integer behind the Huffman mark. -/
def markedLength (n : Nat) : List UInt8 :=
  if n < 127 then [0x80 ||| UInt8.ofNat n] else 0xFF :: groups (n + 1) (n - 127)

/-- The string literal of RFC 7541, section 5.2, with the Huffman mark. -/
def huffLiteral (s : CString) : List UInt8 :=
  markedLength (huffEncode s.bytes).length ++ huffEncode s.bytes

theorem hpackDecodeInt_markedLength (n : Nat) (r : List UInt8) :
    hpackDecodeInt (markedLength n ++ r) 7 = some (n % 2 ^ 32, r) ∨
      2 ^ 32 ≤ n ∧ hpackDecodeInt (markedLength n ++ r) 7 = none := by
  unfold markedLength
  split
  · next hsmall =>
      have hint := hpackDecodeInt_intBytes (show Marks 7 0x80 by decide +kernel)
        (show n < 2 ^ 32 by omega) r
      rw [intBytes, if_pos (show n < (lowMask 7).toNat from hsmall)] at hint
      exact .inl (by rw [hint, Nat.mod_eq_of_lt (by omega)])
  · next hlarge =>
      have hgroups := decodeGroups_groups_mod n (n - 127) 127 0 r
        ((Nat.sub_le n 127).trans_lt (Nat.lt_pow_self (by decide) |>.trans
          (Nat.pow_lt_pow_right (by decide) (Nat.lt_succ_self n)))) (by decide)
      rw [Nat.pow_zero, Nat.mul_one, show 127 + (n - 127) = n by omega] at hgroups
      have hfirst : hpackDecodeInt (0xFF :: (groups (n + 1) (n - 127) ++ r)) 7
          = decodeGroups (groups (n + 1) (n - 127) ++ r) 127 0 := by
        unfold hpackDecodeInt
        dsimp only
        rw [if_neg (by decide)]
        rfl
      rw [cons_append, hfirst]
      exact hgroups.imp_right fun h => ⟨by omega, h.2⟩

theorem markedLength_head (n : Nat) : ∃ b rest, markedLength n = b :: rest ∧ b &&& 0x80 ≠ 0 := by
  unfold markedLength
  split
  · next hsmall => exact ⟨_, [], rfl, field_mark.1 n (Nat.le_of_lt hsmall)⟩
  · exact ⟨_, _, rfl, by decide⟩

/-- A Huffman literal is read with the length modulo `2 ^ 32`, into a block whose
size is computed modulo `2 ^ 32`. -/
theorem hpackDecodeString_huffLiteral (s : CString) (r : List UInt8) :
    let slen := (huffEncode s.bytes).length % 2 ^ 32
    hpackDecodeString (huffLiteral s ++ r) =
        (intoBlock (slen * 2 + 1) (huffDecode ((huffEncode s.bytes).take slen))).map
          (·, (huffEncode s.bytes).drop slen ++ r) ∨
      2 ^ 32 ≤ (huffEncode s.bytes).length ∧ hpackDecodeString (huffLiteral s ++ r) = none := by
  have hint := hpackDecodeInt_markedLength (huffEncode s.bytes).length (huffEncode s.bytes ++ r)
  obtain ⟨b, rest, hhead, hmark⟩ := markedLength_head (huffEncode s.bytes).length
  have hle := Nat.mod_le (huffEncode s.bytes).length (2 ^ 32)
  dsimp only
  unfold huffLiteral
  rw [append_assoc]
  rw [hhead, cons_append] at hint ⊢
  unfold hpackDecodeString
  dsimp only
  rcases hint with hint | ⟨hlarge, hint⟩
  · left
    rw [hint, Option.bind_some]
    rw [if_neg (by rw [length_append]; omega), if_pos hmark,
      take_append_of_le_length hle, drop_append_of_le_length hle]
  · right
    rw [hint]
    exact ⟨hlarge, rfl⟩

/-- The length of the literal fits into 32 bits, and the string into the block
that is allocated for it. -/
def FitsBlock (s : CString) : Prop :=
  (huffEncode s.bytes).length < 2 ^ 32 ∧
    s.length < ((huffEncode s.bytes).length * 2 + 1) % 2 ^ 32

/-- A string that fits is read back. -/
theorem huffLiteral_read {s : CString} (h : FitsBlock s) (r : List UInt8) :
    hpackDecodeString (huffLiteral s ++ r) = some (s, r) := by
  obtain ⟨hlen, hblock⟩ := h
  rcases hpackDecodeString_huffLiteral s r with hread | ⟨hlarge, -⟩
  · obtain ⟨k, hdecode, hfull⟩ := huffDecode_take s.bytes (Nat.le_refl _)
    rw [Nat.mod_eq_of_lt hlen, hdecode, take_of_length_le (hfull.mpr rfl), drop_length, intoBlock,
      if_pos (show s.bytes.length < _ from hblock), CString.ofBytes_bytes] at hread
    exact hread
  · omega

/-- A string that does not fit is lost. -/
theorem huffLiteral_lost {s : CString} (h : ¬ FitsBlock s) (r : List UInt8) :
    hpackDecodeString (huffLiteral s ++ r) ≠ some (s, r) := by
  intro heq
  rcases hpackDecodeString_huffLiteral s r with hread | ⟨-, hread⟩
  · obtain ⟨k, hdecode, hfull⟩ := huffDecode_take s.bytes (Nat.mod_le (huffEncode s.bytes).length (2 ^ 32))
    rw [hread, hdecode, intoBlock] at heq
    split at heq
    · next hblock =>
        -- all characters came back, so all bytes were read and the block was large enough
        have hbytes := congrArg (fun p => p.1.bytes.length) (Option.some.inj heq)
        have hle : (CString.ofBytes (s.bytes.take k)).bytes.length ≤ (s.bytes.take k).length :=
          (takeWhile_sublist _).length_le
        rw [length_take] at hle hblock
        simp only at hbytes
        have hall := hfull.mp (by omega)
        rw [hall] at hblock
        refine h ⟨by omega, ?_⟩
        unfold CString.length
        omega
    · cases heq
  · rw [hread] at heq
    cases heq

/-- **Huffman literals are read back** exactly if their length fits into the
32 bits it is read with and the string into the block of `2 * slen + 1` bytes,
computed in 32 bits; never more than two characters for a byte are written. -/
theorem hpackDecodeString_huffman_iff (s : CString) (r : List UInt8) :
    (hpackDecodeString (huffLiteral s ++ r) = some (s, r) ↔
      (huffEncode s.bytes).length < 2 ^ 32 ∧
        s.length < ((huffEncode s.bytes).length * 2 + 1) % 2 ^ 32) ∧
      ∀ bs, (huffDecode bs).length ≤ 2 * bs.length := by
  refine ⟨⟨fun h => ?_, fun h => huffLiteral_read h r⟩, length_huffDecode⟩
  by_contra hlost
  exact huffLiteral_lost hlost r h

/-- The digit 0 takes five bits. -/
theorem length_huffEncode_zeros {n : Nat} (h : s = List.replicate (8 * n) 48) :
    (huffEncode s).length = 5 * n := by
  have hsum : (s.map fun b => (huffCode b).2).sum = 8 * n * 5 := by
    rw [h, map_replicate, sum_replicate, show (huffCode 48).2 = 5 by decide +kernel, smul_eq_mul]
  have hlen : (huffEncode s).length = (huffBits (huffPad s) s).2 / 8 := length_bigEndian _ _
  rw [hlen, huffBits_width, huffPad]
  omega

/-- So many digits 0 that they take `2 ^ 31 + 2` bytes. -/
def zeros : CString where
  bytes := List.replicate (8 * 429496730) 48
  nulFree := fun h => absurd (List.eq_of_mem_replicate h) (by decide)

/-- They are written into a block of 5 bytes. -/
theorem zeros_lost : (huffEncode zeros.bytes).length = 2 ^ 31 + 2 ∧
    hpackDecodeString (huffLiteral zeros ++ []) ≠ some (zeros, []) := by
  have hlen := length_huffEncode_zeros (s := zeros.bytes) (n := 429496730) rfl
  refine ⟨hlen, huffLiteral_lost (fun h => ?_) []⟩
  have hzeros : zeros.length = 8 * 429496730 := length_replicate
  have hblock := h.2
  rw [hlen, hzeros] at hblock
  omega

end Toke.Http2
