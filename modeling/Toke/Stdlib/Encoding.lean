/-
  Toke.Stdlib.Encoding — **URL-SAFE BASE64** (`encoding.c`).

  Three bytes are written as four letters; one or two bytes left over as two
  or three, without padding.  The decoder collects six bits per letter in a
  32-bit accumulator that is never cleared, and emits a byte whenever eight
  bits have arrived.

    `b64urldecode_encode`   — decoding gives the encoded bytes back
    `b64urlencode_letters`  — the output is made of the alphabet's letters
-/
import Mathlib

namespace Toke.Stdlib

open List

/-- A text as bytes. -/
def ascii (s : String) : List UInt8 := s.toList.map Char.toUInt8

/-! ## §1. The code. -/

/-- `B64_URL`. -/
def b64Url : List UInt8 :=
  ascii "ABCDEFGHIJKLMNOPQRSTUVWXYZabcdefghijklmnopqrstuvwxyz0123456789-_"

/-- `B64_STD`. -/
def b64Std : List UInt8 :=
  ascii "ABCDEFGHIJKLMNOPQRSTUVWXYZabcdefghijklmnopqrstuvwxyz0123456789+/"

/-- `b64_encode_impl`: what it writes for an alphabet, with or without padding. -/
def b64EncodeImpl (alpha : List UInt8) (pad : Bool) : List UInt8 → List UInt8
  | [] => []
  | [a] => [at6 (a.toNat >>> 2), at6 (a.toNat <<< 4)] ++ if pad then [61, 61] else []
  | [a, b] =>
    [at6 (a.toNat >>> 2), at6 (a.toNat <<< 4 ||| b.toNat >>> 4), at6 (b.toNat <<< 2)] ++
      if pad then [61] else []
  | a :: b :: c :: rest =>
    at6 (a.toNat >>> 2) :: at6 (a.toNat <<< 4 ||| b.toNat >>> 4) ::
      at6 (b.toNat <<< 2 ||| c.toNat >>> 6) :: at6 c.toNat :: b64EncodeImpl alpha pad rest
where
  at6 (x : Nat) : UInt8 := alpha.getD (x &&& 0x3f) 0

/-- `encoding_b64urlencode`: what it writes. -/
def b64urlencode (data : List UInt8) : List UInt8 := b64EncodeImpl b64Url false data

/-- `b64_make_table`: the value of a letter, `none` for `-1`. -/
def letterValue (alpha : List UInt8) (c : UInt8) : Option Nat := alpha.findIdx? (· = c)

/-- The text without the trailing `=`. -/
def stripPadding (s : List UInt8) : List UInt8 := (s.reverse.dropWhile (· = 61)).reverse

/-- The loop of `b64_decode_impl`. -/
def decodeLoop : List Nat → Nat → Nat → List UInt8
  | [], _, _ => []
  | v :: vs, acc, bits =>
    let acc := (acc <<< 6 ||| v) % 2 ^ 32
    let bits := bits + 6
    if 8 ≤ bits then
      UInt8.ofNat ((acc >>> (bits - 8)) &&& 0xff) :: decodeLoop vs acc (bits - 8)
    else decodeLoop vs acc bits

/-- `b64_decode_impl`: the bytes it returns; any letter outside the alphabet
before the padding is an error. -/
def b64Decoded (alpha s : List UInt8) : Option (List UInt8) :=
  ((stripPadding s).mapM (letterValue alpha)).map fun vs => decodeLoop vs 0 0

/-- `encoding_b64urldecode`. -/
def b64urldecode (s : List UInt8) : Option (List UInt8) := b64Decoded b64Url s

/-! ## §2. The round trip. -/

/-- The six-bit values of the letters. -/
def sextets : List UInt8 → List Nat
  | [] => []
  | [a] => [a.toNat / 4, a.toNat % 4 * 16]
  | [a, b] => [a.toNat / 4, a.toNat % 4 * 16 + b.toNat / 16, b.toNat % 16 * 4]
  | a :: b :: c :: rest =>
    a.toNat / 4 :: (a.toNat % 4 * 16 + b.toNat / 16) :: (b.toNat % 16 * 4 + c.toNat / 64) ::
      c.toNat % 64 :: sextets rest

theorem shift_or (x y k : Nat) (hy : y < 2 ^ k) : x <<< k ||| y = x * 2 ^ k + y := by
  rw [← Nat.shiftLeft_add_eq_or_of_lt hy, Nat.shiftLeft_eq]

theorem sextets_lt (bs : List UInt8) : ∀ v ∈ sextets bs, v < 64 := by
  fun_induction sextets bs with
  | case1 => simp
  | case2 a =>
    have ha := a.toNat_lt
    simp
    omega
  | case3 a b =>
    have ha := a.toNat_lt
    have hb := b.toNat_lt
    simp
    omega
  | case4 a b c rest ih =>
    have ha := a.toNat_lt
    have hb := b.toNat_lt
    have hc := c.toNat_lt
    simp only [forall_mem_cons]
    exact ⟨by omega, by omega, by omega, by omega, ih⟩

theorem length_sextets (bs : List UInt8) : (sextets bs).length = (4 * bs.length + 2) / 3 := by
  fun_induction sextets bs with
  | case4 a b c rest ih =>
    simp only [length_cons]
    omega
  | _ => simp

/-- What is written is the letters of the six-bit values, and the padding. -/
theorem b64EncodeImpl_eq (alpha : List UInt8) (pad : Bool) (bs : List UInt8) :
    b64EncodeImpl alpha pad bs = (sextets bs).map (alpha.getD · 0) ++
      if pad then List.replicate ((3 - bs.length % 3) % 3) 61 else [] := by
  have hmask : ∀ x, x &&& 0x3f = x % 64 := fun x => Nat.and_two_pow_sub_one_eq_mod x 6
  have hjoin : ∀ (x : Nat) {y k j : Nat}, y < 2 ^ (j + k) →
      x <<< k ||| y >>> j = x * 2 ^ k + y / 2 ^ j := by
    intro x y k j hy
    rw [Nat.shiftRight_eq_div_pow, shift_or]
    exact Nat.div_lt_of_lt_mul (by rwa [← Nat.pow_add])
  have hword : ∀ {x y : Nat}, x % 64 = y → b64EncodeImpl.at6 alpha x = alpha.getD y 0 := by
    intro x y h
    rw [b64EncodeImpl.at6, hmask, h]
  fun_induction b64EncodeImpl alpha pad bs with
  | case1 => cases pad <;> rfl
  | case2 a =>
    have ha := a.toNat_lt
    rw [hword (y := a.toNat / 4) (by omega),
      hword (y := a.toNat % 4 * 16) (by omega)]
    rfl
  | case3 a b =>
    have ha := a.toNat_lt
    have hb := b.toNat_lt
    rw [hjoin _ b.toNat_lt,
      hword (y := a.toNat / 4) (by omega), hword (y := a.toNat % 4 * 16 + b.toNat / 16) (by omega),
      hword (y := b.toNat % 16 * 4) (by omega)]
    rfl
  | case4 a b c rest ih =>
    have ha := a.toNat_lt
    have hb := b.toNat_lt
    have hc := c.toNat_lt
    have hlen : (a :: b :: c :: rest).length % 3 = rest.length % 3 := Nat.add_mod_right _ 3
    rw [ih, hlen, hjoin _ b.toNat_lt, hjoin _ c.toNat_lt,
      hword (y := a.toNat / 4) (by omega), hword (y := a.toNat % 4 * 16 + b.toNat / 16) (by omega),
      hword (y := b.toNat % 16 * 4 + c.toNat / 64) (by omega), hword (y := c.toNat % 64) rfl]
    simp [sextets]

/-- The URL-safe text has no padding. -/
theorem b64urlencode_eq (bs : List UInt8) :
    b64urlencode bs = (sextets bs).map (b64Url.getD · 0) := by
  rw [b64urlencode, b64EncodeImpl_eq, if_neg (by decide), append_nil]

/-- An alphabet that can be read back, and has no `=`. -/
def Readable (alpha : List UInt8) : Prop :=
  ∀ v < 64, letterValue alpha (alpha.getD v 0) = some v ∧ alpha.getD v 0 ≠ 61

theorem b64Url_readable : Readable b64Url := by
  unfold Readable
  decide +kernel

/-- Letters that are read back one by one. -/
theorem mapM_map_some {f : Nat → UInt8} {g : UInt8 → Option Nat} {vs : List Nat}
    (h : ∀ v ∈ vs, g (f v) = some v) : (vs.map f).mapM g = some vs := by
  induction vs with
  | nil => rfl
  | cons v vs ih =>
    rw [map_cons, mapM_cons, h v mem_cons_self, ih fun u hu => h u (mem_cons_of_mem v hu)]
    rfl

/-- Stripping the padding. -/
theorem strip_letters {alpha : List UInt8} (h : Readable alpha) (n : Nat) {vs : List Nat}
    (hvs : ∀ v ∈ vs, v < 64) :
    stripPadding (vs.map (alpha.getD · 0) ++ List.replicate n 61) = vs.map (alpha.getD · 0) := by
  have hclean : (vs.map (alpha.getD · 0)).reverse.dropWhile (· = 61) =
      (vs.map (alpha.getD · 0)).reverse := by
    refine dropWhile_eq_self_iff.mpr fun hpos => ?_
    obtain ⟨v, hv, hc⟩ := mem_map.mp (mem_reverse.mp (getElem_mem hpos))
    rw [← hc]
    simpa using (h v (hvs v hv)).2
  rw [stripPadding, reverse_append, dropWhile_append_of_pos (by simp), hclean, reverse_reverse]

/-- **The output is made of the alphabet's letters.** -/
theorem b64urlencode_letters (bs : List UInt8) : ∀ c ∈ b64urlencode bs, c ∈ b64Url := by
  intro c hc
  rw [b64urlencode_eq] at hc
  obtain ⟨v, hv, rfl⟩ := mem_map.mp hc
  have hlt : v < b64Url.length := by
    exact sextets_lt bs v hv
  show b64Url.getD v 0 ∈ b64Url
  rw [getD_eq_getElem _ _ hlt]
  exact getElem_mem hlt

theorem decodeLoop_hold {v : Nat} (hv : v < 64) {bits : Nat} (hb : bits < 2) (vs : List Nat)
    (acc : Nat) : decodeLoop (v :: vs) acc bits = decodeLoop vs ((acc * 64 + v) % 2 ^ 32) (bits + 6) := by
  have hor : acc <<< 6 ||| v = acc * 64 + v := shift_or acc v 6 hv
  simp only [decodeLoop, hor]
  rw [if_neg (by omega)]

theorem decodeLoop_emit {v : Nat} (hv : v < 64) {bits : Nat} (hb : 2 ≤ bits) (vs : List Nat)
    (acc : Nat) : decodeLoop (v :: vs) acc bits =
      UInt8.ofNat ((acc * 64 + v) % 2 ^ 32 / 2 ^ (bits - 2) % 256) ::
        decodeLoop vs ((acc * 64 + v) % 2 ^ 32) (bits - 2) := by
  have hor : acc <<< 6 ||| v = acc * 64 + v := shift_or acc v 6 hv
  have hbits : bits + 6 - 8 = bits - 2 := by omega
  have hmask : ∀ x : Nat, x &&& 0xff = x % 256 := fun x => Nat.and_two_pow_sub_one_eq_mod x 8
  simp only [decodeLoop, hor, hbits, Nat.shiftRight_eq_div_pow, hmask]
  rw [if_pos (by omega)]

theorem ofNat_eq_of_toNat {x : Nat} {b : UInt8} (h : x = b.toNat) : UInt8.ofNat x = b := by
  rw [h, UInt8.ofNat_toNat]

/-- What is left in the accumulator does not reach the next bytes. -/
theorem decodeLoop_sextets (bs : List UInt8) : ∀ acc, decodeLoop (sextets bs) acc 0 = bs := by
  fun_induction sextets bs with
  | case1 => exact fun _ => rfl
  | case2 a =>
    intro acc
    have ha := a.toNat_lt
    rw [decodeLoop_hold (by omega) (by omega), decodeLoop_emit (by omega) (by omega)]
    simp only [decodeLoop]
    rw [ofNat_eq_of_toNat (b := a) (by omega)]
  | case3 a b =>
    intro acc
    have ha := a.toNat_lt
    have hb := b.toNat_lt
    rw [decodeLoop_hold (by omega) (by omega), decodeLoop_emit (by omega) (by omega),
      decodeLoop_emit (by omega) (by omega)]
    simp only [decodeLoop]
    rw [ofNat_eq_of_toNat (b := a) (by omega), ofNat_eq_of_toNat (b := b) (by omega)]
  | case4 a b c rest ih =>
    intro acc
    have ha := a.toNat_lt
    have hb := b.toNat_lt
    have hc := c.toNat_lt
    rw [decodeLoop_hold (by omega) (by omega), decodeLoop_emit (by omega) (by omega),
      decodeLoop_emit (by omega) (by omega), decodeLoop_emit (by omega) (by omega)]
    rw [ih, ofNat_eq_of_toNat (b := a) (by omega), ofNat_eq_of_toNat (b := b) (by omega),
      ofNat_eq_of_toNat (b := c) (by omega)]

/-- Decoding gives the bytes behind the letters, whatever the padding. -/
theorem b64Decoded_letters {alpha : List UInt8} (h : Readable alpha) (n : Nat) (bs : List UInt8) :
    b64Decoded alpha ((sextets bs).map (alpha.getD · 0) ++ List.replicate n 61) = some bs := by
  have hread : ((sextets bs).map (alpha.getD · 0)).mapM (letterValue alpha) = some (sextets bs) :=
    mapM_map_some fun v hv => (h v (sextets_lt bs v hv)).1
  rw [b64Decoded, strip_letters h n (sextets_lt bs), hread, Option.map_some, decodeLoop_sextets]

/-- **Decoding gives the encoded bytes back.** -/
theorem b64urldecode_encode (bs : List UInt8) : b64urldecode (b64urlencode bs) = some bs := by
  have hdecode := b64Decoded_letters b64Url_readable 0 bs
  rw [replicate_zero, append_nil] at hdecode
  rw [b64urldecode, b64urlencode_eq, hdecode]

end Toke.Stdlib
