/-
  Toke.Stdlib.Utf8 — **FOUR VALIDATORS OF UTF-8** (`encoding.c`, `csv.c`, `ws.c`, `str.c`).

  Each walks over the bytes and takes off one sequence per turn: a lead byte
  that says how many continuation bytes follow, and those bytes.  Three of
  them also decode the sequence and refuse overlong forms, surrogates and
  what lies above U+10FFFF; the fourth does not.

    `utf8_validators_exact`   — the three accept exactly the encodings of
                                sequences of Unicode scalar values
    `strFromBytes_agrees_iff` — when the fourth agrees with them
-/
import Toke.Stdlib.Encoding

namespace Toke.Stdlib

open List

/-! ## §1. The code. -/

/-- The classes of lead bytes: the bits of the code point in it, and the number
of bytes that follow. -/
def utf8Lead (b : UInt8) : Option (Nat × Nat) :=
  if b < 0x80 then some (b.toNat, 0)
  else if b &&& 0xe0 = 0xc0 then some ((b &&& 0x1f).toNat, 1)
  else if b &&& 0xf0 = 0xe0 then some ((b &&& 0x0f).toNat, 2)
  else if b &&& 0xf8 = 0xf0 then some ((b &&& 0x07).toNat, 3)
  else none

/-- The loop over the continuation bytes. -/
def utf8Tail : Nat → Nat → List UInt8 → Option (Nat × List UInt8)
  | 0, cp, p => some (cp, p)
  | _ + 1, _, [] => none
  | extra + 1, cp, c :: p =>
    if c &&& 0xc0 ≠ 0x80 then none else utf8Tail extra (cp <<< 6 ||| (c &&& 0x3f).toNat) p

/-- Overlong, a surrogate, or out of range. -/
def utf8Rejects (extra cp : Nat) : Bool :=
  (extra = 1 && cp < 0x80) || (extra = 2 && cp < 0x800) || (extra = 3 && cp < 0x10000) ||
    (0xd800 ≤ cp && cp ≤ 0xdfff) || 0x10ffff < cp

/-- One turn of a validator that decodes. -/
def utf8Turn (b : UInt8) (p : List UInt8) : Option (List UInt8) :=
  (utf8Lead b).bind fun (cp, extra) =>
    if extra = 0 then some p
    else (utf8Tail extra cp p).bind fun (cp, p) => if utf8Rejects extra cp then none else some p

/-- The loop of the validators; every turn uses up a byte. -/
def utf8Loop (turn : UInt8 → List UInt8 → Option (List UInt8)) : Nat → List UInt8 → Bool
  | _, [] => true
  | 0, _ => false
  | fuel + 1, b :: p => (turn b p).any (utf8Loop turn fuel)

/-- `encoding_utf8_validate`. -/
def encodingUtf8Validate (data : List UInt8) : Bool := utf8Loop utf8Turn data.length data

/-- The same loop over a payload. -/
def wsValidateUtf8 (payload : List UInt8) : Bool := utf8Loop utf8Turn payload.length payload

/-- `utf8_scan` from offset `i` and line `line` on: where the first bad sequence
starts, if there is one. -/
def utf8Scan : Nat → List UInt8 → Nat → Nat → Except (Nat × Nat) Unit
  | _, [], _, _ => .ok ()
  | 0, _, i, line => .error (i, line)
  | fuel + 1, c :: p, i, line =>
    if c = 0x0a then utf8Scan fuel p (i + 1) (line + 1)
    else
      match utf8Lead c with
      | none => .error (i, line)
      | some (_, 0) => utf8Scan fuel p (i + 1) line
      | some (cp, need + 1) =>
        if p.length < need + 1 then .error (i, line)
        else
          match utf8Tail (need + 1) cp p with
          | none => .error (i, line)
          | some (cp, p) =>
            if utf8Rejects (need + 1) cp then .error (i, line)
            else utf8Scan fuel p (i + (need + 1) + 1) line

/-- One turn of `is_valid_utf8`: the bytes must be there and have their marks. -/
def isValidTurn (c : UInt8) (p : List UInt8) : Option (List UInt8) :=
  (utf8Lead c).bind fun (_, extra) =>
    if p.length < extra ∨ (p.take extra).any (· &&& 0xc0 ≠ 0x80) then none else some (p.drop extra)

/-- `is_valid_utf8`. -/
def isValidUtf8 (b : List UInt8) : Bool := utf8Loop isValidTurn b.length b

/-- `str_from_bytes`: the text, or its error. -/
def strFromBytes (b : List UInt8) : Except String (List UInt8) :=
  if isValidUtf8 b then .ok b else .error "invalid UTF-8 encoding"

/-! ## §2. One sequence. -/

/-- The last `n` bytes of the encoding of `v`. -/
def utf8Digits (v : Nat) : Nat → List UInt8
  | 0 => []
  | n + 1 => UInt8.ofNat (v / 64 ^ n % 64 + 128) :: utf8Digits v n

/-- A lead byte with `n` bytes behind it and the bits `x` in it. -/
def utf8Head (n x : Nat) : UInt8 := UInt8.ofNat (x + (256 - 2 ^ (7 - n)))

theorem forall_byte {P : UInt8 → Prop} (h : ∀ n < 256, P (UInt8.ofNat n)) (b : UInt8) : P b := by
  have hb := h b.toNat b.toNat_lt
  rwa [UInt8.ofNat_toNat] at hb

theorem utf8Lead_some : ∀ b : UInt8, ∀ r ∈ utf8Lead b, r.2 < 4 ∧
    if r.2 = 0 then r.1 < 128 ∧ b = UInt8.ofNat r.1 else r.1 < 2 ^ (6 - r.2) ∧ b = utf8Head r.2 r.1 :=
  forall_byte (by decide +kernel)

theorem utf8Lead_head : (∀ x < 128, utf8Lead (UInt8.ofNat x) = some (x, 0)) ∧
    ∀ n < 4, n ≠ 0 → ∀ x < 2 ^ (6 - n), utf8Lead (utf8Head n x) = some (x, n) := by decide +kernel

theorem continuation_eq (c : UInt8) :
    (c &&& 0xc0 = 0x80 ↔ c = UInt8.ofNat (c.toNat % 64 + 128)) ∧ (c &&& 0x3f).toNat = c.toNat % 64 :=
  forall_byte (P := fun c => (c &&& 0xc0 = 0x80 ↔ c = UInt8.ofNat (c.toNat % 64 + 128)) ∧
    (c &&& 0x3f).toNat = c.toNat % 64) (by decide +kernel) c

/-- The continuation bytes of a sequence. -/
theorem utf8Tail_iff {v : Nat} {rest : List UInt8} : ∀ {n x : Nat} {p : List UInt8},
    utf8Tail n x p = some (v, rest) ↔ v / 64 ^ n = x ∧ p = utf8Digits v n ++ rest := by
  intro n
  induction n with
  | zero =>
    intro x p
    simp [utf8Tail, utf8Digits, eq_comm]
  | succ n ih =>
    intro x p
    cases p with
    | nil => simp [utf8Tail, utf8Digits]
    | cons c p =>
      obtain ⟨hmark, hlow⟩ := continuation_eq c
      have hjoin : x <<< 6 ||| (c &&& 0x3f).toNat = x * 64 + c.toNat % 64 := by
        rw [hlow]
        exact shift_or x _ 6 (Nat.mod_lt _ (by decide))
      have hdiv : v / 64 ^ (n + 1) = v / 64 ^ n / 64 := by rw [Nat.pow_succ, Nat.div_div_eq_div_mul]
      have hdigit : c = UInt8.ofNat (v / 64 ^ n % 64 + 128) → c.toNat % 64 = v / 64 ^ n % 64 := by
        rintro rfl
        rw [UInt8.toNat_ofNat']
        omega
      rw [utf8Tail, hjoin, utf8Digits, cons_append, cons.injEq]
      split
      · next hcont =>
          refine ⟨fun h => absurd h (by simp), fun h => absurd (hmark.mpr ?_) hcont⟩
          rw [hdigit h.2.1]
          exact h.2.1
      · next hcont =>
          rw [ih]
          have hc := hmark.mp (not_not.mp hcont)
          constructor
          · rintro ⟨hv, rfl⟩
            refine ⟨by omega, ?_, rfl⟩
            rwa [hv, show (x * 64 + c.toNat % 64) % 64 = c.toNat % 64 by omega]
          · rintro ⟨hv, hhead, rfl⟩
            have hlow := hdigit hhead
            exact ⟨by omega, rfl⟩

theorem utf8Rejects_eq_false {n v : Nat} : utf8Rejects n v = false ↔
    (n = 1 → 0x80 ≤ v) ∧ (n = 2 → 0x800 ≤ v) ∧ (n = 3 → 0x10000 ≤ v) ∧
      (v < 0xd800 ∨ 0xdfff < v) ∧ v ≤ 0x10ffff := by
  simp only [utf8Rejects, Bool.or_eq_false_iff, Bool.and_eq_false_iff, decide_eq_false_iff_not]
  omega

/-- A scalar value outside ASCII has one length that is accepted. -/
theorem exists_utf8Length {v : Nat} (hv : v.isValidChar) (h : 127 < v) :
    ∃ n, n ≠ 0 ∧ n < 4 ∧ v / 64 ^ n < 2 ^ (6 - n) ∧ utf8Rejects n v = false := by
  simp only [utf8Rejects_eq_false]
  rcases Nat.lt_or_ge v 0x800 with h1 | h1
  · exact ⟨1, by omega⟩
  · rcases Nat.lt_or_ge v 0x10000 with h2 | h2
    · exact ⟨2, by omega⟩
    · exact ⟨3, by omega⟩

/-- The encoding of a scalar value with `n` continuation bytes. -/
theorem utf8EncodeChar_eq {c : Char} {n : Nat} (h0 : n ≠ 0) (h4 : n < 4)
    (hlead : c.val.toNat / 64 ^ n < 2 ^ (6 - n)) (hok : utf8Rejects n c.val.toNat = false) :
    String.utf8EncodeChar c = utf8Head n (c.val.toNat / 64 ^ n) :: utf8Digits c.val.toNat n := by
  rw [utf8Rejects_eq_false] at hok
  unfold String.utf8EncodeChar
  generalize c.val.toNat = v at *
  have h1 : 1 ≤ n := by omega
  interval_cases n
  · rw [if_neg (by omega), if_pos (by omega), show v / 64 % 32 = v / 64 ^ 1 by omega]
    simp [utf8Head, utf8Digits]
  · rw [if_neg (by omega), if_neg (by omega), if_pos (by omega),
      show v / 4096 % 16 = v / 64 ^ 2 by omega]
    simp [utf8Head, utf8Digits]
  · rw [if_neg (by omega), if_neg (by omega), if_neg (by omega),
      show v / 262144 % 8 = v / 64 ^ 3 by omega]
    simp [utf8Head, utf8Digits]

/-- **A turn takes off the encoding of a scalar value.** -/
theorem utf8Turn_iff {b : UInt8} {p rest : List UInt8} :
    utf8Turn b p = some rest ↔ ∃ c : Char, b :: p = String.utf8EncodeChar c ++ rest := by
  have hascii : ∀ {c : Char}, c.val.toNat ≤ 127 → String.utf8EncodeChar c = [UInt8.ofNat c.val.toNat] :=
    fun h => if_pos h
  constructor
  · intro h
    obtain ⟨⟨x, n⟩, hlead, h⟩ := Option.bind_eq_some_iff.mp h
    obtain ⟨h4, hbyte⟩ := utf8Lead_some b _ hlead
    dsimp only at h hbyte h4
    split at h
    · next h0 =>
        rw [if_pos h0] at hbyte
        cases h
        obtain ⟨c, rfl⟩ : ∃ c : Char, c.val.toNat = x := ⟨Char.ofNatAux x (.inl (by omega)), Char.toNat_ofNatAux _⟩
        exact ⟨c, by rw [hascii (by omega), hbyte.2]; rfl⟩
    · next h0 =>
        rw [if_neg h0] at hbyte
        obtain ⟨⟨v, p'⟩, htail, h⟩ := Option.bind_eq_some_iff.mp h
        split at h
        · cases h
        · next hok =>
            cases h
            rw [Bool.not_eq_true] at hok
            obtain ⟨rfl, rfl⟩ := utf8Tail_iff.mp htail
            have hvalid := utf8Rejects_eq_false.mp hok
            obtain ⟨c, rfl⟩ : ∃ c : Char, c.val.toNat = v :=
              ⟨Char.ofNatAux v (by unfold Nat.isValidChar; omega), Char.toNat_ofNatAux _⟩
            exact ⟨c, by rw [utf8EncodeChar_eq h0 h4 hbyte.1 hok, hbyte.2]; rfl⟩
  · rintro ⟨c, hc⟩
    rcases Nat.lt_or_ge 127 c.val.toNat with hlarge | hsmall
    · obtain ⟨n, h0, h4, hlead, hok⟩ := exists_utf8Length c.valid hlarge
      rw [utf8EncodeChar_eq h0 h4 hlead hok, cons_append] at hc
      obtain ⟨rfl, rfl⟩ := cons.inj hc
      have htail : utf8Tail n (c.val.toNat / 64 ^ n) (utf8Digits c.val.toNat n ++ rest)
          = some (c.val.toNat, rest) := utf8Tail_iff.mpr ⟨rfl, rfl⟩
      unfold utf8Turn
      rw [utf8Lead_head.2 n h4 h0 _ hlead, Option.bind_some]
      dsimp only
      rw [if_neg h0, htail, Option.bind_some]
      rw [hok, if_neg (by decide)]
    · rw [hascii hsmall] at hc
      obtain ⟨rfl, rfl⟩ := cons.inj hc
      unfold utf8Turn
      rw [utf8Lead_head.1 _ (by omega)]
      rfl

/-! ## §3. Whole arrays. -/

/-- **The loop accepts what its turns take apart.** -/
theorem utf8Loop_iff {α : Type} {enc : α → List UInt8}
    {turn : UInt8 → List UInt8 → Option (List UInt8)}
    (hturn : ∀ {b p rest}, turn b p = some rest ↔ ∃ a, b :: p = enc a ++ rest)
    (hne : ∀ a, enc a ≠ []) : ∀ {fuel : Nat} {bs : List UInt8}, bs.length ≤ fuel →
    (utf8Loop turn fuel bs ↔ ∃ as : List α, bs = as.flatMap enc) := by
  intro fuel
  induction fuel with
  | zero =>
    intro bs hfuel
    obtain rfl : bs = [] := length_eq_zero_iff.mp (by omega)
    exact ⟨fun _ => ⟨[], rfl⟩, fun _ => by simp [utf8Loop]⟩
  | succ fuel ih =>
    intro bs hfuel
    cases bs with
    | nil => exact ⟨fun _ => ⟨[], rfl⟩, fun _ => by simp [utf8Loop]⟩
    | cons b p =>
      have hshort : ∀ {a rest}, b :: p = enc a ++ rest → rest.length ≤ fuel := by
        intro a rest heq
        have hlen := congrArg length heq
        have hpos := length_pos_of_ne_nil (hne a)
        simp only [length_append] at hlen hfuel
        omega
      rw [utf8Loop, Option.any_eq_true]
      constructor
      · rintro ⟨rest, hrest, hloop⟩
        obtain ⟨a, heq⟩ := hturn.mp hrest
        obtain ⟨as, rfl⟩ := (ih (hshort heq)).mp hloop
        exact ⟨a :: as, heq⟩
      · rintro ⟨as, heq⟩
        cases as with
        | nil => cases heq
        | cons a as =>
          exact ⟨_, hturn.mpr ⟨a, heq⟩, (ih (hshort heq)).mpr ⟨as, rfl⟩⟩

theorem utf8EncodeChar_ne_nil (c : Char) : String.utf8EncodeChar c ≠ [] := by
  unfold String.utf8EncodeChar
  dsimp only
  split_ifs <;> exact cons_ne_nil _ _

/-- What the loop over the continuation bytes leaves. -/
theorem utf8Tail_rest : ∀ {n x : Nat} {p : List UInt8}, (utf8Tail n x p).map Prod.snd =
    if p.length < n ∨ (p.take n).any (· &&& 0xc0 ≠ 0x80) then none else some (p.drop n) := by
  intro n
  induction n with
  | zero =>
    intro x p
    simp [utf8Tail]
  | succ n ih =>
    intro x p
    cases p with
    | nil => simp [utf8Tail]
    | cons c p =>
      by_cases hc : c &&& 0xc0 = 0x80
      · simp [utf8Tail, hc, ih]
      · simp [utf8Tail, hc]

/-- `utf8_scan` reports nothing exactly if the loop accepts. -/
theorem utf8Scan_iff {fuel : Nat} : ∀ {p : List UInt8} {i line : Nat}, p.length ≤ fuel →
    (utf8Scan fuel p i line = .ok () ↔ utf8Loop utf8Turn fuel p) := by
  induction fuel with
  | zero =>
    intro p i line hfuel
    obtain rfl : p = [] := length_eq_zero_iff.mp (by omega)
    simp [utf8Scan, utf8Loop]
  | succ fuel ih =>
    intro p i line hfuel
    cases p with
    | nil => simp [utf8Scan, utf8Loop]
    | cons c p =>
      have hp : p.length ≤ fuel := Nat.le_of_succ_le_succ hfuel
      rw [utf8Scan, utf8Loop, utf8Turn]
      by_cases hline : c = 0x0a
      · rw [hline]
        exact ih hp
      · rw [if_neg hline]
        obtain _ | ⟨x, _ | n⟩ := utf8Lead c
        · simp
        · exact ih hp
        · have hrest := utf8Tail_rest (n := n + 1) (x := x) (p := p)
          dsimp only [Option.bind_some]
          by_cases hshort : p.length < n + 1
          · rw [if_pos (.inl hshort), Option.map_eq_none_iff] at hrest
            simp [hrest]
          · rw [if_neg hshort]
            cases htail : utf8Tail (n + 1) x p with
            | none => simp
            | some r =>
              have hlen : r.2.length ≤ fuel := by
                rw [htail] at hrest
                split at hrest
                · cases hrest
                · rw [Option.some.inj hrest, length_drop]
                  omega
              by_cases hbad : utf8Rejects (n + 1) r.1
              · simp [hbad]
              · simp only [hbad, Option.bind_some]
                exact ih hlen

/-- **The three strict validators accept exactly UTF-8.** -/
theorem utf8_validators_exact (bs : List UInt8) :
    (encodingUtf8Validate bs = true ↔ ∃ cs : List Char, bs = cs.flatMap String.utf8EncodeChar) ∧
    (utf8Scan bs.length bs 0 1 = .ok () ↔ ∃ cs : List Char, bs = cs.flatMap String.utf8EncodeChar) ∧
    (wsValidateUtf8 bs = true ↔ ∃ cs : List Char, bs = cs.flatMap String.utf8EncodeChar) := by
  have hloop : utf8Loop utf8Turn bs.length bs = true ↔
      ∃ cs : List Char, bs = cs.flatMap String.utf8EncodeChar :=
    utf8Loop_iff utf8Turn_iff utf8EncodeChar_ne_nil (Nat.le_refl _)
  exact ⟨hloop, (utf8Scan_iff (Nat.le_refl _)).trans hloop, hloop⟩

/-! ## §4. The validator that does not decode. -/

/-- The sequences an array falls into by its lead bytes: the number of
continuation bytes and the code point of each. -/
def utf8Sequences : Nat → List UInt8 → Option (List (Nat × Nat))
  | _, [] => some []
  | 0, _ => none
  | fuel + 1, b :: p =>
    (utf8Lead b).bind fun (x, extra) =>
      (utf8Tail extra x p).bind fun (cp, p) => (utf8Sequences fuel p).map ((extra, cp) :: ·)

theorem isValidLoop_eq (fuel : Nat) : ∀ bs : List UInt8,
    utf8Loop isValidTurn fuel bs = (utf8Sequences fuel bs).isSome := by
  induction fuel with
  | zero => intro bs; cases bs <;> rfl
  | succ fuel ih =>
    intro bs
    cases bs with
    | nil => rfl
    | cons b p =>
      rw [utf8Loop, utf8Sequences, isValidTurn]
      obtain _ | ⟨x, n⟩ := utf8Lead b
      · rfl
      · have hrest := utf8Tail_rest (n := n) (x := x) (p := p)
        simp only [Option.bind_some]
        rw [← hrest]
        cases utf8Tail n x p with
        | none => rfl
        | some r => simp [ih]

theorem validateLoop_eq (fuel : Nat) : ∀ bs : List UInt8, utf8Loop utf8Turn fuel bs =
    (utf8Sequences fuel bs).any fun seqs => seqs.all fun q => !utf8Rejects q.1 q.2 := by
  induction fuel with
  | zero => intro bs; cases bs <;> rfl
  | succ fuel ih =>
    intro bs
    cases bs with
    | nil => rfl
    | cons b p =>
      rw [utf8Loop, utf8Sequences, utf8Turn]
      cases hlead : utf8Lead b with
      | none => rfl
      | some r =>
        obtain ⟨x, n⟩ := r
        have hbyte := (utf8Lead_some b _ hlead).2
        simp only [Option.bind_some]
        by_cases h0 : n = 0
        · subst h0
          rw [if_pos rfl] at hbyte
          have hok : utf8Rejects 0 x = false := by
            rw [utf8Rejects_eq_false]
            omega
          cases hrest : utf8Sequences fuel p <;> simp [utf8Tail, ih, hok, hrest]
        · rw [if_neg h0]
          cases utf8Tail n x p with
          | none => rfl
          | some t =>
            cases hbad : utf8Rejects n t.1 <;> cases hrest : utf8Sequences fuel t.2 <;>
              simp [ih, hbad, hrest]

/-- **`str_from_bytes` agrees with the strict validator** exactly on the arrays
whose sequences, if they have the right marks, are all in range. -/
theorem strFromBytes_agrees_iff (b : List UInt8) :
    ((∃ s, strFromBytes b = .ok s) ↔ encodingUtf8Validate b = true) ↔
      ∀ seqs ∈ utf8Sequences b.length b, ∀ q ∈ seqs, utf8Rejects q.1 q.2 = false := by
  have haccept : (∃ s, strFromBytes b = .ok s) ↔ (utf8Sequences b.length b).isSome = true := by
    rw [← isValidLoop_eq, strFromBytes]
    show _ ↔ isValidUtf8 b = true
    split
    · next h => simp [h]
    · next h => simp [h]
  rw [haccept, encodingUtf8Validate, validateLoop_eq]
  cases utf8Sequences b.length b <;> simp

/-- Two bytes for a NUL. -/
theorem strFromBytes_overlong : strFromBytes [0xc0, 0x80] = .ok [0xc0, 0x80] ∧
    encodingUtf8Validate [0xc0, 0x80] = false := by decide +kernel

end Toke.Stdlib
