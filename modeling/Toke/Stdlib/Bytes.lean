/-
  Toke.Stdlib.Bytes — **C STRINGS**: bytes up to a NUL, and the functions of
  `ctype.h` and `strings.h` in the C locale.
-/
import Mathlib

namespace Toke.Stdlib

open List

/-- `isspace`. -/
def isSpace (c : UInt8) : Bool := c = 32 || (9 ≤ c && c ≤ 13)

/-- `isdigit`. -/
def isDecimal (c : UInt8) : Bool := 48 ≤ c && c ≤ 57

/-- A blank or a tab. -/
def isBlank (c : UInt8) : Bool := c = 32 || c = 9

/-- The text without what is blank at its end. -/
def trimEnd (blank : UInt8 → Bool) (s : List UInt8) : List UInt8 := (s.reverse.dropWhile blank).reverse

/-- The text without what is blank around it. -/
def trim (blank : UInt8 → Bool) (s : List UInt8) : List UInt8 := trimEnd blank (s.dropWhile blank)

/-- `tolower`. -/
def lower (c : UInt8) : UInt8 := if 65 ≤ c && c ≤ 90 then c + 32 else c

/-- `strncasecmp(s, name, strlen(name)) == 0`. -/
def startsNoCase (name s : List UInt8) : Bool := (s.take name.length).map lower = name.map lower

/-- `strcasecmp(s, t) == 0`. -/
def sameNoCase (s t : List UInt8) : Bool := s.map lower = t.map lower

/-- A buffer as C code sees it: up to the first NUL. -/
def cstr (s : List UInt8) : List UInt8 := s.takeWhile (· ≠ 0)

theorem cstr_of_not_mem {s : List UInt8} (h : 0 ∉ s) : cstr s = s := by
  refine takeWhile_eq_self_iff.mpr fun c hc => ?_
  rw [decide_eq_true_eq]
  rintro rfl
  exact h hc

/-- The bytes before the terminator. -/
structure CString where
  bytes : List UInt8
  nulFree : 0 ∉ bytes
deriving DecidableEq

namespace CString

/-- What a C function sees of a buffer with a terminator behind it. -/
def ofBytes (s : List UInt8) : CString where
  bytes := cstr s
  nulFree := fun h => by simpa using mem_takeWhile_imp h

theorem ofBytes_bytes (s : CString) : ofBytes s.bytes = s := by
  obtain ⟨bytes, hnul⟩ := s
  simp only [ofBytes, cstr_of_not_mem hnul]

/-- The characters of a text as bytes. -/
def ofText (s : String) : CString := ofBytes (s.toList.map fun c => UInt8.ofNat c.toNat)

/-- `strlen`. -/
def length (s : CString) : Nat := s.bytes.length

end CString

end Toke.Stdlib
