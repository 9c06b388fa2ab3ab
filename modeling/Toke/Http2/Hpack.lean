/-
  Toke.Http2.Hpack — **HEADER COMPRESSION** (the HPACK part of `http2.c`).

  A header field is written as an index into a table, or as a literal that is
  also inserted into the table.  The table is a fixed list of 61 entries with a
  dynamic list behind it, newest first, that is kept below a size by dropping
  its oldest entries.  The encoder and the decoder each have their own.
-/
import Toke.Library.Evicting
import Toke.Library.Mirroring
import Toke.Stdlib.Bytes

namespace Toke.Http2

open Mirroring

open Stdlib (CString)

/-! ## §1. The table. -/

/-- A header field, and an entry of the table. -/
structure HpackEntry where
  name : CString
  value : CString
deriving DecidableEq

namespace HpackEntry

/-- The size an entry counts with. -/
def entrySize (e : HpackEntry) : Nat := e.name.length + e.value.length + 32

/-- A field with these texts. -/
def ofTexts (name value : String) : HpackEntry := ⟨.ofText name, .ofText value⟩

end HpackEntry

/-- The sum of the sizes of the entries. -/
abbrev totalSize (entries : List HpackEntry) : Nat := Evicting.total HpackEntry.entrySize entries

/-- `hpack_static` from index 1 on; index 0 is not used. -/
def hpackStatic : List HpackEntry :=
  [.ofTexts ":authority" "", .ofTexts ":method" "GET", .ofTexts ":method" "POST",
   .ofTexts ":path" "/",
   .ofTexts ":path" "/index.html",
   .ofTexts ":scheme" "http",
   .ofTexts ":scheme" "https",
   .ofTexts ":status" "200",
   .ofTexts ":status" "204",
   .ofTexts ":status" "206",
   .ofTexts ":status" "304",
   .ofTexts ":status" "400",
   .ofTexts ":status" "404",
   .ofTexts ":status" "500",
   .ofTexts "accept-charset" "",
   .ofTexts "accept-encoding" "gzip, deflate",
   .ofTexts "accept-language" "",
   .ofTexts "accept-ranges" "",
   .ofTexts "accept" "",
   .ofTexts "access-control-allow-origin" "",
   .ofTexts "age" "",
   .ofTexts "allow" "",
   .ofTexts "authorization" "",
   .ofTexts "cache-control" "",
   .ofTexts "content-disposition" "",
   .ofTexts "content-encoding" "",
   .ofTexts "content-language" "",
   .ofTexts "content-length" "",
   .ofTexts "content-location" "",
   .ofTexts "content-range" "",
   .ofTexts "content-type" "",
   .ofTexts "cookie" "",
   .ofTexts "date" "",
   .ofTexts "etag" "",
   .ofTexts "expect" "",
   .ofTexts "expires" "",
   .ofTexts "from" "",
   .ofTexts "host" "",
   .ofTexts "if-match" "",
   .ofTexts "if-modified-since" "",
   .ofTexts "if-none-match" "",
   .ofTexts "if-range" "",
   .ofTexts "if-unmodified-since" "",
   .ofTexts "last-modified" "",
   .ofTexts "link" "",
   .ofTexts "location" "",
   .ofTexts "max-forwards" "",
   .ofTexts "proxy-authenticate" "",
   .ofTexts "proxy-authorization" "",
   .ofTexts "range" "",
   .ofTexts "referer" "",
   .ofTexts "refresh" "",
   .ofTexts "retry-after" "",
   .ofTexts "server" "",
   .ofTexts "set-cookie" "",
   .ofTexts "strict-transport-security" "",
   .ofTexts "transfer-encoding" "",
   .ofTexts "user-agent" "",
   .ofTexts "vary" "",
   .ofTexts "via" "",
   .ofTexts "www-authenticate" ""]

/-- `HPACK_STATIC_SIZE`. -/
def hpackStaticSize : Nat := 61

/-- The dynamic table: its entries, newest first, and the size they are counted with. -/
structure HpackTable where
  entries : List HpackEntry
  size : Nat
  maxSize : Nat

/-- Dropping the oldest entry until `room` more fits below `max`. -/
def evictLoop (room max : Nat) : Nat → List HpackEntry → Nat → List HpackEntry × Nat
  | 0, entries, size => (entries, size)
  | count + 1, entries, size =>
    if max < size + room then
      match entries.getLast? with
      | none => (entries, size)
      | some e => evictLoop room max count entries.dropLast (size - e.entrySize)
    else (entries, size)

/-- `hpack_table_init`. -/
def hpackTableInit (maxSize : Nat) : HpackTable := ⟨[], 0, maxSize⟩

/-- `hpack_table_resize`, with the `hpack_evict` it calls. -/
def hpackTableResize (t : HpackTable) (newMax : Nat) : HpackTable :=
  let kept := evictLoop 0 newMax t.entries.length t.entries t.size
  ⟨kept.1, kept.2, newMax⟩

/-- `hpack_insert`: an entry that is too large for the whole table empties it. -/
def hpackInsert (t : HpackTable) (e : HpackEntry) : HpackTable :=
  if t.maxSize < e.entrySize then ⟨[], 0, t.maxSize⟩
  else
    let kept := evictLoop e.entrySize t.maxSize t.entries.length t.entries t.size
    ⟨e :: kept.1, kept.2 + e.entrySize, t.maxSize⟩

/-- `hpack_lookup`: index 1 to 61 is the static table, what follows is the dynamic one. -/
def hpackLookup (t : HpackTable) (index : Nat) : Option HpackEntry :=
  if index = 0 then none
  else if index ≤ hpackStaticSize then hpackStatic[index - 1]?
  else t.entries[index - hpackStaticSize - 1]?

/-! ## §2. Integers. -/

/-- The groups of seven bits behind a full first byte; `uint32_t` arithmetic. -/
def decodeGroups : List UInt8 → Nat → Nat → Option (Nat × List UInt8)
  | [], _, _ => none
  | b :: rest, out, m =>
    let out' := (out + (b &&& 0x7F).toNat * 2 ^ m) % 2 ^ 32
    if b &&& 0x80 = 0 then some (out', rest)
    else if 28 < m + 7 then none
    else decodeGroups rest out' (m + 7)

/-- The mask of the low `bits` bits of a byte. -/
def lowMask (bits : Nat) : UInt8 := UInt8.ofNat (2 ^ bits - 1)

/-- `hpack_decode_int`. -/
def hpackDecodeInt (buf : List UInt8) (bits : Nat) : Option (Nat × List UInt8) :=
  match buf with
  | [] => none
  | b :: rest =>
    if b &&& lowMask bits < lowMask bits then some ((b &&& lowMask bits).toNat, rest)
    else decodeGroups rest (b &&& lowMask bits).toNat 0

/-- One byte into the output. -/
def putByte (cap : Nat) (out : List UInt8) (b : UInt8) : Option (List UInt8) :=
  if cap ≤ out.length then none else some (out ++ [b])

/-- `memcpy` into the output. -/
def putBytes (cap : Nat) (out s : List UInt8) : Option (List UInt8) :=
  if cap < out.length + s.length then none else some (out ++ s)

/-- Five groups hold every `uint32_t`. -/
def encodeGroups (cap : Nat) : Nat → List UInt8 → Nat → Option (List UInt8)
  | 0, _, _ => none
  | fuel + 1, out, value =>
    if value < 128 then putByte cap out (UInt8.ofNat value)
    else
      (putByte cap out (UInt8.ofNat (value % 128) ||| 0x80)).bind fun out' =>
        encodeGroups cap fuel out' (value / 128)

/-- `hpack_encode_int`. -/
def hpackEncodeInt (cap : Nat) (out : List UInt8) (value bits : Nat) (pattern : UInt8) :
    Option (List UInt8) :=
  if value < (lowMask bits).toNat then putByte cap out (pattern ||| UInt8.ofNat value)
  else
    (putByte cap out (pattern ||| lowMask bits)).bind fun out' =>
      encodeGroups cap 5 out' (value - (lowMask bits).toNat)

/-! ## §3. Strings. -/

/-- `huff_table`: the code and its number of bits, for symbols 0 to 255 and the
end of the string. -/
def huffTable : List (Nat × Nat) :=
  [(0x1ff8, 13), (0x7fffd8, 23), (0xfffffe2, 28), (0xfffffe3, 28), (0xfffffe4, 28),
    (0xfffffe5, 28), (0xfffffe6, 28), (0xfffffe7, 28), (0xfffffe8, 28), (0xffffea, 24),
    (0x3ffffffc, 30), (0xfffffe9, 28), (0xfffffea, 28), (0x3ffffffd, 30), (0xfffffeb, 28),
    (0xfffffec, 28), (0xfffffed, 28), (0xfffffee, 28), (0xfffffef, 28), (0xffffff0, 28),
    (0xffffff1, 28), (0xffffff2, 28), (0x3ffffffe, 30), (0xffffff3, 28), (0xffffff4, 28),
    (0xffffff5, 28), (0xffffff6, 28), (0xffffff7, 28), (0xffffff8, 28), (0xffffff9, 28),
    (0xffffffa, 28), (0xffffffb, 28), (0x14, 6), (0x3f8, 10), (0x3f9, 10), (0xffa, 12),
    (0x1ff9, 13), (0x15, 6), (0xf8, 8), (0x7fa, 11), (0x3fa, 10), (0x3fb, 10), (0xf9, 8),
    (0x7fb, 11), (0xfa, 8), (0x16, 6), (0x17, 6), (0x18, 6), (0x0, 5), (0x1, 5), (0x2, 5),
    (0x19, 6), (0x1a, 6), (0x1b, 6), (0x1c, 6), (0x1d, 6), (0x1e, 6), (0x1f, 6), (0x5c, 7),
    (0xfb, 8), (0x7ffc, 15), (0x20, 6), (0xffb, 12), (0x3fc, 10), (0x1ffa, 13), (0x21, 6),
    (0x5d, 7), (0x5e, 7), (0x5f, 7), (0x60, 7), (0x61, 7), (0x62, 7), (0x63, 7), (0x64, 7),
    (0x65, 7), (0x66, 7), (0x67, 7), (0x68, 7), (0x69, 7), (0x6a, 7), (0x6b, 7), (0x6c, 7),
    (0x6d, 7), (0x6e, 7), (0x6f, 7), (0x70, 7), (0x71, 7), (0x72, 7), (0xfc, 8), (0x73, 7),
    (0xfd, 8), (0x1ffb, 13), (0x7fff0, 19), (0x1ffc, 13), (0x3ffc, 14), (0x22, 6), (0x7ffd, 15),
    (0x3, 5), (0x23, 6), (0x4, 5), (0x24, 6), (0x5, 5), (0x25, 6), (0x26, 6), (0x27, 6), (0x6, 5),
    (0x74, 7), (0x75, 7), (0x28, 6), (0x29, 6), (0x2a, 6), (0x7, 5), (0x2b, 6), (0x76, 7),
    (0x2c, 6), (0x8, 5), (0x9, 5), (0x2d, 6), (0x77, 7), (0x78, 7), (0x79, 7), (0x7a, 7),
    (0x7b, 7), (0x7ffe, 15), (0x7fc, 11), (0x3ffd, 14), (0x1ffd, 13), (0xffffffc, 28),
    (0xfffe6, 20), (0x3fffd2, 22), (0xfffe7, 20), (0xfffe8, 20), (0x3fffd3, 22), (0x3fffd4, 22),
    (0x3fffd5, 22), (0x7fffd9, 23), (0x3fffd6, 22), (0x7fffda, 23), (0x7fffdb, 23),
    (0x7fffdc, 23), (0x7fffdd, 23), (0x7fffde, 23), (0xffffeb, 24), (0x7fffdf, 23),
    (0xffffec, 24), (0xffffed, 24), (0x3fffd7, 22), (0x7fffe0, 23), (0xffffee, 24),
    (0x7fffe1, 23), (0x7fffe2, 23), (0x7fffe3, 23), (0x7fffe4, 23), (0x1fffdc, 21),
    (0x3fffd8, 22), (0x7fffe5, 23), (0x3fffd9, 22), (0x7fffe6, 23), (0x7fffe7, 23),
    (0xffffef, 24), (0x3fffda, 22), (0x1fffdd, 21), (0xfffe9, 20), (0x3fffdb, 22), (0x3fffdc, 22),
    (0x7fffe8, 23), (0x7fffe9, 23), (0x1fffde, 21), (0x7fffea, 23), (0x3fffdd, 22),
    (0x3fffde, 22), (0xfffff0, 24), (0x1fffdf, 21), (0x3fffdf, 22), (0x7fffeb, 23),
    (0x7fffec, 23), (0x1fffe0, 21), (0x1fffe1, 21), (0x3fffe0, 22), (0x1fffe2, 21),
    (0x7fffed, 23), (0x3fffe1, 22), (0x7fffee, 23), (0x7fffef, 23), (0xfffea, 20), (0x3fffe2, 22),
    (0x3fffe3, 22), (0x3fffe4, 22), (0x7ffff0, 23), (0x3fffe5, 22), (0x3fffe6, 22),
    (0x7ffff1, 23), (0x3ffffe0, 26), (0x3ffffe1, 26), (0xfffeb, 20), (0x7fff1, 19),
    (0x3fffe7, 22), (0x7ffff2, 23), (0x3fffe8, 22), (0x1ffffec, 25), (0x3ffffe2, 26),
    (0x3ffffe3, 26), (0x3ffffe4, 26), (0x7ffffde, 27), (0x7ffffdf, 27), (0x3ffffe5, 26),
    (0xfffff1, 24), (0x1ffffed, 25), (0x7fff2, 19), (0x1fffe3, 21), (0x3ffffe6, 26),
    (0x7ffffe0, 27), (0x7ffffe1, 27), (0x3ffffe7, 26), (0x7ffffe2, 27), (0xfffff2, 24),
    (0x1fffe4, 21), (0x1fffe5, 21), (0x3ffffe8, 26), (0x3ffffe9, 26), (0xffffffd, 28),
    (0x7ffffe3, 27), (0x7ffffe4, 27), (0x7ffffe5, 27), (0xfffec, 20), (0xfffff3, 24),
    (0xfffed, 20), (0x1fffe6, 21), (0x3fffe9, 22), (0x1fffe7, 21), (0x1fffe8, 21), (0x7ffff3, 23),
    (0x3fffea, 22), (0x3fffeb, 22), (0x1ffffee, 25), (0x1ffffef, 25), (0xfffff4, 24),
    (0xfffff5, 24), (0x3ffffea, 26), (0x7ffff4, 23), (0x3ffffeb, 26), (0x7ffffe6, 27),
    (0x3ffffec, 26), (0x3ffffed, 26), (0x7ffffe7, 27), (0x7ffffe8, 27), (0x7ffffe9, 27),
    (0x7ffffea, 27), (0x7ffffeb, 27), (0xffffffe, 28), (0x7ffffec, 27), (0x7ffffed, 27),
    (0x7ffffee, 27), (0x7ffffef, 27), (0x7fffff0, 27), (0x3ffffee, 26), (0x3fffffff, 30)]

/-- `hpack_huff_decode_sym`. -/
def hpackHuffDecodeSym (code bits : Nat) : Option Nat :=
  huffTable.findIdx? fun e => e.2 = bits && e.1 = code

/-- The shortest code of 5 to 30 bits at the top of `nbits` bits: its symbol
and its length. -/
def huffMatch (bits nbits : Nat) : Option (Nat × Nat) :=
  (List.range' 5 26).findSome? fun blen =>
    if blen ≤ nbits then
      (hpackHuffDecodeSym (bits / 2 ^ (nbits - blen) % 2 ^ blen) blen).map (·, blen)
    else none

/-- Where the bits of a Huffman string stand: the bits not used yet, the
characters so far, and whether the end symbol was met. -/
structure HuffState where
  bits : Nat
  nbits : Nat
  out : List UInt8
  done : Bool

/-- Symbols off the top while there are five bits; each takes at least five. -/
def huffDrain : Nat → HuffState → HuffState
  | 0, s => s
  | fuel + 1, s =>
    if s.nbits < 5 then s
    else
      match huffMatch s.bits s.nbits with
      | none => s
      | some (sym, blen) =>
        if sym = 256 then { s with done := true }
        else huffDrain fuel
          { s with
            bits := s.bits % 2 ^ (s.nbits - blen)
            nbits := s.nbits - blen
            out := s.out ++ [UInt8.ofNat sym] }

/-- One byte more. -/
def huffStep (s : HuffState) (b : UInt8) : HuffState :=
  if s.done then s
  else huffDrain (s.nbits + 8)
    { s with bits := (s.bits * 256 + b.toNat) % 2 ^ 64, nbits := s.nbits + 8 }

/-- The characters of a Huffman string. -/
def huffDecode (s : List UInt8) : List UInt8 := (s.foldl huffStep ⟨0, 0, [], false⟩).out

/-- A string and its end mark in a block of `n` bytes, `n` a `uint32_t`; there
is no result where the C code would write behind the block. -/
def intoBlock (n : Nat) (s : List UInt8) : Option CString :=
  if s.length < n % 2 ^ 32 then some (.ofBytes s) else none

/-- `hpack_decode_string`; `slen * 2 + 1` and `slen + 1` are computed in 32 bits. -/
def hpackDecodeString (buf : List UInt8) : Option (CString × List UInt8) :=
  match buf with
  | [] => none
  | b :: rest =>
    (hpackDecodeInt (b :: rest) 7).bind fun (slen, rest) =>
      if rest.length < slen then none
      else if b &&& 0x80 ≠ 0 then
        (intoBlock (slen * 2 + 1) (huffDecode (rest.take slen))).map (·, rest.drop slen)
      else (intoBlock (slen + 1) (rest.take slen)).map (·, rest.drop slen)

/-- The encoder writes strings without Huffman coding. -/
def encodeString (cap : Nat) (out : List UInt8) (s : CString) : Option (List UInt8) :=
  (hpackEncodeInt cap out (s.length % 2 ^ 32) 7 0x00).bind fun out' => putBytes cap out' s.bytes

/-! ## §4. The decoder. -/

/-- A literal field: its name by index or as a string, then its value. -/
def decodeLiteral (t : HpackTable) (buf : List UInt8) (bits : Nat) :
    Option (HpackEntry × List UInt8) :=
  (hpackDecodeInt buf bits).bind fun (index, rest) =>
    (if 0 < index then (hpackLookup t index).map fun e => (e.name, rest)
      else hpackDecodeString rest).bind fun (name, rest) =>
    (hpackDecodeString rest).map fun (value, rest) => (⟨name, value⟩, rest)

/-- One turn of the loop of `hpack_decode`: the table after it, the field it
read, if any, and what is left. -/
def decodeField (t : HpackTable) (buf : List UInt8) :
    Option (HpackTable × Option HpackEntry × List UInt8) :=
  match buf with
  | [] => none
  | b :: _ =>
    if b &&& 0x80 ≠ 0 then
      (hpackDecodeInt buf 7).bind fun (index, rest) =>
        (hpackLookup t index).map fun e => (t, some e, rest)
    else if b &&& 0x40 ≠ 0 then
      (decodeLiteral t buf 6).map fun (e, rest) => (hpackInsert t e, some e, rest)
    else if b &&& 0x20 ≠ 0 then
      (hpackDecodeInt buf 5).map fun (newSize, rest) => (hpackTableResize t newSize, none, rest)
    else (decodeLiteral t buf 4).map fun (e, rest) => (t, some e, rest)

/-- `hpack_decode`: the table after the call, and the fields unless the block is malformed.
Every turn uses up a byte. -/
def hpackDecode (t : HpackTable) (buf : List UInt8) : HpackTable × Option (List HpackEntry) :=
  readAll decodeField buf.length t buf

/-! ## §5. The encoder. -/

/-- The search for a field from index `i` on: the index of an equal entry and
the first index with an equal name, 0 for neither.  Both are `int`s, kept here
as their 32 bits. -/
def findEntry (h : HpackEntry) : List HpackEntry → Nat → Nat → Nat × Nat
  | [], _, foundName => (0, foundName)
  | e :: es, i, foundName =>
    if e.name = h.name then
      if e.value = h.value then (i % 2 ^ 32, foundName)
      else findEntry h es (i + 1) (if foundName = 0 then i % 2 ^ 32 else foundName)
    else findEntry h es (i + 1) foundName

/-- The static table first, then the dynamic one. -/
def findIndices (t : HpackTable) (h : HpackEntry) : Nat × Nat :=
  let found := findEntry h hpackStatic 1 0
  if found.1 = 0 then findEntry h t.entries (hpackStaticSize + 1) found.2 else found

/-- One turn of the loop of `hpack_encode`. -/
def encodeField (cap : Nat) (t : HpackTable) (out : List UInt8) (h : HpackEntry) :
    Option (HpackTable × List UInt8) :=
  let found := findIndices t h
  if found.1 ≠ 0 then (hpackEncodeInt cap out found.1 7 0x80).map fun out => (t, out)
  else if found.2 ≠ 0 then
    (hpackEncodeInt cap out found.2 6 0x40).bind fun out =>
      (encodeString cap out h.value).map fun out => (hpackInsert t h, out)
  else
    (putByte cap out 0x40).bind fun out =>
      (encodeString cap out h.name).bind fun out =>
        (encodeString cap out h.value).map fun out => (hpackInsert t h, out)

/-- What a call of `hpack_encode` leaves: the table, the bytes written and the
length it returns, an `int`, negative on an error. -/
structure HpackEncoded where
  table : HpackTable
  out : List UInt8
  ret : Int

/-- `hpack_encode`. -/
def hpackEncode (t : HpackTable) (headers : List HpackEntry) (outCap : Nat) : HpackEncoded :=
  match writeWhile (encodeField outCap) t [] headers with
  | (t', none) => ⟨t', [], -1⟩
  | (t', some out) => ⟨t', out, Int.bmod out.length (2 ^ 32)⟩

end Toke.Http2
