/-
  Toke.Stdlib.StaticFiles — **SERVING A FILE** (`router_static_serve` of `router.c`).

  §1 is the part of a file a `Range` header asks for.  The three forms of the
  header end in two positions, and one of them is refused too often: a suffix
  longer than the file, which stands for the whole file.  §2 is the choice of
  the file.  The path asked for is resolved and compared with the root; the
  index of a directory is opened without either.

    `rangePart_iff`         — the part is the one asked for, but for long suffixes
    `staticServe_inside_iff` — no file outside the root, but for such an index
-/
import Toke.Stdlib.Encoding
import Toke.Stdlib.Number

namespace Toke.Stdlib.StaticFiles

open List

/-! ## §1. Ranges. -/

/-- An answer: the whole file, a part of it, or none; with the `Content-Range`. -/
inductive Served where
  | whole
  | part (body contentRange : List UInt8)
  | unsatisfiable (contentRange : List UInt8)
  deriving DecidableEq

/-- `(size_t)atoll(s)`. -/
def atoll (s : List UInt8) : Nat := (((strtoll s).getD 0).toInt % 18446744073709551616).toNat

/-- The bytes from `first` to `last`. -/
def partOf (file : List UInt8) (first last : Nat) : Served :=
  .part ((file.drop first).take (last - first + 1))
    (ascii "bytes " ++ decimalNat first ++ 45 :: decimalNat last ++ 47 :: decimalNat file.length)

/-- The answer with status 416. -/
def refused (file : List UInt8) : Served :=
  .unsatisfiable (ascii "bytes */" ++ decimalNat file.length)

/-- What follows the first `-`, if anything does. -/
def behindDash (s : List UInt8) : Option (List UInt8) :=
  match s.dropWhile (· ≠ 45) with
  | _ :: c :: r => some (c :: r)
  | _ => none

/-- The range behind the `=`. -/
def rangeOf (file eq : List UInt8) : Served :=
  if eq.head? = some 45 then
    let suffix := atoll eq.tail
    if suffix = 0 ∨ file.length < suffix then refused file
    else partOf file (file.length - suffix) (file.length - 1)
  else
    let rstart := atoll eq
    let rend := ((behindDash eq).map atoll).getD (file.length - 1)
    if rend < rstart ∨ file.length ≤ rstart then refused file
    else partOf file rstart (min rend (file.length - 1))

/-- The range part of `router_static_serve`. -/
def rangePart (file header : List UInt8) : Served :=
  if file = [] then .whole
  else
    match header.dropWhile (· ≠ 61) with
    | [] => .whole
    | _ :: eq => if header.take 5 = ascii "bytes" then rangeOf file eq else .whole

/-- A decimal number below `2 ^ 63`, as it is written. -/
structure Numeral where
  digits : List UInt8
  nonempty : digits ≠ []
  decimal : ∀ c ∈ digits, isDecimal c = true
  small : digitsValue digits < 9223372036854775808

/-- The number. -/
def Numeral.value (n : Numeral) : Nat := digitsValue n.digits

/-- The three forms of a range. -/
inductive Range where
  | between (a b : Numeral) (h : a.value ≤ b.value)
  | behind (a : Numeral)
  | suffix (n : Numeral)

/-- The header that asks for the range. -/
def Range.text : Range → List UInt8
  | .between a b _ => ascii "bytes=" ++ (a.digits ++ 45 :: b.digits)
  | .behind a => ascii "bytes=" ++ (a.digits ++ [45])
  | .suffix n => ascii "bytes=" ++ 45 :: n.digits

/-- The positions that a range selects in a file of `total` bytes: from the
first to the last one named, from the first one on, or the last `n`. -/
def Range.selects (total i : Nat) : Range → Bool
  | .between a b _ => a.value ≤ i && i ≤ b.value
  | .behind a => a.value ≤ i
  | .suffix n => total ≤ i + n.value

/-- What a range stands for: the bytes at the selected positions, with the
first and the last of them in the `Content-Range`, or 416 if there are none. -/
def Range.answer (file : List UInt8) (range : Range) : Served :=
  match (List.range file.length).filter fun i => range.selects file.length i with
  | [] => .unsatisfiable (ascii "bytes */" ++ decimalNat file.length)
  | i :: is => .part ((i :: is).map (file.getD · 0))
      (ascii "bytes " ++ decimalNat i ++ ascii "-" ++ decimalNat ((i :: is).getLast (cons_ne_nil i is))
        ++ ascii "/" ++ decimalNat file.length)

/-- The positions between two bounds, in order. -/
theorem filter_range_between {n first last : Nat} {p : Nat → Bool} (hle : first ≤ last) (hlt : last < n)
    (hp : ∀ i < n, p i = true ↔ first ≤ i ∧ i ≤ last) :
    (List.range n).filter p = range' first (last - first + 1) := by
  have hsplit : List.range n
      = range' 0 first ++ (range' first (last - first + 1) ++ range' (last + 1) (n - last - 1)) := by
    have hback := range'_append_1 (s := first) (m := last - first + 1) (n := n - last - 1)
    have hall := range'_append_1 (s := 0) (m := first) (n := n - first)
    rw [show first + (last - first + 1) = last + 1 by omega,
      show last - first + 1 + (n - last - 1) = n - first by omega] at hback
    rw [show 0 + first = first by omega, show first + (n - first) = n by omega] at hall
    rw [hback, range_eq_range', hall]
  have hbefore : (range' 0 first).filter p = [] := by
    rw [filter_eq_nil_iff]
    intro i hi hpi
    rw [mem_range'_1] at hi
    have hbounds := (hp i (by omega)).mp hpi
    omega
  have hinside : (range' first (last - first + 1)).filter p = range' first (last - first + 1) := by
    rw [filter_eq_self]
    intro i hi
    rw [mem_range'_1] at hi
    exact (hp i (by omega)).mpr (by omega)
  have hbehind : (range' (last + 1) (n - last - 1)).filter p = [] := by
    rw [filter_eq_nil_iff]
    intro i hi hpi
    rw [mem_range'_1] at hi
    have hbounds := (hp i (by omega)).mp hpi
    omega
  rw [hsplit, filter_append, filter_append, hbefore, hinside, hbehind, append_nil, nil_append]

/-- The bytes at consecutive positions. -/
theorem map_getD_range' {file : List UInt8} {first k : Nat} (h : first + k ≤ file.length) :
    (range' first k).map (file.getD · 0) = (file.drop first).take k := by
  refine ext_getElem (by simp; omega) fun i hi hi' => ?_
  have hlt : i < k := by simpa using hi
  rw [getElem_map, getElem_range', getElem_take, getElem_drop, getD_eq_getElem _ _ (by omega)]
  congr 1
  omega

/-- A range of the positions between two bounds stands for that part. -/
theorem Range.answer_part {file : List UInt8} {range : Range} {first last : Nat} (hle : first ≤ last)
    (hlt : last < file.length) (hsel : ∀ i < file.length,
      range.selects file.length i = true ↔ first ≤ i ∧ i ≤ last) :
    range.answer file = partOf file first last := by
  have hpositions : ((List.range file.length).filter fun i => range.selects file.length i)
      = range' first (last - first + 1) := filter_range_between hle hlt hsel
  have hlast : ∀ h, (range' first (last - first + 1)).getLast h = last := by
    intro h
    rw [getLast_range']
    omega
  have hcons : range' first (last - first + 1) = first :: range' (first + 1) (last - first) := range'_succ
  unfold Range.answer partOf
  rw [hpositions]
  simp only [hcons] at hlast ⊢
  rw [hlast (cons_ne_nil _ _), ← hcons, map_getD_range' (by omega), show ascii "-" = [45] from rfl,
    show ascii "/" = [47] from rfl]
  simp

/-- A range that selects nothing is refused. -/
theorem Range.answer_refused {file : List UInt8} {range : Range}
    (hsel : ∀ i < file.length, range.selects file.length i = false) :
    range.answer file = refused file := by
  have hnone : ((List.range file.length).filter fun i => range.selects file.length i) = [] := by
    rw [filter_eq_nil_iff]
    intro i hi
    rw [hsel i (mem_range.mp hi)]
    exact Bool.false_ne_true
  unfold Range.answer refused
  rw [hnone]

/-- A range from `first` to `last`, which ends with the file. -/
theorem Range.answer_from {file : List UInt8} {range : Range} {first last : Nat}
    (hsel : ∀ i < file.length, range.selects file.length i = true ↔ first ≤ i ∧ i ≤ last) :
    (if last < first ∨ file.length ≤ first then refused file
      else partOf file first (min last (file.length - 1))) = range.answer file := by
  by_cases hnone : last < first ∨ file.length ≤ first
  · rw [if_pos hnone, Range.answer_refused]
    intro i hi
    rw [← Bool.not_eq_true, hsel i hi]
    omega
  · rw [if_neg hnone]
    refine (Range.answer_part (by omega) (by omega) fun i hi => ?_).symm
    rw [hsel i hi]
    omega

/-- A numeral begins with a digit. -/
theorem Numeral.first (n : Numeral) :
    ∃ d ds, n.digits = d :: ds ∧ isSpace d = false ∧ d ≠ 45 ∧ d ≠ 43 := by
  obtain ⟨d, ds, hds⟩ := exists_cons_of_ne_nil n.nonempty
  exact ⟨d, ds, hds, decimal_cases (n.decimal d (hds ▸ mem_cons_self))⟩

/-- `atoll` reads a numeral up to what is no digit. -/
theorem atoll_numeral (n : Numeral) {rest : List UInt8}
    (hrest : rest.takeWhile isDecimal = []) : atoll (n.digits ++ rest) = n.value := by
  have htake : (n.digits ++ rest).takeWhile isDecimal = n.digits := by
    rw [takeWhile_append_of_pos n.decimal, hrest, append_nil]
  have hsigned : signedValue false (n.digits ++ rest) = some (Int64.ofInt n.value) := by
    have hclamp : clamp (n.value : Int) = n.value := by
      have hsmall : n.value < 9223372036854775808 := n.small
      unfold clamp
      omega
    simp only [signedValue, htake, if_neg n.nonempty]
    exact congrArg (fun z => some (Int64.ofInt z)) hclamp
  obtain ⟨d, ds, hds, hspace, hminus, hplus⟩ := n.first
  have hread : strtoll (n.digits ++ rest) = some (Int64.ofInt n.value) := by
    rw [← hsigned, hds, cons_append, strtoll, dropWhile_cons_of_neg (by simp [hspace]),
      readSigned_plain hminus hplus]
  have hsmall : n.value < 9223372036854775808 := n.small
  have hback : (Int64.ofInt n.value).toInt = n.value :=
    Int64.toInt_ofInt_of_le (by omega) (by omega)
  rw [atoll, hread, Option.getD_some]
  omega

theorem head_numeral (n : Numeral) (rest : List UInt8) : (n.digits ++ rest).head? ≠ some 45 := by
  obtain ⟨d, ds, hds, -, hminus, -⟩ := n.first
  rw [hds]
  intro h
  exact hminus (Option.some.inj h)

/-- The digits hold no `-`. -/
theorem behindDash_numeral (n : Numeral) (rest : List UInt8) :
    behindDash (n.digits ++ 45 :: rest) = if rest = [] then none else some rest := by
  have hdrop : (n.digits ++ 45 :: rest).dropWhile (· ≠ 45) = 45 :: rest := by
    rw [dropWhile_append_of_pos fun c hc => by simpa using (decimal_cases (n.decimal c hc)).2.1]
    exact dropWhile_cons_of_neg (by decide)
  unfold behindDash
  rw [hdrop]
  cases rest <;> rfl

theorem rangeOf_numeral (file : List UInt8) (a : Numeral) (rest : List UInt8) :
    rangeOf file (a.digits ++ 45 :: rest) =
      let rend := if rest = [] then file.length - 1 else atoll rest
      if rend < a.value ∨ file.length ≤ a.value then refused file
      else partOf file a.value (min rend (file.length - 1)) := by
  have hdash : (45 :: rest).takeWhile isDecimal = [] := takeWhile_cons_of_neg (by decide)
  simp only [rangeOf, if_neg (head_numeral a _), atoll_numeral a hdash, behindDash_numeral]
  by_cases hrest : rest = []
  · rw [if_pos hrest, if_pos hrest]
    rfl
  · rw [if_neg hrest, if_neg hrest]
    rfl

/-- **A range request is answered with the bytes it asks for**, or refused when
there are none; unless it asks for a suffix that is longer than the file. -/
theorem rangePart_iff (file : List UInt8) (hfile : file ≠ []) (range : Range) :
    rangePart file range.text = range.answer file ↔
      ∀ n, range = .suffix n → n.value ≤ file.length := by
  have hpart : ∀ eq, rangePart file (ascii "bytes=" ++ eq) = rangeOf file eq := by
    intro eq
    unfold rangePart
    rw [if_neg hfile]
    rfl
  have hread : ∀ n : Numeral, atoll n.digits = n.value := by
    intro n
    have h := atoll_numeral n takeWhile_nil
    rwa [append_nil] at h
  have hpos := length_pos_of_ne_nil hfile
  cases range with
  | between a b h =>
    refine iff_of_true ?_ (by simp)
    show rangePart file (ascii "bytes=" ++ (a.digits ++ 45 :: b.digits)) = _
    rw [hpart, rangeOf_numeral, if_neg b.nonempty, hread b]
    exact Range.answer_from fun i _ => by simp [Range.selects]
  | behind a =>
    refine iff_of_true ?_ (by simp)
    show rangePart file (ascii "bytes=" ++ (a.digits ++ [45])) = _
    rw [hpart, rangeOf_numeral, if_pos rfl]
    refine Range.answer_from fun i hi => ?_
    simp only [Range.selects, decide_eq_true_eq]
    omega
  | suffix n =>
    show rangePart file (ascii "bytes=" ++ 45 :: n.digits) = _ ↔ _
    rw [hpart]
    show (if atoll n.digits = 0 ∨ file.length < atoll n.digits then _
      else partOf file (file.length - atoll n.digits) _) = _ ↔ _
    rw [hread n]
    have hselects : ∀ i, (Range.suffix n).selects file.length i = decide (file.length ≤ i + n.value) :=
      fun _ => rfl
    by_cases hzero : n.value = 0
    · rw [if_pos (.inl hzero), Range.answer_refused fun i hi => by
        rw [hselects, decide_eq_false_iff_not]
        omega]
      refine iff_of_true rfl fun m hm => ?_
      cases hm
      omega
    · -- every suffix that is not empty selects the last byte
      rw [Range.answer_part (show file.length - n.value ≤ file.length - 1 by omega) (by omega)
        fun i hi => by
          rw [hselects, decide_eq_true_eq]
          omega]
      by_cases hlong : file.length < n.value
      · rw [if_pos (.inr hlong)]
        refine iff_of_false nofun fun h => ?_
        have hshort := h n rfl
        omega
      · rw [if_neg (by omega)]
        refine iff_of_true rfl fun m hm => ?_
        cases hm
        omega

/-- The numeral of a digit. -/
def digitNumeral (d : Fin 10) : Numeral where
  digits := [UInt8.ofNat (48 + d)]
  nonempty := cons_ne_nil _ _
  decimal := fun c hc => mem_singleton.mp hc ▸ digit_isDecimal d.isLt
  small := by revert d; decide +kernel

/-- The bytes from the third on. -/
theorem rangePart_two : rangePart [7, 8, 9] (Range.behind (digitNumeral 2)).text =
    .part [9] (ascii "bytes 2-2/3") :=
  (rangePart_iff [7, 8, 9] (by decide) (.behind (digitNumeral 2))).mpr (by simp)

/-- The last five bytes of a file of three. -/
theorem rangePart_long_suffix : rangePart [7, 8, 9] (Range.suffix (digitNumeral 5)).text =
      .unsatisfiable (ascii "bytes */3") ∧
    (Range.suffix (digitNumeral 5)).answer [7, 8, 9] = .part [7, 8, 9] (ascii "bytes 0-2/3") := by
  decide +kernel

/-! ## §2. Staying inside the root. -/

/-- The name of a directory entry. -/
structure Name where
  bytes : List UInt8
  nonempty : bytes ≠ []
  noSlash : 47 ∉ bytes

/-- A resolved path as `realpath` writes it. -/
def text (path : List Name) : List UInt8 :=
  if path = [] then [47] else path.flatMap fun n => 47 :: n.bytes

/-- Why a path is not opened. -/
inductive Errno where
  | noent | notdir | other
  deriving DecidableEq

/-- What `stat` tells of a file, and its bytes. -/
structure FileNode where
  dir : Bool
  mtime : Int64
  data : List UInt8

/-- Directories, files and links.  A resolved path has no link left in it. -/
structure FileSystem where
  realpath : List UInt8 → Except Errno (List Name)
  node : List Name → FileNode
  readable : List Name → Bool
  resolved : ∀ ⦃s p⦄, realpath s = .ok p → realpath (text p) = .ok p

/-- `has_traversal`. -/
def hasTraversal : List UInt8 → Bool
  | a :: b :: s => (a = 46 && b = 46) || (a = 47 && b = 47) || hasTraversal (b :: s)
  | _ => false

/-- The first path built from the request. -/
def requested (dir relPath : List UInt8) : List UInt8 :=
  let rel := relPath.dropWhile (· = 47)
  if rel = [] then dir else dir ++ 47 :: rel

/-- The path of a directory's index. -/
def indexOf (dir relPath : List UInt8) : List UInt8 :=
  dir ++ 47 :: (relPath.dropWhile (· = 47) ++ ascii "/index.html")

/-- The comparison of two resolved paths. -/
def below (root full : List UInt8) : Bool :=
  root.isPrefixOf full && (full.drop root.length).head?.all (· = 47)

/-- The status for it. -/
def Errno.status (e : Errno) : Nat := if e = .other then 403 else 404

/-- The file that is opened, or the status of the refusal. -/
def opened (fs : FileSystem) (dir relPath : List UInt8) : Except Nat (List Name) :=
  let full := requested dir relPath
  if hasTraversal relPath ∨ 4096 ≤ full.length ∨ 0 ∈ full then .error 403
  else match fs.realpath dir, fs.realpath full with
    | .error _, _ => .error 403
    | .ok _, .error e => .error e.status
    | .ok root, .ok target =>
      if below (text root) (text target) = false ∨ 4096 ≤ (text target).length then .error 403
      else match fs.realpath (text target) with
        | .error e => .error e.status
        | .ok file =>
          if (fs.node file).dir then
            if 4096 ≤ (indexOf dir relPath).length then .error 403
            else (fs.realpath (indexOf dir relPath)).mapError fun _ => 404
          else .ok file

/-- An answer; where it is a file or a part of one, with that file. -/
inductive Answer where
  | status (code : Nat)
  | notModified (file : List Name)
  | served (file : List Name) (body : Served)

/-- The file an answer with status 200, 206 or 304 refers to. -/
def Answer.file : Answer → Option (List Name)
  | .notModified file | .served file .whole | .served file (.part _ _) => some file
  | _ => none

/-- The tag of a file. -/
def etag (n : FileNode) : List UInt8 :=
  34 :: (decimal n.mtime ++ 45 :: decimalNat n.data.length ++ [34])

/-- `router_static_serve`. -/
def staticServe (fs : FileSystem) (dir relPath : List UInt8)
    (ifNoneMatch range : Option (List UInt8)) : Answer :=
  match opened fs dir relPath with
  | .error code => .status code
  | .ok file =>
    if ifNoneMatch = some (etag (fs.node file)) then .notModified file
    else if fs.readable file then
      .served file ((range.map (rangePart (fs.node file).data)).getD .whole)
    else .status 403

/-- The request passes the checks and is for `target`. -/
structure Admitted (fs : FileSystem) (dir relPath : List UInt8) (root target : List Name) : Prop where
  clean : hasTraversal relPath = false
  short : (requested dir relPath).length < 4096
  noNul : 0 ∉ requested dir relPath
  below : below (text root) (text target) = true
  shortTarget : (text target).length < 4096
  root : fs.realpath dir = .ok root
  target : fs.realpath (requested dir relPath) = .ok target

variable {fs : FileSystem} {dir relPath : List UInt8} {root target file : List Name}

theorem opened_admitted (h : Admitted fs dir relPath root target) :
    opened fs dir relPath = if (fs.node target).dir then
      if 4096 ≤ (indexOf dir relPath).length then .error 403
      else (fs.realpath (indexOf dir relPath)).mapError fun _ => 404
    else .ok target := by
  have hshort := h.short
  have hnul := h.noNul
  have hlen := h.shortTarget
  simp only [opened, h.clean, h.root, h.target, h.below, fs.resolved h.target]
  rw [if_neg (by simp only [not_or]; exact ⟨by simp, by omega, hnul⟩), if_neg (by simp; omega)]

theorem admitted_of_opened (h : opened fs dir relPath = .ok file) :
    ∃ root target, Admitted fs dir relPath root target := by
  unfold opened at h
  dsimp only at h
  split at h
  · cases h
  next hreq =>
  simp only [not_or, not_le, Bool.not_eq_true] at hreq
  split at h
  · cases h
  · cases h
  next root target hroot htarget =>
  split at h
  · cases h
  next hin =>
  simp only [not_or, not_le, Bool.not_eq_false] at hin
  exact ⟨root, target, hreq.1, hreq.2.1, hreq.2.2, hin.1, hin.2, hroot, htarget⟩

/-- Names hold no slash, so a text falls into names in one way. -/
theorem prefix_of_flat {rest : List UInt8} (hrest : rest.head?.all (· = 47)) :
    ∀ {root target : List Name}, (target.flatMap fun n => 47 :: n.bytes) =
      (root.flatMap fun n => 47 :: n.bytes) ++ rest → root <+: target
  | [], _, _ => nil_prefix
  | n :: root, [], h => by simp at h
  | n :: root, m :: target, h => by
    have hname : ∀ (k : Name) {s : List UInt8}, s.head?.all (· = 47) →
        (k.bytes ++ s).takeWhile (· ≠ 47) = k.bytes := by
      intro k s hs
      rw [takeWhile_append_of_pos (fun c hc => by
        simpa using fun heq : c = 47 => k.noSlash (heq ▸ hc))]
      cases s with
      | nil => simp
      | cons c s => simp_all
    have hflat : ∀ p : List Name, ((p.flatMap fun n => 47 :: n.bytes) ++ rest).head?.all (· = 47) := by
      intro p
      cases p with
      | nil => simpa using hrest
      | cons k p => simp
    simp only [flatMap_cons, cons_append, append_assoc, cons.injEq, true_and] at h
    have hm := hname m (s := target.flatMap fun n => 47 :: n.bytes) (by cases target <;> simp)
    have hn := hname n (hflat root)
    have heq : n.bytes = m.bytes := by rw [← hn, ← hm, h]
    obtain rfl : n = m := by cases n; cases m; simpa using heq
    exact (prefix_cons_inj n).mpr (prefix_of_flat hrest (append_cancel_left h))

theorem prefix_of_below (h : below (text root) (text target)) : root <+: target := by
  unfold below at h
  rw [Bool.and_eq_true, isPrefixOf_iff_prefix] at h
  obtain ⟨⟨rest, htext⟩, hrest⟩ := h
  rw [← htext, drop_left] at hrest
  unfold text at htext
  split_ifs at htext with hr ht ht
  · exact hr ▸ nil_prefix
  · exact hr ▸ nil_prefix
  · -- the root directory is below itself only
    obtain ⟨n, p, rfl⟩ := exists_cons_of_ne_nil hr
    have hlen := congrArg length htext
    have hpos := length_pos_of_ne_nil n.nonempty
    simp only [flatMap_cons, length_cons, length_append, length_nil] at hlen
    omega
  · exact prefix_of_flat hrest htext.symm

theorem opened_of_file {inm range : Option (List UInt8)}
    (h : (staticServe fs dir relPath inm range).file = some file) :
    opened fs dir relPath = .ok file := by
  unfold staticServe at h
  split at h
  · cases h
  · next p hp =>
    rw [hp]
    split_ifs at h
    · exact congrArg _ (Option.some.inj h)
    · revert h
      cases (range.map (rangePart (fs.node p).data)).getD .whole <;> intro h <;> cases h <;> rfl
    · cases h

/-- **What is served lies below the root**, unless an admitted directory has an
index that leads elsewhere. -/
theorem staticServe_inside_iff (fs : FileSystem) (dir relPath : List UInt8) :
    (∀ ifNoneMatch range file root, fs.realpath dir = .ok root →
      (staticServe fs dir relPath ifNoneMatch range).file = some file → root <+: file) ↔
    ∀ root target file, Admitted fs dir relPath root target → (fs.node target).dir →
      (indexOf dir relPath).length < 4096 → fs.realpath (indexOf dir relPath) = .ok file →
      root <+: file := by
  constructor
  · intro h root target file hadm hdir hlen hindex
    have hopen : opened fs dir relPath = .ok file := by
      rw [opened_admitted hadm, if_pos hdir, if_neg (by omega), hindex]
      rfl
    -- a client that has the file already gets it confirmed
    apply h (some (etag (fs.node file))) none file root hadm.root
    simp only [staticServe, hopen]
    rfl
  · intro h inm range file root hroot hfile
    have hopen := opened_of_file hfile
    obtain ⟨root', target, hadm⟩ := admitted_of_opened hopen
    obtain rfl : root' = root := Except.ok.inj (hadm.root.symm.trans hroot)
    rw [opened_admitted hadm] at hopen
    split_ifs at hopen with hdir hlen
    · apply h root' target file hadm hdir (by omega)
      cases hindex : fs.realpath (indexOf dir relPath) with
      | error e => rw [hindex] at hopen; cases hopen
      | ok p => rw [hindex] at hopen; cases hopen; rfl
    · cases hopen
      exact prefix_of_below hadm.below

/-- The name of the root. -/
def nameR : Name := ⟨ascii "r", by decide, by decide⟩

/-- A name outside. -/
def nameE : Name := ⟨ascii "e", by decide, by decide⟩

/-- A directory `/r`, a file `/e`, and `/r/index.html` a link to it. -/
def linkedIndex : FileSystem where
  realpath s := if s = ascii "/r" then .ok [nameR]
    else if s = ascii "/e" ∨ s = ascii "/r//index.html" then .ok [nameE] else .error .noent
  node p := ⟨p.length = 1 ∧ p.head?.map Name.bytes = some (ascii "r"), 0, [1]⟩
  readable _ := true
  resolved := by
    intro s p h
    split_ifs at h <;> cases h <;> rfl

/-- The index of the root is a link out of it. -/
theorem index_leaves_root : linkedIndex.realpath (ascii "/r") = .ok [nameR] ∧
    (staticServe linkedIndex (ascii "/r") [] none none).file = some [nameE] ∧
    ¬ [nameR] <+: [nameE] := by
  refine ⟨rfl, rfl, fun h => ?_⟩
  have hbytes := congrArg (map Name.bytes) (h.eq_of_length rfl)
  cases hbytes

end Toke.Stdlib.StaticFiles
