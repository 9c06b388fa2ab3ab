/-
  Toke.Stdlib.Zip — **READING A ZIP ENTRY BY NAME.**

  `zip_read_entry` looks its name up twice.  The table of `zip_validate` is
  compared exactly and gives the size of the buffer; the bytes come from
  `mz_zip_reader_locate_file`, which with flags 0 ignores case and compares the
  names of the archive itself.  With two names that differ in case only, the
  second lookup may find the other entry; a name that the table holds cut short
  it may not find at all.
-/
import Toke.Lexer.Token

namespace Toke.Stdlib.Zip

/-! ## §1. The archive and its table. -/

/-- A file of the archive as miniz sees it: its central-directory record and
its contents. -/
structure FileStat where
  rawName : List Char
  uncompSize : Nat
  compSize : Nat
  isDirectory : Bool
  isEncrypted : Bool
  method : Nat
  isSupported : Bool
  contents : List UInt8
deriving DecidableEq

/-- `m_filename`: at most 511 bytes of the name are copied, and the reader
takes the copy up to the first NUL. -/
def FileStat.name (st : FileStat) : List Char := (st.rawName.take 511).takeWhile (· ≠ '\x00')

/-- An entry of the validated table. -/
structure TkZipEntry where
  name : List Char
  size : Nat
  csize : Nat
  isDir : Bool
deriving DecidableEq

/-- `TK_ZIP_MAX_ENTRIES`. -/
def maxEntries : Nat := 65536

/-- `TK_ZIP_MAX_UNCOMPRESSED`. -/
def maxUncompressed : Nat := 64 * 1024 * 1024

/-- `TK_ZIP_MAX_RATIO`. -/
def maxRatio : Nat := 200

/-- `TK_ZIP_RATIO_FLOOR`. -/
def ratioFloor : Nat := 4096

/-- `TK_ZIP_MAX_NAME`. -/
def maxName : Nat := 511

/-- `zip_name_reject`: the reason a name is refused, if it is. -/
def zipNameReject (name : List Char) : Option String :=
  if name.length = 0 then some "zip: entry name is empty"
  else if name.length > maxName then
    some "zip: entry name exceeds the name-length cap (it may have been truncated, so it is not trusted)"
  else if name[0]? = some '/' then some "zip: absolute path in entry name"
  else if '\\' ∈ name then some "zip: backslash in entry name"
  else if name[1]? = some ':' ∧ (name[0]?.any Char.isAlpha) then
    some "zip: drive-letter absolute path in entry name"
  else if ['.', '.'] ∈ name.splitOn '/' then some "zip: path traversal in entry name"
  else none

/-- The checks of `zip_validate` on one record; `total` is the size so far. -/
def statReject (total : Nat) (st : FileStat) : Option String :=
  (zipNameReject st.name).or <|
  if st.isEncrypted then some "zip: encrypted entry (unsupported)"
  else if st.method ≠ 0 ∧ st.method ≠ 8 then
    some "zip: unsupported compression method (only Store and Deflate are read)"
  else if !st.isSupported then some "zip: entry uses a feature this reader does not support"
  else if st.uncompSize > maxUncompressed ∨ total > maxUncompressed - st.uncompSize then
    some "zip: uncompressed size cap exceeded"
  else if st.uncompSize > ratioFloor ∧ (st.compSize = 0 ∨ st.uncompSize / st.compSize > maxRatio) then
    some "zip: compression ratio cap exceeded"
  else none

/-- The table entry of a record. -/
def FileStat.entry (st : FileStat) : TkZipEntry :=
  ⟨st.name, st.uncompSize, st.compSize, st.isDirectory⟩

/-- The loop of `zip_validate`. -/
def validateLoop : Nat → List FileStat → Except String (List TkZipEntry)
  | _, [] => .ok []
  | total, st :: rest =>
    match statReject total st with
    | some why => .error why
    | none => (validateLoop (total + st.uncompSize) rest).map (st.entry :: ·)

/-- `zip_validate`. -/
def zipValidate (files : List FileStat) : Except String (List TkZipEntry) :=
  if files.length > maxEntries then .error "zip: entry count cap exceeded"
  else validateLoop 0 files

/-! ## §2. Reading. -/

/-- `mz_zip_reader_extract_to_mem` into a buffer of `size` bytes; bytes it does
not write stay unset. -/
def extractToMem (files : List FileStat) (idx size : Nat) : Option (List (Option UInt8)) :=
  files[idx]?.bind fun f =>
    if f.contents.length > size then none
    else some (f.contents.map some ++ List.replicate (size - f.contents.length) none)

/-- `zip_read_entry`, over the lookup of the library. -/
def zipReadEntry (files : List FileStat) (table : List TkZipEntry)
    (locate : List Char → Option Nat) (name : List Char) : Except String (List (Option UInt8)) :=
  match table.find? (·.name = name) with
  | none => .error "zip: no such entry"
  | some e =>
    if e.isDir then .error "zip: entry is a directory"
    else if e.size > maxUncompressed then .error "zip: uncompressed size cap exceeded"
    else match locate name with
    | none => .error "zip: no such entry"
    | some idx =>
      if e.size = 0 then .ok []
      else match extractToMem files idx e.size with
      | none => .error "zip: entry failed to decompress (corrupt data, or size/CRC mismatch)"
      | some buf => .ok buf

/-! ## §3. The entry that was asked for. -/

/-- Names that the library takes for the same. -/
def SameIgnoringCase (a b : List Char) : Prop := a.map Char.toLower = b.map Char.toLower

instance (a b : List Char) : Decidable (SameIgnoringCase a b) := inferInstanceAs (Decidable (_ = _))

/-- `mz_zip_reader_locate_file` with flags 0: some entry whose name in the
archive matches, and none only if there is no such entry. -/
def Locates (files : List FileStat) (locate : List Char → Option Nat) : Prop :=
  ∀ name, match locate name with
    | some i => ∃ g, files[i]? = some g ∧ SameIgnoringCase g.rawName name
    | none => ∀ g ∈ files, ¬ SameIgnoringCase g.rawName name

/-- A library that answers with the first match. -/
def firstMatch (files : List FileStat) (name : List Char) : Option Nat :=
  files.findIdx? fun g => SameIgnoringCase g.rawName name

/-- What is asked for: the contents of a file, and for a directory the error. -/
def FileStat.answer (f : FileStat) : Except String (List (Option UInt8)) :=
  if f.isDirectory then .error "zip: entry is a directory" else .ok (f.contents.map some)

/-- A validated table has the entries of the records, none over the size cap. -/
theorem validateLoop_ok {files : List FileStat} {total : Nat} {table : List TkZipEntry}
    (h : validateLoop total files = .ok table) :
    table = files.map FileStat.entry ∧ ∀ f ∈ files, f.uncompSize ≤ maxUncompressed := by
  induction files generalizing total table with
  | nil => cases h; exact ⟨rfl, fun _ hf => absurd hf List.not_mem_nil⟩
  | cons st rest ih =>
    unfold validateLoop at h
    split at h
    · cases h
    · next hok =>
        have hsize : st.uncompSize ≤ maxUncompressed := by
          by_contra hbig
          rw [statReject, Option.or_eq_none_iff] at hok
          simp only [Nat.lt_of_not_le hbig, true_or, if_true] at hok
          obtain ⟨-, hok⟩ := hok
          split_ifs at hok
        cases hrest : validateLoop (total + st.uncompSize) rest with
        | error why => rw [hrest] at h; cases h
        | ok es =>
          rw [hrest] at h
          cases h
          obtain ⟨rfl, hall⟩ := ih hrest
          exact ⟨rfl, List.forall_mem_cons.mpr ⟨hsize, hall⟩⟩

/-- The exact lookup finds the file itself. -/
theorem find_entry {files : List FileStat} (hnames : (files.map FileStat.name).Nodup)
    {f : FileStat} (hf : f ∈ files) :
    (files.map FileStat.entry).find? (·.name = f.name) = some f.entry := by
  induction files with
  | nil => cases hf
  | cons g rest ih =>
    rw [List.map_cons, List.nodup_cons] at hnames
    by_cases hg : g.name = f.name
    · have heq : f = g := by
        rcases List.mem_cons.mp hf with rfl | hf
        · rfl
        · exact absurd (hg ▸ List.mem_map_of_mem hf) hnames.1
      subst heq
      simp [FileStat.entry]
    · have hrest : f ∈ rest := by
        rcases List.mem_cons.mp hf with rfl | hf
        · exact absurd rfl hg
        · exact hf
      rw [List.map_cons, List.find?_cons_of_neg (by simp [FileStat.entry, hg])]
      exact ih hnames.2 hrest

/-- A buffer of the asked size is filled with the asked bytes only by an entry
of the same contents. -/
theorem extractToMem_eq_iff {files : List FileStat} {i : Nat} {f g : FileStat}
    (hi : files[i]? = some g) :
    extractToMem files i f.contents.length = some (f.contents.map some) ↔ g.contents = f.contents := by
  rw [extractToMem, hi, Option.bind_some]
  constructor
  · intro h
    split at h
    · cases h
    · next hle =>
        have hall : none ∉ f.contents.map some := by simp
        rw [← Option.some.inj h] at hall
        have hzero : f.contents.length - g.contents.length = 0 := by
          by_contra hne
          exact hall (List.mem_append_right _ (List.mem_replicate.mpr ⟨hne, rfl⟩))
        rw [hzero, List.replicate_zero, List.append_nil] at h
        exact List.map_injective_iff.mpr (Option.some_injective _) (Option.some.inj h)
  · intro h
    simp [h]

theorem firstMatch_locates (files : List FileStat) : Locates files (firstMatch files) := by
  intro name
  unfold firstMatch
  cases hfind : files.findIdx? fun g => decide (SameIgnoringCase g.rawName name) with
  | none =>
    intro g hg hsame
    have hno := List.findIdx?_eq_none_iff.mp hfind g hg
    rw [decide_eq_true hsame] at hno
    cases hno
  | some i =>
    obtain ⟨hlt, hmatch, -⟩ := List.findIdx?_eq_some_iff_getElem.mp hfind
    exact ⟨files[i], List.getElem?_eq_getElem hlt, of_decide_eq_true hmatch⟩

/-- A library may answer one name with any of its matches. -/
theorem Locates.answering {files : List FileStat} {locate : List Char → Option Nat}
    (h : Locates files locate) {name : List Char} {i : Nat} {g : FileStat}
    (hi : files[i]? = some g) (hsame : SameIgnoringCase g.rawName name) :
    Locates files fun n => if n = name then some i else locate n := by
  intro n
  dsimp only
  by_cases hn : n = name
  · rw [if_pos hn]
    exact ⟨g, hi, hn ▸ hsame⟩
  · rw [if_neg hn]
    exact h n

section Reading

variable {files : List FileStat} {table : List TkZipEntry}

theorem zipValidate_ok (h : zipValidate files = .ok table) :
    table = files.map FileStat.entry ∧ ∀ f ∈ files, f.uncompSize ≤ maxUncompressed := by
  unfold zipValidate at h
  split at h
  · cases h
  · exact validateLoop_ok h

variable (hopen : zipValidate files = .ok table) (hnames : (files.map FileStat.name).Nodup)
  {locate : List Char → Option Nat} {f : FileStat} (hf : f ∈ files)

include hopen hnames hf

/-- A directory is never read. -/
theorem read_directory (hdir : f.isDirectory = true) :
    zipReadEntry files table locate f.name = f.answer := by
  obtain ⟨rfl, -⟩ := zipValidate_ok hopen
  simp [zipReadEntry, find_entry hnames hf, FileStat.answer, FileStat.entry, hdir]

/-- A file the library does not find is not returned. -/
theorem read_missing (hdir : f.isDirectory = false) (hloc : locate f.name = none) :
    zipReadEntry files table locate f.name ≠ f.answer := by
  obtain ⟨rfl, hmax⟩ := zipValidate_ok hopen
  have hle : ¬ f.entry.size > maxUncompressed := Nat.not_lt.mpr (hmax f hf)
  rw [zipReadEntry, find_entry hnames hf]
  simp only [show f.entry.isDir = false from hdir, hloc, hle, FileStat.answer, hdir,
    if_false, Bool.false_eq_true]
  exact nofun

/-- A file the library finds under another entry is returned if it is empty or
has the same contents. -/
theorem read_located (hsize : f.contents.length = f.uncompSize) (hdir : f.isDirectory = false)
    {i : Nat} {g : FileStat} (hloc : locate f.name = some i) (hi : files[i]? = some g) :
    zipReadEntry files table locate f.name = f.answer ↔ f.contents = [] ∨ g.contents = f.contents := by
  obtain ⟨rfl, hmax⟩ := zipValidate_ok hopen
  have hentry : f.entry.size = f.contents.length := hsize.symm
  have hle : ¬ f.contents.length > maxUncompressed := Nat.not_lt.mpr (hsize ▸ hmax f hf)
  rw [zipReadEntry, find_entry hnames hf]
  simp only [show f.entry.isDir = false from hdir, hloc, hle, hentry, FileStat.answer, hdir,
    if_false, Bool.false_eq_true, List.length_eq_zero_iff]
  by_cases hnil : f.contents = []
  · simp [hnil]
  · rw [if_neg hnil, ← extractToMem_eq_iff hi]
    cases extractToMem files i f.contents.length <;> simp [hnil]

end Reading

/-- **When the entry that was asked for is returned**, whichever match the
library answers with: the name of every file matches a name of the archive, and
where there is something to return every entry it matches has these contents. -/
theorem zipReadEntry_right_iff (files : List FileStat) {table : List TkZipEntry}
    (hopen : zipValidate files = .ok table) (hnames : (files.map FileStat.name).Nodup)
    (hsizes : ∀ f ∈ files, f.contents.length = f.uncompSize) :
    (∀ locate, Locates files locate → ∀ f ∈ files,
        zipReadEntry files table locate f.name = f.answer) ↔
      ∀ f ∈ files, f.isDirectory = false → (∃ g ∈ files, SameIgnoringCase g.rawName f.name) ∧
        (f.contents ≠ [] → ∀ g ∈ files, SameIgnoringCase g.rawName f.name →
          g.contents = f.contents) := by
  constructor
  · intro h f hf hdir
    constructor
    · -- the library that answers with the first match found one
      have hright := h _ (firstMatch_locates files) f hf
      have hloc := firstMatch_locates files f.name
      cases hmatch : firstMatch files f.name with
      | none => exact absurd hright (read_missing hopen hnames hf hdir hmatch)
      | some i =>
        rw [hmatch] at hloc
        obtain ⟨g, hi, hsame⟩ := hloc
        exact ⟨g, List.mem_of_getElem? hi, hsame⟩
    · intro hne g hg hsame
      obtain ⟨i, hi⟩ := List.mem_iff_getElem?.mp hg
      have hloc := (firstMatch_locates files).answering hi hsame
      exact ((read_located hopen hnames hf (hsizes f hf) hdir (if_pos rfl) hi).mp
        (h _ hloc f hf)).resolve_left hne
  · intro h locate hloc f hf
    cases hdir : f.isDirectory with
    | true => exact read_directory hopen hnames hf hdir
    | false =>
      obtain ⟨⟨g, hg, hsame⟩, hsole⟩ := h f hf hdir
      have hfound := hloc f.name
      cases hmatch : locate f.name with
      | none =>
        rw [hmatch] at hfound
        exact absurd hsame (hfound g hg)
      | some i =>
        rw [hmatch] at hfound
        obtain ⟨k, hi, hk⟩ := hfound
        refine (read_located hopen hnames hf (hsizes f hf) hdir hmatch hi).mpr ?_
        by_cases hnil : f.contents = []
        · exact Or.inl hnil
        · exact Or.inr (hsole hnil k (List.mem_of_getElem? hi) hk)

/-- A stored file of one byte. -/
def storedFile (name : Char) (b : UInt8) : FileStat := ⟨[name], 1, 1, false, false, 0, true, [b]⟩

/-- An archive with `a` and `b`. -/
def twoLetters : List FileStat := [storedFile 'a' 1, storedFile 'b' 2]

/-- Under the first match both entries come back. -/
theorem different_letters_right :
    zipValidate twoLetters = .ok [⟨['a'], 1, 1, false⟩, ⟨['b'], 1, 1, false⟩] ∧
      ∀ f ∈ twoLetters, zipReadEntry twoLetters [⟨['a'], 1, 1, false⟩, ⟨['b'], 1, 1, false⟩]
        (firstMatch twoLetters) f.name = f.answer :=
  ⟨by decide, (zipReadEntry_right_iff twoLetters (by decide) (by decide) (by decide)).mpr
    (by decide) _ (firstMatch_locates twoLetters)⟩

/-- An archive with `A` and `a`. -/
def twoCases : List FileStat := [storedFile 'A' 1, storedFile 'a' 2]

/-- The binary search of the library ends at the second entry for both names. -/
def secondOfBoth (name : List Char) : Option Nat :=
  if name = ['a'] then some 1 else if name = ['A'] then some 1 else firstMatch twoCases name

/-- The bytes returned for `A` are those of `a`. -/
theorem other_case_returned :
    zipValidate twoCases = .ok [⟨['A'], 1, 1, false⟩, ⟨['a'], 1, 1, false⟩] ∧
      Locates twoCases secondOfBoth ∧
      zipReadEntry twoCases [⟨['A'], 1, 1, false⟩, ⟨['a'], 1, 1, false⟩] secondOfBoth ['A'] =
        .ok [some 2] := by
  refine ⟨by decide, ?_, by decide⟩
  have hsecond : twoCases[1]? = some (storedFile 'a' 2) := rfl
  have hupper := (firstMatch_locates twoCases).answering hsecond
    (show SameIgnoringCase ['a'] ['A'] by decide)
  exact hupper.answering hsecond (show SameIgnoringCase ['a'] ['a'] from rfl)

end Toke.Stdlib.Zip
