/-
  Toke.Tkir.FailedDecode — **WHAT A FAILED `tkir_decode` LEAVES BEHIND.**

  `tkirDecode` says whether a buffer decodes and to what.  `decodeOut` follows
  the output module through the error exits as well: an error inside a section
  frees the module, an error in the header of a section does not.  A failed
  decode therefore leaves tables behind exactly if well-formed sections fill
  some in front of a broken section header (`failed_decode_bare_iff`).
-/
import Toke.Tkir.Sections

namespace Toke.Tkir

/-! ## §1. The output module. -/

/-- Every count is 0 and every table pointer `NULL`: the parsers set a pointer
exactly where they set a count that is not 0. -/
def TkirModule.bare (mod : TkirModule) : Bool :=
  mod.types.isEmpty && mod.funcs.isEmpty && mod.data.isEmpty && mod.imports.isEmpty &&
    mod.exports.isEmpty

/-- `tkir_module_free`: whatever the tables held, they are gone. -/
def tkirModuleFree (mod : TkirModule) : TkirModule :=
  { mod with types := [], funcs := [], data := [], imports := [], exports := [] }

theorem tkirModuleFree_bare (mod : TkirModule) : (tkirModuleFree mod).bare := rfl

/-- The module `memset` leaves. -/
def zeroModule : TkirModule := ⟨[], [], [], [], [], 0, 0, 0⟩

section Out

variable (data : List UInt8)

/-- The section loop with the module it works on.  A broken section header
returns at once; a section that does not parse has the module freed, whatever
the parser had filled in by then. -/
def sectionsOut : Nat → Nat → Nat → TkirModule → TkirModule × Option String
  | 0, _, _, mod => (mod, none)
  | n + 1, si, pos, mod =>
    match (readFrame data si).run pos with
    | .error msg => (mod, some msg)
    | .ok ((tag, stop), start) =>
      match (parseBody data tag stop mod).run start with
      | .error msg => (tkirModuleFree mod, some msg)
      | .ok (mod', _) => sectionsOut n (si + 1) stop mod'

/-- `tkir_decode` with the module it leaves and its error, if it returns -1.
The header fails before anything is stored. -/
def decodeOut : TkirModule × Option String :=
  match (readHeader data).run 0 with
  | .error msg => (zeroModule, some msg)
  | .ok ((mod, count), pos) => sectionsOut data count 0 pos mod

/-- The result a caller sees. -/
def outcome (out : TkirModule × Option String) : Except String TkirModule :=
  match out with
  | (mod, none) => .ok mod
  | (_, some msg) => .error msg

/-- The loop over the sections from number `si` on. -/
theorem foldSections_run : ∀ (n si pos : Nat) (mod : TkirModule),
    ((List.range' si n).foldlM (fun mod si => parseSection data si mod) mod).run' pos
      = outcome (sectionsOut data n si pos mod) := by
  intro n
  induction n with
  | zero => intro si pos mod; rfl
  | succ n ih =>
    intro si pos mod
    show (((readFrame data si >>= fun frame => parseBody data frame.1 frame.2 mod >>= fun mod =>
      set frame.2 >>= fun _ => pure mod).run pos >>= fun r =>
        ((List.range' (si + 1) n).foldlM (fun mod si => parseSection data si mod) r.1).run r.2)
          |>.map Prod.fst) = _
    rw [StateT.run_bind]
    unfold sectionsOut
    cases (readFrame data si).run pos with
    | error msg => rfl
    | ok frame =>
      obtain ⟨⟨tag, stop⟩, start⟩ := frame
      dsimp only
      show (((parseBody data tag stop mod).run start >>= _) >>= _ |>.map Prod.fst) = _
      cases (parseBody data tag stop mod).run start with
      | error msg => rfl
      | ok r => exact ih (si + 1) stop r.1

/-- **`decodeOut` is `tkir_decode`** with the module followed to the end. -/
theorem tkirDecode_eq_outcome : tkirDecode data = outcome (decodeOut data) := by
  unfold tkirDecode decodeOut
  show ((readHeader data).run 0 >>= fun r => (parseSections data r.1.2 r.1.1).run r.2).map Prod.fst = _
  cases (readHeader data).run 0 with
  | error msg => rfl
  | ok header =>
    obtain ⟨⟨mod, count⟩, pos⟩ := header
    show (parseSections data count mod).run' pos = _
    unfold parseSections
    rw [List.range_eq_range']
    exact foldSections_run data count 0 pos mod

/-! ## §2. What is left. -/

/-- Well-formed sections in front of a broken section header fill a table: the
last one of a tag has a count that is not 0. -/
def strandsTables : Bool :=
  match (readHeader data).run 0 with
  | .error _ => false
  | .ok ((empty, _), _) =>
    let frames := fileFrames data
    !frames.2 && (parseFrames data frames.1 empty).isSome &&
      tableTags.any fun tag => 0 < lastCount data frames.1 tag

/-- No table is filled exactly if every table has size 0. -/
theorem TkirModule.bare_iff (mod : TkirModule) :
    mod.bare ↔ ∀ tag ∈ tableTags, mod.tableSize tag = 0 := by
  simp only [bare, tableTags, List.forall_mem_cons, Bool.and_eq_true, List.isEmpty_iff,
    ← List.length_eq_zero_iff]
  simp [tableSize, secType, secFunc, secData, secImport, secExport, and_assoc]

/-- The module is left as it is at a broken header, and freed at a body that
does not parse. -/
theorem sectionsOut_bare_iff : ∀ (n si pos : Nat) (mod : TkirModule),
    ((sectionsOut data n si pos mod).2.isSome →
        (sectionsOut data n si pos mod).1.bare) ↔
      ((leadingFrames data n si pos).2 = false → ∀ m,
        parseFrames data (leadingFrames data n si pos).1 mod = some m → m.bare) := by
  intro n
  induction n with
  | zero =>
    intro si pos mod
    exact ⟨fun _ h => (nomatch h), fun _ h => (nomatch h)⟩
  | succ n ih =>
    intro si pos mod
    unfold sectionsOut leadingFrames
    cases (readFrame data si).run pos with
    | error msg =>
      show (true → mod.bare) ↔ (false = false → ∀ m, some mod = some m → m.bare)
      simp
    | ok frame =>
      obtain ⟨⟨tag, stop⟩, start⟩ := frame
      unfold parseFrames
      dsimp only
      cases (parseBody data tag stop mod).run start with
      | error msg =>
        refine iff_of_true (fun _ => tkirModuleFree_bare mod) fun _ m hm => ?_
        cases hm
      | ok r => exact ih (si + 1) stop r.1

/-- **What a failed decode leaves.**  A buffer on which `tkir_decode` returns -1
leaves no table behind, unless well-formed sections fill one in front of a
broken section header. -/
theorem failed_decode_bare_iff :
    ((decodeOut data).2.isSome = true → (decodeOut data).1.bare = true) ↔
      strandsTables data = false := by
  unfold decodeOut strandsTables
  cases hheader : (readHeader data).run 0 with
  | error msg => exact ⟨fun _ => rfl, fun _ _ => rfl⟩
  | ok header =>
    obtain ⟨⟨empty, count⟩, pos⟩ := header
    have hframes : fileFrames data = leadingFrames data count 0 pos := by
      rw [fileFrames, hheader]
    dsimp only
    rw [sectionsOut_bare_iff, ← hframes]
    cases (fileFrames data).2 with
    | true => simp
    | false =>
      cases hparse : parseFrames data (fileFrames data).1 empty with
      | none => simp
      | some m =>
        have hsizes := parseFrames_tableSize (readHeader_tableSize hheader) hparse
        simp only [Option.some.injEq, forall_eq', true_imp_iff, TkirModule.bare_iff,
          Bool.not_false, Option.isSome_some, Bool.and_self, Bool.true_and, List.any_eq_false,
          decide_eq_true_eq, Nat.not_lt, Nat.le_zero]
        exact forall₂_congr fun tag htag => by rw [hsizes tag htag]

end Out

/-- Two sections are announced; behind the first, with one type, the file ends. -/
def cutFile : List UInt8 := fileHeader 2 ++ sectionBytes secType (u16 1 ++ u8 tyI64)

/-- The type is left behind. -/
theorem cutFile_types_left : (decodeOut cutFile).2 = some "truncated section header (tag)" ∧
      (decodeOut cutFile).1.types.length = 1 := by decide +kernel

end Toke.Tkir
