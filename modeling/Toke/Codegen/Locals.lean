/-
  Toke.Codegen.Locals — **LLVM NAMES OF LOCAL VARIABLES** (`make_unique_name`, `set_local_type` of
  `llvm.c`).

  A binding keeps its name when no local of the function has it yet, and
  otherwise becomes `name.N` with a counter that only grows.  Names of the
  form `t7` always get a number, since `%t7` is a temporary:

      let x … let x … let t7        %x  %x.1  %t7.2

  LLVM keeps values and basic-block labels in one namespace, and some labels
  are made of letters and digits only (`mend0`, `marm1`, …).

    `makeUniqueName_run`     — the names of a function, in closed form
    `localNames_clean_iff`   — when they clash with nothing
-/
import Toke.Lexer.Token

namespace Toke.Codegen

open List

variable {x y : List Char} {k cap : Nat} {seen : List (List Char)}

/-! ## §1. The code. -/

/-- `LocalType`. -/
structure LocalType where
  name : List Char
  ty : List Char
  deriving Repr, DecidableEq

/-- `NameAlias`. -/
structure NameAlias where
  tokeName : List Char
  llvmName : List Char
  deriving Repr, DecidableEq

/-- The two uses of `E9010`. -/
inductive LimitError where
  | aliases
  | locals
  deriving Repr, DecidableEq

/-- What `Ctx` keeps about the names of the current function. -/
structure FnNames where
  locals : List LocalType
  aliases : List NameAlias
  nameScope : Nat
  errors : List LimitError
  deriving Repr, DecidableEq

/-- `is_temp_like_name`. -/
def isTempLikeName : List Char → Bool
  | 't' :: c :: r => (c :: r).all Char.isDigit
  | _ => false

/-- The test of `make_unique_name`: the name itself, or the name and a dot. -/
def isNamed (x l : List Char) : Bool :=
  l = x || (x.length < l.length && x.isPrefixOf l && l.getD x.length ' ' = '.')

/-- `make_unique_name`; `cap` is `alias_cap`. -/
def makeUniqueName (cap : Nat) (c : FnNames) (x : List Char) : FnNames × List Char :=
  if !(c.locals.any fun l => isNamed x l.name) && !isTempLikeName x then (c, x)
  else if cap ≤ c.aliases.length then ({ c with errors := c.errors ++ [.aliases] }, x)
  else
    let llvmName := (x ++ '.' :: Nat.toDigits 10 (c.nameScope + 1)).take 127
    ({ c with
        aliases := c.aliases ++ [⟨x.take 127, llvmName⟩]
        nameScope := c.nameScope + 1 }, llvmName)

/-- The first loop of `set_local_type`. -/
def updateType (name ty : List Char) : List LocalType → Option (List LocalType)
  | [] => none
  | l :: ls =>
    if l.name = name then some ({ l with ty := ty } :: ls)
    else (updateType name ty ls).map (l :: ·)

/-- `set_local_type`; `cap` is `local_cap`. -/
def setLocalType (cap : Nat) (c : FnNames) (name ty : List Char) : FnNames :=
  match updateType name ty c.locals with
  | some ls => { c with locals := ls }
  | none =>
    if cap ≤ c.locals.length then { c with errors := c.errors ++ [.locals] }
    else { c with locals := c.locals ++ [⟨name.take 127, ty⟩] }

/-- The parameters of a function, entered under their own names. -/
def enterFunction (cap : Nat) (params : List LocalType) : FnNames :=
  params.foldl (fun c p => setLocalType cap c p.name p.ty) ⟨[], [], 0, []⟩

/-- What a function body does to the names. -/
inductive NameEvent where
  /-- A `let`, a loop variable or an arm variable. -/
  | bind (name ty : List Char)
  /-- The end of a block: `alias_count` goes back to its value at the start. -/
  | leave (saved : Nat)
  deriving Repr, DecidableEq

/-- One event, with the LLVM name of a binding.  `max_locals` is both
`alias_cap` and `local_cap`. -/
def NameEvent.step (maxLocals : Nat) (c : FnNames) : NameEvent → FnNames × List (List Char)
  | bind x ty =>
    let unique := makeUniqueName maxLocals c x
    (setLocalType maxLocals unique.1 unique.2 ty, [unique.2])
  | leave saved => ({ c with aliases := c.aliases.take saved }, [])

/-- The events of a function. -/
def runNames (maxLocals : Nat) : FnNames → List NameEvent → FnNames × List (List Char)
  | c, [] => (c, [])
  | c, e :: es =>
    let turn := e.step maxLocals c
    let rest := runNames maxLocals turn.1 es
    (rest.1, turn.2 ++ rest.2)

/-- The labels of `emit_expr` and `emit_stmt`, each with a number behind it. -/
def labelFamilies : List (List Char) :=
  ["logic_rhs", "logic_end", "ov_trap", "ov_ok", "dz_trap", "dz_ok", "nil_trap", "nil_ok",
    "oob_trap", "oob_ok", "prop_err", "prop_ok", "ife_then", "ife_else", "ife_end", "svchk",
    "svarm", "rm_end", "mcheck", "marm", "rm_ok", "rm_err", "if_then", "if_else", "if_merge",
    "loop_hdr", "loop_abort", "loop_ok", "loop_body", "loop_exit", "mnxt", "mend"].map String.toList

/-- A label with a number that an `int` holds. -/
def IsBlockLabel (y : List Char) : Prop :=
  ∃ f ∈ labelFamilies, ∃ n < 2 ^ 31, y = f ++ Nat.toDigits 10 n

/-- The names bound by a body, in order. -/
def boundNames (es : List NameEvent) : List (List Char) :=
  es.filterMap fun
    | .bind x _ => some x
    | .leave _ => none

/-- Letters and digits, and short enough for every buffer. -/
def SourceName (x : List Char) : Prop := (∀ c ∈ x, c.isAlphanum = true) ∧ x.length < 100

/-- No two names are equal, and none is a temporary or a label. -/
def CleanNames (ys : List (List Char)) : Prop :=
  ys.Nodup ∧ ∀ y ∈ ys, isTempLikeName y = false ∧ ¬ IsBlockLabel y

/-! ## §2. Names with a number. -/

/-- The name with a number, `"%s.%d"`. -/
def dotted (x : List Char) (k : Nat) : List Char := x ++ '.' :: Nat.toDigits 10 k

/-- The part before the dot. -/
def base (y : List Char) : List Char := y.takeWhile (· ≠ '.')

theorem SourceName.no_dot (h : SourceName x) : '.' ∉ x := by
  intro hdot
  exact absurd (h.1 '.' hdot) (by decide)

theorem base_of_no_dot (h : '.' ∉ x) : base x = x := by
  apply takeWhile_eq_self_iff.mpr
  intro c hc
  have hne : c ≠ '.' := fun heq => h (heq ▸ hc)
  simpa using hne

theorem base_dot (h : '.' ∉ x) (r : List Char) : base (x ++ '.' :: r) = x := by
  unfold base
  rw [takeWhile_append_of_pos]
  · simp
  · intro c hc
    have hne : c ≠ '.' := fun heq => h (heq ▸ hc)
    simpa using hne

theorem base_dotted (h : '.' ∉ x) (k : Nat) : base (dotted x k) = x := base_dot h _

theorem dot_mem_dotted (x : List Char) (k : Nat) : '.' ∈ dotted x k := by
  simp [dotted]

theorem dotted_inj {m : Nat} (hx : '.' ∉ x) (hy : '.' ∉ y)
    (h : dotted x k = dotted y m) : k = m := by
  have hxy : x = y := by rw [← base_dotted hx k, h, base_dotted hy]
  subst hxy
  have hdigits : Nat.toDigits 10 k = Nat.toDigits 10 m := (cons.inj (append_cancel_left h)).2
  rw [← Nat.ofDigitChars_ten_toDigits (n := k), hdigits, Nat.ofDigitChars_ten_toDigits]

/-- A name and a number of type `int` fit into the buffers. -/
theorem dotted_take (hx : x.length < 100) (hk : k < 2 ^ 31) :
    (dotted x k).take 127 = dotted x k := by
  have hdigits : (Nat.toDigits 10 k).length ≤ 10 :=
    (Nat.length_toDigits_le_iff (by decide) (by decide)).mpr (by omega)
  apply take_of_length_le
  rw [dotted, length_append, length_cons]
  omega

/-- The test compares what stands before the dot. -/
theorem isNamed_iff (h : '.' ∉ x) (l : List Char) : isNamed x l ↔ base l = x := by
  unfold isNamed
  simp only [Bool.or_eq_true, Bool.and_eq_true, decide_eq_true_eq, isPrefixOf_iff_prefix]
  constructor
  · rintro (rfl | ⟨⟨hlen, r, rfl⟩, hdot⟩)
    · exact base_of_no_dot h
    · cases r with
      | nil => simp at hlen
      | cons c r =>
        have hc : c = '.' := by simpa [getD] using hdot
        rw [hc]
        exact base_dot h r
  · intro hbase
    have hsplit := takeWhile_append_dropWhile (p := fun c => decide (c ≠ '.')) (l := l)
    change base l ++ _ = l at hsplit
    rw [hbase] at hsplit
    cases hrest : l.dropWhile (fun c => decide (c ≠ '.')) with
    | nil =>
      rw [hrest, append_nil] at hsplit
      exact Or.inl hsplit.symm
    | cons c r =>
      have hc : c = '.' := by
        have hne : l.dropWhile (fun c => decide (c ≠ '.')) ≠ [] := by
          rw [hrest]
          exact cons_ne_nil c r
        have hhead := head_dropWhile_not (fun c => decide (c ≠ '.')) hne
        simpa only [hrest, head_cons, decide_eq_false_iff_not, not_not] using hhead
      rw [hrest, hc] at hsplit
      rw [← hsplit]
      simp [getD]

/-! ## §3. One binding. -/

/-- The table after the names `seen`: their bases up to the limit, and no number
above the counter. -/
structure NamesKept (cap : Nat) (seen : List (List Char)) (c : FnNames) : Prop where
  bases : (c.locals.map fun l => base l.name) = seen.take cap
  numbered : ∀ l ∈ c.locals, ∀ x k, '.' ∉ x → l.name = dotted x k → k ≤ c.nameScope

theorem updateType_eq_none {name ty : List Char} {ls : List LocalType}
    (h : ∀ l ∈ ls, l.name ≠ name) : updateType name ty ls = none := by
  induction ls with
  | nil => rfl
  | cons l ls ih =>
    rw [updateType, if_neg (h l mem_cons_self), ih fun m hm => h m (mem_cons_of_mem l hm)]
    rfl

namespace NamesKept

variable {cap : Nat} {seen : List (List Char)} {c : FnNames}

theorem length_locals (h : NamesKept cap seen c) : c.locals.length = min cap seen.length := by
  have hlen := congrArg length h.bases
  rwa [length_map, length_take] at hlen

/-- The search finds the names entered so far. -/
theorem any_isNamed (h : NamesKept cap seen c) {x : List Char} (hx : '.' ∉ x) :
    (c.locals.any fun l => isNamed x l.name) ↔ x ∈ seen.take cap := by
  rw [← h.bases, any_eq_true, mem_map]
  simp only [isNamed_iff hx]

/-- A name that is not in the table is appended while there is room. -/
theorem setLocalType_fresh (h : NamesKept cap seen c) {x u : List Char} (ty : List Char)
    (hu : u.take 127 = u) (hbase : base u = x) (hfresh : ∀ l ∈ c.locals, l.name ≠ u)
    (hnumber : ∀ y k, '.' ∉ y → u = dotted y k → k ≤ c.nameScope) :
    NamesKept cap (seen ++ [x]) (setLocalType cap c u ty) ∧
      (setLocalType cap c u ty).nameScope = c.nameScope := by
  have hlen := h.length_locals
  rw [setLocalType, updateType_eq_none hfresh]
  simp only [hu]
  split
  · next hfull =>
      refine ⟨⟨?_, h.numbered⟩, rfl⟩
      rw [take_append_of_le_length (by omega)]
      exact h.bases
  · next hroom =>
      refine ⟨⟨?_, ?_⟩, rfl⟩
      · rw [take_of_length_le (by rw [length_append, length_singleton]; omega),
          map_append, h.bases, take_of_length_le (by omega)]
        simp [hbase]
      · intro l hl y k hy hname
        rcases mem_append.mp hl with hl | hl
        · exact h.numbered l hl y k hy hname
        · have hlu : l.name = u := by rw [mem_singleton.mp hl]
          exact hnumber y k hy (hlu ▸ hname)

end NamesKept

/-- The name gets a number: it was entered before, or looks like a temporary. -/
def IsRenamed (cap : Nat) (seen : List (List Char)) (x : List Char) : Prop :=
  x ∈ seen.take cap ∨ isTempLikeName x = true

instance (cap : Nat) (seen : List (List Char)) (x : List Char) :
    Decidable (IsRenamed cap seen x) := by
  unfold IsRenamed
  infer_instance

variable {c : FnNames}

theorem makeUniqueName_eq (h : NamesKept cap seen c) (hx : SourceName x)
    (hcount : c.nameScope + 1 < 2 ^ 31)
    (hlimit : LimitError.aliases ∉ (makeUniqueName cap c x).1.errors) :
    makeUniqueName cap c x = if IsRenamed cap seen x then
        ({ c with
            aliases := c.aliases ++ [⟨x, dotted x (c.nameScope + 1)⟩]
            nameScope := c.nameScope + 1 }, dotted x (c.nameScope + 1))
      else (c, x) := by
  have htaken := h.any_isNamed hx.no_dot
  unfold makeUniqueName at hlimit ⊢
  by_cases hrenamed : IsRenamed cap seen x
  · have hcond : ¬ ((!(c.locals.any fun l => isNamed x l.name) && !isTempLikeName x)) := by
      rcases hrenamed with hseen | htemp
      · simp [htaken.mpr hseen]
      · simp [htemp]
    rw [if_neg hcond] at hlimit ⊢
    rw [if_pos hrenamed]
    split at hlimit
    · simp at hlimit
    · next hroom =>
        have hname : (x ++ '.' :: Nat.toDigits 10 (c.nameScope + 1)).take 127 =
          dotted x (c.nameScope + 1) := dotted_take hx.2 hcount
        rw [if_neg hroom]
        simp only [hname]
        rw [take_of_length_le (by have := hx.2; omega)]
  · unfold IsRenamed at hrenamed
    rw [not_or, ← htaken] at hrenamed
    have hcond : (!(c.locals.any fun l => isNamed x l.name) && !isTempLikeName x) := by
      simpa [Bool.not_eq_true] using hrenamed
    rw [if_pos hcond, if_neg]
    rintro (hseen | htemp)
    · exact hrenamed.1 (htaken.mpr hseen)
    · exact hrenamed.2 htemp

theorem NamesKept.advance (h : NamesKept cap seen c) (aliases : List NameAlias)
    (hk : c.nameScope ≤ k) :
    NamesKept cap seen { c with aliases := aliases, nameScope := k } :=
  ⟨h.bases, fun l hl x m hx hname => (h.numbered l hl x m hx hname).trans hk⟩

/-- The counter and the name after a binding. -/
def nextScope (cap : Nat) (seen : List (List Char)) (k : Nat) (x : List Char) : Nat :=
  if IsRenamed cap seen x then k + 1 else k

/-- The name that a binding gets. -/
def llvmNameOf (cap : Nat) (seen : List (List Char)) (k : Nat) (x : List Char) : List Char :=
  if IsRenamed cap seen x then dotted x (k + 1) else x

theorem errors_setLocalType (cap : Nat) (c : FnNames) (u ty : List Char) :
    c.errors ⊆ (setLocalType cap c u ty).errors := by
  unfold setLocalType
  split
  · exact fun _ h => h
  · split
    · exact subset_append_left _ _
    · exact fun _ h => h

theorem errors_makeUniqueName (cap : Nat) (c : FnNames) (x : List Char) :
    c.errors ⊆ (makeUniqueName cap c x).1.errors := by
  unfold makeUniqueName
  split
  · exact fun _ h => h
  · split
    · exact subset_append_left _ _
    · exact fun _ h => h

/-- One binding: its name, the counter, and the table with one more name. -/
theorem bind_step (h : NamesKept cap seen c) (hx : SourceName x) (ty : List Char)
    (hcount : c.nameScope + 1 < 2 ^ 31)
    (hlimit : LimitError.aliases ∉ ((NameEvent.bind x ty).step cap c).1.errors) :
    ((NameEvent.bind x ty).step cap c).2 = [llvmNameOf cap seen c.nameScope x] ∧
      ((NameEvent.bind x ty).step cap c).1.nameScope = nextScope cap seen c.nameScope x ∧
      NamesKept cap (seen ++ [x]) ((NameEvent.bind x ty).step cap c).1 := by
  have hunique := makeUniqueName_eq h hx hcount
    (fun hmem => hlimit (errors_setLocalType cap _ _ ty hmem))
  simp only [NameEvent.step, hunique, llvmNameOf, nextScope]
  by_cases hrenamed : IsRenamed cap seen x
  · simp only [if_pos hrenamed]
    have hkept := h.advance (c.aliases ++ [⟨x, dotted x (c.nameScope + 1)⟩])
      (Nat.le_succ c.nameScope)
    obtain ⟨hnext, hscope⟩ := hkept.setLocalType_fresh ty (dotted_take hx.2 hcount)
      (base_dotted hx.no_dot _)
      (fun l hl hname => by
        have hle := h.numbered l hl x _ hx.no_dot hname
        omega)
      (fun y k hy hname => (dotted_inj hx.no_dot hy hname).symm.le)
    exact ⟨trivial, hscope, hnext⟩
  · simp only [if_neg hrenamed]
    have hbase := base_of_no_dot hx.no_dot
    obtain ⟨hnext, hscope⟩ := h.setLocalType_fresh (u := x) ty
      (take_of_length_le (by have := hx.2; omega)) hbase
      (fun l hl hname => hrenamed (Or.inl (by
        rw [← h.bases, ← hbase, ← hname]
        exact mem_map_of_mem hl)))
      (fun y k hy hname => absurd (hname ▸ dot_mem_dotted y k) hx.no_dot)
    exact ⟨trivial, hscope, hnext⟩

/-! ## §4. A whole body. -/

/-- The LLVM names of the bindings `xs` after the names `seen`. -/
def llvmNames (cap : Nat) : List (List Char) → Nat → List (List Char) → List (List Char)
  | _, _, [] => []
  | seen, k, x :: xs =>
    llvmNameOf cap seen k x :: llvmNames cap (seen ++ [x]) (nextScope cap seen k x) xs

theorem errors_step (cap : Nat) (c : FnNames) (e : NameEvent) :
    c.errors ⊆ (e.step cap c).1.errors := by
  cases e with
  | bind x ty => exact List.Subset.trans (errors_makeUniqueName cap c x) (errors_setLocalType cap _ _ ty)
  | leave saved => exact fun _ h => h

theorem errors_runNames (cap : Nat) (c : FnNames) (es : List NameEvent) :
    c.errors ⊆ (runNames cap c es).1.errors := by
  induction es generalizing c with
  | nil => exact fun _ h => h
  | cons e es ih => exact List.Subset.trans (errors_step cap c e) (ih _)

theorem makeUniqueName_run (h : NamesKept cap seen c) {es : List NameEvent}
    (hes : ∀ x ∈ boundNames es, SourceName x) (hcount : c.nameScope + es.length < 2 ^ 31)
    (hlimit : LimitError.aliases ∉ (runNames cap c es).1.errors) :
    (runNames cap c es).2 = llvmNames cap seen c.nameScope (boundNames es) := by
  induction es generalizing c seen with
  | nil => rfl
  | cons e es ih =>
    rw [length_cons] at hcount
    cases e with
    | leave saved =>
      have hscope : (c.nameScope : Nat) + es.length < 2 ^ 31 := by omega
      exact ih (h.advance _ le_rfl) hes hscope hlimit
    | bind x ty =>
      have hx : SourceName x := hes x (by simp [boundNames])
      obtain ⟨hname, hscope, hkept⟩ := bind_step h hx ty (by omega)
        (fun hmem => hlimit (errors_runNames cap _ es hmem))
      have hnext : nextScope cap seen c.nameScope x ≤ c.nameScope + 1 := by
        unfold nextScope
        split <;> omega
      have hrest := ih hkept (fun y hy => hes y (by
        exact mem_cons_of_mem x hy)) (by omega) hlimit
      change ((NameEvent.bind x ty).step cap c).2 ++ (runNames cap _ es).2 = _
      rw [hname, hrest, hscope]
      rfl

/-! ## §5. The parameters. -/

/-- The names in the table. -/
def FnNames.names (c : FnNames) : List (List Char) := c.locals.map (·.name)

theorem updateType_names {name ty : List Char} {ls ls' : List LocalType}
    (h : updateType name ty ls = some ls') : ls'.map (·.name) = ls.map (·.name) := by
  induction ls generalizing ls' with
  | nil => simp [updateType] at h
  | cons l ls ih =>
    rw [updateType] at h
    split at h
    · cases h
      rfl
    · obtain ⟨ms, hms, rfl⟩ := Option.map_eq_some_iff.mp h
      rw [map_cons, map_cons, ih hms]

/-- A table with source names only, before any name gets a number. -/
structure Entered (cap : Nat) (c : FnNames) : Prop where
  source : ∀ x ∈ c.names, SourceName x
  fits : c.names.length ≤ cap
  scope : c.nameScope = 0

theorem Entered.setLocalType (h : Entered cap c) (hx : SourceName x)
    (ty : List Char) : Entered cap (setLocalType cap c x ty) := by
  unfold Codegen.setLocalType
  split
  · next ls hls =>
      have hnames : ({ c with locals := ls } : FnNames).names = c.names := updateType_names hls
      exact ⟨hnames ▸ h.source, hnames ▸ h.fits, h.scope⟩
  · split
    · exact ⟨h.source, h.fits, h.scope⟩
    · next hroom =>
        have hcut : x.take 127 = x := take_of_length_le (by have := hx.2; omega)
        refine ⟨?_, ?_, h.scope⟩
        · intro y hy
          simp only [FnNames.names, map_append, mem_append, map_cons, map_nil,
            mem_singleton, hcut] at hy
          rcases hy with hy | rfl
          · exact h.source y hy
          · exact hx
        · simp only [FnNames.names, length_append, length_map, length_singleton]
          omega

theorem enterFunction_entered (cap : Nat) {params : List LocalType}
    (h : ∀ p ∈ params, SourceName p.name) : Entered cap (enterFunction cap params) := by
  unfold enterFunction
  have hstart : Entered cap ⟨[], [], 0, []⟩ := ⟨by simp [FnNames.names], Nat.zero_le _, rfl⟩
  generalize (⟨[], [], 0, []⟩ : FnNames) = c at hstart
  induction params generalizing c with
  | nil => exact hstart
  | cons p ps ih =>
    exact ih (forall_mem_cons.mp h).2 _
      (hstart.setLocalType (h p mem_cons_self) p.ty)

theorem Entered.namesKept (h : Entered cap c) : NamesKept cap c.names c := by
  refine ⟨?_, ?_⟩
  · rw [take_of_length_le h.fits]
    apply map_congr_left
    intro l hl
    exact base_of_no_dot (h.source l.name (mem_map_of_mem hl)).no_dot
  · intro l hl x k _ hname
    have hsource := h.source l.name (mem_map_of_mem hl)
    exact absurd (hname ▸ dot_mem_dotted x k) hsource.no_dot

/-! ## §6. Which names come out. -/

section Out

variable {cap k : Nat} {seen xs : List (List Char)} {x y : List Char}

theorem take_subset_take_append (cap : Nat) (seen ys : List (List Char)) :
    seen.take cap ⊆ (seen ++ ys).take cap := by
  intro z hz
  rw [take_append]
  exact mem_append_left _ hz

theorem isRenamed_append_self (h : IsRenamed cap seen x) : IsRenamed cap (seen ++ [x]) x :=
  h.imp_left fun hmem => take_subset_take_append cap seen [x] hmem

theorem isRenamed_append_ne (h : y ≠ x) : IsRenamed cap (seen ++ [x]) y ↔ IsRenamed cap seen y := by
  unfold IsRenamed
  rw [take_append]
  have hnot : y ∉ [x].take (cap - seen.length) := fun hmem =>
    h (mem_singleton.mp (mem_of_mem_take hmem))
  simp [hnot]

/-- A name without a number comes out where it is bound for the first time. -/
theorem mem_llvmNames (hy : '.' ∉ y) :
    y ∈ llvmNames cap seen k xs ↔ y ∈ xs ∧ ¬ IsRenamed cap seen y := by
  induction xs generalizing seen k with
  | nil => simp [llvmNames]
  | cons x xs ih =>
    rw [llvmNames, mem_cons, ih, llvmNameOf]
    by_cases hyx : y = x
    · subst hyx
      by_cases hrenamed : IsRenamed cap seen y
      · have hdotted : y ≠ dotted y (k + 1) := fun heq => hy (heq ▸ dot_mem_dotted y (k + 1))
        simp [isRenamed_append_self hrenamed, hdotted]
      · simp [hrenamed]
    · rw [isRenamed_append_ne hyx]
      have hne : y ≠ if IsRenamed cap seen x then dotted x (k + 1) else x := by
        split
        · exact fun heq => hy (heq ▸ dot_mem_dotted x (k + 1))
        · exact hyx
      simp [hne, hyx]

/-- Numbers only grow. -/
theorem lt_of_dotted_mem (hxs : ∀ x ∈ xs, '.' ∉ x) (hy : '.' ∉ y) {m : Nat}
    (h : dotted y m ∈ llvmNames cap seen k xs) : k < m := by
  induction xs generalizing seen k with
  | nil => simp [llvmNames] at h
  | cons x xs ih =>
    have hx : '.' ∉ x := hxs x mem_cons_self
    rw [llvmNames, mem_cons, llvmNameOf] at h
    rcases h with h | h
    · split at h
      · have hm := dotted_inj hy hx h
        omega
      · exact absurd (h ▸ dot_mem_dotted y m) hx
    · have hlt := ih (forall_mem_cons.mp hxs).2 h
      have hle : k ≤ nextScope cap seen k x := by
        unfold nextScope
        split <;> omega
      omega

/-- Whether a name is entered does not depend on those behind it. -/
theorem mem_take_append_cons (xs : List (List Char)) :
    x ∈ (seen ++ x :: xs).take cap ↔ x ∈ (seen ++ [x]).take cap := by
  rcases Nat.lt_or_ge seen.length cap with hroom | hfull
  · obtain ⟨d, hd⟩ : ∃ d, cap - seen.length = d + 1 := ⟨cap - seen.length - 1, by omega⟩
    simp [take_append, hd]
  · simp [take_append, Nat.sub_eq_zero_of_le hfull]

/-- When the name of a binding comes out again later. -/
theorem llvmNameOf_fresh (hxs : ∀ z ∈ xs, '.' ∉ z) (hx : '.' ∉ x) :
    llvmNameOf cap seen k x ∉ llvmNames cap (seen ++ [x]) (nextScope cap seen k x) xs ↔
      (isTempLikeName x = false → x ∈ xs → x ∈ (seen ++ x :: xs).take cap) := by
  unfold llvmNameOf nextScope
  by_cases hrenamed : IsRenamed cap seen x
  · rw [if_pos hrenamed, if_pos hrenamed]
    refine iff_of_true (fun hmem => ?_) (fun htemp _ => ?_)
    · exact absurd (lt_of_dotted_mem hxs hx hmem) (lt_irrefl _)
    · rcases hrenamed with hseen | htemp'
      · exact take_subset_take_append cap seen (x :: xs) hseen
      · simp [htemp] at htemp'
  · rw [if_neg hrenamed, if_neg hrenamed, mem_llvmNames hx]
    unfold IsRenamed at hrenamed ⊢
    rw [not_or] at hrenamed
    rw [mem_take_append_cons xs]
    simp [hrenamed.2]

/-- The names are distinct unless a name is bound twice after the table is full. -/
theorem nodup_llvmNames (hxs : ∀ x ∈ xs, '.' ∉ x) : (llvmNames cap seen k xs).Nodup ↔
      ∀ y, isTempLikeName y = false → 2 ≤ xs.count y → y ∈ (seen ++ xs).take cap := by
  induction xs generalizing seen k with
  | nil => simp [llvmNames]
  | cons x xs ih =>
    have hx : '.' ∉ x := hxs x mem_cons_self
    have hrest : ∀ z ∈ xs, '.' ∉ z := (forall_mem_cons.mp hxs).2
    rw [llvmNames, nodup_cons, ih hrest, llvmNameOf_fresh hrest hx, append_assoc]
    constructor
    · rintro ⟨hfirst, hlater⟩ y htemp hcount
      by_cases hyx : y = x
      · subst hyx
        rw [count_cons_self] at hcount
        exact hfirst htemp (count_pos_iff.mp (by omega))
      · rw [count_cons_of_ne (Ne.symm hyx)] at hcount
        exact hlater y htemp hcount
    · intro h
      refine ⟨fun htemp hmem => h x htemp ?_, fun y htemp hcount => h y htemp ?_⟩
      · have hpos := count_pos_iff.mpr hmem
        rw [count_cons_self]
        omega
      · exact hcount.trans count_le_count_cons

/-- No number stands behind a name that looks like a temporary and has none. -/
theorem isTempLikeName_of_mem (h : y ∈ llvmNames cap seen k xs) (hy : '.' ∉ y) :
    isTempLikeName y = false := by
  have hnot := ((mem_llvmNames hy).mp h).2
  simpa using (not_or.mp hnot).2

end Out

/-! ## §7. Temporaries and labels. -/

theorem no_dot_of_isTempLikeName (h : isTempLikeName y) : '.' ∉ y := by
  unfold isTempLikeName at h
  split at h
  · intro hdot
    rcases mem_cons.mp hdot with hdot | hdot
    · cases hdot
    · exact absurd (all_eq_true.mp h '.' hdot) (by decide)
  · cases h

theorem no_dot_of_isBlockLabel (h : IsBlockLabel y) : '.' ∉ y := by
  obtain ⟨f, hf, n, -, rfl⟩ := h
  have hfamily : ∀ f ∈ labelFamilies, '.' ∉ f := by decide +kernel
  intro hdot
  rcases mem_append.mp hdot with hdot | hdot
  · exact hfamily f hf hdot
  · exact absurd (Nat.isDigit_of_mem_toDigits (by decide) (by decide) hdot) (by decide)

theorem not_temp_of_isBlockLabel (h : IsBlockLabel y) : isTempLikeName y = false := by
  obtain ⟨f, hf, n, -, rfl⟩ := h
  have hfamily : ∀ f ∈ labelFamilies, f.head?.any (· ≠ 't') := by decide +kernel
  have hhead := hfamily f hf
  cases f with
  | nil => cases hhead
  | cons c r =>
    have hc : c ≠ 't' := by simpa using hhead
    unfold isTempLikeName
    split
    · next heq => exact absurd (cons.inj heq).1 hc
    · rfl

/-- **The names of a function clash with nothing** exactly when no label is bound
anew and no name is bound twice behind the end of the table. -/
theorem localNames_clean_iff {maxLocals : Nat} {params : List LocalType} {es : List NameEvent}
    (hparams : ∀ p ∈ params, SourceName p.name) (hnames : ∀ x ∈ boundNames es, SourceName x)
    (hcount : es.length < 2 ^ 31) (hlimit : LimitError.aliases ∉
      (runNames maxLocals (enterFunction maxLocals params) es).1.errors) :
    CleanNames (runNames maxLocals (enterFunction maxLocals params) es).2 ↔
      (∀ x ∈ boundNames es, IsBlockLabel x → x ∈ (enterFunction maxLocals params).names) ∧
      (∀ x, isTempLikeName x = false → 2 ≤ (boundNames es).count x →
        x ∈ ((enterFunction maxLocals params).names ++ boundNames es).take maxLocals) := by
  have hentered := enterFunction_entered maxLocals hparams
  have hrun := makeUniqueName_run hentered.namesKept hnames (by rw [hentered.scope]; omega) hlimit
  have hdots : ∀ x ∈ boundNames es, '.' ∉ x := fun x hx => (hnames x hx).no_dot
  rw [hrun]
  unfold CleanNames
  rw [nodup_llvmNames hdots, and_comm]
  refine and_congr_left fun _ => ?_
  have hall := take_of_length_le hentered.fits
  constructor
  · intro h x hx hlabel
    by_contra hnot
    refine (h x ?_).2 hlabel
    rw [mem_llvmNames (hdots x hx)]
    refine ⟨hx, ?_⟩
    unfold IsRenamed
    simp [hall, hnot, not_temp_of_isBlockLabel hlabel]
  · intro h y hy
    constructor
    · by_contra htemp
      have hdot := no_dot_of_isTempLikeName (by simpa using htemp)
      exact htemp (isTempLikeName_of_mem hy hdot)
    · intro hlabel
      obtain ⟨hmem, hnot⟩ := (mem_llvmNames (no_dot_of_isBlockLabel hlabel)).mp hy
      apply hnot
      rw [← hall] at h
      exact Or.inl (h y hmem hlabel)

/-- A shadowed name in a block, and one that looks like a temporary. -/
theorem localNames_shadowed : CleanNames (runNames 4 (enterFunction 4 [⟨['a'], ['i', '6', '4']⟩])
        [.bind ['x'] [], .bind ['x'] [], .leave 0, .bind ['t', '7'] []]).2 ↔
      (∀ x ∈ [['x'], ['x'], ['t', '7']], IsBlockLabel x → x ∈ [['a']]) ∧
      (∀ x, isTempLikeName x = false → 2 ≤ [['x'], ['x'], ['t', '7']].count x →
        x ∈ [['a'], ['x'], ['x'], ['t', '7']]) :=
  localNames_clean_iff (by simp [SourceName]) (by simp [SourceName, boundNames]) (by simp)
    (by decide +kernel)

/-- A local called `mend0` has the name of the label behind the first match. -/
theorem localNames_label_clash :
    (runNames 4 (enterFunction 4 []) [.bind "mend0".toList []]).2 = ["mend0".toList] ∧
      ¬ CleanNames (runNames 4 (enterFunction 4 []) [.bind "mend0".toList []]).2 := by
  have hname : (runNames 4 (enterFunction 4 []) [.bind "mend0".toList []]).2 = ["mend0".toList] := by
    decide +kernel
  refine ⟨hname, fun hclean => ?_⟩
  exact (hclean.2 _ mem_cons_self).2 ⟨"mend".toList, by decide +kernel, 0, by decide, rfl⟩

end Toke.Codegen
