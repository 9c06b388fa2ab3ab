/-
  Toke.Codegen.Mangle — **SYMBOL NAMES** (`extract_module_prefix`, `prepass_funcs`, `mangle_fn_name`
  of `llvm.c`).

  A function is registered under its module path and its name, joined by `_`,
  and defined under that name if it is found among the registered ones.  Four
  names are used without the path, segments are read through a buffer of 128
  bytes, and only 127 bytes of a symbol are registered: a longer one is not
  found again, and its function is defined under the bare name.

    `regOf_regular`, `symOf_regular`    — the registered and the defined symbol
    `symbols_distinct_iff`              — when two functions get two symbols
                                          outside the runtime's family
-/
import Toke.Interface.Emit
import Toke.Names.FrontEnd

namespace Toke.Codegen

open List

/-! ## §1. The code. -/

/-- The loop over the path segments; a segment that does not fit ends it. -/
def joinSegments : List (List Char) → List Char → List Char
  | [], buf => buf
  | seg :: segs, buf =>
    if buf.length + seg.length + 1 ≥ 255 then buf
    else joinSegments segs ((if 0 < buf.length then buf ++ ['_'] else buf) ++ seg)

/-- The module node: the first declaration of a program, or the node itself. -/
def moduleNode (ast : Node) : Option Node :=
  match ast.kind with
  | .program => ast.children.head?.filter (·.kind = .module)
  | .module => some ast
  | _ => none

/-- `extract_module_prefix`. -/
def extractModulePrefix (src : Source) (ast : Node) : List Char :=
  match (moduleNode ast).bind (·.children.head?) with
  | none => []
  | some mp =>
    if mp.kind ≠ .modulePath ∨ mp.children = [] then []
    else joinSegments (mp.children.map (tokCopy src 128)) [] ++ ['_']

/-- The name of a function, with `main` renamed. -/
def functionName (name : List Char) : List Char :=
  if name = "main".toList then "tk_main".toList else name

/-- The names that get no prefix: `tk_main`, the stdlib wrappers and the
built-in identifiers. -/
def keepsName (tb : List Char) : Bool :=
  tb = "tk_main".toList || "tk_".toList <+: tb ||
    tb ∈ ["ok".toList, "err".toList, "none".toList]

/-- `snprintf` of prefix and name into 256 bytes. -/
def prefixed (modulePrefix tb : List Char) : List Char := (modulePrefix ++ tb).take 255

/-- The symbol that `prepass_funcs` makes of a name. -/
def symbolName (modulePrefix tb : List Char) : List Char :=
  if modulePrefix ≠ [] ∧ keepsName tb = false then prefixed modulePrefix tb else tb

/-- What `register_fn` keeps of a symbol. -/
def registerFn (name : List Char) : List Char := name.take 127

/-- `prepass_funcs`: each function with the name of its signature. -/
def prepassFuncs (src : Source) (modulePrefix : List Char) : Node → List (Node × List Char)
  | n@⟨kind, _, _, _, _, _, _, children⟩ =>
    if kind = .program ∨ kind = .module then go children
    else if kind = .funcDecl then
      (children.head?.map fun id =>
        (n, registerFn (symbolName modulePrefix (functionName (tokCopy src 256 id))))).toList
    else []
where
  go : List Node → List (Node × List Char)
    | [] => []
    | c :: cs => prepassFuncs src modulePrefix c ++ go cs

/-- `mangle_fn_name`, over the names of the registered signatures. -/
def mangleFnName (modulePrefix : List Char) (fns : List (List Char)) (buf : List Char) : List Char :=
  if modulePrefix = [] ∨ keepsName buf = true then buf
  else if buf ∈ fns ∨ prefixed modulePrefix buf ∈ fns then prefixed modulePrefix buf
  -- not a local function
  else buf

/-- A module as the back end gets it: its text and its tree, the functions that
its imports register, and the limit on signatures. -/
structure Module where
  src : Source
  ast : Node
  imported : List (List Char)
  maxFuncs : Nat

/-- Its prefix. -/
def Module.modulePrefix (m : Module) : List Char := extractModulePrefix m.src m.ast

/-- The functions of the module that are registered. -/
def Module.registered (m : Module) : List (Node × List Char) :=
  (prepassFuncs m.src m.modulePrefix m.ast).take m.maxFuncs

/-- The names of all signatures, those of the imports behind the module's own. -/
def Module.fns (m : Module) : List (List Char) :=
  ((prepassFuncs m.src m.modulePrefix m.ast).map Prod.snd ++ m.imported.map registerFn).take m.maxFuncs

/-- The symbol under which `emit_toplevel` defines a function, by the node of
its name. -/
def Module.definedSymbol (m : Module) (id : Node) : List Char :=
  mangleFnName m.modulePrefix m.fns (functionName (tokCopy m.src 256 id))

/-- A registered function has the symbol of its name. -/
theorem mem_prepassFuncs {src : Source} {modulePrefix : List Char} {fn : Node} {sym : List Char}
    (n : Node) (h : (fn, sym) ∈ prepassFuncs src modulePrefix n) :
    ∃ id, fn.children.head? = some id ∧
      sym = registerFn (symbolName modulePrefix (functionName (tokCopy src 256 id))) := by
  induction n using Node.induction with
  | step n ih =>
    obtain ⟨kind, s, l, co, ts, tl, o, cs⟩ := n
    have hgo : ∀ ds : List Node, (∀ c ∈ ds, c ∈ cs) →
        (fn, sym) ∈ prepassFuncs.go src modulePrefix ds →
        ∃ id, fn.children.head? = some id ∧
          sym = registerFn (symbolName modulePrefix (functionName (tokCopy src 256 id))) := by
      intro ds
      induction ds with
      | nil => intro _ h; cases h
      | cons d ds ihds =>
        intro hsub h
        rcases mem_append.mp h with h | h
        · exact ih d (hsub d mem_cons_self) h
        · exact ihds (forall_mem_cons.mp hsub).2 h
    unfold prepassFuncs at h
    by_cases hroot : kind = .program ∨ kind = .module
    · rw [if_pos hroot] at h
      exact hgo cs (fun _ hc => hc) h
    · rw [if_neg hroot] at h
      by_cases hfn : kind = .funcDecl
      · rw [if_pos hfn] at h
        obtain ⟨id, hid, heq⟩ := Option.map_eq_some_iff.mp (Option.mem_toList.mp h)
        injection heq with hnode hsym
        exact ⟨id, hnode ▸ hid, hsym.symm⟩
      · rw [if_neg hfn] at h
        cases h

theorem registerFn_length (s : List Char) : (registerFn s).length ≤ 127 := by
  rw [registerFn, length_take]
  omega

theorem Module.registered_mem_fns {m : Module} {fn : Node} {reg : List Char}
    (h : (fn, reg) ∈ m.registered) : reg ∈ m.fns := by
  rw [Module.fns, take_append, ← map_take]
  exact mem_append_left _ (mem_map_of_mem h)

/-- No registered name is longer than 127 bytes. -/
theorem Module.fns_length {m : Module} {reg : List Char} (h : reg ∈ m.fns) : reg.length ≤ 127 := by
  rcases mem_append.mp (mem_of_mem_take h) with h | h
  · obtain ⟨⟨fn, sym⟩, hmem, rfl⟩ := mem_map.mp h
    obtain ⟨id, -, rfl⟩ := mem_prepassFuncs m.ast hmem
    exact registerFn_length _
  · obtain ⟨s, -, rfl⟩ := mem_map.mp h
    exact registerFn_length s

/-! ## §2. The symbol of a name. -/

/-- A lowercase letter or a digit. -/
def isPlain (c : Char) : Bool := ('a' ≤ c && c ≤ 'z') || isDigit c

/-- A name over lowercase letters and digits. -/
def Plain (s : List Char) : Prop := s ≠ [] ∧ s.all isPlain = true

instance (s : List Char) : Decidable (Plain s) :=
  inferInstanceAs (Decidable (s ≠ [] ∧ s.all isPlain = true))

/-- The names that are registered without the path. -/
def exemptNames : List (List Char) :=
  ["main".toList, "ok".toList, "err".toList, "none".toList]

/-- The path as it is written: each segment through its buffer. -/
def writtenPath (path : List (List Char)) : List (List Char) := path.map (·.take 127)

/-- The prefix, with its last `_` and the terminator, fits the buffer. -/
def Fits (path : List (List Char)) : Prop :=
  (['_'].intercalate (writtenPath path)).length + 2 ≤ 256

instance (path : List (List Char)) : Decidable (Fits path) :=
  inferInstanceAs (Decidable (_ ≤ 256))

/-- The whole symbol of a function. -/
def wholeSymbol (path : List (List Char)) (name : List Char) : List Char :=
  ['_'].intercalate (writtenPath path) ++ '_' :: name

/-- The symbol can be registered as it is. -/
def Short (path : List (List Char)) (name : List Char) : Prop := (wholeSymbol path name).length ≤ 127

instance (path : List (List Char)) (name : List Char) : Decidable (Short path name) :=
  inferInstanceAs (Decidable (_ ≤ 127))

theorem Plain.not_mem {s : List Char} (h : Plain s) {c : Char} (hc : isPlain c = false) : c ∉ s :=
  fun hmem => Bool.false_ne_true (hc.symm.trans (all_eq_true.mp h.2 c hmem))

/-- A plain name has no NUL, so that only the size of the buffer cuts it. -/
theorem Plain.buffer {s : List Char} (h : Plain s) (size : Nat) :
    buffer size s = s.take (size - 1) := by
  unfold Toke.buffer
  rw [takeWhile_eq_self_iff]
  intro c hc
  have hne : c ≠ '\x00' := fun h0 => h.not_mem (by decide) (h0 ▸ mem_of_mem_take hc)
  simpa using hne

/-- Segments that fit are joined by `_`. -/
theorem joinSegments_eq : ∀ (segs : List (List Char)) (buf : List Char), buf ≠ [] →
    (buf ++ segs.flatMap (['_'] ++ ·)).length ≤ 254 →
    joinSegments segs buf = buf ++ segs.flatMap (['_'] ++ ·)
  | [], buf, _, _ => by rw [joinSegments, flatMap_nil, append_nil]
  | seg :: segs, buf, hne, hfit => by
    have hpos : 0 < buf.length := length_pos_iff.mpr hne
    have hassoc : buf ++ (seg :: segs).flatMap (['_'] ++ ·) =
        (buf ++ ['_'] ++ seg) ++ segs.flatMap (['_'] ++ ·) := by
      rw [flatMap_cons]
      simp only [append_assoc]
    rw [hassoc] at hfit ⊢
    have hroom : ¬ buf.length + seg.length + 1 ≥ 255 := by
      rw [length_append, length_append, length_append, length_singleton] at hfit
      omega
    rw [joinSegments, if_neg hroom, if_pos hpos]
    exact joinSegments_eq segs _ (by simp) hfit

/-- **The prefix of a module**: its segments, each followed by `_`. -/
theorem joinSegments_path {path : List (List Char)} (hne : path ≠ []) (hplain : ∀ s ∈ path, Plain s)
    (hfit : Fits path) : joinSegments (writtenPath path) [] = ['_'].intercalate (writtenPath path) := by
  obtain ⟨seg, segs, rfl⟩ := exists_cons_of_ne_nil hne
  have hseg : seg.take 127 ≠ [] := by
    have hpos := length_pos_iff.mpr (hplain seg mem_cons_self).1
    exact length_pos_iff.mp (by rw [length_take]; omega)
  unfold Fits at hfit
  unfold writtenPath at hfit ⊢
  rw [map_cons, Items.intercalate_cons] at hfit ⊢
  have hroom : ¬ ([] : List Char).length + (seg.take 127).length + 1 ≥ 255 := by
    rw [length_take, length_nil]
    omega
  rw [joinSegments, if_neg hroom, if_neg (by simp), nil_append]
  exact joinSegments_eq _ _ hseg (by omega)

/-- A function of a module: its path and name, the name it is registered under
and the symbol it is defined under. -/
structure Declares (m : Module) (path : List (List Char)) (name reg sym : List Char) : Prop where
  module : ∃ mod mp, m.ast.kind = .program ∧ m.ast.children.head? = some mod ∧ mod.kind = .module ∧
    mod.children.head? = some mp ∧ mp.kind = .modulePath ∧ mp.children.map (Node.text m.src) = path
  func : ∃ fn id, (fn, reg) ∈ m.registered ∧ fn.children.head? = some id ∧ id.text m.src = name ∧
    sym = m.definedSymbol id

/-- The path is a nonempty sequence of plain names that fits the buffer, and the name is plain. -/
structure Regular (path : List (List Char)) (name : List Char) : Prop where
  path_ne : path ≠ []
  segments : ∀ s ∈ path, Plain s
  fits : Fits path
  name : Plain name

/-- The prefix of a path. -/
def pathPrefix (path : List (List Char)) : List Char := ['_'].intercalate (writtenPath path) ++ ['_']

/-- The registered name of a function of the module. -/
def regOf (path : List (List Char)) (name : List Char) : List Char :=
  registerFn (symbolName (pathPrefix path) (functionName (name.take 255)))

/-- The symbol of its definition. -/
def symOf (fns path : List (List Char)) (name : List Char) : List Char :=
  mangleFnName (pathPrefix path) fns (functionName (name.take 255))

section

variable {m : Module} {path fns : List (List Char)} {name reg sym : List Char}

theorem Declares.modulePrefix (h : Declares m path name reg sym) (hr : Regular path name) :
    m.modulePrefix = pathPrefix path := by
  obtain ⟨mod, mp, hprog, hmod, hkind, hmp, hpath, htexts⟩ := h.module
  have hnode : moduleNode m.ast = some mod := by
    simp only [moduleNode, hprog, hmod, Option.filter, hkind, decide_true, if_true]
  have hne : mp.children ≠ [] := by
    intro hnil
    rw [hnil] at htexts
    exact hr.path_ne htexts.symm
  have hsegs : mp.children.map (tokCopy m.src 128) = writtenPath path := by
    rw [writtenPath, ← htexts, map_map]
    refine map_congr_left fun id hid => ?_
    exact (hr.segments _ (htexts ▸ mem_map_of_mem hid)).buffer 128
  simp only [Module.modulePrefix, extractModulePrefix, hnode, Option.bind_some, hmp]
  rw [if_neg (by simp [hpath, hne]), hsegs, joinSegments_path hr.path_ne hr.segments hr.fits, pathPrefix]

/-- Both symbols are those of the path and the name. -/
theorem Declares.symbols_eq (h : Declares m path name reg sym) (hr : Regular path name) :
    reg = regOf path name ∧ sym = symOf m.fns path name ∧ reg ∈ m.fns := by
  obtain ⟨fn, id, hmem, hid, hname, hsym⟩ := h.func
  obtain ⟨id', hid', hreg⟩ := mem_prepassFuncs m.ast (mem_of_mem_take hmem)
  rw [hid] at hid'
  injection hid' with hid'
  have hcopy : tokCopy m.src 256 id = name.take 255 := by
    rw [tokCopy, hname]
    exact hr.name.buffer 256
  rw [← hid', h.modulePrefix hr, hcopy] at hreg
  rw [Module.definedSymbol, h.modulePrefix hr, hcopy] at hsym
  exact ⟨hreg, hsym, m.registered_mem_fns hmem⟩

/-- A short text is its own beginning only. -/
theorem take_eq_short {s w : List Char} {n : Nat} (hw : w.length < n) (h : s.take n = w) : s = w := by
  have hlen : s.length ≤ n := by
    have := congrArg length h
    rw [length_take] at this
    omega
  rw [← h, take_of_length_le hlen]

theorem underscore_not_mem (h : Plain name) : '_' ∉ name := h.not_mem (by decide)

/-- The exempt names stay as they are, `main` is `tk_main`. -/
theorem regOf_exempt (h : name ∈ exemptNames) : regOf path name = functionName name := by
  fin_cases h <;> simp [regOf, symbolName, functionName, keepsName, registerFn]

theorem symOf_exempt (h : name ∈ exemptNames) : symOf fns path name = functionName name := by
  fin_cases h <;> simp [symOf, mangleFnName, functionName, keepsName]

/-- Any other name is not renamed and takes the prefix. -/
theorem regular_name (hr : Regular path name) (h : name ∉ exemptNames) :
    functionName (name.take 255) = name.take 255 ∧ keepsName (name.take 255) = false := by
  simp only [exemptNames, mem_cons, not_mem_nil, or_false, not_or] at h
  have hother : ∀ w : List Char, w.length < 255 → name ≠ w → name.take 255 ≠ w :=
    fun w hw hne htake => hne (take_eq_short hw htake)
  have htk : ∀ w : List Char, '_' ∈ w → ¬ w <+: name.take 255 := by
    intro w hw hpre
    exact underscore_not_mem hr.name (mem_of_mem_take (hpre.subset hw))
  refine ⟨if_neg (hother _ (by decide) h.1), ?_⟩
  have hmain : name.take 255 ≠ "tk_main".toList :=
    fun heq => htk "tk_main".toList (by decide) (by rw [heq])
  unfold keepsName
  rw [decide_eq_false hmain, decide_eq_false (htk "tk_".toList (by decide))]
  simpa using ⟨hother _ (by decide) h.2.1, hother _ (by decide) h.2.2.1, hother _ (by decide) h.2.2.2⟩

theorem pathPrefix_append (s : List Char) : pathPrefix path ++ s = wholeSymbol path s := by
  rw [pathPrefix, wholeSymbol, append_assoc, singleton_append]

/-- The first bytes of a symbol, whatever was cut off its name before. -/
theorem take_wholeSymbol_take {k : Nat} (hk : k ≤ 255) :
    (wholeSymbol path (name.take 255)).take k = (wholeSymbol path name).take k := by
  rw [wholeSymbol, wholeSymbol, take_append, take_append]
  congr 1
  cases hroom : k - (['_'].intercalate (writtenPath path)).length with
  | zero => rfl
  | succ n => rw [take_succ_cons, take_succ_cons, take_take, Nat.min_eq_left (by omega)]

theorem prefixed_eq : prefixed (pathPrefix path) (name.take 255) = (wholeSymbol path name).take 255 := by
  rw [prefixed, pathPrefix_append, take_wholeSymbol_take (Nat.le_refl 255)]

/-- **Any other name is registered behind the path**, as far as 127 bytes go. -/
theorem regOf_regular (hr : Regular path name) (h : name ∉ exemptNames) :
    regOf path name = (wholeSymbol path name).take 127 := by
  obtain ⟨hname, hkeeps⟩ := regular_name hr h
  rw [regOf, hname, symbolName, if_pos ⟨by simp [pathPrefix], hkeeps⟩, prefixed_eq, registerFn,
    take_take]
  rfl

/-- **It is defined behind the path if that symbol can be found again**, or if
the bare name is found. -/
theorem symOf_regular (hr : Regular path name) (h : name ∉ exemptNames)
    (hreg : regOf path name ∈ fns) (hfns : ∀ s ∈ fns, s.length ≤ 127) :
    symOf fns path name = if Short path name ∨ name.take 255 ∈ fns then (wholeSymbol path name).take 255
      else name.take 255 := by
  obtain ⟨hname, hkeeps⟩ := regular_name hr h
  have hfound : prefixed (pathPrefix path) (name.take 255) ∈ fns ↔ Short path name := by
    rw [prefixed_eq]
    constructor
    · intro hmem
      have hlen := hfns _ hmem
      rw [length_take] at hlen
      show (wholeSymbol path name).length ≤ 127
      omega
    · intro hshort
      rw [regOf_regular hr h, take_of_length_le hshort] at hreg
      rw [take_of_length_le (Nat.le_trans hshort (by decide))]
      exact hreg
  have hempty : pathPrefix path ≠ [] := by simp [pathPrefix]
  rw [symOf, hname, mangleFnName, if_neg (by simp [hempty, hkeeps])]
  exact if_congr (by rw [hfound, or_comm]) prefixed_eq rfl

end

/-! ## §3. Collisions. -/

/-- The function is defined under its bare name. -/
def Bare (fns path : List (List Char)) (name : List Char) : Prop :=
  name ∉ exemptNames ∧ ¬ Short path name ∧ name.take 255 ∉ fns

instance (fns path : List (List Char)) (name : List Char) : Decidable (Bare fns path name) :=
  inferInstanceAs (Decidable (_ ∧ _))

/-- What two functions need for two symbols, both of them outside the family of
the runtime. -/
structure CollisionFree (fns path : List (List Char)) (name : List Char)
    (fns' path' : List (List Char)) (name' : List Char) : Prop where
  /-- an exempt name is not shared between two modules -/
  exempt : name ∈ exemptNames → name ≠ name'
  /-- symbols that are registered whole only differ in path or name -/
  short : name ∉ exemptNames → name' ∉ exemptNames → Short path name → Short path' name' →
    path ≠ path' ∨ name ≠ name'
  /-- what is registered of the others still differs -/
  cut : name ∉ exemptNames → name' ∉ exemptNames → ¬ (Short path name ∧ Short path' name') →
    (wholeSymbol path name).take 127 ≠ (wholeSymbol path' name').take 127
  /-- and so do the bare names -/
  bare : Bare fns path name → Bare fns' path' name' → name.take 255 ≠ name'.take 255
  /-- the module path does not begin with the runtime's own word -/
  family : name ∉ exemptNames → path.head? ≠ some "tk".toList
  family' : name' ∉ exemptNames → path'.head? ≠ some "tk".toList

section

variable {path path' fns fns' : List (List Char)} {name name' : List Char}

theorem intercalate_concat (sep : List Char) {segs : List (List Char)} (h : segs ≠ [])
    (seg : List Char) : sep.intercalate (segs ++ [seg]) = sep.intercalate segs ++ (sep ++ seg) := by
  obtain ⟨s, segs, rfl⟩ := exists_cons_of_ne_nil h
  rw [cons_append, Items.intercalate_cons, Items.intercalate_cons, flatMap_append,
    flatMap_singleton, append_assoc]

/-- The symbol can be split at the `_` again. -/
theorem wholeSymbol_inj (hr : Regular path name) (hr' : Regular path' name')
    (h : wholeSymbol path name = wholeSymbol path' name') :
    writtenPath path = writtenPath path' ∧ name = name' := by
  have hsplit : ∀ {p : List (List Char)} {n : List Char}, Regular p n →
      splitOn '_' (wholeSymbol p n) = writtenPath p ++ [n] := by
    intro p n hp
    have hne : writtenPath p ≠ [] := fun heq => hp.path_ne (map_eq_nil_iff.mp heq)
    have hplain : ∀ s ∈ writtenPath p ++ [n], '_' ∉ s := by
      intro s hs hmem
      rcases mem_append.mp hs with hs | hs
      · obtain ⟨seg, hseg, rfl⟩ := mem_map.mp hs
        exact underscore_not_mem (hp.segments seg hseg) (mem_of_mem_take hmem)
      · exact underscore_not_mem hp.name (mem_singleton.mp hs ▸ hmem)
    rw [← splitOn_intercalate '_' hplain (by simp), intercalate_concat _ hne, wholeSymbol,
      singleton_append]
  have hboth := append_inj' ((hsplit hr).symm.trans ((congrArg _ h).trans (hsplit hr'))) rfl
  exact ⟨hboth.1, singleton_injective hboth.2⟩

/-- The segments of a short symbol are written whole. -/
theorem Short.writtenPath_eq (h : Short path name) : writtenPath path = path := by
  refine (map_congr_left fun s hs => ?_).trans (map_id path)
  have hmem : s.take 127 ∈ writtenPath path := mem_map_of_mem hs
  have hlen : (s.take 127).length ≤ (['_'].intercalate (writtenPath path)).length :=
    Items.length_le_of_mem_intercalate hmem
  have hshort : (['_'].intercalate (writtenPath path)).length + (name.length + 1) ≤ 127 := by
    have := h
    rwa [Short, wholeSymbol, length_append, length_cons] at this
  exact (take_eq_short (by omega) rfl).symm

/-- What is registered of two symbols differs. -/
theorem registered_ne_iff (hr : Regular path name) (hr' : Regular path' name') :
    (wholeSymbol path name).take 127 ≠ (wholeSymbol path' name').take 127 ↔
      (Short path name → Short path' name' → path ≠ path' ∨ name ≠ name') ∧
      (¬ (Short path name ∧ Short path' name') →
        (wholeSymbol path name).take 127 ≠ (wholeSymbol path' name').take 127) := by
  by_cases hshort : Short path name ∧ Short path' name'
  · obtain ⟨hs, hs'⟩ := hshort
    have hinj : wholeSymbol path name = wholeSymbol path' name' ↔ path = path' ∧ name = name' := by
      constructor
      · intro heq
        obtain ⟨hpath, hname⟩ := wholeSymbol_inj hr hr' heq
        rw [hs.writtenPath_eq, hs'.writtenPath_eq] at hpath
        exact ⟨hpath, hname⟩
      · rintro ⟨rfl, rfl⟩
        rfl
    rw [take_of_length_le hs, take_of_length_le hs', Ne, hinj]
    simp only [hs, hs', true_implies, and_self, not_true_eq_false, false_implies, and_true]
    tauto
  · simp only [hshort, not_false_eq_true, true_implies, iff_and_self]
    exact fun _ hs hs' => absurd ⟨hs, hs'⟩ hshort

/-- The `_` behind the path is within what a definition keeps. -/
theorem underscore_mem (hr : Regular path name) : '_' ∈ (wholeSymbol path name).take 255 := by
  have hfits : (['_'].intercalate (writtenPath path)).length + 2 ≤ 256 := hr.fits
  obtain ⟨n, hn⟩ : ∃ n, 255 - (['_'].intercalate (writtenPath path)).length = n + 1 :=
    ⟨254 - (['_'].intercalate (writtenPath path)).length, by omega⟩
  rw [wholeSymbol, take_append, hn, take_succ_cons]
  exact mem_append_right _ mem_cons_self

theorem family_segment {seg more : List Char} (h : '_' ∉ seg) :
    "tk_".toList <+: seg ++ '_' :: more ↔ seg = "tk".toList := by
  constructor
  · rintro ⟨tail, heq⟩
    rcases seg with _ | ⟨a, _ | ⟨b, _ | ⟨c, seg⟩⟩⟩
    · simp at heq
    · simp at heq
    · simp at heq
      rw [← heq.1, ← heq.2.1]
      rfl
    · simp at heq h
      exact absurd heq.2.2.1 h.2.2.1
  · rintro rfl
    exact ⟨more, rfl⟩

/-- The symbol of a path begins with `tk_` if its first segment is `tk`. -/
theorem family_iff (hr : Regular path name) {k : Nat} (hk : 3 ≤ k) :
    "tk_".toList <+: (wholeSymbol path name).take k ↔ path.head? = some "tk".toList := by
  obtain ⟨seg, segs, rfl⟩ := exists_cons_of_ne_nil hr.path_ne
  have hplain : '_' ∉ seg.take 127 := fun hmem =>
    underscore_not_mem (hr.segments seg mem_cons_self) (mem_of_mem_take hmem)
  have hcut : seg.take 127 = "tk".toList ↔ seg = "tk".toList := by
    refine ⟨take_eq_short (by decide), ?_⟩
    rintro rfl
    rfl
  obtain ⟨more, heq⟩ : ∃ more, wholeSymbol (seg :: segs) name = seg.take 127 ++ '_' :: more := by
    rw [wholeSymbol, writtenPath, map_cons, Items.intercalate_cons]
    cases segs with
    | nil => exact ⟨name, by simp⟩
    | cons s segs =>
      exact ⟨_, by simp only [append_assoc]; rfl⟩
  rw [prefix_take_iff, heq, family_segment hplain, hcut, head?_cons, Option.some_inj]
  exact and_iff_left hk

/-- An exempt name is never the symbol of another one. -/
theorem functionName_ne (hr : Regular path name) (h : name ∉ exemptNames) (h' : name' ∈ exemptNames) :
    (∀ k, 127 ≤ k → functionName name' ≠ (wholeSymbol path name).take k) ∧
      functionName name' ≠ name.take 255 := by
  have hshort : (functionName name').length < 127 := by fin_cases h' <;> decide
  have hmem : '_' ∈ wholeSymbol path name := mem_append_right _ mem_cons_self
  by_cases hmain : name' = "main".toList
  · have htk : functionName name' = "tk_main".toList := if_pos hmain
    refine ⟨fun k hk heq => ?_, fun heq => ?_⟩
    · -- `tk_main` would be the function `main` of the module `tk`, which is exempt
      have hwhole := take_eq_short (by omega) heq.symm
      have hrmain : Regular ["tk".toList] "main".toList :=
        ⟨by decide, by decide +kernel, by decide +kernel, by decide⟩
      obtain ⟨-, hname⟩ := wholeSymbol_inj hr hrmain (hwhole.trans htk)
      exact h (hname ▸ mem_cons_self)
    · refine underscore_not_mem hr.name (mem_of_mem_take (i := 255) ?_)
      rw [← heq, htk]
      decide
  · have hself : functionName name' = name' := if_neg hmain
    refine ⟨fun k hk heq => ?_, fun heq => ?_⟩
    · rw [take_eq_short (by omega) heq.symm, hself] at hmem
      fin_cases h' <;> exact absurd hmem (by decide)
    · rw [hself] at heq hshort
      exact h (take_eq_short (by omega) heq.symm ▸ h')

/-- The exempt names keep apart what they name. -/
theorem functionName_inj (h : name ∈ exemptNames) (h' : name' ∈ exemptNames) :
    functionName name ≠ functionName name' ↔ name ≠ name' := by
  refine not_congr ⟨fun heq => ?_, congrArg functionName⟩
  fin_cases h <;> fin_cases h' <;> first | rfl | exact absurd heq (by decide)

/-- A function that is registered, in a table of cut names. -/
structure Listed (fns path : List (List Char)) (name : List Char) : Prop where
  regular : Regular path name
  mem : regOf path name ∈ fns
  length : ∀ s ∈ fns, s.length ≤ 127

/-- Only a path that begins with `tk` gives symbols of the runtime's family. -/
theorem symbols_family (hl : Listed fns path name) :
    (name ≠ "main".toList → ¬ "tk_".toList <+: regOf path name ∧ ¬ "tk_".toList <+: symOf fns path name) ↔
      (name ∉ exemptNames → path.head? ≠ some "tk".toList) := by
  by_cases h : name ∈ exemptNames
  · have hfree : name ≠ "main".toList → ¬ "tk_".toList <+: functionName name := by
      intro hmain
      fin_cases h
      · exact absurd rfl hmain
      all_goals decide
    rw [regOf_exempt h, symOf_exempt h]
    exact ⟨fun _ hno => absurd h hno, fun _ hmain => ⟨hfree hmain, hfree hmain⟩⟩
  · have hmain : name ≠ "main".toList := fun heq => h (heq ▸ mem_cons_self)
    have hbare : ¬ "tk_".toList <+: name.take 255 := fun hpre =>
      underscore_not_mem hl.regular.name (mem_of_mem_take (hpre.subset (by decide)))
    rw [regOf_regular hl.regular h, symOf_regular hl.regular h hl.mem hl.length,
      family_iff hl.regular (by decide)]
    refine ⟨fun hfree _ => (hfree hmain).1, fun hpath _ => ⟨hpath h, ?_⟩⟩
    split
    · rw [family_iff hl.regular (by decide)]
      exact hpath h
    · exact hbare

/-- Two functions that are not exempt are defined under two symbols once they are
registered under two, unless they lose their paths. -/
theorem symOf_ne_iff (hl : Listed fns path name) (hl' : Listed fns' path' name')
    (h : name ∉ exemptNames) (h' : name' ∉ exemptNames)
    (hreg : (wholeSymbol path name).take 127 ≠ (wholeSymbol path' name').take 127) :
    symOf fns path name ≠ symOf fns' path' name' ↔
      (Bare fns path name → Bare fns' path' name' → name.take 255 ≠ name'.take 255) := by
  have hplain : ∀ {p p' : List (List Char)} {n n' : List Char}, Regular p n → Regular p' n' →
      (wholeSymbol p n).take 255 ≠ n'.take 255 := fun hr hr' heq =>
    underscore_not_mem hr'.name (mem_of_mem_take (heq ▸ underscore_mem hr))
  have hcut : (wholeSymbol path name).take 255 ≠ (wholeSymbol path' name').take 255 := by
    intro heq
    have hboth := congrArg (take 127) heq
    rw [take_take, take_take] at hboth
    exact hreg hboth
  have hbare : ∀ {f p : List (List Char)} {n : List Char}, n ∉ exemptNames →
      (Bare f p n ↔ ¬ (Short p n ∨ n.take 255 ∈ f)) := by
    intro f p n hn
    rw [not_or]
    exact and_iff_right hn
  rw [symOf_regular hl.regular h hl.mem hl.length, symOf_regular hl'.regular h' hl'.mem hl'.length,
    hbare h, hbare h']
  by_cases hp : Short path name ∨ name.take 255 ∈ fns
  · rw [if_pos hp]
    refine iff_of_true ?_ fun hno => absurd hp hno
    split
    · exact hcut
    · exact hplain hl.regular hl'.regular
  · by_cases hp' : Short path' name' ∨ name'.take 255 ∈ fns'
    · rw [if_neg hp, if_pos hp']
      exact iff_of_true (hplain hl'.regular hl.regular).symm fun _ hno => absurd hp' hno
    · rw [if_neg hp, if_neg hp']
      exact ⟨fun hne _ _ => hne, fun hne => hne hp hp'⟩

/-- Two functions get two names in both places. -/
theorem symbols_ne_iff (hl : Listed fns path name) (hl' : Listed fns' path' name') :
    (regOf path name ≠ regOf path' name' ∧ symOf fns path name ≠ symOf fns' path' name') ↔
      (name ∈ exemptNames → name ≠ name') ∧
      (name ∉ exemptNames → name' ∉ exemptNames →
        (wholeSymbol path name).take 127 ≠ (wholeSymbol path' name').take 127) ∧
      (Bare fns path name → Bare fns' path' name' → name.take 255 ≠ name'.take 255) := by
  by_cases h : name ∈ exemptNames
  · have hnotBare : ¬ Bare fns path name := fun hb => hb.1 h
    rw [regOf_exempt h, symOf_exempt h]
    by_cases h' : name' ∈ exemptNames
    · rw [regOf_exempt h', symOf_exempt h', functionName_inj h h', and_self]
      exact ⟨fun hne => ⟨fun _ => hne, fun hno => absurd h hno, fun hb => absurd hb hnotBare⟩,
        fun hall => hall.1 h⟩
    · obtain ⟨hwhole, hname⟩ := functionName_ne hl'.regular h' h
      rw [regOf_regular hl'.regular h', symOf_regular hl'.regular h' hl'.mem hl'.length]
      refine iff_of_true ⟨hwhole 127 (by decide), ?_⟩
        ⟨fun _ heq => h' (heq ▸ h), fun hno => absurd h hno, fun hb => absurd hb hnotBare⟩
      split
      · exact hwhole 255 (by decide)
      · exact hname
  · by_cases h' : name' ∈ exemptNames
    · obtain ⟨hwhole, hname⟩ := functionName_ne hl.regular h h'
      rw [regOf_exempt h', symOf_exempt h', regOf_regular hl.regular h,
        symOf_regular hl.regular h hl.mem hl.length]
      refine iff_of_true ⟨(hwhole 127 (by decide)).symm, ?_⟩
        ⟨fun hyes => absurd hyes h, fun _ hno => absurd h' hno, fun _ hb => absurd h' hb.1⟩
      split
      · exact (hwhole 255 (by decide)).symm
      · exact hname.symm
    · rw [regOf_regular hl.regular h, regOf_regular hl'.regular h']
      constructor
      · rintro ⟨hreg, hsym⟩
        exact ⟨fun hyes => absurd hyes h, fun _ _ => hreg, (symOf_ne_iff hl hl' h h' hreg).mp hsym⟩
      · rintro ⟨-, hreg, hbare⟩
        exact ⟨hreg h h', (symOf_ne_iff hl hl' h h' (hreg h h')).mpr hbare⟩

theorem Declares.listed {m : Module} {reg sym : List Char} (h : Declares m path name reg sym)
    (hr : Regular path name) : Listed m.fns path name := by
  obtain ⟨hreg, -, hmem⟩ := h.symbols_eq hr
  exact ⟨hr, hreg ▸ hmem, fun _ => Module.fns_length⟩

end

/-- **Two functions are registered and defined under two symbols, outside the
runtime's family, exactly when** no exempt name is shared, the first 127 bytes
leave a difference, bare names differ, and no path begins with `tk`. -/
theorem symbols_distinct_iff {m m' : Module} {path path' : List (List Char)}
    {name name' reg reg' sym sym' : List Char} (h : Declares m path name reg sym)
    (h' : Declares m' path' name' reg' sym') (hr : Regular path name) (hr' : Regular path' name') :
    ((reg ≠ reg' ∧ sym ≠ sym') ∧
      (name ≠ "main".toList → ¬ "tk_".toList <+: reg ∧ ¬ "tk_".toList <+: sym) ∧
      (name' ≠ "main".toList → ¬ "tk_".toList <+: reg' ∧ ¬ "tk_".toList <+: sym')) ↔
      CollisionFree m.fns path name m'.fns path' name' := by
  obtain ⟨hreg, hsym, -⟩ := h.symbols_eq hr
  obtain ⟨hreg', hsym', -⟩ := h'.symbols_eq hr'
  rw [hreg, hsym, hreg', hsym', symbols_ne_iff (h.listed hr) (h'.listed hr'),
    symbols_family (h.listed hr), symbols_family (h'.listed hr'), registered_ne_iff hr hr']
  constructor
  · rintro ⟨⟨hexempt, hcut, hbare⟩, hfamily, hfamily'⟩
    exact ⟨hexempt, fun hn hn' => (hcut hn hn').1, fun hn hn' => (hcut hn hn').2, hbare, hfamily,
      hfamily'⟩
  · rintro ⟨hexempt, hshort, hcut, hbare, hfamily, hfamily'⟩
    exact ⟨⟨hexempt, fun hn hn' => ⟨hshort hn hn', hcut hn hn'⟩, hbare⟩, hfamily, hfamily'⟩

/-- An accepted source, without imported functions. -/
def moduleOf (src : Source) (ast : Node) : Module := ⟨src, ast, [], 128⟩

/-- The registered and the defined symbols of an accepted source. -/
def symbolsOf (src : Source) : Option (List (List Char × List Char)) :=
  (frontEnd .none src).map fun p => (moduleOf src p.1).registered.flatMap fun q =>
    q.1.children.head?.toList.map fun id => (q.2, (moduleOf src p.1).definedSymbol id)

/-- Two modules define one symbol for their functions `none`, and a function of
the module `tk.map` takes the name of the runtime's `tk_map_put`. -/
theorem exempt_names_collide :
    symbolsOf "m=a;f=none():i64{<1};".toList = some [("none".toList, "none".toList)] ∧
    symbolsOf "m=b;f=none():i64{<2};".toList = some [("none".toList, "none".toList)] ∧
    symbolsOf "m=tk.map;f=put():i64{<3};".toList = some [("tk_map_put".toList, "tk_map_put".toList)] := by
  decide +kernel

/-- What a tree declares can be read off its first declarations. -/
theorem declares_of {m : Module} {path : List (List Char)} {name reg sym : List Char}
    (hmod : ((moduleNode m.ast).bind (·.children.head?)).map (fun mp =>
      (m.ast.kind, mp.kind, mp.children.map (Node.text m.src))) = some (.program, .modulePath, path))
    (hfn : m.registered.head?.map (fun p => (p.2, p.1.children.head?.map fun id =>
      (id.text m.src, m.definedSymbol id))) = some (reg, some (name, sym))) :
    Declares m path name reg sym := by
  obtain ⟨mp, hmp, heq⟩ := Option.map_eq_some_iff.mp hmod
  obtain ⟨mod, hnode, hchild⟩ := Option.bind_eq_some_iff.mp hmp
  obtain ⟨p, hp, hpair⟩ := Option.map_eq_some_iff.mp hfn
  simp only [Prod.mk.injEq] at heq hpair
  obtain ⟨hprog, hpath, htexts⟩ := heq
  obtain ⟨id, hid, hname⟩ := Option.map_eq_some_iff.mp hpair.2
  obtain ⟨hname, hsym⟩ := Prod.mk.inj hname
  unfold moduleNode at hnode
  rw [hprog] at hnode
  obtain ⟨hhead, hkind⟩ := Option.filter_eq_some_iff.mp hnode
  refine ⟨⟨mod, mp, hprog, hhead, of_decide_eq_true hkind, hchild, hpath, htexts⟩,
    ⟨p.1, id, ?_, hid, hname, hsym.symm⟩⟩
  rw [← hpair.1]
  exact mem_of_head? hp

/-- The module of a text that parses. -/
def parsedModule (src : Source) : Module :=
  moduleOf src ((parseSource src).getD (.ofToken .program ⟨.eof, 0, 0, 0, 0⟩))

/-- Two modules with functions of one name. -/
theorem symbols_distinct_run :
    CollisionFree (parsedModule "m=a;f=run():i64{<1};".toList).fns ["a".toList] "run".toList
      (parsedModule "m=b.c;f=run():i64{<2};".toList).fns ["b".toList, "c".toList] "run".toList := by
  have h : Declares (parsedModule "m=a;f=run():i64{<1};".toList) ["a".toList] "run".toList
      "a_run".toList "a_run".toList := declares_of (by decide +kernel) (by decide +kernel)
  have h' : Declares (parsedModule "m=b.c;f=run():i64{<2};".toList) ["b".toList, "c".toList]
      "run".toList "b_c_run".toList "b_c_run".toList :=
    declares_of (by decide +kernel) (by decide +kernel)
  exact (symbols_distinct_iff h h' ⟨by decide, by decide +kernel, by decide +kernel, by decide⟩
    ⟨by decide, by decide +kernel, by decide +kernel, by decide⟩).mp
    ⟨by decide, fun _ => by decide, fun _ => by decide⟩

end Toke.Codegen
