/-
  Toke.Types.ResolveType — **TYPE ANNOTATIONS TO TYPES** (`resolve_type`, `imported_struct_type` and
  `resolve_return_spec` of `types.c`).

  `resolve_type` expands the name of a declared type into its full structure
  and so follows the declarations of the module.  The model bounds the depth
  of that recursion by `fuel`; `none` is a resolution that `fuel` cuts short.

  Headline: `resolveType_ends_iff` — resolving an annotation ends exactly if
  no declared type that is reached from it contains itself.
-/
import Toke.Names.FrontEnd
import Toke.Library.Unfolding

namespace Toke

open List Unfolding

/-! ## §1. Types. -/

/-- `TypeKind`. -/
inductive TypeKind where
  | void | bool | i64 | u64 | f64 | str | i8 | i16 | i32 | u8 | u16 | u32 | f32
  | struct | array | func | errorType | ptr | map | unknown
  deriving Repr, DecidableEq

/-- `Type`.  `elem` is the element, pointee, key or success type; `fields` are
the members of a struct, and the value type of a map under an empty name. -/
structure Ty where
  kind : TypeKind
  name : Option Name
  elem : Option Ty
  fields : List (Name × Ty)
  deriving Repr

/-- `mk_type`. -/
def Ty.of (kind : TypeKind) : Ty := ⟨kind, none, none, []⟩

/-- No type is known. -/
def Ty.unknown : Ty := .of .unknown

/-! ## §2. Names of types. -/

/-- `tki_scalar_type`: the spellings of scalars in an interface file. -/
def tkiScalars : List (String × TypeKind) :=
  [("void", .void), ("bool", .bool), ("str", .str), ("i64", .i64), ("u64", .u64),
   ("f64", .f64), ("f32", .f32), ("i8", .i8), ("i16", .i16), ("i32", .i32), ("u8", .u8),
   ("u16", .u16), ("u32", .u32), ("byte", .u8), ("Byte", .u8)]

/-- The names that `resolve_type` knows without a declaration. -/
def builtinTypes : List (String × TypeKind) :=
  [("void", .void), ("bool", .bool), ("i64", .i64), ("u64", .u64), ("f64", .f64),
   ("str", .str), ("i8", .i8), ("i16", .i16), ("i32", .i32), ("u8", .u8), ("u16", .u16),
   ("u32", .u32), ("f32", .f32), ("Byte", .u8)]

/-- The kind that a name spells. -/
def spelled (table : List (String × TypeKind)) (s : List Char) : Option TypeKind :=
  (table.find? (·.1.toList = s)).map (·.2)

/-- `imported_type_lookup`. -/
def NameEnv.importedType (env : NameEnv) (name : Name) : Option ImportedType :=
  env.itypes.find? (·.name = name)

/-- `tc_lookup` in the module scope, where it finds a type declaration. -/
def NameEnv.typeDecl (env : NameEnv) (name : Name) : Option Node :=
  match env.moduleScope.lookup name with
  | some d => (d.defNode.map (·.node)).filter (·.kind = .typeDecl)
  | none => none

/-- May the spelling of a field name another imported record? -/
def recordSpelling (s : List Char) : Bool :=
  s ≠ [] && s.head? ≠ some '[' && s.head? ≠ some '@' && !s.contains '!' && !s.contains '.'

/-- `imported_struct_type`.  `levels` counts down from the depth cap of 4. -/
def importedStructType (env : NameEnv) : Nat → Name → Option Ty
  | levels, tname =>
    match if tname = [] then none else env.importedType tname with
    | none => none
    | some it =>
      if it.isSum then none
      else some ⟨.struct, some it.name, none, it.fields.map fun f => (f.1,
        match spelled tkiScalars f.2 with
        | some k => .of k
        | none =>
          match levels with
          | 0 => .unknown
          | levels + 1 =>
            if recordSpelling f.2 then (importedStructType env levels f.2).getD .unknown
            else .unknown)⟩

/-! ## §3. `resolve_type`. -/

/-- The fields of a declaration, at most 64 of them. -/
def structFields (decl : Node) : List Node := (declFields decl).take 64

/-- The name that a declaration gives its type. -/
def structName (src : Source) (decl : Node) : Option Name :=
  decl.children.head?.map (·.tokstr src)

/-- A field of a struct type; a field without a type is unknown. -/
def resolveField (src : Source) (resolve : Node → Option Ty) (f : Node) : Option (Name × Ty) :=
  match f.children with
  | [] => some (f.tokstr src, .unknown)
  | ty :: _ => (resolve ty).map fun t => (f.tokstr src, t)

/-- The branches of `resolve_type`. -/
inductive TypeForm where
  | ptr (elem : List Node)
  | array (elem : List Node)
  | map (parts : List Node)
  | builtin (kind : TypeKind)
  | noneType
  | declared (decl : Node)
  | imported (name : Name)

/-- Which branch a node takes: the compound kinds first, then the name is
looked up among the built-in types, in the module scope and in the imports. -/
def typeForm (env : NameEnv) (src : Source) (n : Node) : TypeForm :=
  if n.kind = .ptrType then .ptr (n.children.take 1)
  else if n.kind = .arrayType then .array (n.children.take 1)
  else if n.kind = .mapType then .map (n.children.take 2)
  else match spelled builtinTypes (n.tokstr src) with
    | some k => .builtin k
    | none =>
      if n.tokstr src = "none".toList then .noneType
      else match env.typeDecl (n.tokstr src) with
        | some decl => .declared decl
        | none => .imported (n.tokstr src)

/-- `resolve_type`. -/
def resolveType (env : NameEnv) (src : Source) : Nat → Node → Option Ty
  | 0, _ => none
  | fuel + 1, n =>
    match typeForm env src n with
    | .ptr elem => (elem.mapM (resolveType env src fuel)).map fun ts => ⟨.ptr, none, ts.head?, []⟩
    | .array elem => (elem.mapM (resolveType env src fuel)).map fun ts =>
      ⟨.array, none, ts.head?, []⟩
    | .map parts => (parts.mapM (resolveType env src fuel)).map fun ts =>
      ⟨.map, none, ts.head?, (ts.drop 1).map fun t => ([], t)⟩
    | .builtin k => some (.of k)
    | .noneType => some ⟨.struct, some "none".toList, none, []⟩
    | .declared decl =>
      ((structFields decl).mapM (resolveField src (resolveType env src fuel))).map
        fun fs => ⟨.struct, structName src decl, none, fs⟩
    | .imported name => some ((importedStructType env 4 name).getD .unknown)

/-- `resolve_return_spec`. -/
def resolveReturnSpec (env : NameEnv) (src : Source) (fuel : Nat) (rspec : Node) : Option Ty :=
  match rspec.children with
  | [] => some (.of .void)
  | [t] => resolveType env src fuel t
  | t :: e :: _ =>
    (resolveType env src fuel t).bind fun success =>
      (resolveType env src fuel e).map fun err => ⟨.errorType, err.name, some success, err.fields⟩

/-! ## §4. What a resolution expands. -/

/-- The types that have to be resolved before `n` is: the parts of a compound
type, and the field types of the declaration that a name refers to. -/
def typeRefs (env : NameEnv) (src : Source) (n : Node) : List Node :=
  match typeForm env src n with
  | .ptr elem => elem
  | .array elem => elem
  | .map parts => parts
  | .declared decl => (structFields decl).filterMap (·.children.head?)
  | .builtin _ => []
  | .noneType => []
  | .imported _ => []

theorem isSome_mapM {α β : Type} {f : α → Option β} (l : List α) :
    (l.mapM f).isSome = l.all fun a => (f a).isSome := by
  induction l with
  | nil => rfl
  | cons a l ih =>
    rw [mapM_cons, all_cons, ← ih]
    cases f a with
    | none => rfl
    | some b => cases l.mapM f <;> rfl

theorem all_resolveField {src : Source} {resolve : Node → Option Ty} (fs : List Node) :
    (fs.all fun f => (resolveField src resolve f).isSome)
      = (fs.filterMap (·.children.head?)).all fun t => (resolve t).isSome := by
  induction fs with
  | nil => rfl
  | cons f fs ih =>
    rw [all_cons, ih]
    unfold resolveField
    split
    · next h => simp [h]
    · next ty rest h => simp [h]

/-- **Resolution is eager unfolding**: depth `fuel` resolves `n` exactly if it
unfolds the graph of type references from `n`. -/
theorem isSome_resolveType (env : NameEnv) (src : Source) (fuel : Nat) (n : Node) :
    (resolveType env src fuel n).isSome = unfolds (typeRefs env src) fuel n := by
  induction fuel generalizing n with
  | zero => rfl
  | succ fuel ih =>
    have hfun : (fun t => (resolveType env src fuel t).isSome)
        = unfolds (typeRefs env src) fuel := funext ih
    rw [resolveType, unfolds, typeRefs]
    cases typeForm env src n with
    | ptr elem | array elem | map parts => rw [Option.isSome_map, isSome_mapM, hfun]
    | declared decl => rw [Option.isSome_map, isSome_mapM, all_resolveField, hfun]
    | builtin k => rfl
    | noneType => rfl
    | imported name => rfl

/-! ## §5. When resolution ends. -/

/-- Every node that resolving `n` can meet. -/
def typeNodes (env : NameEnv) (n : Node) : List Node :=
  n.subnodes ++ env.moduleScope.flatMap fun d => d.defNode.toList.flatMap (·.node.subnodes)

theorem typeDecl_subnodes {env : NameEnv} {name : Name} {decl : Node}
    (h : env.typeDecl name = some decl) (n : Node) {m : Node} (hm : m ∈ decl.subnodes) :
    m ∈ typeNodes env n := by
  unfold NameEnv.typeDecl at h
  split at h
  · next d hd =>
      obtain ⟨hdef, -⟩ := Option.filter_eq_some_iff.mp h
      obtain ⟨loc, hloc, rfl⟩ := Option.map_eq_some_iff.mp hdef
      have hmem : d ∈ env.moduleScope := mem_of_find?_eq_some hd
      refine mem_append_right _ (mem_flatMap.mpr ⟨d, hmem, ?_⟩)
      simpa [hloc] using hm
  · simp at h

theorem mem_subnodes_of_declFields {decl f : Node} (hf : f ∈ declFields decl) :
    f ∈ decl.subnodes := by
  obtain ⟨c, hc, hf⟩ := mem_flatMap.mp hf
  have hsub : c ∈ decl.subnodes :=
    Node.mem_subnodes_child (Node.mem_subnodes_self decl) (mem_of_mem_drop hc)
  split at hf
  · rw [mem_singleton] at hf
    exact hf ▸ hsub
  · split at hf
    · exact Node.mem_subnodes_child hsub (mem_filter.mp hf).1
    · simp at hf

/-- A reference is a part of the node, or part of a field of the declaration
that the node names. -/
theorem mem_typeRefs {env : NameEnv} {src : Source} {m k : Node} (hk : k ∈ typeRefs env src m) :
    k ∈ m.children ∨ ∃ decl, env.typeDecl (m.tokstr src) = some decl ∧
      ∃ f ∈ structFields decl, k ∈ f.children := by
  unfold typeRefs at hk
  generalize hform : typeForm env src m = form at hk
  unfold typeForm at hform
  split at hform
  · subst hform
    exact Or.inl (mem_of_mem_take hk)
  · split at hform
    · subst hform
      exact Or.inl (mem_of_mem_take hk)
    · split at hform
      · subst hform
        exact Or.inl (mem_of_mem_take hk)
      · split at hform
        · subst hform
          simp at hk
        · split at hform
          · subst hform
            simp at hk
          · split at hform
            · next decl hdecl =>
                subst hform
                obtain ⟨f, hf, hhead⟩ := mem_filterMap.mp hk
                exact Or.inr ⟨decl, hdecl, f, hf, mem_of_mem_head? hhead⟩
            · subst hform
              simp at hk

/-- The references of a node stay among the nodes of the tree and of the
declarations. -/
theorem typeRefs_closed {env : NameEnv} {src : Source} {n m k : Node}
    (hm : m ∈ typeNodes env n) (hk : k ∈ typeRefs env src m) : k ∈ typeNodes env n := by
  rcases mem_typeRefs hk with hc | ⟨decl, hdecl, f, hf, hc⟩
  · rcases mem_append.mp hm with hm | hm
    · exact mem_append_left _ (Node.mem_subnodes_child hm hc)
    · obtain ⟨d, hd, hm⟩ := mem_flatMap.mp hm
      obtain ⟨loc, hloc, hm⟩ := mem_flatMap.mp hm
      refine mem_append_right _ (mem_flatMap.mpr ⟨d, hd, ?_⟩)
      exact mem_flatMap.mpr ⟨loc, hloc, Node.mem_subnodes_child hm hc⟩
  · have hfield := mem_subnodes_of_declFields (mem_of_mem_take hf)
    exact typeDecl_subnodes hdecl n (Node.mem_subnodes_child hfield hc)

/-- **Resolving an annotation ends exactly if no type reached from it contains
itself**, directly or through other declarations, arrays, maps and pointers. -/
theorem resolveType_ends_iff (env : NameEnv) (src : Source) (n : Node) :
    (∃ fuel, (resolveType env src fuel n).isSome) ↔ ¬ HasCycle (typeRefs env src) n := by
  simp only [isSome_resolveType]
  exact exists_unfolds_iff_not_hasCycle
    (mem_append_left _ (Node.mem_subnodes_self n)) fun _ hm _ hk => typeRefs_closed hm hk

/-- A program with a type whose only field is of that type. -/
def selfTypeSource : Source := "m=a;t=$n\x7bnext:$n\x7d;f=g(x:$n):i64\x7b<0\x7d;".toList

/-- The front end accepts that program, and no depth resolves the annotation
of the field. -/
theorem selfType_never_resolves : ∃ ast env, frontEnd .none selfTypeSource = some (ast, env) ∧
      ∃ n ∈ ast.subnodes, n.kind = .typeIdent ∧
        ∀ fuel, resolveType env selfTypeSource fuel n = none := by
  have hself : (frontEnd .none selfTypeSource).any (fun p => p.1.subnodes.any fun n =>
      n.kind = .typeIdent && decide (n ∈ typeRefs p.2 selfTypeSource n)) = true := by decide +kernel
  cases hrun : frontEnd .none selfTypeSource with
  | none =>
    rw [hrun] at hself
    cases hself
  | some p =>
    rw [hrun, Option.any_some] at hself
    obtain ⟨n, hn, hcond⟩ := any_eq_true.mp hself
    simp only [Bool.and_eq_true, decide_eq_true_eq] at hcond
    refine ⟨p.1, p.2, rfl, n, hn, hcond.1, fun fuel => ?_⟩
    have hnone := isSome_resolveType p.2 selfTypeSource fuel n
    rw [not_unfolds_of_mem hcond.2] at hnone
    simpa using hnone

end Toke
