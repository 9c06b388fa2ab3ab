/-
  Toke.Interface.RoundTrip — **WHAT AN IMPORTER LEARNS FROM A MODULE'S INTERFACE.**

  The records that `emit_interface` prints are objects in the sense of
  `Toke.Interface.Text`, so `tki_record_exports` reads every member back.
  What it records is compared with what the module declares (`declaredFunc`,
  `declaredType`).
-/
import Toke.Interface.Spelling
import Toke.Names.FrontEnd

namespace Toke

open List

variable {src : Source} {fn d name root : Node}

/-! ## §1. Declarations. -/

/-- The name a declaration introduces. -/
def declName (src : Source) (d : Node) : List Char :=
  (d.children.head?.map (Node.text src)).getD []

/-- The parameters; child 0 is the name. -/
def paramNodes (fn : Node) : List Node := (fn.children.drop 1).filter (·.kind = .param)

/-- The return type of a function. -/
def returnNode (fn : Node) : Option Node := (fn.children.drop 1).find? (·.kind = .returnSpec)

/-- The spelling of the annotation in child `i`. -/
def spellingAt (src : Source) (i : Nat) (c : Node) : List Char :=
  (c.children[i]?.map (Node.spelling src)).getD []

/-- `T!E` has two types. -/
def isErrorUnion (fn : Node) : Bool := (returnNode fn).any (·.children.length = 2)

/-- The function as it is declared. -/
def declaredFunc (src : Source) (aliasName : Name) (fn : Node) : ImportedFunc where
  aliasName := aliasName
  fn := declName src fn
  member := declName src fn
  params := some ((paramNodes fn).map (spellingAt src 1))
  ret := if isErrorUnion fn then [] else ((returnNode fn).map (spellingAt src 0)).getD []

/-- The type as it is declared: a sum type has a field written with a `$`. -/
def declaredType (src : Source) (d : Node) : ImportedType where
  name := declName src d
  fields := (declFields d).map fun f => (f.text src, spellingAt src 0 f)
  isSum := (declFields d).any (·.op = .dollar)

/-- The functions of a module. -/
def exportedFuncs (root : Node) : List Node := root.children.filter (·.kind = .funcDecl)

/-- The types of a module. -/
def exportedDataTypes (root : Node) : List Node := root.children.filter (·.kind = .typeDecl)

/-- The annotations of a function: parameters, return type, error type. -/
def funcAnnotations (fn : Node) : List Node :=
  (paramNodes fn).filterMap (·.children[1]?) ++ ((returnNode fn).map Node.children).getD []

/-- The annotations of the exported signatures. -/
def exportedTypes (root : Node) : List Node :=
  (exportedFuncs root).flatMap funcAnnotations ++
    (exportedDataTypes root).flatMap fun d => (declFields d).filterMap (·.children[0]?)

/-- The limits of the interface format. -/
structure Fits (src : Source) (root : Node) : Prop where
  names : ∀ d ∈ root.children, d.kind = .funcDecl ∨ d.kind = .typeDecl →
    (declName src d).length < 128
  fieldNames : ∀ d ∈ exportedDataTypes root, ∀ f ∈ declFields d, (f.text src).length < 128
  types : ∀ t ∈ exportedTypes root, (t.spelling src).length < 128
  params : ∀ fn ∈ exportedFuncs root, (paramNodes fn).length ≤ maxTkiParams
  fields : ∀ d ∈ exportedDataTypes root, (declFields d).length ≤ maxTkiFields

/-! ## §2. Functions. -/

/-- The members of a function's record. -/
def funcMembers (name : List Char) (bodyless : Bool) (params : List (List Char)) (ret : List Char)
    (err : Option (List Char)) : List (List Char × List Char) :=
  [("kind".toList, quoted "func".toList), ("name".toList, quoted name)] ++
    (if bodyless then [("extern".toList, "true".toList)] else []) ++
    [("params".toList, arrText (params.map quoted)), ("return".toList, quoted ret)] ++
    (err.map fun e => ("error".toList, quoted e)).toList

theorem isValue_quoted {ss : List (List Char)} (h : ∀ s ∈ ss, '"' ∉ s) :
    ∀ x ∈ ss.map quoted, IsValue x := by
  intro x hx
  obtain ⟨s, hs, rfl⟩ := mem_map.mp hx
  exact .str (h s hs)

theorem funcMembers_clean {name ret : List Char} {params : List (List Char)}
    {err : Option (List Char)} (bodyless : Bool) (hn : '"' ∉ name) (hp : ∀ p ∈ params, '"' ∉ p)
    (hr : '"' ∉ ret) (he : ∀ e ∈ err, '"' ∉ e) :
    ∀ m ∈ funcMembers name bodyless params ret err, '"' ∉ m.1 ∧ IsValue m.2 := by
  unfold funcMembers
  simp only [forall_mem_append, forall_mem_cons]
  refine ⟨⟨⟨⟨⟨by decide, .str (by decide)⟩, ⟨by decide, .str hn⟩, by simp⟩, ?_⟩,
    ⟨by decide, .arr (isValue_quoted hp)⟩, ⟨by decide, .str hr⟩, by simp⟩, ?_⟩
  · cases bodyless with
    | false => simp
    | true => exact forall_mem_singleton.mpr ⟨by decide, .word⟩
  · cases err with
    | none => simp
    | some e =>
      have hkey : '"' ∉ "error".toList := by decide
      exact forall_mem_singleton.mpr ⟨hkey, .str (he e rfl)⟩

/-- The record of a function with clean texts. -/
def funcObj (name : List Char) (bodyless : Bool) (params : List (List Char)) (ret : List Char)
    (err : Option (List Char)) (hn : '"' ∉ name) (hp : ∀ p ∈ params, '"' ∉ p) (hr : '"' ∉ ret)
    (he : ∀ e ∈ err, '"' ∉ e) : Obj where
  members := funcMembers name bodyless params ret err
  keys_clean := fun m hm => (funcMembers_clean bodyless hn hp hr he m hm).1
  values := fun m hm => (funcMembers_clean bodyless hn hp hr he m hm).2

section

variable {name ret : List Char} {bodyless : Bool} {params : List (List Char)}
  {err : Option (List Char)} (hn : '"' ∉ name) (hp : ∀ p ∈ params, '"' ∉ p) (hr : '"' ∉ ret)
  (he : ∀ e ∈ err, '"' ∉ e)

theorem arrayMember_params (hlen : params.length ≤ maxTkiParams) :
    arrayMember (funcObj name bodyless params ret err hn hp hr he).text "params"
      (fun p => paramLoop maxTkiParams p) = some (params.map (·.take 127)) := by
  rw [arrayMember_text _ (isValue_quoted hp) (by cases bodyless <;> rfl)]
  congr 1
  exact paramLoop_items hp [] _ _ hlen (dropWhile_commaSep (by decide) (quoted_heads params) [])

theorem objKey_error :
    (objKey (funcObj name bodyless params ret err hn hp hr he).text "error").isSome = err.isSome := by
  obtain ⟨q, hq⟩ := objKey_text (funcObj name bodyless params ret err hn hp hr he) "error"
  rw [hq]
  cases bodyless <;> cases err <;> rfl

/-- **A function's record is read back**, cut at the buffer sizes. -/
theorem recordExport_func (aliasName : Name) (env : NameEnv) (hlen : params.length ≤ maxTkiParams) :
    recordExport (some aliasName) (funcObj name bodyless params ret err hn hp hr he).text env =
      env.addIfunc ⟨aliasName, name.take 127, lastSegment (name.take 127),
        some (params.map (·.take 127)), if err.isSome then [] else ret.take 127⟩ := by
  have hkind : strMember 32 (funcObj name bodyless params ret err hn hp hr he).text "kind" =
      some "func".toList := strMember_text _ 32 (s := "func".toList) (by decide) rfl
  have hname : strMember 128 (funcObj name bodyless params ret err hn hp hr he).text "name" =
      some (name.take 127) := strMember_text _ 128 hn rfl
  have hret : strMember 128 (funcObj name bodyless params ret err hn hp hr he).text "return" =
      some (ret.take 127) := strMember_text _ 128 hr (by cases bodyless <;> rfl)
  rw [recordExport, hkind, hname]
  simp only [if_true, recordFunc, arrayMember_params hn hp hr he hlen, objKey_error, hret,
    Option.getD_some]

end

/-- The record of a function, byte by byte. -/
theorem objText_func (name ret : List Char) (bodyless : Bool) (params : List (List Char))
    (err : Option (List Char)) :
    objText (funcMembers name bodyless params ret err) =
      "\x7b\"kind\": \"func\", \"name\": ".toList ++ quoted name ++ ", ".toList ++
        (if bodyless then "\"extern\": true, ".toList else []) ++ "\"params\": [".toList ++
        commaSep (params.map quoted) ++ "], ".toList ++
        ("\"return\": ".toList ++ quoted ret ++
          (err.map fun e => ", \"error\": ".toList ++ quoted e).getD []) ++ "\x7d".toList := by
  cases bodyless <;> cases err <;>
    simp [funcMembers, objText, commaSep_cons, memberText, arrText, quoted]

theorem emitReturn_eq {t : Node} {e : Option Node} (hret : returnTypes fn = some (t, e))
    (ht : Clean (renderTypeNode src 128 t)) (he : ∀ u ∈ e, Clean (renderTypeNode src 256 u)) :
    emitReturn src fn = "\"return\": ".toList ++ quoted (renderTypeNode src 128 t) ++
      ((e.map (renderTypeNode src 256)).map fun e => ", \"error\": ".toList ++ quoted e).getD [] := by
  rw [emitReturn, hret]
  cases e with
  | none => simp only [jsonString_clean ht, Option.map_none, Option.getD_none, append_nil]
  | some u =>
    simp only [jsonString_clean ht, jsonString_clean (he u rfl), Option.map_some,
      Option.getD_some, append_assoc]

/-- The texts of an emitted function. -/
theorem emitFunc_eq {t : Node} {e : Option Node} (name : Node) (hret : returnTypes fn = some (t, e))
    (hname : Clean (tokCopy src 128 name))
    (hparams : ∀ p ∈ paramTypes fn, Clean (renderTypeNode src 128 p))
    (ht : Clean (renderTypeNode src 128 t)) (he : ∀ u ∈ e, Clean (renderTypeNode src 256 u)) :
    emitFunc src fn name = objText (funcMembers (tokCopy src 128 name)
      (!fn.children.any (·.kind = .stmtList))
      ((paramTypes fn).map (renderTypeNode src 128)) (renderTypeNode src 128 t)
      (e.map (renderTypeNode src 256))) := by
  have hps : (paramTypes fn).map (fun t => jsonString (renderTypeNode src 128 t)) =
      ((paramTypes fn).map (renderTypeNode src 128)).map quoted := by
    rw [map_map]
    refine map_congr_left fun p hp => ?_
    rw [Function.comp_apply, jsonString_clean (hparams p hp)]
  have hbody : ∀ (b : Bool) (x : List Char),
      (if b then [] else x) = if (!b) then x else [] := by
    intro b x
    cases b <;> rfl
  unfold emitFunc
  rw [hps, hbody, jsonString_clean hname, emitReturn_eq hret ht he, objText_func]

/-- A function node taken apart. -/
structure FuncView (src : Source) (fn : Node) where
  name : Node
  params : List Node
  ret : Node
  err : Option Node
  head : fn.children.head? = some name
  name_word : Word (name.text src)
  params_type : ∀ t ∈ params, TypeNode src t
  ret_type : TypeNode src ret
  err_type : ∀ t ∈ err, TypeNode src t
  paramTypes_eq : paramTypes fn = params
  paramNodes_eq : (paramNodes fn).map (·.children[1]?) = params.map some
  returnTypes_eq : returnTypes fn = some (ret, err)
  returnNode_eq : (returnNode fn).map Node.children = some (ret :: err.toList)

/-- The parameters of a list of parameter nodes, in the three readings. -/
theorem params_view : ∀ {ps : List Node}, (∀ c ∈ ps, ParamNode src c) →
    ∃ ts : List Node, (∀ t ∈ ts, TypeNode src t) ∧
      ps.filterMap (fun c => if c.kind = .param then c.children[1]? else none) = ts ∧
      ps.filter (·.kind = .param) = ps ∧ ps.map (·.children[1]?) = ts.map some
  | [], _ => ⟨[], by simp⟩
  | c :: ps, h => by
    obtain ⟨ts, hts, hfm, hfl, hmap⟩ := params_view (forall_mem_cons.mp h).2
    obtain ⟨hk, i, t, hc, ht⟩ := h c mem_cons_self
    refine ⟨t :: ts, ?_, ?_, ?_, ?_⟩
    · exact forall_mem_cons.mpr ⟨ht, hts⟩
    · rw [filterMap_cons_some (b := t) (by rw [if_pos hk, hc]; rfl), hfm]
    · rw [filter_cons_of_pos (by simp [hk]), hfl]
    · rw [map_cons, hmap, hc]
      rfl

theorem params_no_return {ps : List Node} (h : ∀ c ∈ ps, ParamNode src c) :
    ∀ c ∈ ps, c.kind ≠ .returnSpec := by
  intro c hc hk
  exact absurd ((h c hc).1.symm.trans hk) (by decide)

theorem FuncLayout.view (h : FuncLayout src fn) : Nonempty (FuncView src fn) := by
  obtain ⟨-, name, ps, ret, body, hch, hw, hps, ⟨hrk, t, ht, hrc⟩, hbody⟩ := h
  obtain ⟨ts, hts, hfm, hfl, hmap⟩ := params_view hps
  have hdrop : fn.children.drop 1 = ps ++ ret :: body := by rw [hch]; rfl
  have hretp : ret.kind ≠ .param := by rw [hrk]; decide
  have hbodyp : ∀ c ∈ body, c.kind ≠ .param := fun c hc => by rw [hbody c hc]; decide
  have hparamTypes : paramTypes fn = ts := by
    rw [paramTypes, hdrop, filterMap_append, hfm, filterMap_cons_none (by rw [if_neg hretp])]
    have hnone : body.filterMap (fun c => if c.kind = .param then c.children[1]? else none) = [] :=
      filterMap_eq_nil_iff.mpr fun c hc => if_neg (hbodyp c hc)
    rw [hnone, append_nil]
  have hparamNodes : paramNodes fn = ps := by
    rw [paramNodes, hdrop, filter_append, hfl, filter_cons_of_neg (by simp [hretp])]
    have hnone : body.filter (fun c => decide (c.kind = .param)) = [] :=
      filter_eq_nil_iff.mpr fun c hc => by simp [hbodyp c hc]
    rw [hnone, append_nil]
  have hfind : returnNode fn = some ret := by
    rw [returnNode, hdrop, find?_append]
    have hnone : ps.find? (fun c => decide (c.kind = .returnSpec)) = none :=
      find?_eq_none.mpr fun c hc => by simp [params_no_return hps c hc]
    rw [hnone, find?_cons_of_pos (by simp [hrk])]
    rfl
  have hsome : returnTypes fn = ret.children[0]?.map fun t => (t, ret.children[1]?) := by
    rw [returnTypes, hdrop, findSome?_append]
    have hnone : ps.findSome? (fun c => if c.kind = .returnSpec then
        c.children[0]?.map fun t => (t, c.children[1]?) else none) = none :=
      findSome?_eq_none_iff.mpr fun c hc => if_neg (params_no_return hps c hc)
    rw [hnone, findSome?_cons, if_pos hrk]
    rcases hrc with hrc | ⟨e, -, hrc⟩ <;> rw [hrc] <;> rfl
  rcases hrc with hrc | ⟨e, he, hrc⟩
  · exact ⟨⟨name, ts, t, none, by rw [hch]; rfl, hw, hts, ht, by simp, hparamTypes,
      by rw [hparamNodes, hmap], by rw [hsome, hrc]; rfl, by rw [hfind, Option.map_some, hrc]; rfl⟩⟩
  · refine ⟨⟨name, ts, t, some e, by rw [hch]; rfl, hw, hts, ht, ?_, hparamTypes,
      by rw [hparamNodes, hmap], by rw [hsome, hrc]; rfl, by rw [hfind, Option.map_some, hrc]; rfl⟩⟩
    intro u hu
    rw [← Option.mem_some.mp hu]
    exact he

section

variable {src : Source} {fn : Node}

theorem FuncView.annotations (v : FuncView src fn) :
    funcAnnotations fn = v.params ++ v.ret :: v.err.toList := by
  have hps : (paramNodes fn).filterMap (·.children[1]?) = v.params := by
    have h : (paramNodes fn).filterMap (·.children[1]?) =
        ((paramNodes fn).map (·.children[1]?)).filterMap id := by
      rw [filterMap_map]
      rfl
    rw [h, v.paramNodes_eq]
    simp
  rw [funcAnnotations, hps, v.returnNode_eq, Option.getD_some]

theorem FuncView.declName (v : FuncView src fn) : declName src fn = v.name.text src := by
  rw [Toke.declName, v.head]
  rfl

theorem FuncView.params_spelling (v : FuncView src fn) :
    (paramNodes fn).map (spellingAt src 1) = v.params.map (Node.spelling src) := by
  have h : (paramNodes fn).map (spellingAt src 1) =
      ((paramNodes fn).map (·.children[1]?)).map fun o => (o.map (Node.spelling src)).getD [] := by
    rw [map_map]
    rfl
  rw [h, v.paramNodes_eq, map_map]
  rfl

theorem FuncView.isErrorUnion (v : FuncView src fn) : isErrorUnion fn = v.err.isSome := by
  have h := v.returnNode_eq
  cases hr : returnNode fn with
  | none => simp [hr] at h
  | some r =>
    rw [hr, Option.map_some, Option.some.injEq] at h
    rw [Toke.isErrorUnion, hr]
    cases he : v.err <;> simp [h, he]

theorem FuncView.ret_spelling (v : FuncView src fn) :
    ((returnNode fn).map (spellingAt src 0)).getD [] = v.ret.spelling src := by
  have h := v.returnNode_eq
  cases hr : returnNode fn with
  | none => simp [hr] at h
  | some r =>
    rw [hr, Option.map_some, Option.some.injEq] at h
    simp [spellingAt, h]

theorem word_no_dot {s : List Char} (h : Word s) : lastSegment s = s := by
  have hall : s.reverse.takeWhile (· ≠ '.') = s.reverse := by
    refine takeWhile_eq_self_iff.mpr fun c hc => ?_
    have := h.2 c (mem_reverse.mp hc)
    simp only [decide_eq_true_eq]
    rintro rfl
    cases this
  rw [lastSegment, hall, reverse_reverse]

theorem map_take_fits {ss : List (List Char)} (h : ∀ s ∈ ss, s.length < 128) :
    ss.map (·.take 127) = ss := by
  conv_rhs => rw [← map_id ss]
  refine map_congr_left fun s hs => take_of_length_le ?_
  have := h s hs
  omega

/-- **An exported function is recorded as it is declared.** -/
theorem recordExport_emitFunc (v : FuncView src fn) (hname : (Toke.declName src fn).length < 128)
    (htypes : ∀ t ∈ funcAnnotations fn, (t.spelling src).length < 128)
    (hlen : (paramNodes fn).length ≤ maxTkiParams) :
    ∃ o : Obj, emitFunc src fn v.name = o.text ∧ ∀ (aliasName : Name) (env : NameEnv),
      recordExport (some aliasName) o.text env = env.addIfunc (declaredFunc src aliasName fn) := by
  rw [v.annotations] at htypes
  rw [v.declName] at hname
  have hparam : ∀ t ∈ v.params, renderTypeNode src 128 t = t.spelling src := fun t ht =>
    renderTypeNode_eq (v.params_type t ht) 128 (le_refl _)
      (htypes t (mem_append_left _ ht))
  have hret : renderTypeNode src 128 v.ret = v.ret.spelling src :=
    renderTypeNode_eq v.ret_type 128 (le_refl _)
      (htypes _ (mem_append_right _ mem_cons_self))
  have herr : ∀ t ∈ v.err, renderTypeNode src 256 t = t.spelling src := fun t ht =>
    renderTypeNode_eq (v.err_type t ht) 256 (by decide)
      (htypes t (mem_append_right _ (mem_cons_of_mem _ (Option.mem_toList.mpr ht))))
  have hcopy : tokCopy src 128 v.name = v.name.text src := buffer_clean v.name_word.clean hname
  have hparams : v.params.map (renderTypeNode src 128) = v.params.map (Node.spelling src) :=
    map_congr_left hparam
  have htext := emitFunc_eq v.name v.returnTypes_eq
    (by rw [hcopy]; exact v.name_word.clean)
    (by rw [v.paramTypes_eq]; intro p hp; rw [hparam p hp]; exact (v.params_type p hp).clean)
    (by rw [hret]; exact v.ret_type.clean)
    (by intro u hu; rw [herr u hu]; exact (v.err_type u hu).clean)
  rw [hcopy, v.paramTypes_eq, hparams, hret] at htext
  have hp : ∀ p ∈ v.params.map (Node.spelling src), '"' ∉ p ∧ p.length < 128 := by
    intro p hp
    obtain ⟨t, ht, rfl⟩ := mem_map.mp hp
    exact ⟨(v.params_type t ht).clean.quote_not_mem, htypes t (mem_append_left _ ht)⟩
  have he : ∀ e ∈ v.err.map (renderTypeNode src 256), '"' ∉ e := by
    intro e he
    obtain ⟨t, ht, rfl⟩ := Option.mem_map.mp he
    rw [herr t ht]
    exact (v.err_type t ht).clean.quote_not_mem
  have hcount : (v.params.map (Node.spelling src)).length ≤ maxTkiParams := by
    rw [← v.params_spelling, length_map]
    exact hlen
  have hrlen := htypes v.ret (mem_append_right _ mem_cons_self)
  refine ⟨funcObj _ _ _ _ _ v.name_word.clean.quote_not_mem (fun p h => (hp p h).1)
    v.ret_type.clean.quote_not_mem he, htext, fun aliasName env => ?_⟩
  rw [recordExport_func _ _ _ _ _ _ hcount, map_take_fits fun p h => (hp p h).2,
    take_of_length_le (by omega), take_of_length_le (by omega), word_no_dot v.name_word,
    Option.isSome_map, declaredFunc, v.declName, v.params_spelling, v.isErrorUnion, v.ret_spelling]

end

/-! ## §3. Types and constants. -/

/-- The record of a field. -/
def fieldText (f : List Char × List Char) : List Char :=
  objText [("name".toList, quoted f.1), ("type".toList, quoted f.2)]

/-- The members of a type's record. -/
def typeMembers (name : List Char) (isSum : Bool) (fields : List (List Char × List Char)) :
    List (List Char × List Char) :=
  [("kind".toList, quoted "type".toList), ("name".toList, quoted name)] ++
    (if isSum then [("is_sum".toList, "true".toList)] else []) ++
    [("fields".toList, arrText (fields.map fieldText))]

theorem isValue_fields {fields : List (List Char × List Char)} (hn : ∀ f ∈ fields, '"' ∉ f.1)
    (ht : ∀ f ∈ fields, '"' ∉ f.2) : ∀ x ∈ fields.map fieldText, IsValue x := by
  intro x hx
  obtain ⟨f, hf, rfl⟩ := mem_map.mp hx
  exact (fieldObj f.1 f.2 (hn f hf) (ht f hf)).isValue

theorem typeMembers_clean {name : List Char} {fields : List (List Char × List Char)} (isSum : Bool)
    (hname : '"' ∉ name) (hn : ∀ f ∈ fields, '"' ∉ f.1) (ht : ∀ f ∈ fields, '"' ∉ f.2) :
    ∀ m ∈ typeMembers name isSum fields, '"' ∉ m.1 ∧ IsValue m.2 := by
  unfold typeMembers
  simp only [forall_mem_append, forall_mem_cons]
  refine ⟨⟨⟨⟨by decide, .str (by decide)⟩, ⟨by decide, .str hname⟩, by simp⟩, ?_⟩,
    ⟨by decide, .arr (isValue_fields hn ht)⟩, by simp⟩
  cases isSum with
  | false => simp
  | true => exact forall_mem_singleton.mpr ⟨by decide, .word⟩

/-- The record of a type with clean texts. -/
def typeObj (name : List Char) (isSum : Bool) (fields : List (List Char × List Char))
    (hname : '"' ∉ name) (hn : ∀ f ∈ fields, '"' ∉ f.1) (ht : ∀ f ∈ fields, '"' ∉ f.2) : Obj where
  members := typeMembers name isSum fields
  keys_clean := fun m hm => (typeMembers_clean isSum hname hn ht m hm).1
  values := fun m hm => (typeMembers_clean isSum hname hn ht m hm).2

section

variable {name : List Char} {isSum : Bool} {fields : List (List Char × List Char)}
  (hname : '"' ∉ name) (hn : ∀ f ∈ fields, '"' ∉ f.1) (ht : ∀ f ∈ fields, '"' ∉ f.2)

theorem arrayMember_fields (hlen : fields.length ≤ maxTkiFields) :
    arrayMember (typeObj name isSum fields hname hn ht).text "fields"
      (fun p => (fieldLoop p.length p).take maxTkiFields) =
      some (fields.map fun f => (bareName (f.1.take 127), f.2.take 127)) := by
  have heads : ∀ x ∈ fields.map fieldText, ∃ d t, x = d :: t ∧ isSeparator d = false := by
    intro x hx
    obtain ⟨f, -, rfl⟩ := mem_map.mp hx
    exact ⟨_, _, rfl, by decide⟩
  have hfuel : fields.length ≤ (commaSep (fields.map fieldText) ++ [']']).length := by
    have hne : ∀ x ∈ fields.map fieldText, x ≠ [] := by
      intro x hx
      obtain ⟨d, t, rfl, -⟩ := heads x hx
      exact cons_ne_nil _ _
    have hle : _ ≤ (commaSep _).length := Items.length_le_intercalate (by decide) hne
    rw [length_map] at hle
    rw [length_append]
    omega
  rw [arrayMember_text _ (isValue_fields hn ht) (by cases isSum <;> rfl),
    fieldLoop_items hn ht [] _ _ hfuel (dropWhile_commaSep (by decide) heads []),
    take_of_length_le (by rw [length_map]; exact hlen)]

theorem isSum_recorded :
    ((objKey (typeObj name isSum fields hname hn ht).text "is_sum").map fun v =>
      "true".toList.isPrefixOf v).getD false = isSum := by
  obtain ⟨q, hq⟩ := objKey_text (typeObj name isSum fields hname hn ht) "is_sum"
  rw [hq]
  cases isSum <;> rfl

/-- **A type's record is read back**, cut at the buffer sizes. -/
theorem recordExport_type (aliasName : Option Name) (env : NameEnv)
    (hlen : fields.length ≤ maxTkiFields) :
    recordExport aliasName (typeObj name isSum fields hname hn ht).text env =
      env.addItype ⟨name.take 127,
        fields.map fun f => (bareName (f.1.take 127), f.2.take 127), isSum⟩ := by
  have hnm : strMember 128 (typeObj name isSum fields hname hn ht).text "name" =
      some (name.take 127) := strMember_text _ 128 hname rfl
  rw [recordExport, hnm]
  simp only [recordType, arrayMember_fields hname hn ht hlen, isSum_recorded]
  rfl

end

/-- The record of a type, byte by byte. -/
theorem objText_type (name : List Char) (isSum : Bool) (fields : List (List Char × List Char)) :
    objText (typeMembers name isSum fields) =
      "\x7b\"kind\": \"type\", \"name\": ".toList ++ quoted name ++
        (if isSum then ", \"is_sum\": true, \"fields\": [".toList else ", \"fields\": [".toList) ++
        commaSep (fields.map fieldText) ++ "]\x7d".toList := by
  cases isSum <;> simp [typeMembers, objText, commaSep_cons, memberText, arrText, quoted]

/-- The printed name of a field; `$` marks a variant. -/
def printedName (src : Source) (isSum : Bool) (f : Node) : List Char :=
  (if isSum && isVariant src f then ['$'] else []) ++ tokCopy src 128 f

theorem emitField_eq {isSum : Bool} {f : Node} (hn : Clean (tokCopy src 128 f))
    (ht : Clean (fieldType src f)) :
    emitField src isSum f = fieldText (printedName src isSum f, fieldType src f) := by
  unfold emitField
  rw [jsonStr_clean hn, jsonString_clean ht, fieldText, printedName]
  cases isSum && isVariant src f <;> simp [objText, commaSep_cons, memberText, quoted]

theorem emitType_eq (decl name : Node) (hname : Clean (tokCopy src 128 name))
    (hfields : ∀ f ∈ exportedFields decl, Clean (tokCopy src 128 f) ∧ Clean (fieldType src f)) :
    emitType src decl name = objText (typeMembers (tokCopy src 128 name)
      ((exportedFields decl).any (isVariant src))
      ((exportedFields decl).map fun f =>
        (printedName src ((exportedFields decl).any (isVariant src)) f, fieldType src f))) := by
  unfold emitType
  simp only
  rw [jsonString_clean hname, objText_type, map_map]
  congr 3
  refine map_congr_left fun f hf => ?_
  rw [Function.comp_apply, emitField_eq (hfields f hf).1 (hfields f hf).2]

/-- The name of a field as it is recorded: one byte of the buffer goes to the
sigil of a variant. -/
def recordedName (src : Source) (isSum : Bool) (f : Node) : List Char :=
  if isSum && isVariant src f then (f.text src).take 126 else f.text src

/-- The type as it is recorded. -/
def recordedType (src : Source) (d : Node) : ImportedType where
  name := declName src d
  fields := (declFields d).map fun f =>
    (recordedName src ((declFields d).any (isVariant src)) f, spellingAt src 0 f)
  isSum := (declFields d).any (isVariant src)

theorem TypeLayout.fields_eq (h : TypeLayout src d) :
    ∃ name, d.children.head? = some name ∧ Word (name.text src) ∧
      ∀ f ∈ declFields d, FieldNode src f := by
  obtain ⟨-, name, l, hch, hw, hl, hf⟩ := h
  refine ⟨name, by rw [hch]; rfl, hw, fun f hmem => ?_⟩
  have hfields : declFields d = l.children.filter (·.kind = .field) := by
    rw [declFields, hch]
    simp [hl]
  rw [hfields] at hmem
  exact hf f (mem_of_mem_filter hmem)

section

variable {src : Source} {d : Node}

variable {f : Node}

theorem fieldType_eq (hf : FieldNode src f) (hlen : (spellingAt src 0 f).length < 128) :
    fieldType src f = spellingAt src 0 f ∧ Clean (spellingAt src 0 f) := by
  obtain ⟨-, -, ⟨t, hc, ht⟩, -⟩ := hf
  have hsp : spellingAt src 0 f = t.spelling src := by
    rw [spellingAt, hc]
    rfl
  have hty : fieldType src f = renderTypeNode src 128 t := by rw [fieldType, hc]
  rw [hsp] at hlen ⊢
  exact ⟨hty.trans (renderTypeNode_eq ht 128 (le_refl _) hlen), ht.clean⟩

/-- Reading the printed name back. -/
theorem bareName_printed (hf : FieldNode src f) (hlen : (f.text src).length < 128) (isSum : Bool) :
    bareName ((printedName src isSum f).take 127) = recordedName src isSum f := by
  have hw := hf.2.1
  have hcopy : tokCopy src 128 f = f.text src := buffer_clean hw.clean hlen
  rw [printedName, recordedName, hcopy]
  cases isSum && isVariant src f with
  | true => rfl
  | false =>
    show bareName ((f.text src).take 127) = f.text src
    rw [take_of_length_le (by omega)]
    exact dropSigil_word hw.2

theorem printedName_clean (hf : FieldNode src f) (isSum : Bool) :
    '"' ∉ printedName src isSum f := by
  have hcopy : Clean (tokCopy src 128 f) := buffer_isClean hf.2.1.clean
  rw [printedName, mem_append, not_or]
  refine ⟨?_, hcopy.quote_not_mem⟩
  split
  · decide
  · exact not_mem_nil

/-- **An exported type is recorded**, with one byte less for a variant. -/
theorem recordExport_emitType (h : TypeLayout src d)
    {name : Node} (hhead : d.children.head? = some name) (hname : (declName src d).length < 128)
    (hfields : ∀ f ∈ declFields d, (f.text src).length < 128 ∧ (spellingAt src 0 f).length < 128)
    (hlen : (declFields d).length ≤ maxTkiFields) :
    ∃ o : Obj, emitType src d name = o.text ∧ ∀ (aliasName : Option Name) (env : NameEnv),
      recordExport aliasName o.text env = env.addItype (recordedType src d) := by
  obtain ⟨name', hhead', hw, hnode⟩ := h.fields_eq
  rw [hhead] at hhead'
  cases hhead'
  have hdecl : declName src d = name.text src := by
    rw [declName, hhead]
    rfl
  rw [hdecl] at hname
  have hcopy : tokCopy src 128 name = name.text src := buffer_clean hw.clean hname
  have hexp : exportedFields d = declFields d := take_of_length_le hlen
  have hty : ∀ f ∈ declFields d, fieldType src f = spellingAt src 0 f ∧
      Clean (spellingAt src 0 f) := fun f hf => fieldType_eq (hnode f hf) (hfields f hf).2
  have htext := emitType_eq d name (by rw [hcopy]; exact hw.clean) (by
    intro f hf
    rw [hexp] at hf
    exact ⟨buffer_isClean (hnode f hf).2.1.clean, by rw [(hty f hf).1]; exact (hty f hf).2⟩)
  rw [hexp, hcopy] at htext
  have hn : ∀ f ∈ (declFields d).map fun f =>
      (printedName src ((declFields d).any (isVariant src)) f, fieldType src f), '"' ∉ f.1 := by
    intro f hf
    obtain ⟨g, hg, rfl⟩ := mem_map.mp hf
    exact printedName_clean (hnode g hg) _
  have ht : ∀ f ∈ (declFields d).map fun f =>
      (printedName src ((declFields d).any (isVariant src)) f, fieldType src f), '"' ∉ f.2 := by
    intro f hf
    obtain ⟨g, hg, rfl⟩ := mem_map.mp hf
    show '"' ∉ fieldType src g
    rw [(hty g hg).1]
    exact (hty g hg).2.quote_not_mem
  refine ⟨typeObj _ _ _ hw.clean.quote_not_mem hn ht, htext, fun aliasName env => ?_⟩
  rw [recordExport_type _ _ _ _ _ (by rw [length_map]; exact hlen), map_map,
    take_of_length_le (by omega), recordedType, hdecl]
  congr 2
  refine map_congr_left fun f hf => ?_
  have hlen' := (hfields f hf).2
  rw [Function.comp_apply, bareName_printed (hnode f hf) (hfields f hf).1, (hty f hf).1,
    take_of_length_le (by show (spellingAt src 0 f).length ≤ 127; omega)]

end

/-- The record of a constant with clean texts. -/
def constObj (name type : List Char) (hn : '"' ∉ name) (ht : '"' ∉ type) : Obj where
  members := [("kind".toList, quoted "const".toList), ("name".toList, quoted name),
    ("type".toList, quoted type)]
  keys_clean := by simp only [forall_mem_cons]; exact ⟨by decide, by decide, by decide, by simp⟩
  values := by simp only [forall_mem_cons]; exact ⟨.str (by decide), .str hn, .str ht, by simp⟩

theorem recordExport_const {name type : List Char} (hn : '"' ∉ name) (ht : '"' ∉ type)
    (aliasName : Option Name) (env : NameEnv) :
    recordExport aliasName (constObj name type hn ht).text env = env := by
  have hnm : strMember 128 (constObj name type hn ht).text "name" = some (name.take 127) :=
    strMember_text _ 128 hn rfl
  rw [recordExport, hnm]
  rfl

theorem ConstLayout.type_clean (h : ConstLayout src d) : Clean (constType src d) := by
  obtain ⟨-, name, rest, hch, -, hrest⟩ := h
  have hunknown : Clean "unknown".toList := by
    intro c hc
    have hall : "unknown".toList.all (fun c => c ≠ '"' && c ≠ '\\' && 0x20 ≤ c.toNat) := by
      decide
    simpa [and_assoc] using all_eq_true.mp hall c hc
  unfold constType
  split
  · next t ht =>
      split
      · next hk =>
          rw [hch] at ht
          exact buffer_isClean (hrest t (mem_of_getElem? ht) hk).clean
      · exact hunknown
  · exact hunknown

theorem emitConst_eq (hname : Clean (tokCopy src 128 name)) (hty : Clean (constType src d)) :
    emitConst src d name = (constObj (tokCopy src 128 name) (constType src d)
      hname.quote_not_mem hty.quote_not_mem).text := by
  have htext : ∀ n t : List Char, objText [("kind".toList, quoted "const".toList),
      ("name".toList, quoted n), ("type".toList, quoted t)] =
      "\x7b\"kind\": \"const\", \"name\": ".toList ++ quoted n ++ ", \"type\": ".toList ++ quoted t ++
        "\x7d".toList := by
    intro n t
    simp [objText, commaSep_cons, memberText, quoted]
  unfold emitConst
  rw [jsonString_clean hname, jsonString_clean hty, Obj.text, constObj, htext]

/-! ## §4. The whole file. -/

theorem recordLoop_congr {aliasName : Option Name} {p q : List Char} (fuel : Nat) (env : NameEnv)
    (h : p.dropWhile isSeparator = q.dropWhile isSeparator) :
    recordLoop aliasName fuel p env = recordLoop aliasName fuel q env := by
  cases fuel with
  | zero => rfl
  | succ fuel => rw [recordLoop, recordLoop, h]

theorem recordLoop_cons {aliasName : Option Name} {fuel : Nat} {p q : List Char} {env : NameEnv}
    (o : Obj) (hp : p.dropWhile isSeparator = o.text ++ q) :
    recordLoop aliasName (fuel + 1) p env =
      recordLoop aliasName fuel q (recordExport aliasName o.text env) := by
  obtain ⟨t, ho, hscan, hobj⟩ := o.scan q
  rw [ho] at hp
  rw [recordLoop, hp]
  simp only [hscan, hobj]

/-- What stands behind a record: the other records, and the end of the array. -/
def restText (os : List Obj) (r : List Char) : List Char :=
  os.flatMap (fun o => ",\n    ".toList ++ o.text) ++ ("\n  ]".toList ++ r)

theorem restText_cons (o : Obj) (os : List Obj) (r : List Char) :
    (restText (o :: os) r).dropWhile isSeparator = o.text ++ restText os r := by
  obtain ⟨t, ho⟩ := o.head
  simp [restText, ho, isSeparator, isBlank]

theorem recordLoop_rest (aliasName : Option Name) (r : List Char) :
    ∀ (os : List Obj) (fuel : Nat) (env : NameEnv), os.length < fuel →
      recordLoop aliasName fuel (restText os r) env =
        os.foldl (fun env o => recordExport aliasName o.text env) env
  | [], fuel, env, hfuel => by
    obtain ⟨fuel, rfl⟩ := Nat.exists_eq_add_one_of_ne_zero (Nat.ne_of_gt hfuel)
    rfl
  | o :: os, fuel, env, hfuel => by
    obtain ⟨fuel, rfl⟩ := Nat.exists_eq_add_one_of_ne_zero (by omega : fuel ≠ 0)
    rw [recordLoop_cons o (restText_cons o os r)]
    exact recordLoop_rest aliasName r os fuel _ (by simpa using hfuel)

theorem strstr_append (pat : List Char) (hpat : pat ≠ []) (b : List Char) :
    ∀ a : List Char, ∃ a', a' <:+ a ∧ strstr pat (a ++ (pat ++ b)) = some (a' ++ (pat ++ b))
  | [] => by
    obtain ⟨c, pat, rfl⟩ := exists_cons_of_ne_nil hpat
    refine ⟨[], suffix_refl _, ?_⟩
    have hpre : (c :: pat).isPrefixOf (c :: (pat ++ b)) := isPrefixOf_iff_prefix.mpr ⟨b, rfl⟩
    rw [nil_append, cons_append, strstr, if_pos hpre]
  | c :: a => by
    rw [cons_append, strstr]
    split
    · exact ⟨c :: a, suffix_refl _, rfl⟩
    · obtain ⟨a', hsuf, heq⟩ := strstr_append _ hpat b a
      exact ⟨a', hsuf.trans (suffix_cons _ _), heq⟩

/-- The array of exports is found: no bracket stands before it. -/
theorem recordExports_eq {a b : List Char} (ha : '[' ∉ a) (aliasName : Option Name)
    (env : NameEnv) :
    recordExports aliasName (a ++ ("\"exports\"".toList ++ (": [".toList ++ b))) env =
      recordLoop aliasName (a ++ ("\"exports\"".toList ++ (": [".toList ++ b))).length b env := by
  obtain ⟨a', hsuf, heq⟩ := strstr_append "\"exports\"".toList (by decide)
    (": [".toList ++ b) a
  have hdrop : (a' ++ ("\"exports\"".toList ++ (": [".toList ++ b))).dropWhile (· ≠ '[') =
      '[' :: b := by
    rw [dropWhile_append_of_pos fun c hc => ?_]
    · simp
    · exact decide_eq_true fun h => ha (hsuf.mem (h ▸ hc))
  rw [recordExports, heq]
  simp only [hdrop]

/-- The bytes of a module path. -/
def isPathChar (c : Char) : Bool := isIdentCont c || c == '.'

theorem pathStep_chars {size : Nat} {buf : List Char} {id : Node}
    (hbuf : ∀ c ∈ buf, isPathChar c) (hid : Word (id.text src)) :
    ∀ c ∈ pathStep src size buf id, isPathChar c := by
  have htext : ∀ k, ∀ c ∈ (id.text src).take k, isPathChar c := by
    intro k c hc
    rw [isPathChar, hid.2 c (mem_of_mem_take hc), Bool.true_or]
  intro c hc
  unfold pathStep at hc
  split at hc
  · split at hc
    · rcases mem_append.mp hc with hc | hc
      · rcases mem_append.mp hc with hc | hc
        · exact hbuf c hc
        · rw [mem_singleton.mp hc]
          decide
      · exact htext _ c hc
    · rcases mem_append.mp hc with hc | hc
      · exact hbuf c hc
      · exact htext _ c hc
  · exact hbuf c hc

theorem modulePath_chars (h : RootLayout src root) (size : Nat) :
    ∀ c ∈ collectModulePath src size root, isPathChar c := by
  unfold collectModulePath
  split
  · simp
  · next mp hmp =>
      -- the path found is the one of a module declaration
      have hmem := mem_of_find?_eq_some hmp
      obtain ⟨d, hd, hmem⟩ := mem_flatMap.mp hmem
      obtain ⟨hd, hk⟩ := mem_filter.mp hd
      have hk : d.kind = .module := by simpa using hk
      have hpath : PathShape src mp := by
        obtain ⟨-, mp', hch, hshape⟩ := (h d hd).of_kind.1 hk
        rw [hch, mem_singleton] at hmem
        exact hmem ▸ hshape
      have hfold : ∀ c ∈ mp.children.foldl (pathStep src size) [], isPathChar c :=
        foldlRecOn (motive := fun buf => ∀ c ∈ buf, isPathChar c) mp.children _ (by simp)
          fun buf hbuf id hid => pathStep_chars hbuf (hpath.2 id hid)
      exact fun c hc => hfold c ((takeWhile_sublist _).mem hc)

/-- What recording a declaration adds. -/
def recordDecl (src : Source) (aliasName : Name) (env : NameEnv) (d : Node) : NameEnv :=
  match d.kind with
  | .funcDecl => env.addIfunc (declaredFunc src aliasName d)
  | .typeDecl => env.addItype (recordedType src d)
  | _ => env

theorem recordDecl_other (hf : d.kind ≠ .funcDecl) (ht : d.kind ≠ .typeDecl) (aliasName : Name)
    (env : NameEnv) : recordDecl src aliasName env d = env := by
  unfold recordDecl
  split
  · next hk => exact absurd hk hf
  · next hk => exact absurd hk ht
  · rfl

/-- The limits of the interface format, for one declaration. -/
structure DeclFits (src : Source) (d : Node) : Prop where
  name : d.kind = .funcDecl ∨ d.kind = .typeDecl → (declName src d).length < 128
  annotations : d.kind = .funcDecl → ∀ t ∈ funcAnnotations d, (t.spelling src).length < 128
  params : d.kind = .funcDecl → (paramNodes d).length ≤ maxTkiParams
  fieldNames : d.kind = .typeDecl → ∀ f ∈ declFields d, (f.text src).length < 128
  fieldTypes : d.kind = .typeDecl → ∀ f ∈ declFields d, (spellingAt src 0 f).length < 128
  fields : d.kind = .typeDecl → (declFields d).length ≤ maxTkiFields

theorem Fits.decl (h : Fits src root) (hd : d ∈ root.children) : DeclFits src d := by
  have hfunc : d.kind = .funcDecl → d ∈ exportedFuncs root := fun hk =>
    mem_filter.mpr ⟨hd, by simp [hk]⟩
  have htype : d.kind = .typeDecl → d ∈ exportedDataTypes root := fun hk =>
    mem_filter.mpr ⟨hd, by simp [hk]⟩
  refine ⟨h.names d hd, fun hk t ht => ?_, fun hk => h.params d (hfunc hk),
    fun hk => h.fieldNames d (htype hk), fun hk f hf => ?_, fun hk => h.fields d (htype hk)⟩
  · exact h.types t (mem_append_left _ (mem_flatMap.mpr ⟨d, hfunc hk, ht⟩))
  · cases hc : f.children[0]? with
    | none => simp [spellingAt, hc]
    | some t =>
      have ht := h.types t (mem_append_right _ (mem_flatMap.mpr
        ⟨d, htype hk, mem_filterMap.mpr ⟨f, hf, hc⟩⟩))
      simpa [spellingAt, hc] using ht

theorem emitDecl_named (hh : d.children.head? = some name) :
    (d.kind = .funcDecl → emitDecl src d = some (emitFunc src d name)) ∧
    (d.kind = .typeDecl → emitDecl src d = some (emitType src d name)) ∧
    (d.kind = .constDecl → emitDecl src d = some (emitConst src d name)) := by
  obtain ⟨rest, hc⟩ := head?_eq_some_iff.mp hh
  refine ⟨fun hk => ?_, fun hk => ?_, fun hk => ?_⟩ <;> rw [emitDecl, hk, hc]

theorem emitDecl_other (h1 : d.kind ≠ .funcDecl) (h2 : d.kind ≠ .typeDecl)
    (h3 : d.kind ≠ .constDecl) : emitDecl src d = none := by
  unfold emitDecl
  split
  · next hk _ => exact absurd hk h1
  · next hk _ => exact absurd hk h2
  · next hk _ => exact absurd hk h3
  · rfl

/-- **Each declaration prints a record or nothing**, and the record adds what
`recordDecl` says. -/
theorem emitDecl_record (h : DeclLayout src d) (hf : DeclFits src d) :
    ∃ o : Option Obj, emitDecl src d = o.map Obj.text ∧ ∀ (aliasName : Name) (env : NameEnv),
      recordDecl src aliasName env d =
        o.toList.foldl (fun env o => recordExport (some aliasName) o.text env) env := by
  have none_case : d.kind ∉ [NodeKind.funcDecl, .typeDecl, .constDecl] →
      ∃ o : Option Obj, emitDecl src d = o.map Obj.text ∧ ∀ (aliasName : Name) (env : NameEnv),
        recordDecl src aliasName env d =
          o.toList.foldl (fun env o => recordExport (some aliasName) o.text env) env := by
    intro hk
    simp only [mem_cons, not_mem_nil, or_false, not_or] at hk
    exact ⟨none, emitDecl_other hk.1 hk.2.1 hk.2.2, fun a env => recordDecl_other hk.1 hk.2.1 a env⟩
  cases h with
  | module h => exact none_case (by rw [h.1]; decide)
  | imports h => exact none_case (by rw [h]; decide)
  | binding h =>
    refine none_case fun hk => ?_
    have hall : ∀ k ∈ bindKinds, k ∉ [NodeKind.funcDecl, .typeDecl, .constDecl] := by decide
    exact hall _ h hk
  | func h =>
    have hk := h.1
    obtain ⟨v⟩ := h.view
    obtain ⟨o, htext, hrec⟩ := recordExport_emitFunc v (hf.name (.inl hk))
      (hf.annotations hk) (hf.params hk)
    refine ⟨some o, by rw [(emitDecl_named v.head).1 hk, htext]; rfl, fun a env => ?_⟩
    rw [recordDecl, hk]
    exact (hrec a env).symm
  | type h =>
    have hk := h.1
    obtain ⟨name, hhead, -, -⟩ := h.fields_eq
    obtain ⟨o, htext, hrec⟩ := recordExport_emitType h hhead (hf.name (.inr hk))
      (fun f hm => ⟨hf.fieldNames hk f hm, hf.fieldTypes hk f hm⟩) (hf.fields hk)
    refine ⟨some o, by rw [(emitDecl_named hhead).2.1 hk, htext]; rfl, fun a env => ?_⟩
    rw [recordDecl, hk]
    exact (hrec (some a) env).symm
  | const h =>
    have hk := h.1
    have hty := h.type_clean
    obtain ⟨-, name, rest, hch, hw, -⟩ := h
    have hhead : d.children.head? = some name := by rw [hch]; rfl
    have hclean : Clean (tokCopy src 128 name) := buffer_isClean hw.clean
    have htext : emitConst src d name = _ := emitConst_eq hclean hty
    refine ⟨some _, by rw [(emitDecl_named hhead).2.2 hk, htext]; rfl, fun a env => ?_⟩
    rw [recordDecl, hk]
    exact (recordExport_const _ _ (some a) env).symm

/-- The records of a list of declarations. -/
theorem emitDecls_record : ∀ {ds : List Node}, (∀ d ∈ ds, DeclLayout src d) →
    (∀ d ∈ ds, DeclFits src d) →
    ∃ os : List Obj, ds.filterMap (emitDecl src) = os.map Obj.text ∧
      ∀ (aliasName : Name) (env : NameEnv), ds.foldl (recordDecl src aliasName) env =
        os.foldl (fun env o => recordExport (some aliasName) o.text env) env
  | [], _, _ => ⟨[], rfl, fun _ _ => rfl⟩
  | d :: ds, h, hf => by
    obtain ⟨o, hemit, hrec⟩ := emitDecl_record (h d mem_cons_self) (hf d mem_cons_self)
    obtain ⟨os, hemits, hrecs⟩ := emitDecls_record
      (forall_mem_cons.mp h).2 (forall_mem_cons.mp hf).2
    refine ⟨o.toList ++ os, ?_, fun a env => ?_⟩
    · cases o with
      | none => rw [filterMap_cons_none hemit, hemits]; rfl
      | some o => rw [filterMap_cons_some hemit, hemits]; rfl
    · rw [foldl_cons, foldl_append, hrec, hrecs]

/-- The array of exports, as the loop sees it. -/
theorem exports_dropWhile (os : List Obj) :
    ([','].intercalate ((os.map Obj.text).map ("\n    ".toList ++ ·)) ++
      (if (os.map Obj.text).isEmpty then [] else "\n  ".toList) ++
      "]\n\x7d\n".toList).dropWhile isSeparator =
      (restText os "\n\x7d\n".toList).dropWhile isSeparator := by
  cases os with
  | nil => rfl
  | cons o os =>
    obtain ⟨t, ho⟩ := o.head
    rw [map_cons, map_cons, Items.intercalate_cons]
    simp [restText, ho, isSeparator, isBlank, flatMap_map]

theorem isPathChar_clean {s : List Char} (h : ∀ c ∈ s, isPathChar c) :
    Clean s ∧ '[' ∉ s := by
  have hid : ∀ c ∈ s, isIdentCont c ∨ c = '.' := by
    intro c hc
    simpa [isPathChar] using h c hc
  refine ⟨fun c hc => ?_, fun hc => ?_⟩
  · rcases hid c hc with hw | rfl
    · exact Word.clean ⟨cons_ne_nil c [], by simpa using hw⟩ c mem_cons_self
    · decide
  · rcases hid _ hc with hw | hw
    · cases hw
    · cases hw

/-- The file, cut where `strstr` finds the array. -/
theorem emitInterface_eq {os : List Obj} (hpath : Clean (collectModulePath src 256 root))
    (hemit : root.children.filterMap (emitDecl src) = os.map Obj.text) :
    emitInterface src root = ("\x7b\n  \"schema_version\": \"1.0\",\n  \"module\": ".toList ++
        quoted (collectModulePath src 256 root) ++ ",\n  \"version\": \"1.0.0\",\n  ".toList) ++
        ("\"exports\"".toList ++ (": [".toList ++
          ([','].intercalate ((os.map Obj.text).map ("\n    ".toList ++ ·)) ++
            (if (os.map Obj.text).isEmpty then [] else "\n  ".toList) ++
            "]\n\x7d\n".toList))) := by
  have hcut : ",\n  \"version\": \"1.0.0\",\n  \"exports\": [".toList =
      ",\n  \"version\": \"1.0.0\",\n  ".toList ++ ("\"exports\"".toList ++ ": [".toList) := rfl
  unfold emitInterface
  simp only [hemit, jsonString_clean hpath, hcut, append_assoc]

/-- **Recording what a module's interface says, declaration by declaration.** -/
theorem recordExports_emitInterface (h : RootLayout src root) (hf : Fits src root)
    (aliasName : Name) (env : NameEnv) :
    recordExports (some aliasName) (emitInterface src root) env =
      root.children.foldl (recordDecl src aliasName) env := by
  obtain ⟨os, hemit, hrec⟩ := emitDecls_record h fun d hd => hf.decl hd
  obtain ⟨hclean, hbracket⟩ := isPathChar_clean (modulePath_chars h 256)
  have hbefore : '[' ∉ "\x7b\n  \"schema_version\": \"1.0\",\n  \"module\": ".toList ++
      quoted (collectModulePath src 256 root) ++ ",\n  \"version\": \"1.0.0\",\n  ".toList := by
    intro hc
    simp only [quoted, mem_append, mem_cons] at hc
    rcases hc with (hc | hc | hc | hc) | hc
    · exact absurd hc (by decide)
    · exact absurd hc (by decide)
    · exact hbracket hc
    · exact absurd hc (by decide)
    · exact absurd hc (by decide)
  have hlen : os.length ≤ ([','].intercalate
      ((os.map Obj.text).map ("\n    ".toList ++ ·))).length := by
    rw [← length_map Obj.text, ← length_map ("\n    ".toList ++ ·)]
    exact Items.length_le_intercalate (by decide) (by simp)
  rw [emitInterface_eq hclean hemit, recordExports_eq hbefore,
    recordLoop_congr _ _ (exports_dropWhile os), recordLoop_rest, hrec]
  simp only [length_append]
  have hcolon : ": [".toList.length = 3 := rfl
  omega

/-! ## §5. The round trip. -/

/-- `nameenv_add_itype` on the list of types. -/
def addFirst (its : List ImportedType) (it : ImportedType) : List ImportedType :=
  if its.any (·.name = it.name) then its else its ++ [it]

theorem addItype_eq (env : NameEnv) (it : ImportedType) :
    env.addItype it = ⟨env.moduleScope, addFirst env.itypes it, env.ifuncs⟩ := by
  unfold NameEnv.addItype addFirst
  split
  · rfl
  · rfl

theorem foldl_recordDecl (src : Source) (aliasName : Name) : ∀ (ds : List Node) (env : NameEnv),
    ds.foldl (recordDecl src aliasName) env = ⟨env.moduleScope,
        ((ds.filter (·.kind = .typeDecl)).map (recordedType src)).foldl addFirst env.itypes,
        env.ifuncs ++ (ds.filter (·.kind = .funcDecl)).map (declaredFunc src aliasName)⟩
  | [], env => by simp
  | d :: ds, env => by
    rw [foldl_cons, foldl_recordDecl src aliasName ds]
    by_cases hf : d.kind = .funcDecl
    · simp [recordDecl, hf, NameEnv.addIfunc]
    · by_cases ht : d.kind = .typeDecl
      · simp [recordDecl, ht, addItype_eq]
      · simp [recordDecl_other hf ht, hf, ht]

theorem addFirst_length (its : List ImportedType) (it : ImportedType) :
    (addFirst its it).length ≤ its.length + 1 := by
  unfold addFirst
  split
  · omega
  · simp

theorem foldl_addFirst_length (new : List ImportedType) : ∀ its : List ImportedType,
    (new.foldl addFirst its).length ≤ its.length + new.length := by
  induction new with
  | nil => exact fun its => Nat.le_refl _
  | cons it new ih =>
    intro its
    have hrest := ih (addFirst its it)
    have hone := addFirst_length its it
    rw [foldl_cons, length_cons]
    omega

/-- Nothing is dropped exactly when no name comes twice. -/
theorem foldl_addFirst_eq (new : List ImportedType) : ∀ its : List ImportedType,
    (its.map (·.name)).Nodup →
    ((new.foldl addFirst its).length = its.length + new.length ↔
        ((its ++ new).map (·.name)).Nodup) ∧
      (((its ++ new).map (·.name)).Nodup → new.foldl addFirst its = its ++ new) := by
  induction new with
  | nil =>
    intro its hits
    simpa using hits
  | cons it new ih =>
    intro its hits
    by_cases hdup : it.name ∈ its.map (·.name)
    · -- the name is taken: the list stays too short from here on
      have hany : its.any (·.name = it.name) := by simpa using hdup
      have hadd : addFirst its it = its := by rw [addFirst, if_pos hany]
      have hnodup : ¬ ((its ++ it :: new).map (·.name)).Nodup := by
        intro h
        rw [map_append, nodup_append'] at h
        exact h.2.2 hdup mem_cons_self
      have hshort := foldl_addFirst_length new its
      rw [foldl_cons, hadd]
      refine ⟨⟨fun h => ?_, fun h => absurd h hnodup⟩, fun h => absurd h hnodup⟩
      rw [length_cons] at h
      omega
    · have hany : its.any (·.name = it.name) = false := by simpa using hdup
      have hadd : addFirst its it = its ++ [it] := by rw [addFirst, hany]; rfl
      have hnodup : ((its ++ [it]).map (·.name)).Nodup := by
        rw [map_append, nodup_append']
        refine ⟨hits, nodup_singleton _, ?_⟩
        simpa using hdup
      obtain ⟨hiff, heq⟩ := ih (its ++ [it]) hnodup
      rw [append_assoc, singleton_append] at hiff heq
      rw [foldl_cons, hadd, ← hiff, length_append, length_cons]
      exact ⟨by rw [length_singleton]; omega, fun h => heq (hiff.mp (by
        rw [length_append]; omega))⟩

/-- **A type is recorded as declared** exactly when a sum type shows a variant
with its `$` right before the name, and no such name fills the buffer. -/
theorem recordedType_eq_iff (h : ∀ f ∈ declFields d, FieldNode src f) :
    recordedType src d = declaredType src d ↔
      ((∃ f ∈ declFields d, f.op = .dollar) → ∃ f ∈ declFields d, isVariant src f) ∧
        ∀ f ∈ declFields d, isVariant src f → (f.text src).length ≤ 126 := by
  have hdollar : ∀ f ∈ declFields d, isVariant src f → f.op = .dollar := by
    intro f hf hv
    rw [isVariant, Bool.and_eq_true, decide_eq_true_eq, decide_eq_true_eq] at hv
    exact (h f hf).2.2.2 hv
  have hsum : ((declFields d).any (isVariant src) = (declFields d).any (·.op = .dollar)) ↔
      ((∃ f ∈ declFields d, f.op = .dollar) → ∃ f ∈ declFields d, isVariant src f) := by
    rw [Bool.eq_iff_iff, any_eq_true, any_eq_true]
    simp only [decide_eq_true_eq]
    refine ⟨fun hiff => hiff.mpr, fun himp => ⟨?_, himp⟩⟩
    rintro ⟨f, hf, hv⟩
    exact ⟨f, hf, hdollar f hf hv⟩
  have hname : ∀ f ∈ declFields d,
      (recordedName src ((declFields d).any (isVariant src)) f = f.text src ↔
        (isVariant src f → (f.text src).length ≤ 126)) := by
    intro f hf
    unfold recordedName
    by_cases hv : isVariant src f
    · have hany : (declFields d).any (isVariant src) := any_eq_true.mpr ⟨f, hf, hv⟩
      rw [hany, hv, Bool.and_self, if_pos rfl]
      simp
    · simp [hv]
  unfold recordedType declaredType
  rw [ImportedType.mk.injEq, hsum, map_inj_left]
  refine ⟨fun ⟨_, hf, hs⟩ => ⟨hs, fun f hm => ?_⟩, fun ⟨hs, hf⟩ => ⟨rfl, fun f hm => ?_, hs⟩⟩
  · exact (hname f hm).mp (Prod.mk.inj (hf f hm)).1
  · rw [(hname f hm).mpr (hf f hm)]

/-- The tokens of a source. -/
def sourceTokens (src : Source) : List Token := (lex .default (src.length + 16) src).getD []

/-- What an importer is promised: the signatures as they are declared, an empty
return type exactly for an error union, and spellings that determine the type. -/
structure Faithful (src : Source) (root : Node) (aliasName : Name) : Prop where
  recorded : recordExports (some aliasName) (emitInterface src root) ⟨[], [], []⟩ =
    ⟨[], (exportedDataTypes root).map (declaredType src),
      (exportedFuncs root).map (declaredFunc src aliasName)⟩
  unions : ∀ fn ∈ exportedFuncs root,
    ((declaredFunc src aliasName fn).ret = [] ↔ isErrorUnion fn = true)
  spellings : ∀ t ∈ exportedTypes root, ∀ u ∈ exportedTypes root, t.spelling src = u.spelling src →
      t.written (sourceTokens src) src = u.written (sourceTokens src) src

/-- What the format can tell apart. -/
structure Representable (src : Source) (root : Node) : Prop where
  distinct : ((exportedDataTypes root).map (declName src)).Nodup
  sums : ∀ d ∈ exportedDataTypes root, (∃ f ∈ declFields d, f.op = .dollar) →
    ∃ f ∈ declFields d, isVariant src f = true
  variants : ∀ d ∈ exportedDataTypes root, ∀ f ∈ declFields d, isVariant src f = true →
    (f.text src).length ≤ 126
  annotations : ∀ t ∈ exportedTypes root, ∀ u ∈ exportedTypes root,
    WrittenType.Confusable (t.written (sourceTokens src) src) (u.written (sourceTokens src) src) →
      t.written (sourceTokens src) src = u.written (sourceTokens src) src

theorem parseSource_layout (h : parseSource src = some root) : RootLayout src root := by
  unfold parseSource at h
  split at h
  · cases h
  · next toks hlex =>
      split at h
      · next out hout =>
          split at h
          · next herr =>
              cases h
              exact parse_layout hlex (Nat.lt_succ_self _) hout (isEmpty_iff.mp herr)
          · cases h
      · cases h

section

variable {src : Source} {root : Node} (h : RootLayout src root)

include h

theorem exportedFunc_view : ∀ fn ∈ exportedFuncs root, Nonempty (FuncView src fn) := by
  intro fn hfn
  obtain ⟨hm, hk⟩ := mem_filter.mp hfn
  exact ((h fn hm).of_kind.2.2 (by simpa using hk)).view

theorem exportedType_fields :
    ∀ d ∈ exportedDataTypes root, ∀ f ∈ declFields d, FieldNode src f := by
  intro d hd
  obtain ⟨hm, hk⟩ := mem_filter.mp hd
  obtain ⟨-, -, -, hf⟩ := ((h d hm).of_kind.2.1 (by simpa using hk)).fields_eq
  exact hf

theorem exportedTypes_typeNode : ∀ t ∈ exportedTypes root, TypeNode src t := by
  intro t ht
  rcases mem_append.mp ht with ht | ht
  · obtain ⟨fn, hfn, ht⟩ := mem_flatMap.mp ht
    obtain ⟨v⟩ := exportedFunc_view h fn hfn
    rw [v.annotations] at ht
    rcases mem_append.mp ht with ht | ht
    · exact v.params_type t ht
    · rcases mem_cons.mp ht with rfl | ht
      · exact v.ret_type
      · exact v.err_type t (Option.mem_toList.mp ht)
  · obtain ⟨d, hd, ht⟩ := mem_flatMap.mp ht
    obtain ⟨f, hf, hc⟩ := mem_filterMap.mp ht
    obtain ⟨-, -, ⟨u, hu, hty⟩, -⟩ := exportedType_fields h d hd f hf
    rw [hu] at hc
    injection hc with hc
    exact hc ▸ hty

theorem declaredFunc_ret (aliasName : Name) : ∀ fn ∈ exportedFuncs root,
    ((declaredFunc src aliasName fn).ret = [] ↔ isErrorUnion fn) := by
  intro fn hfn
  obtain ⟨v⟩ := exportedFunc_view h fn hfn
  have hret : (declaredFunc src aliasName fn).ret =
      if isErrorUnion fn then [] else v.ret.spelling src := by
    rw [← v.ret_spelling]
    rfl
  rw [hret]
  by_cases hu : isErrorUnion fn
  · simp [hu]
  · simp [Node.spelling, v.ret_type.ok.ne_nil]

theorem spellings_iff :
    (∀ t ∈ exportedTypes root, ∀ u ∈ exportedTypes root, t.spelling src = u.spelling src →
      t.written (sourceTokens src) src = u.written (sourceTokens src) src) ↔
    ∀ t ∈ exportedTypes root, ∀ u ∈ exportedTypes root,
      WrittenType.Confusable (t.written (sourceTokens src) src)
        (u.written (sourceTokens src) src) →
      t.written (sourceTokens src) src = u.written (sourceTokens src) src := by
  have hiff : ∀ t ∈ exportedTypes root, ∀ u ∈ exportedTypes root,
      (t.spelling src = u.spelling src ↔ WrittenType.Confusable
        (t.written (sourceTokens src) src) (u.written (sourceTokens src) src)) := by
    intro t ht u hu
    have htn := exportedTypes_typeNode h t ht
    have hun := exportedTypes_typeNode h u hu
    have hts : t.spelling src = (t.written (sourceTokens src) src).spell := htn.spelling_eq
    have hus : u.spelling src = (u.written (sourceTokens src) src).spell := hun.spelling_eq
    rw [hts, hus]
    exact WrittenType.spell_eq_iff htn.ok hun.ok
  refine forall₄_congr fun t ht u hu => ?_
  rw [hiff t ht u hu]

/-- The records are the declarations exactly when no type name comes twice and
every type is recorded as it is declared. -/
theorem recorded_iff (hf : Fits src root) (aliasName : Name) :
    recordExports (some aliasName) (emitInterface src root) ⟨[], [], []⟩ =
        ⟨[], (exportedDataTypes root).map (declaredType src),
          (exportedFuncs root).map (declaredFunc src aliasName)⟩ ↔
      ((exportedDataTypes root).map (declName src)).Nodup ∧
        ∀ d ∈ exportedDataTypes root, recordedType src d = declaredType src d := by
  have hnames : ((exportedDataTypes root).map (recordedType src)).map (·.name) =
      (exportedDataTypes root).map (declName src) := by
    rw [map_map]
    rfl
  have hfold := foldl_addFirst_eq ((exportedDataTypes root).map (recordedType src)) []
    nodup_nil
  rw [nil_append, hnames] at hfold
  obtain ⟨hlen, heq⟩ := hfold
  rw [recordExports_emitInterface h hf, foldl_recordDecl, NameEnv.mk.injEq]
  constructor
  · rintro ⟨-, hty, -⟩
    have hnodup := hlen.mp (by
      show (((exportedDataTypes root).map (recordedType src)).foldl addFirst []).length = _
      rw [show ((exportedDataTypes root).map (recordedType src)).foldl addFirst [] = _ from hty]
      simp)
    refine ⟨hnodup, map_inj_left.mp ?_⟩
    rw [← heq hnodup]
    exact hty
  · rintro ⟨hnodup, hrec⟩
    refine ⟨rfl, (heq hnodup).trans (map_congr_left hrec), rfl⟩

end

/-- **When a module's interface tells its importers what the module declares.** -/
theorem interface_faithful_iff {src : Source} {root : Node} (hparse : parseSource src = some root)
    (hfits : Fits src root) (aliasName : Name) :
    Faithful src root aliasName ↔ Representable src root := by
  have hlay := parseSource_layout hparse
  have htypes := exportedType_fields hlay
  constructor
  · rintro ⟨hrec, -, hsp⟩
    obtain ⟨hnodup, htype⟩ := (recorded_iff hlay hfits aliasName).mp hrec
    refine ⟨hnodup, fun d hd => ?_, fun d hd => ?_, (spellings_iff hlay).mp hsp⟩
    · exact ((recordedType_eq_iff (htypes d hd)).mp (htype d hd)).1
    · exact ((recordedType_eq_iff (htypes d hd)).mp (htype d hd)).2
  · rintro ⟨hnodup, hsums, hvariants, hann⟩
    refine ⟨(recorded_iff hlay hfits aliasName).mpr ⟨hnodup, fun d hd => ?_⟩,
      declaredFunc_ret hlay aliasName, (spellings_iff hlay).mpr hann⟩
    exact (recordedType_eq_iff (htypes d hd)).mpr ⟨hsums d hd, hvariants d hd⟩

/-- A module with a product type, a sum type and an error union. -/
def shapesModule : Source :=
  "m=a;t=$box\x7bw:i64\x7d;t=$shape\x7b$dot:i64;$sq:@i64\x7d;f=p(x:@i64;y:$box):str!$shape\x7b<0\x7d;".toList

theorem shapesModule_parses : (parseSource shapesModule).isSome := by
  decide +kernel

/-- Its tree. -/
def shapesRoot : Node := (parseSource shapesModule).get shapesModule_parses

theorem interface_faithful_shapes :
    parseSource shapesModule = some shapesRoot ∧ Faithful shapesModule shapesRoot ['s'] := by
  have hparse : parseSource shapesModule = some shapesRoot :=
    (Option.some_get shapesModule_parses).symm
  have hfits : Fits shapesModule shapesRoot :=
    ⟨by decide +kernel, by decide +kernel, by decide +kernel, by decide +kernel, by decide +kernel⟩
  have hspell : ∀ t ∈ exportedTypes shapesRoot, ∀ u ∈ exportedTypes shapesRoot,
      (t.written (sourceTokens shapesModule) shapesModule).spell =
        (u.written (sourceTokens shapesModule) shapesModule).spell →
      t.written (sourceTokens shapesModule) shapesModule =
        u.written (sourceTokens shapesModule) shapesModule := by decide +kernel
  refine ⟨hparse, (interface_faithful_iff hparse hfits _).mpr ⟨by decide +kernel,
    by decide +kernel, by decide +kernel, fun t ht u hu hconf => ?_⟩⟩
  exact hspell t ht u hu hconf.spell_eq

/-- A module whose two functions take functions of different types. -/
def callbacksModule : Source :=
  "m=a;f=p(x:(i64):i64):i64\x7b<0\x7d;f=q(x:(str):str):i64\x7b<0\x7d;".toList

theorem callbacksModule_accepted : (frontEnd .none callbacksModule).isSome := by
  decide +kernel

/-- Its tree. -/
def callbacksRoot : Node := ((frontEnd .none callbacksModule).get callbacksModule_accepted).1

/-- A function type is printed as its first token: the interface of an accepted
module gives two different parameter types one spelling. -/
theorem callbacks_spelled_alike : (frontEnd .none callbacksModule).isSome = true ∧
      parseSource callbacksModule = some callbacksRoot ∧ Fits callbacksModule callbacksRoot ∧
      ∀ aliasName, ¬ Faithful callbacksModule callbacksRoot aliasName := by
  have hdiff : ¬ ∀ t ∈ exportedTypes callbacksRoot, ∀ u ∈ exportedTypes callbacksRoot,
      t.spelling callbacksModule = u.spelling callbacksModule →
        t.written (sourceTokens callbacksModule) callbacksModule =
          u.written (sourceTokens callbacksModule) callbacksModule := by decide +kernel
  refine ⟨callbacksModule_accepted, by decide +kernel, ⟨by decide +kernel, by decide +kernel,
    by decide +kernel, by decide +kernel, by decide +kernel⟩, fun aliasName hfaith => ?_⟩
  exact hdiff hfaith.spellings

end Toke
