/-
  Toke.Interface.Spelling — **WHAT A SPELLING TELLS ABOUT A TYPE.**

  `WrittenType` is a type as its annotation is written: names with their
  module qualifier, arrays, maps, pointers, and function types with all their
  parts.  Its spelling in an interface forgets two things, the qualifier of a
  name and everything about a function type but its bracket.

      `spell_eq_iff`      — two types are spelled alike exactly when they
                            differ in nothing but that (`Confusable`)
      `renderTypeNode_eq` — below 128 bytes the emitter prints the spelling
-/
import Toke.Interface.Text
import Toke.Parser.Layout

namespace Toke

open List

/-! ## §1. Types as they are written. -/

/-- A type as it is written. -/
inductive WrittenType where
  | named (qualifier : Option (List Char)) (name : List Char)
  | array (elem : WrittenType)
  | map (key val : WrittenType)
  | ptr (elem : WrittenType)
  | func (parts : List WrittenType)
  deriving Repr

namespace WrittenType

mutual

/-- Equality of written types is decidable, part by part. -/
def decEq : (t u : WrittenType) → Decidable (t = u)
  | .named q n, .named q' n' => decidable_of_iff (q = q' ∧ n = n') (by simp)
  | .array e, .array e' =>
    match decEq e e' with
    | isTrue h => isTrue (by rw [h])
    | isFalse h => isFalse (by simp [h])
  | .map k v, .map k' v' =>
    match decEq k k', decEq v v' with
    | isTrue hk, isTrue hv => isTrue (by rw [hk, hv])
    | isFalse hk, _ => isFalse (by simp [hk])
    | _, isFalse hv => isFalse (by simp [hv])
  | .ptr e, .ptr e' =>
    match decEq e e' with
    | isTrue h => isTrue (by rw [h])
    | isFalse h => isFalse (by simp [h])
  | .func ps, .func ps' =>
    match decEqList ps ps' with
    | isTrue h => isTrue (by rw [h])
    | isFalse h => isFalse (by simp [h])
  | .named .., .array _ | .named .., .map .. | .named .., .ptr _ | .named .., .func _
  | .array _, .named .. | .array _, .map .. | .array _, .ptr _ | .array _, .func _
  | .map .., .named .. | .map .., .array _ | .map .., .ptr _ | .map .., .func _
  | .ptr _, .named .. | .ptr _, .array _ | .ptr _, .map .. | .ptr _, .func _
  | .func _, .named .. | .func _, .array _ | .func _, .map .. | .func _, .ptr _ => isFalse (by simp)

/-- Equality of lists of types. -/
def decEqList : (ts us : List WrittenType) → Decidable (ts = us)
  | [], [] => isTrue rfl
  | [], _ :: _ => isFalse (by simp)
  | _ :: _, [] => isFalse (by simp)
  | t :: ts, u :: us =>
    match decEq t u, decEqList ts us with
    | isTrue h, isTrue h' => isTrue (by rw [h, h'])
    | isFalse h, _ => isFalse (by simp [h])
    | _, isFalse h' => isFalse (by simp [h'])

end

instance : DecidableEq WrittenType := decEq

/-- The spelling of a type in an interface. -/
def spell : WrittenType → List Char
  | .named _ name => name
  | .array e => '[' :: (spell e ++ [']'])
  | .map k v => '[' :: (spell k ++ ':' :: (spell v ++ [']']))
  | .ptr e => '*' :: spell e
  | .func _ => ['(']

/-- Names are names; a function type is not looked into. -/
inductive Ok : WrittenType → Prop where
  | named {q : Option (List Char)} {name : List Char} (h : Word name) : Ok (.named q name)
  | array {e : WrittenType} (he : Ok e) : Ok (.array e)
  | map {k v : WrittenType} (hk : Ok k) (hv : Ok v) : Ok (.map k v)
  | ptr {e : WrittenType} (he : Ok e) : Ok (.ptr e)
  | func {ps : List WrittenType} : Ok (.func ps)

/-- Types that differ at most in the qualifiers of names and in what their
function types take and return. -/
inductive Confusable : WrittenType → WrittenType → Prop where
  | named {q q' : Option (List Char)} {name : List Char} :
      Confusable (.named q name) (.named q' name)
  | array {e e' : WrittenType} (he : Confusable e e') : Confusable (.array e) (.array e')
  | map {k k' v v' : WrittenType} (hk : Confusable k k') (hv : Confusable v v') :
      Confusable (.map k v) (.map k' v')
  | ptr {e e' : WrittenType} (he : Confusable e e') : Confusable (.ptr e) (.ptr e')
  | func {ps ps' : List WrittenType} : Confusable (.func ps) (.func ps')

variable {t u : WrittenType}

theorem Confusable.spell_eq (h : Confusable t u) : t.spell = u.spell := by
  induction h with
  | named => rfl
  | array _ ih => rw [spell, spell, ih]
  | map _ _ ihk ihv => rw [spell, spell, ihk, ihv]
  | ptr _ ih => rw [spell, spell, ih]
  | func => rfl

/-- A name ends where the text goes on with something else. -/
theorem word_inj {n m r s : List Char} (hn : Word n) (hm : Word m)
    (hr : stopsAt isIdentCont r) (hs : stopsAt isIdentCont s)
    (h : n ++ r = m ++ s) : n = m ∧ r = s := by
  have hnr : (n ++ r).takeWhile isIdentCont = n := takeWhile_append_stop hn.2 hr
  have hms : (m ++ s).takeWhile isIdentCont = m := takeWhile_append_stop hm.2 hs
  have heq : n = m := by rw [← hnr, h, hms]
  subst heq
  exact ⟨rfl, append_cancel_left h⟩

/-- A name does not start like a compound type. -/
theorem word_ne_cons {n r s : List Char} {c : Char} (hn : Word n) (hc : isIdentCont c = false) :
    n ++ r ≠ c :: s := by
  intro h
  obtain ⟨d, n, rfl⟩ := exists_cons_of_ne_nil hn.1
  injection h with hd
  have := hn.2 d mem_cons_self
  rw [hd, hc] at this
  cases this

/-- A spelling is read back in one way: what it determines is the type up to
`Confusable`, and where it ends. -/
theorem spell_append_inj (ht : Ok t) (hu : Ok u) :
    ∀ r s : List Char, stopsAt isIdentCont r → stopsAt isIdentCont s →
      t.spell ++ r = u.spell ++ s → Confusable t u ∧ r = s := by
  induction ht generalizing u with
  | @named q name hw =>
    intro r s hr hs h
    cases hu with
    | named hw' =>
      obtain ⟨rfl, rfl⟩ := word_inj hw hw' hr hs h
      exact ⟨.named, rfl⟩
    | array | map | ptr | func => exact absurd h (word_ne_cons hw (by decide))
  | @array e he ih =>
    intro r s hr hs h
    cases hu with
    | named hw => exact absurd h.symm (word_ne_cons hw (by decide))
    | @array e' he' =>
      have h : e.spell ++ ']' :: r = e'.spell ++ ']' :: s := by simpa [spell] using h
      obtain ⟨hc, heq⟩ := ih he' _ _ rfl rfl h
      injection heq with _ heq
      exact ⟨.array hc, heq⟩
    | @map k v hk hv =>
      have h : e.spell ++ ']' :: r = k.spell ++ ':' :: (v.spell ++ ']' :: s) := by
        simpa [spell] using h
      obtain ⟨-, heq⟩ := ih hk _ _ rfl rfl h
      cases heq
    | ptr => simp [spell] at h
    | func => simp [spell] at h
  | @map k v hk hv ihk ihv =>
    intro r s hr hs h
    cases hu with
    | named hw => exact absurd h.symm (word_ne_cons hw (by decide))
    | @array e he =>
      have h : k.spell ++ ':' :: (v.spell ++ ']' :: r) = e.spell ++ ']' :: s := by
        simpa [spell] using h
      obtain ⟨-, heq⟩ := ihk he _ _ rfl rfl h
      cases heq
    | @map k' v' hk' hv' =>
      have h : k.spell ++ ':' :: (v.spell ++ ']' :: r) =
          k'.spell ++ ':' :: (v'.spell ++ ']' :: s) := by simpa [spell] using h
      obtain ⟨hck, heq⟩ := ihk hk' _ _ rfl rfl h
      injection heq with _ heq
      obtain ⟨hcv, heq⟩ := ihv hv' _ _ rfl rfl heq
      injection heq with _ heq
      exact ⟨.map hck hcv, heq⟩
    | ptr => simp [spell] at h
    | func => simp [spell] at h
  | @ptr e he ih =>
    intro r s hr hs h
    cases hu with
    | named hw => exact absurd h.symm (word_ne_cons hw (by decide))
    | array => simp [spell] at h
    | map => simp [spell] at h
    | @ptr e' he' =>
      have h : e.spell ++ r = e'.spell ++ s := by simpa [spell] using h
      obtain ⟨hc, heq⟩ := ih he' _ _ hr hs h
      exact ⟨.ptr hc, heq⟩
    | func => simp [spell] at h
  | func =>
    intro r s hr hs h
    cases hu with
    | named hw => exact absurd h.symm (word_ne_cons hw (by decide))
    | array => simp [spell] at h
    | map => simp [spell] at h
    | ptr => simp [spell] at h
    | func =>
      have h : r = s := by simpa [spell] using h
      exact ⟨.func, h⟩

/-- **Two types are spelled alike exactly when they are confusable.** -/
theorem spell_eq_iff (ht : Ok t) (hu : Ok u) : t.spell = u.spell ↔ Confusable t u := by
  refine ⟨fun h => ?_, Confusable.spell_eq⟩
  exact (spell_append_inj ht hu [] [] rfl rfl (by simpa using h)).1

end WrittenType

/-! ## §2. Annotations. -/

/-- The module of a qualified name: the token three places before the name. -/
def qualifier (toks : List Token) (src : Source) (n : Node) : Option (List Char) :=
  if n.op = .dot then
    ((toks.takeWhile (·.start ≠ n.tokStart)).reverse[2]?).map (Token.text src)
  else none

/-- The type that an annotation writes. -/
def Node.written (toks : List Token) (src : Source) : Node → WrittenType
  | n@⟨kind, _, _, _, _, _, _, children⟩ =>
    match kind, go children with
    | .arrayType, [e] => .array e
    | .mapType, [k, v] => .map k v
    | .ptrType, [e] => .ptr e
    | .funcType, ps => .func ps
    | _, _ => .named (qualifier toks src n) (n.text src)
where
  go : List Node → List WrittenType
    | [] => []
    | c :: cs => written toks src c :: go cs

/-- The spelling of an annotation. -/
def Node.spelling (src : Source) (n : Node) : List Char := (n.written [] src).spell

section

variable {src : Source} {toks : List Token}

variable {t e : Node} {s : List Char} {size : Nat}

theorem named_forms (hk : t.kind = .typeExpr ∨ t.kind = .typeIdent) :
    (∀ toks, t.written toks src = .named (qualifier toks src t) (t.text src)) ∧
      ∀ size, renderTypeNode src size t = buffer size (dropSigil (tokCopy src 128 t)) := by
  obtain ⟨k, s, l, c, ts, tl, o, cs⟩ := t
  rcases hk with rfl | rfl <;> exact ⟨fun _ => rfl, fun _ => rfl⟩

theorem array_forms (hk : t.kind = .arrayType) (hc : t.children = [e]) :
    (∀ toks, t.written toks src = .array (e.written toks src)) ∧
      ∀ size, renderTypeNode src size t = buffer size ('[' :: (renderTypeNode src 128 e ++ [']'])) := by
  obtain ⟨k, s, l, c, ts, tl, o, cs⟩ := t
  obtain rfl : k = _ := hk
  obtain rfl : cs = _ := hc
  exact ⟨fun _ => rfl, fun _ => rfl⟩

theorem map_forms {k v : Node} (hk : t.kind = .mapType) (hc : t.children = [k, v]) :
    (∀ toks, t.written toks src = .map (k.written toks src) (v.written toks src)) ∧
      ∀ size, renderTypeNode src size t = buffer size
        ('[' :: (renderTypeNode src 128 k ++ ':' :: (renderTypeNode src 128 v ++ [']']))) := by
  obtain ⟨k', s, l, c, ts, tl, o, cs⟩ := t
  obtain rfl : k' = _ := hk
  obtain rfl : cs = _ := hc
  exact ⟨fun _ => rfl, fun _ => rfl⟩

theorem ptr_forms (hk : t.kind = .ptrType) (hc : t.children = [e]) :
    (∀ toks, t.written toks src = .ptr (e.written toks src)) ∧
      ∀ size, renderTypeNode src size t = buffer size ('*' :: renderTypeNode src 128 e) := by
  obtain ⟨k, s, l, c, ts, tl, o, cs⟩ := t
  obtain rfl : k = _ := hk
  obtain rfl : cs = _ := hc
  exact ⟨fun _ => rfl, fun _ => rfl⟩

theorem func_forms (src : Source) (hk : t.kind = .funcType) :
    (∀ toks, ∃ ps, t.written toks src = .func ps) ∧
      ∀ size, renderTypeNode src size t = buffer size (dropSigil (tokCopy src 128 t)) := by
  obtain ⟨k, s, l, c, ts, tl, o, cs⟩ := t
  obtain rfl : k = _ := hk
  exact ⟨fun _ => ⟨_, rfl⟩, fun _ => rfl⟩

theorem TypeNode.ok (h : TypeNode src t) : (t.written toks src).Ok := by
  induction h with
  | named hk hw =>
    rw [(named_forms hk).1]
    exact .named hw
  | array hk hc _ ih =>
    rw [(array_forms hk hc).1]
    exact .array ih
  | map hk hc _ _ ihk ihv =>
    rw [(map_forms hk hc).1]
    exact .map ihk ihv
  | ptr hk hc _ ih =>
    rw [(ptr_forms hk hc).1]
    exact .ptr ih
  | func hk _ _ _ =>
    obtain ⟨ps, hps⟩ := (func_forms src hk).1 toks
    rw [hps]
    exact .func

/-- The spelling does not depend on the tokens around the annotation. -/
theorem TypeNode.spelling_eq (h : TypeNode src t) :
    t.spelling src = (t.written toks src).spell := by
  unfold Node.spelling
  induction h with
  | named hk _ => rw [(named_forms hk).1, (named_forms hk).1, WrittenType.spell, WrittenType.spell]
  | array hk hc _ ih =>
    rw [(array_forms hk hc).1, (array_forms hk hc).1, WrittenType.spell, WrittenType.spell, ih]
  | map hk hc _ _ ihk ihv =>
    rw [(map_forms hk hc).1, (map_forms hk hc).1, WrittenType.spell, WrittenType.spell, ihk, ihv]
  | ptr hk hc _ ih =>
    rw [(ptr_forms hk hc).1, (ptr_forms hk hc).1, WrittenType.spell, WrittenType.spell, ih]
  | func hk _ _ _ =>
    obtain ⟨ps, hps⟩ := (func_forms src hk).1 toks
    obtain ⟨qs, hqs⟩ := (func_forms src hk).1 []
    rw [hps, hqs, WrittenType.spell, WrittenType.spell]

/-! ## §3. The emitter prints the spelling. -/

theorem Word.clean (h : Word s) : Clean s := by
  intro c hc
  have hident := h.2 c hc
  refine ⟨?_, ?_, ?_⟩
  · rintro rfl
    cases hident
  · rintro rfl
    cases hident
  · have hlow : '0' ≤ c := by
      simp only [isIdentCont, isLetter, isDigit, Bool.or_eq_true, Bool.and_eq_true,
        decide_eq_true_eq] at hident
      rcases hident with (⟨h, -⟩ | ⟨h, -⟩) | ⟨h, -⟩
      · exact le_trans (by decide) h
      · exact le_trans (by decide) h
      · exact h
    have : ('0' : Char).toNat ≤ c.toNat := hlow
    exact le_trans (by decide) this

theorem Clean.nul (h : Clean s) : ∀ c ∈ s, (c != '\x00') := by
  intro c hc
  have hlow := (h c hc).2.2
  simp only [bne_iff_ne]
  rintro rfl
  cases hlow

/-- A clean text that fits its buffer comes back whole. -/
theorem buffer_clean (h : Clean s) (hs : s.length < size) : buffer size s = s := by
  rw [buffer, take_of_length_le (by omega)]
  exact takeWhile_eq_self_iff.mpr h.nul

theorem buffer_isClean (h : Clean s) : Clean (buffer size s) :=
  fun c hc => h c (mem_of_mem_take ((takeWhile_sublist _).mem hc))

theorem dropSigil_word (h : ∀ c ∈ s, isIdentCont c) : dropSigil s = s := by
  cases s with
  | nil => rfl
  | cons c s =>
    by_cases hc : c = '$'
    · have := h c mem_cons_self
      rw [hc] at this
      cases this
    · unfold dropSigil
      split
      · next heq =>
          injection heq with heq
          exact absurd heq hc
      · rfl

theorem WrittenType.Ok.clean {t : WrittenType} (h : t.Ok) : Clean t.spell := by
  have single : ∀ c : Char, (c ≠ '"' ∧ c ≠ '\\' ∧ 0x20 ≤ c.toNat) → Clean [c] := by
    intro c hc d hd
    rw [mem_singleton.mp hd]
    exact hc
  induction h with
  | named hw => exact hw.clean
  | array _ ih => exact (single '[' (by decide)).append (ih.append (single ']' (by decide)))
  | map _ _ ihk ihv =>
    exact (single '[' (by decide)).append
      (ihk.append ((single ':' (by decide)).append (ihv.append (single ']' (by decide)))))
  | ptr _ ih => exact (single '*' (by decide)).append ih
  | func => exact single '(' (by decide)

theorem TypeNode.clean (h : TypeNode src t) : Clean (t.spelling src) :=
  h.ok.clean

theorem WrittenType.Ok.ne_nil {t : WrittenType} (h : t.Ok) : t.spell ≠ [] := by
  cases h with
  | named hw => exact hw.1
  | array => simp [WrittenType.spell]
  | map => simp [WrittenType.spell]
  | ptr => simp [WrittenType.spell]
  | func => simp [WrittenType.spell]

/-- **Below 128 bytes the emitter prints the spelling**, in every buffer it
uses. -/
theorem renderTypeNode_eq (h : TypeNode src t) :
    ∀ size, 128 ≤ size → (t.spelling src).length < 128 →
      renderTypeNode src size t = t.spelling src := by
  induction h with
  | @named t hk hw =>
    intro size hsize hlen
    have hsp : t.spelling src = t.text src := by
      rw [Node.spelling, (named_forms hk).1, WrittenType.spell]
    rw [hsp] at hlen ⊢
    rw [(named_forms hk).2, tokCopy, buffer_clean hw.clean hlen, dropSigil_word hw.2,
      buffer_clean hw.clean (by omega)]
  | @array t e hk hc he ih =>
    intro size hsize hlen
    have hclean := (TypeNode.array hk hc he).clean
    have hsp : t.spelling src = '[' :: (e.spelling src ++ [']']) := by
      rw [Node.spelling, (array_forms hk hc).1, WrittenType.spell, Node.spelling]
    rw [hsp] at hlen hclean ⊢
    have hlen' : (e.spelling src).length < 128 := by
      simp only [length_cons, length_append] at hlen
      omega
    rw [(array_forms hk hc).2, ih 128 (le_refl _) hlen', buffer_clean hclean (by omega)]
  | @map t k v hk hc hkey hval ihk ihv =>
    intro size hsize hlen
    have hclean := (TypeNode.map hk hc hkey hval).clean
    have hsp : t.spelling src = '[' :: (k.spelling src ++ ':' :: (v.spelling src ++ [']'])) := by
      rw [Node.spelling, (map_forms hk hc).1, WrittenType.spell, Node.spelling, Node.spelling]
    rw [hsp] at hlen hclean ⊢
    have hlens : (k.spelling src).length < 128 ∧ (v.spelling src).length < 128 := by
      simp only [length_cons, length_append] at hlen
      omega
    rw [(map_forms hk hc).2, ihk 128 (le_refl _) hlens.1, ihv 128 (le_refl _) hlens.2,
      buffer_clean hclean (by omega)]
  | @ptr t e hk hc he ih =>
    intro size hsize hlen
    have hclean := (TypeNode.ptr hk hc he).clean
    have hsp : t.spelling src = '*' :: e.spelling src := by
      rw [Node.spelling, (ptr_forms hk hc).1, WrittenType.spell, Node.spelling]
    rw [hsp] at hlen hclean ⊢
    have hlen' : (e.spelling src).length < 128 := by
      simp only [length_cons] at hlen
      omega
    rw [(ptr_forms hk hc).2, ih 128 (le_refl _) hlen', buffer_clean hclean (by omega)]
  | @func t hk ht hc _ =>
    intro size hsize hlen
    obtain ⟨hwritten, hrender⟩ := func_forms src hk
    obtain ⟨ps, hps⟩ := hwritten []
    have hsp : t.spelling src = ['('] := by rw [Node.spelling, hps, WrittenType.spell]
    have hclean := (TypeNode.func hk ht hc).clean
    rw [hsp] at hclean ⊢
    rw [hrender, tokCopy, ht]
    exact buffer_clean hclean (by show 1 < size; omega)

end

end Toke
