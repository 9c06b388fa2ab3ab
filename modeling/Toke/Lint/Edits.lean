/-
  Toke.Lint.Edits — **`lint_apply_fixes` IS SIMULTANEOUS REPLACEMENT** (`main.c`).

  The engine with everything it reads and reports: diagnostics without a fix,
  spans out of range, the length it keeps beside the buffer, the status of each
  diagnostic.
-/
import Toke.Library.Editing

namespace Toke.Lint

open List

open Editing (Edit exchangeSort exchangePass)

variable {buf : List Char} {n : Nat}

/-! ## §1. The engine. -/

/-- What `lint_apply_fixes` reads of a diagnostic. -/
structure LintDiag where
  fixable : Bool
  spanStart : Int
  spanEnd : Int
  replacement : Option (List Char)
  deriving DecidableEq

namespace LintDiag

/-- The order of the sort: later starts first, then later ends. -/
def sortsAfter (a b : LintDiag) : Bool :=
  a.spanStart < b.spanStart || (a.spanStart = b.spanStart && a.spanEnd < b.spanEnd)

/-- `d->replacement ? d->replacement : ""`, which `strlen` ends at a NUL. -/
def rep (d : LintDiag) : List Char := (d.replacement.getD []).takeWhile (· ≠ '\x00')

/-- A span of the buffer. -/
def InRange (buf : List Char) (d : LintDiag) : Prop :=
  0 ≤ d.spanStart ∧ d.spanStart ≤ d.spanEnd ∧ d.spanEnd ≤ buf.length

instance (buf : List Char) (d : LintDiag) : Decidable (d.InRange buf) :=
  inferInstanceAs (Decidable (_ ∧ _ ∧ _))

/-- The edit that the diagnostic asks for. -/
def edit (d : LintDiag) : Edit Char := ⟨d.spanStart.toNat, d.spanEnd.toNat, d.rep⟩

end LintDiag

/-- The variables of the loop: `*pbuf`, `*plen`, `min_applied_start`, `applied`,
`*skipped` and `status`. -/
structure Engine where
  buf : List Char
  len : Int
  minAppliedStart : Int
  applied : Nat
  skipped : Nat
  status : List Nat
  deriving DecidableEq

namespace Engine

/-- One turn, for the diagnostic `k.1` at index `k.2`. -/
def turn (st : Engine) (k : LintDiag × Nat) : Engine :=
  if k.1.spanStart < 0 ∨ k.1.spanEnd > st.len ∨ k.1.spanStart > k.1.spanEnd then st
  else if st.minAppliedStart ≥ 0 ∧ k.1.spanEnd > st.minAppliedStart then
    { st with status := st.status.set k.2 2, skipped := st.skipped + 1 }
  else
    { buf := st.buf.take k.1.spanStart.toNat ++ (k.1.rep ++ st.buf.drop k.1.spanEnd.toNat)
      len := st.len - (k.1.spanEnd - k.1.spanStart) + k.1.rep.length
      minAppliedStart := k.1.spanStart
      applied := st.applied + 1
      skipped := st.skipped
      status := st.status.set k.2 1 }

/-- The diagnostics with a fix, each with its index. -/
def fixables (items : List LintDiag) : List (LintDiag × Nat) := items.zipIdx.filter (·.1.fixable)

/-- The engine before its first turn. -/
def start (buf : List Char) (n : Nat) : Engine :=
  { buf := buf, len := buf.length, minAppliedStart := -1, applied := 0, skipped := 0
    status := List.replicate n 0 }

/-- The diagnostics in the order of the loop. -/
def inOrder (items : List LintDiag) : List (LintDiag × Nat) :=
  exchangeSort (fun a b => a.1.sortsAfter b.1) (fixables items).length (fixables items)

/-- `lint_apply_fixes`. -/
def lintApplyFixes (buf : List Char) (items : List LintDiag) : Engine :=
  (inOrder items).foldl turn (start buf items.length)

end Engine

/-! ## §2. One turn, a whole run. -/

/-- What the loop knows: `es` are the diagnostics applied so far, from left to
right, and the text is the original one with exactly their spans replaced. -/
structure Engine.Inv (buf : List Char) (n : Nat) (st : Engine) (es : List (LintDiag × Nat)) :
    Prop where
  text : st.buf = Editing.replace buf (es.map fun k => k.1.edit)
  len : st.len = st.buf.length
  within : ∀ k ∈ es, k.1.InRange buf
  apart : es.Pairwise fun a b => a.1.spanEnd ≤ b.1.spanStart
  leftmost : st.minAppliedStart = es.head?.elim (-1) fun k => k.1.spanStart
  count : st.applied = es.length
  size : st.status.length = n
  status : ∀ i, st.status[i]? = some 1 ↔ ∃ d, (d, i) ∈ es

theorem Engine.inv_start (buf : List Char) (n : Nat) : (start buf n).Inv buf n [] where
  text := rfl
  len := rfl
  within := nofun
  apart := List.Pairwise.nil
  leftmost := rfl
  count := rfl
  size := length_replicate
  status := by
    intro i
    have hne : (replicate n 0)[i]? ≠ some 1 := by
      intro h
      exact absurd (eq_of_mem_replicate (mem_of_getElem? h)) (by decide)
    exact ⟨fun h => absurd h hne, fun ⟨_, h⟩ => absurd h not_mem_nil⟩

variable {st : Engine} {es : List (LintDiag × Nat)}

/-- Everything applied lies to the right of the leftmost start. -/
theorem Engine.Inv.le_start (h : st.Inv buf n es) {p : Int}
    (hp : 0 ≤ st.minAppliedStart → p ≤ st.minAppliedStart) :
    ∀ k ∈ es, p ≤ k.1.spanStart := by
  intro k hk
  cases es with
  | nil => cases hk
  | cons a es =>
    have hmin : st.minAppliedStart = a.1.spanStart := h.leftmost
    have ha := h.within a mem_cons_self
    have hle := hp (by rw [hmin]; exact ha.1)
    rcases mem_cons.mp hk with rfl | hk
    · omega
    · have hsep := (pairwise_cons.mp h.apart).1 k hk
      have hord := ha.2.1
      omega

/-- The span of an applied diagnostic is one of the ORIGINAL buffer, although it
was compared with the current length. -/
theorem Engine.Inv.inRange (h : st.Inv buf n es) {d : LintDiag} (hs : 0 ≤ d.spanStart)
    (hse : d.spanStart ≤ d.spanEnd) (he : d.spanEnd ≤ st.len)
    (hp : 0 ≤ st.minAppliedStart → d.spanEnd ≤ st.minAppliedStart) :
    d.InRange buf := by
  refine ⟨hs, hse, ?_⟩
  cases es with
  | nil =>
    have htext : st.buf = buf := h.text
    rw [h.len, htext] at he
    exact he
  | cons a es =>
    have hle := h.le_start hp a mem_cons_self
    have ha := h.within a mem_cons_self
    have hord := ha.2.1
    have hend := ha.2.2
    omega

theorem LintDiag.InRange.within {d : LintDiag} (h : d.InRange buf) : d.edit.Within buf := by
  obtain ⟨h₁, h₂, h₃⟩ := h
  exact ⟨by show d.spanStart.toNat ≤ d.spanEnd.toNat; omega,
    by show d.spanEnd.toNat ≤ buf.length; omega⟩

/-- A diagnostic whose span is not applied leaves the text alone. -/
theorem Engine.Inv.skip (h : st.Inv buf n es) {i : Nat} (hi : ∀ d, (d, i) ∉ es) :
    ({ st with status := st.status.set i 2, skipped := st.skipped + 1 } : Engine).Inv buf n es :=
  { h with
    size := by
      show (st.status.set i 2).length = n
      rw [length_set, h.size]
    status := by
      intro j
      show (st.status.set i 2)[j]? = some 1 ↔ _
      rw [← h.status j, getElem?_set]
      by_cases hij : i = j
      · subst hij
        have hnot : st.status[i]? ≠ some 1 := fun h1 => by
          obtain ⟨d, hd⟩ := (h.status i).mp h1
          exact hi d hd
        rw [if_pos rfl]
        constructor
        · intro h2
          split at h2
          · cases h2
          · cases h2
        · exact fun h1 => absurd h1 hnot
      · rw [if_neg hij] }

/-- **One applied diagnostic**: a splice to the left of all the others. -/
theorem Engine.Inv.apply (h : st.Inv buf n es) {k : LintDiag × Nat} (hk : k.1.InRange buf)
    (hleft : ∀ f ∈ es, k.1.spanEnd ≤ f.1.spanStart) (hsize : k.2 < n) :
    ({ buf := st.buf.take k.1.spanStart.toNat ++ (k.1.rep ++ st.buf.drop k.1.spanEnd.toNat)
       len := st.len - (k.1.spanEnd - k.1.spanStart) + k.1.rep.length
       minAppliedStart := k.1.spanStart
       applied := st.applied + 1
       skipped := st.skipped
       status := st.status.set k.2 1 } : Engine).Inv buf n (k :: es) := by
  have hedits : ∀ f ∈ es.map (fun k => k.1.edit), k.1.edit.stop ≤ f.start := by
    intro f hf
    obtain ⟨m, hm, rfl⟩ := mem_map.mp hf
    have hle := hleft m hm
    show k.1.spanEnd.toNat ≤ m.1.spanStart.toNat
    omega
  have htext : Editing.splice st.buf k.1.edit
      = Editing.replace buf ((k :: es).map fun k => k.1.edit) := by
    rw [h.text]
    exact Editing.splice_replace hk.within hedits
  refine ⟨htext, ?_, ?_, List.Pairwise.cons hleft h.apart, rfl, ?_, ?_, ?_⟩
  · -- the span is also one of the current buffer: what follows it was never touched
    have hstop : k.1.spanEnd.toNat ≤ st.buf.length := by
      have hsplit := Editing.replaceFrom_split buf (Nat.zero_le k.1.edit.stop) hedits
      have hlen := congrArg length hsplit
      rw [drop_zero, length_append, length_take] at hlen
      have htop : k.1.edit.stop ≤ buf.length := hk.within.2
      have hbuf : st.buf.length = (Editing.replaceFrom buf 0 (es.map fun k => k.1.edit)).length := by
        rw [h.text]
        rfl
      show k.1.edit.stop ≤ _
      omega
    have hcount := Editing.length_splice (show k.1.edit.Within st.buf from ⟨hk.within.1, hstop⟩)
    obtain ⟨hs, hse, -⟩ := hk
    have hlen := h.len
    show st.len - (k.1.spanEnd - k.1.spanStart) + k.1.rep.length
      = ((Editing.splice st.buf k.1.edit).length : Int)
    change (Editing.splice st.buf k.1.edit).length + (k.1.spanEnd.toNat - k.1.spanStart.toNat)
      = st.buf.length + k.1.rep.length at hcount
    omega
  · exact forall_mem_cons.mpr ⟨hk, h.within⟩
  · show st.applied + 1 = es.length + 1
    rw [h.count]
  · show (st.status.set k.2 1).length = n
    rw [length_set, h.size]
  · intro j
    show (st.status.set k.2 1)[j]? = some 1 ↔ ∃ d, (d, j) ∈ k :: es
    rw [getElem?_set]
    by_cases hij : k.2 = j
    · rw [if_pos hij, if_pos (by rw [h.size]; exact hsize)]
      exact ⟨fun _ => ⟨k.1, by rw [← hij]; exact mem_cons_self⟩, fun _ => rfl⟩
    · rw [if_neg hij, h.status j]
      constructor
      · rintro ⟨d, hd⟩
        exact ⟨d, mem_cons_of_mem k hd⟩
      · rintro ⟨d, hd⟩
        rcases mem_cons.mp hd with heq | hd
        · exact absurd (congrArg Prod.snd heq).symm hij
        · exact ⟨d, hd⟩

/-- **One turn**: the diagnostic is applied, or the text stays as it is.  While
nothing is applied yet, it is applied exactly when its span is in range. -/
theorem Engine.turn_inv (h : st.Inv buf n es) {k : LintDiag × Nat} (hfresh : ∀ d, (d, k.2) ∉ es)
    (hsize : k.2 < n) :
    (k.1.InRange buf ∧ (st.turn k).Inv buf n (k :: es)) ∨
      ((es = [] → ¬ k.1.InRange buf) ∧ (st.turn k).Inv buf n es) := by
  unfold turn
  split
  · next hout =>
    refine .inr ⟨fun hnil hin => ?_, h⟩
    have hlen := h.len
    have htext := h.text
    subst hnil
    rw [show st.buf = buf from htext] at hlen
    obtain ⟨h₁, h₂, h₃⟩ := hin
    omega
  · next hin =>
    split
    · next hover =>
      refine .inr ⟨fun hnil _ => ?_, h.skip hfresh⟩
      have hmin := h.leftmost
      subst hnil
      change st.minAppliedStart = -1 at hmin
      omega
    · next hover =>
      have hp : 0 ≤ st.minAppliedStart → k.1.spanEnd ≤ st.minAppliedStart := by
        intro hmin
        omega
      have hrange : k.1.InRange buf := h.inRange (by omega) (by omega) (by omega) hp
      exact .inl ⟨hrange, h.apply hrange (h.le_start hp) hsize⟩

/-- **A whole run.**  Induction on the diagnostics in their order; `new` are those
that the run adds, the leftmost first. -/
theorem Engine.run_inv (ks : List (LintDiag × Nat)) :
    ∀ {st : Engine} {es : List (LintDiag × Nat)}, st.Inv buf n es →
      (ks.map Prod.snd).Nodup → (∀ k ∈ ks, ∀ d, (d, k.2) ∉ es) → (∀ k ∈ ks, k.2 < n) →
      ∃ new, (ks.foldl turn st).Inv buf n (new ++ es) ∧ new.reverse.Sublist ks ∧
        (es = [] → new.getLast? = ks.find? fun k => k.1.InRange buf) := by
  induction ks with
  | nil => exact fun h _ _ _ => ⟨[], h, List.Sublist.refl _, fun _ => rfl⟩
  | cons k ks ih =>
    intro st es h hnodup hfresh hsize
    obtain ⟨hknot, hnodup'⟩ := nodup_cons.mp hnodup
    have hks : ∀ m ∈ ks, m.2 < n := (forall_mem_cons.mp hsize).2
    have hfresh' : ∀ m ∈ ks, ∀ d, (d, m.2) ∉ es := (forall_mem_cons.mp hfresh).2
    rcases turn_inv h (hfresh k mem_cons_self) (hsize k mem_cons_self) with
      ⟨hin, hinv⟩ | ⟨hout, hinv⟩
    · obtain ⟨new, hrun, hsub, -⟩ := ih hinv hnodup' (by
        intro m hm d hd
        rcases mem_cons.mp hd with heq | hd
        · have hidx : m.2 = k.2 := by rw [← heq]
          exact hknot (by rw [← hidx]; exact mem_map_of_mem hm)
        · exact hfresh' m hm d hd) hks
      refine ⟨new ++ [k], ?_, ?_, fun _ => ?_⟩
      · rw [append_assoc]
        exact hrun
      · rw [reverse_append]
        exact hsub.cons_cons k
      · rw [getLast?_concat, find?_cons_of_pos (by simpa using hin)]
    · obtain ⟨new, hrun, hsub, hlast⟩ := ih hinv hnodup' hfresh' hks
      refine ⟨new, hrun, hsub.cons k, fun hnil => ?_⟩
      rw [hlast hnil, find?_cons_of_neg (by simpa using hout hnil)]

/-! ## §3. The result. -/

namespace Engine

/-- The order of the sort as a linear one. -/
def sortKey (k : LintDiag × Nat) : Int ×ₗ Int := toLex (k.1.spanStart, k.1.spanEnd)

theorem sortsAfter_iff (a b : LintDiag × Nat) : a.1.sortsAfter b.1 ↔ sortKey a < sortKey b := by
  unfold LintDiag.sortsAfter sortKey
  rw [Prod.Lex.toLex_lt_toLex]
  simp only [Bool.or_eq_true, Bool.and_eq_true, decide_eq_true_eq]

theorem mem_fixables {items : List LintDiag} {k : LintDiag × Nat} :
    k ∈ fixables items ↔ items[k.2]? = some k.1 ∧ k.1.fixable := by
  unfold fixables
  rw [mem_filter, mem_zipIdx_iff_getElem?]

theorem inOrder_perm (items : List LintDiag) : (inOrder items).Perm (fixables items) :=
  Editing.exchangeSort_perm _ _ _

theorem inOrder_nodup (items : List LintDiag) : ((inOrder items).map Prod.snd).Nodup := by
  have hsub : ((fixables items).map Prod.snd).Sublist (items.zipIdx.map Prod.snd) :=
    filter_sublist.map Prod.snd
  have hall : (items.zipIdx.map Prod.snd).Nodup := by
    rw [zipIdx_map_snd]
    exact nodup_range'
  exact ((inOrder_perm items).map Prod.snd).nodup_iff.mpr (hall.sublist hsub)

/-- What `lint_apply_fixes` did: `es` are the diagnostics it applied, from left
to right. -/
structure Simultaneous (buf : List Char) (items : List LintDiag) (r : Engine)
    (es : List (LintDiag × Nat)) : Prop where
  chosen : ∀ k ∈ es, items[k.2]? = some k.1 ∧ k.1.fixable = true ∧ k.1.InRange buf
  distinct : (es.map Prod.snd).Nodup
  apart : es.Pairwise fun a b => a.1.spanEnd ≤ b.1.spanStart
  rightmost : ∀ d ∈ items, d.fixable = true → d.InRange buf →
    ∃ k ∈ es.getLast?, d.spanStart < k.1.spanStart ∨
      d.spanStart = k.1.spanStart ∧ d.spanEnd ≤ k.1.spanEnd
  text : r.buf = Editing.replace buf (es.map fun k => k.1.edit)
  len : r.len = r.buf.length
  count : r.applied = es.length
  status : ∀ i, r.status[i]? = some 1 ↔ ∃ d, (d, i) ∈ es

/-- **The engine performs the replacements that it applies at once**, and the
rightmost one is among them. -/
theorem applies_simultaneously (buf : List Char) (items : List LintDiag) :
    ∃ es, Simultaneous buf items (lintApplyFixes buf items) es := by
  have hmem : ∀ k ∈ inOrder items, items[k.2]? = some k.1 ∧ k.1.fixable :=
    fun k hk => mem_fixables.mp ((inOrder_perm items).mem_iff.mp hk)
  obtain ⟨es, hinv, hsub, hlast⟩ := run_inv (inOrder items) (inv_start buf items.length)
    (inOrder_nodup items) (fun _ _ _ => not_mem_nil)
    (fun k hk => (List.getElem?_eq_some_iff.mp (hmem k hk).1).1)
  rw [append_nil] at hinv
  have hes : ∀ k ∈ es, k ∈ inOrder items := fun k hk => hsub.subset (mem_reverse.mpr hk)
  refine ⟨es, ?_, ?_, hinv.apart, ?_, hinv.text, hinv.len, hinv.count, hinv.status⟩
  · intro k hk
    exact ⟨(hmem k (hes k hk)).1, (hmem k (hes k hk)).2, hinv.within k hk⟩
  · have hnodup := (inOrder_nodup items).sublist (hsub.map Prod.snd)
    rw [map_reverse] at hnodup
    exact nodup_reverse.mp hnodup
  · intro d hd hfix hin
    obtain ⟨i, hi⟩ := mem_iff_getElem?.mp hd
    have hord : (d, i) ∈ inOrder items :=
      (inOrder_perm items).mem_iff.mpr (mem_fixables.mpr ⟨hi, hfix⟩)
    -- the first one in range is the rightmost: the order is descending
    have hsorted := Editing.exchangeSort_descending _ sortKey sortsAfter_iff
      (fixables items).length (fixables items) (Nat.le_refl _)
    change (inOrder items).Pairwise _ at hsorted
    cases hfind : (inOrder items).find? fun k => k.1.InRange buf with
    | none => exact absurd hin (by simpa using find?_eq_none.mp hfind (d, i) hord)
    | some r =>
      refine ⟨r, by rw [hlast rfl]; exact hfind, ?_⟩
      obtain ⟨-, as, bs, hsplit, has⟩ := find?_eq_some_iff_append.mp hfind
      have hle : sortKey (d, i) ≤ sortKey r := by
        rw [hsplit] at hord hsorted
        rcases mem_append.mp hord with hbefore | hbehind
        · exact absurd hin (by simpa using has (d, i) hbefore)
        · rcases mem_cons.mp hbehind with heq | hbehind
          · rw [heq]
          · exact (pairwise_cons.mp (pairwise_append.mp hsorted).2.1).1 _ hbehind
      unfold sortKey at hle
      rw [Prod.Lex.toLex_le_toLex] at hle
      exact hle

end Engine

end Toke.Lint
