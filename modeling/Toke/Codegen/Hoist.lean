/-
  Toke.Codegen.Hoist — **MOVING THE ALLOCAS TO THE ENTRY BLOCK** (`hoist_allocas` of `llvm.c`).

  The buffer is rewritten line by line.  A `define ` line opens a function;
  the line after it is kept in place if it is a label; then the lines up to
  the next one that starts with `}` are written in two scans, the allocas
  first and the others after them:

      define …            define …
      entry:              entry:
        %x = load           %a = alloca i64
        %a = alloca i64     %x = load
      }                   }

  The test for a label comes before the test for the closing line, so a line
  that starts with `}` and ends with `:` right after `define` does not close
  the function.  `hoistAllocas_iff` says when that shows.
-/
import Mathlib

namespace Toke.Codegen

open List

/-! ## §1. Lines. -/

/-- A line with its line end. -/
abbrev Line := List Char

/-- The lines of a text (`ll_next_line` again and again). -/
def textLines : List Char → List Line
  | [] => []
  | c :: cs =>
    if c = '\n' then [c] :: textLines cs
    else match textLines cs with
      | [] => [[c]]
      | l :: ls => (c :: l) :: ls

/-- `isalnum(c) || c == '_' || c == '.'` -/
def isLocalChar (c : Char) : Bool := c.isAlphanum || c == '_' || c == '.'

/-- `ll_line_is_alloca`. -/
def isAlloca (l : Line) : Bool :=
  13 ≤ l.length && l.take 3 = "  %".toList &&
    (l.drop 3).takeWhile isLocalChar ≠ [] &&
    (" = alloca ".toList).isPrefixOf ((l.drop 3).dropWhile isLocalChar)

/-- The line without its line end. -/
def stripEol (l : Line) : Line := (l.reverse.dropWhile fun c => c = '\n' ∨ c = '\r').reverse

/-- `ll_line_is_label`. -/
def isLabel (l : Line) : Bool :=
  stripEol l ≠ [] && l.head?.all (fun c => c ≠ ' ' ∧ c ≠ '\t' ∧ c ≠ ';') &&
    (stripEol l).getLast? = some ':'

/-- `memcmp(p, "define ", 7) == 0` -/
def isDefine (l : Line) : Bool := ("define ".toList).isPrefixOf l

/-- `q[0] == '}'` -/
def isClose (l : Line) : Bool := l.head? = some '}'

/-! ## §2. The rewriting. -/

/-- The entry label, if the next line is one. -/
def takeLabel (label : Line → Bool) : List Line → List Line × List Line
  | [] => ([], [])
  | m :: ms => if label m then ([m], ms) else ([], m :: ms)

/-- The lines up to the first closing one, and the lines after it. -/
def cutBody : List Line → List Line × List Line
  | [] => ([], [])
  | l :: ls => if isClose l then ([l], ls) else (l :: (cutBody ls).1, (cutBody ls).2)

/-- The two scans over a body. -/
def hoistBody (b : List Line) : List Line := b.filter isAlloca ++ b.filter (!isAlloca ·)

/-- The loop over the buffer.  A turn takes a line or more, so `fuel` from the
number of lines on is never used up. -/
def hoistLines (label : Line → Bool) : Nat → List Line → List Line
  | 0, ls => ls
  | _ + 1, [] => []
  | fuel + 1, l :: ls =>
    if isDefine l then
      let entry := takeLabel label ls
      let body := cutBody entry.2
      l :: (entry.1 ++ (hoistBody body.1 ++ hoistLines label fuel body.2))
    else l :: hoistLines label fuel ls

/-- `hoist_allocas`: the return value and the buffer. -/
def hoistAllocas (buf : List Char) : Int × List Char :=
  let out := (hoistLines isLabel (textLines buf).length (textLines buf)).flatten
  if out.length ≠ buf.length then (-1, buf) else (0, out)

/-- The functions of a buffer as the code sees them: the entry label and the
lines after it up to the closing one. -/
def functions : Nat → List Line → List (List Line × List Line)
  | 0, _ => []
  | _ + 1, [] => []
  | fuel + 1, l :: ls =>
    if isDefine l then
      let entry := takeLabel isLabel ls
      let body := cutBody entry.2
      (entry.1, body.1) :: functions fuel body.2
    else functions fuel ls

/-! ## §3. Lines and texts. -/

/-- A line that ends in its only newline. -/
def Terminated (l : Line) : Prop := ∃ body, l = body ++ ['\n'] ∧ '\n' ∉ body

theorem flatten_textLines (s : List Char) : (textLines s).flatten = s := by
  induction s with
  | nil => rfl
  | cons c cs ih =>
    rw [textLines]
    split
    · rw [flatten_cons, ih]
      rfl
    · split
      · next h => rw [← ih, h]; rfl
      · next l ls h => rw [← ih, h]; rfl

variable {l : Line}

theorem textLines_cons_terminated (h : Terminated l) (s : List Char) :
    textLines (l ++ s) = l :: textLines s := by
  obtain ⟨body, rfl, hbody⟩ := h
  induction body with
  | nil => rfl
  | cons c body ih =>
    rw [mem_cons, not_or] at hbody
    have hc : c ≠ '\n' := fun h => hbody.1 h.symm
    rw [cons_append, cons_append, textLines, if_neg hc, ih hbody.2]

variable {ls : List Line}

/-- The lines of a text put together from terminated lines. -/
theorem textLines_flatten (h : ∀ l ∈ ls, Terminated l) : textLines ls.flatten = ls := by
  induction ls with
  | nil => rfl
  | cons l ls ih =>
    rw [flatten_cons, textLines_cons_terminated (h l mem_cons_self),
      ih fun m hm => h m (mem_cons_of_mem l hm)]

theorem textLines_ne_nil {s : List Char} (h : s ≠ []) : textLines s ≠ [] := by
  intro hnil
  apply h
  rw [← flatten_textLines s, hnil]
  rfl

/-- In a text that ends in a newline every line is terminated. -/
theorem textLines_terminated {s : List Char} (h : s.getLast? = some '\n') :
    ∀ l ∈ textLines s, Terminated l := by
  induction s with
  | nil => simp at h
  | cons c cs ih =>
    rw [textLines]
    by_cases hcs : cs = []
    · subst hcs
      have hc : c = '\n' := by simpa using h
      subst hc
      intro l hl
      have hl : l = ['\n'] := by simpa [textLines] using hl
      exact ⟨[], hl, by simp⟩
    · have hlast : cs.getLast? = some '\n' := by rwa [getLast?_cons_of_ne_nil hcs] at h
      have ih := ih hlast
      split
      · next hc =>
          exact forall_mem_cons.mpr ⟨⟨[], by rw [hc]; rfl, by simp⟩, ih⟩
      · next hc =>
          split
          · next hnil => exact absurd hnil (textLines_ne_nil hcs)
          · next m ms hm =>
              rw [hm] at ih
              intro l hl
              rcases mem_cons.mp hl with rfl | hl
              · obtain ⟨body, rfl, hbody⟩ := ih m mem_cons_self
                exact ⟨c :: body, rfl, by simp [hbody, Ne.symm hc]⟩
              · exact ih l (mem_cons_of_mem m hl)

/-! ## §4. The kinds of lines exclude each other. -/

theorem head_of_isAlloca (h : isAlloca l) : l.head? = some ' ' := by
  unfold isAlloca at h
  simp only [Bool.and_eq_true, decide_eq_true_eq] at h
  have htake : l.take 3 = [' ', ' ', '%'] := h.1.1.2
  cases l with
  | nil => simp at htake
  | cons c cs =>
    injection htake with hc _
    rw [hc]
    rfl

theorem isClose_of_isAlloca (h : isAlloca l) : isClose l = false := by
  rw [isClose, head_of_isAlloca h]
  rfl

theorem isLabel_of_isAlloca (h : isAlloca l) : isLabel l = false := by
  unfold isLabel
  rw [head_of_isAlloca h]
  simp

theorem isDefine_of_isAlloca (h : isAlloca l) : isDefine l = false := by
  have hhead := head_of_isAlloca h
  cases l with
  | nil => simp at hhead
  | cons c cs =>
    have hc : c = ' ' := by simpa using hhead
    rw [hc]
    rfl

theorem isAlloca_of_isDefine (h : isDefine l) : isAlloca l = false := by
  cases ha : isAlloca l with
  | false => rfl
  | true => simp [isDefine_of_isAlloca ha] at h

theorem isAlloca_of_isClose (h : isClose l) : isAlloca l = false := by
  cases ha : isAlloca l with
  | false => rfl
  | true => simp [isClose_of_isAlloca ha] at h

/-! ## §5. One body. -/

@[simp] theorem hoistBody_nil : hoistBody [] = [] := rfl

theorem hoistBody_cons_alloca (h : isAlloca l) (b : List Line) :
    hoistBody (l :: b) = l :: hoistBody b := by simp [hoistBody, h]

variable {b : List Line}

theorem hoistBody_of_none (h : ∀ x ∈ b, isAlloca x = false) : hoistBody b = b := by
  have hallocas : b.filter isAlloca = [] := filter_eq_nil_iff.mpr (by simpa using h)
  have hothers : b.filter (!isAlloca ·) = b := filter_eq_self.mpr (by simpa using h)
  rw [hoistBody, hallocas, hothers, nil_append]

theorem hoistBody_perm (b : List Line) : (hoistBody b).Perm b := filter_append_perm isAlloca b

@[simp] theorem length_hoistBody (b : List Line) : (hoistBody b).length = b.length :=
  (hoistBody_perm b).length_eq

@[simp] theorem mem_hoistBody : l ∈ hoistBody b ↔ l ∈ b := (hoistBody_perm b).mem_iff

theorem hoistBody_concat {c : Line} (h : isAlloca c = false) (b : List Line) :
    hoistBody (b ++ [c]) = hoistBody b ++ [c] := by simp [hoistBody, h]

theorem hoistBody_hoistBody (b : List Line) : hoistBody (hoistBody b) = hoistBody b := by
  simp [hoistBody]

/-- The allocas of a list that starts with another line come first only if
there are none. -/
theorem none_of_hoistBody_cons (hl : isAlloca l = false)
    (h : hoistBody (l :: b) = l :: b) : ∀ x ∈ b, isAlloca x = false := by
  cases hallocas : b.filter isAlloca with
  | nil => simpa using filter_eq_nil_iff.mp hallocas
  | cons a as =>
    have ha : isAlloca a := of_mem_filter (hallocas ▸ mem_cons_self)
    have hfirst : a = l := by
      rw [hoistBody, filter_cons_of_neg (by simp [hl]), hallocas] at h
      exact (cons.inj h).1
    rw [hfirst, hl] at ha
    cases ha

/-! ## §6. Where a function ends. -/

/-- `b` runs to the closing line before `r`, or to the end of the buffer. -/
def Ends (b r : List Line) : Prop :=
  (∃ body c, b = body ++ [c] ∧ isClose c = true ∧ ∀ x ∈ body, isClose x = false) ∨
    (r = [] ∧ ∀ x ∈ b, isClose x = false)

theorem cutBody_append (ls : List Line) : (cutBody ls).1 ++ (cutBody ls).2 = ls := by
  induction ls with
  | nil => rfl
  | cons l ls ih =>
    rw [cutBody]
    split
    · rfl
    · rw [cons_append, ih]

theorem cutBody_ends (ls : List Line) : Ends (cutBody ls).1 (cutBody ls).2 := by
  induction ls with
  | nil => exact Or.inr ⟨rfl, by simp [cutBody]⟩
  | cons l ls ih =>
    rw [cutBody]
    split
    · next hl => exact Or.inl ⟨[], l, rfl, hl, by simp⟩
    · next hl =>
        have hl : isClose l = false := by simpa using hl
        rcases ih with ⟨body, c, hb, hc, hbody⟩ | ⟨hr, hb⟩
        · refine Or.inl ⟨l :: body, c, by rw [hb]; rfl, hc, ?_⟩
          exact forall_mem_cons.mpr ⟨hl, hbody⟩
        · refine Or.inr ⟨hr, ?_⟩
          exact forall_mem_cons.mpr ⟨hl, hb⟩

theorem cutBody_through {body : List Line} {c : Line} (hc : isClose c)
    (hbody : ∀ x ∈ body, isClose x = false) (r : List Line) :
    cutBody (body ++ [c] ++ r) = (body ++ [c], r) := by
  induction body with
  | nil => simp [cutBody, hc]
  | cons l body ih =>
    have hl : isClose l = false := hbody l mem_cons_self
    have ih := ih (forall_mem_cons.mp hbody).2
    rw [cons_append, cons_append, cutBody, if_neg (by simp [hl]), ih]

theorem cutBody_open (h : ∀ x ∈ b, isClose x = false) : cutBody b = (b, []) := by
  induction b with
  | nil => rfl
  | cons l b ih =>
    have hl : isClose l = false := h l mem_cons_self
    rw [cutBody, if_neg (by simp [hl]), ih fun x hx => h x (mem_cons_of_mem l hx)]

variable {r : List Line}

theorem Ends.cutBody_eq (h : Ends b r) : cutBody (b ++ r) = (b, r) := by
  rcases h with ⟨body, c, rfl, hc, hbody⟩ | ⟨rfl, hb⟩
  · exact cutBody_through hc hbody r
  · rw [append_nil]
    exact cutBody_open hb

/-- Moving the allocas of a body leaves its end where it is. -/
theorem Ends.hoistBody {r' : List Line} (h : Ends b r) (hr : r = [] → r' = []) :
    Ends (hoistBody b) r' := by
  rcases h with ⟨body, c, rfl, hc, hbody⟩ | ⟨hnil, hb⟩
  · refine Or.inl ⟨Codegen.hoistBody body, c, ?_, hc, by simpa using hbody⟩
    exact hoistBody_concat (isAlloca_of_isClose hc) body
  · exact Or.inr ⟨hr hnil, by simpa using hb⟩

/-- A line before the end that is not the closing one. -/
theorem Ends.tail (h : Ends (l :: b) r) (hl : isClose l = false) : Ends b r := by
  rcases h with ⟨body, c, hb, hc, hbody⟩ | ⟨hr, hb⟩
  · cases body with
    | nil =>
      have heq : l = c := (cons.inj hb).1
      rw [heq, hc] at hl
      cases hl
    | cons m body =>
      refine Or.inl ⟨body, c, (cons.inj hb).2, hc, ?_⟩
      exact (forall_mem_cons.mp hbody).2
  · exact Or.inr ⟨hr, (forall_mem_cons.mp hb).2⟩

/-- The closing line is the last one. -/
theorem Ends.tail_nil (h : Ends (l :: b) r) (hl : isClose l) : b = [] := by
  rcases h with ⟨body, c, hb, hc, hbody⟩ | ⟨hr, hb⟩
  · cases body with
    | nil => exact (cons.inj hb).2
    | cons m body =>
      have heq : l = m := (cons.inj hb).1
      have hm := hbody m mem_cons_self
      rw [← heq, hl] at hm
      cases hm
  · have hl' := hb l mem_cons_self
    rw [hl] at hl'
    cases hl'

/-! ## §7. The whole buffer. -/

theorem takeLabel_append (label : Line → Bool) (ls : List Line) :
    (takeLabel label ls).1 ++ (takeLabel label ls).2 = ls := by
  cases ls with
  | nil => rfl
  | cons m ms =>
    rw [takeLabel]
    split <;> rfl

variable {label : Line → Bool}

theorem takeLabel_of_head
    (h : ∀ x, ls.head? = some x → label x = false) : takeLabel label ls = ([], ls) := by
  cases ls with
  | nil => rfl
  | cons m ms => rw [takeLabel, if_neg (by simp [h m rfl])]

theorem length_rest_le (label : Line → Bool) (ls : List Line) :
    (cutBody (takeLabel label ls).2).2.length ≤ ls.length := by
  have hlabel := congrArg length (takeLabel_append label ls)
  have hbody := congrArg length (cutBody_append (takeLabel label ls).2)
  rw [length_append] at hlabel hbody
  omega

/-- The loop run to the end of the buffer. -/
def hoistAll (label : Line → Bool) (ls : List Line) : List Line := hoistLines label ls.length ls

/-- With enough fuel it does not matter how much. -/
theorem enough_fuel (label : Line → Bool) {n m : Nat} (hn : ls.length ≤ n) (hm : ls.length ≤ m) :
    hoistLines label n ls = hoistLines label m ls ∧ functions n ls = functions m ls := by
  induction n generalizing m ls with
  | zero =>
    obtain rfl : ls = [] := length_eq_zero_iff.mp (by omega)
    cases m <;> exact ⟨rfl, rfl⟩
  | succ n ih =>
    cases ls with
    | nil => cases m <;> exact ⟨rfl, rfl⟩
    | cons l ls =>
      cases m with
      | zero => simp at hm
      | succ m =>
        have hn : ls.length ≤ n := by simpa using hn
        have hm : ls.length ≤ m := by simpa using hm
        have hrest := length_rest_le label ls
        have hrest' := length_rest_le isLabel ls
        simp only [hoistLines, functions]
        rw [(ih (hrest.trans hn) (hrest.trans hm)).1, (ih hn hm).1,
          (ih (hrest'.trans hn) (hrest'.trans hm)).2, (ih hn hm).2]
        exact ⟨rfl, rfl⟩

@[simp] theorem hoistAll_nil (label : Line → Bool) : hoistAll label [] = [] := rfl

theorem hoistAll_copied (label : Line → Bool) (hl : isDefine l = false)
    (ls : List Line) : hoistAll label (l :: ls) = l :: hoistAll label ls := by
  simp [hoistAll, hoistLines, hl]

variable {entry : List Line}

theorem hoistAll_function (label : Line → Bool) (hl : isDefine l)
    (he : takeLabel label ls = (entry, b ++ r)) (hb : Ends b r) :
    hoistAll label (l :: ls) = l :: (entry ++ (hoistBody b ++ hoistAll label r)) := by
  have hrest : r.length ≤ ls.length := by
    simpa only [he, hb.cutBody_eq] using length_rest_le label ls
  rw [hoistAll, length_cons, hoistLines, if_pos hl]
  simp only [he, hb.cutBody_eq]
  rw [(enough_fuel label hrest le_rfl).1]
  rfl

/-- Induction along the loop: a copied line, or a function with its end. -/
theorem lines_induction (label : Line → Bool) {P : List Line → Prop} (hnil : P [])
    (hcopied : ∀ l ls, isDefine l = false → P ls → P (l :: ls))
    (hfunction : ∀ l ls entry b r, isDefine l → takeLabel label ls = (entry, b ++ r) →
      Ends b r → P r → P (l :: ls)) (ls : List Line) : P ls := by
  induction hn : ls.length using Nat.strong_induction_on generalizing ls with
  | _ n ih =>
    cases ls with
    | nil => exact hnil
    | cons l ls =>
      subst hn
      cases hl : isDefine l with
      | false => exact hcopied l ls hl (ih ls.length (by simp) ls rfl)
      | true =>
        have hrest := length_rest_le label ls
        have hcut := cutBody_append (takeLabel label ls).2
        refine hfunction l ls (takeLabel label ls).1 _ _ hl ?_ (cutBody_ends _)
          (ih _ ?_ (cutBody (takeLabel label ls).2).2 rfl)
        · rw [hcut]
        · rw [length_cons]
          omega

theorem hoistAll_perm (label : Line → Bool) (ls : List Line) : (hoistAll label ls).Perm ls := by
  induction ls using lines_induction label with
  | hnil => exact List.Perm.refl _
  | hcopied l ls hl ih =>
    rw [hoistAll_copied label hl]
    exact ih.cons l
  | hfunction l ls entry b r hl he hb ih =>
    have hls : entry ++ (b ++ r) = ls := by rw [← takeLabel_append label ls, he]
    rw [hoistAll_function label hl he hb, ← hls]
    exact (((hoistBody_perm b).append ih).append_left entry).cons l

/-- The first line after the scans is an alloca or the first line before. -/
theorem head_hoistBody {x : Line} (h : (hoistBody b).head? = some x) :
    isAlloca x ∨ b.head? = some x := by
  cases hallocas : b.filter isAlloca with
  | nil =>
    have hnone : ∀ y ∈ b, isAlloca y = false := by simpa using filter_eq_nil_iff.mp hallocas
    rw [hoistBody_of_none hnone] at h
    exact Or.inr h
  | cons a as =>
    rw [hoistBody, hallocas] at h
    have hx : a = x := by simpa using h
    exact Or.inl (hx ▸ of_mem_filter (hallocas ▸ mem_cons_self))

/-- After the rewriting the entry label is found where it was. -/
theorem takeLabel_hoisted (hlabel : ∀ l, isAlloca l → label l = false)
    (he : takeLabel label ls = (entry, b ++ r)) (hb : Ends b r) :
    takeLabel label (entry ++ (hoistBody b ++ hoistAll label r)) =
      (entry, hoistBody b ++ hoistAll label r) := by
  cases ls with
  | nil =>
    have hnil : [] = entry ∧ [] = b ++ r := by simpa [takeLabel] using he
    obtain ⟨hb', hr⟩ := append_eq_nil_iff.mp hnil.2.symm
    subst hb' hr
    rw [← hnil.1]
    rfl
  | cons m ms =>
    rw [takeLabel] at he
    split at he
    · next hm =>
        have hentry : [m] = entry := congrArg Prod.fst he
        rw [← hentry, singleton_append, takeLabel, if_pos hm]
    · next hm =>
        have hentry : [] = entry := congrArg Prod.fst he
        have hms : m :: ms = b ++ r := congrArg Prod.snd he
        rw [← hentry, nil_append]
        apply takeLabel_of_head
        intro x hx
        cases b with
        | nil =>
          -- an empty body only stands at the end of the buffer
          rcases hb with ⟨body, c, hb, -, -⟩ | ⟨rfl, -⟩
          · simp at hb
          · simp at hms
        | cons y b =>
          have hy : m = y := (cons.inj hms).1
          have hne : hoistBody (y :: b) ≠ [] := by
            intro h
            exact absurd (congrArg length h) (by simp)
          rw [head?_append_of_ne_nil _ hne] at hx
          rcases head_hoistBody hx with ha | hhead
          · exact hlabel x ha
          · have hxy : y = x := by simpa using hhead
            rw [← hxy, ← hy]
            simpa using hm

/-- A second run changes nothing. -/
theorem hoistAll_hoistAll (hlabel : ∀ l, isAlloca l → label l = false)
    (ls : List Line) : hoistAll label (hoistAll label ls) = hoistAll label ls := by
  induction ls using lines_induction label with
  | hnil => rfl
  | hcopied l ls hl ih => rw [hoistAll_copied label hl, hoistAll_copied label hl, ih]
  | hfunction l ls entry b r hl he hb ih =>
    have hends : Ends (hoistBody b) (hoistAll label r) := by
      apply hb.hoistBody
      rintro rfl
      rfl
    rw [hoistAll_function label hl he hb,
      hoistAll_function label hl (takeLabel_hoisted hlabel he hb) hends,
      hoistBody_hoistBody, ih]

/-! ## §8. Functions closed by their first `}` line. -/

/-- `b'` are the lines `b` with the allocas first; the allocas keep their order,
and so do the other lines. -/
def AllocasFirst (b b' : List Line) : Prop :=
  ∃ allocas others, b' = allocas ++ others ∧ (∀ l ∈ allocas, isAlloca l = true) ∧
    (∀ l ∈ others, isAlloca l = false) ∧ allocas <+ b ∧ others <+ b ∧ b'.Perm b

/-- A label that cannot be taken for the end of the function. -/
def isEntryLabel (l : Line) : Bool := isLabel l && !isClose l

/-- `entry` is the label line of a function, if it has one, and `rest` follows. -/
def EntryLabel (entry rest : List Line) : Prop :=
  (∃ m, entry = [m] ∧ isEntryLabel m = true) ∨
    (entry = [] ∧ ∀ m ∈ rest.head?, isEntryLabel m = false)

/-- `out` are the lines with the allocas of every function, from `define ` to
the next line that starts with `}`, first after its label line. -/
inductive Hoisted : List Line → List Line → Prop
  | nil : Hoisted [] []
  | copied {l : Line} {ls out : List Line} (hl : isDefine l = false) (hrest : Hoisted ls out) :
      Hoisted (l :: ls) (l :: out)
  | function {l : Line} {entry b b' r out : List Line} (hl : isDefine l = true)
      (hentry : EntryLabel entry (b ++ r)) (hends : Ends b r) (hfirst : AllocasFirst b b')
      (hrest : Hoisted r out) : Hoisted (l :: (entry ++ (b ++ r))) (l :: (entry ++ (b' ++ out)))

theorem allocasFirst_iff {b' : List Line} : AllocasFirst b b' ↔ b' = hoistBody b := by
  constructor
  · rintro ⟨allocas, others, rfl, hallocas, hothers, hsub, hsub', hperm⟩
    -- a part of the lines that has as many of them has all of them
    have hall : allocas.filter isAlloca = allocas := filter_eq_self.mpr hallocas
    have hnone : others.filter isAlloca = [] := filter_eq_nil_iff.mpr (by simpa using hothers)
    have hall' : others.filter (!isAlloca ·) = others := filter_eq_self.mpr (by simpa using hothers)
    have hnone' : allocas.filter (!isAlloca ·) = [] :=
      filter_eq_nil_iff.mpr (by simpa using hallocas)
    have hlen := (hperm.filter isAlloca).length_eq
    have hlen' := (hperm.filter (!isAlloca ·)).length_eq
    rw [filter_append, hall, hnone, append_nil] at hlen
    rw [filter_append, hall', hnone', nil_append] at hlen'
    have heq := (hall ▸ hsub.filter isAlloca).eq_of_length hlen
    have heq' := (hall' ▸ hsub'.filter (!isAlloca ·)).eq_of_length hlen'
    rw [heq, heq']
    rfl
  · rintro rfl
    exact ⟨_, _, rfl, fun l hl => of_mem_filter hl, fun l hl => by simpa using of_mem_filter hl,
      filter_sublist, filter_sublist, hoistBody_perm b⟩

theorem entryLabel_iff {rest : List Line} :
    EntryLabel entry rest ↔ takeLabel isEntryLabel (entry ++ rest) = (entry, rest) := by
  constructor
  · rintro (⟨m, rfl, hm⟩ | ⟨rfl, hhead⟩)
    · rw [singleton_append, takeLabel, if_pos hm]
    · exact takeLabel_of_head fun m hm => hhead m hm
  · intro h
    cases hls : entry ++ rest with
    | nil =>
      obtain ⟨rfl, rfl⟩ := append_eq_nil_iff.mp hls
      exact Or.inr ⟨rfl, fun m hm => nomatch hm⟩
    | cons m ms =>
      rw [hls, takeLabel] at h
      split at h
      · next hm => exact Or.inl ⟨m, (congrArg Prod.fst h).symm, hm⟩
      · next hm =>
          obtain ⟨rfl, rfl⟩ := Prod.mk.inj h
          refine Or.inr ⟨rfl, fun x hx => ?_⟩
          cases hx
          simpa using hm

/-- The loop with the test for the closing line before that for a label. -/
def hoistedLines (ls : List Line) : List Line := hoistAll isEntryLabel ls

/-- It gives the only lines that are so. -/
theorem hoisted_iff {out : List Line} : Hoisted ls out ↔ out = hoistedLines ls := by
  constructor
  · intro h
    induction h with
    | nil => rfl
    | copied hl _ ih => rw [ih, hoistedLines, hoistedLines, hoistAll_copied isEntryLabel hl]
    | function hl hentry hends hfirst _ ih =>
      rw [ih, allocasFirst_iff.mp hfirst]
      exact (hoistAll_function isEntryLabel hl (entryLabel_iff.mp hentry) hends).symm
  · rintro rfl
    unfold hoistedLines
    induction ls using lines_induction isEntryLabel with
    | hnil => exact .nil
    | hcopied l ls hl ih =>
      rw [hoistAll_copied isEntryLabel hl]
      exact .copied hl ih
    | hfunction l ls entry b r hl he hb ih =>
      have hls : ls = entry ++ (b ++ r) := by rw [← takeLabel_append isEntryLabel ls, he]
      rw [hoistAll_function isEntryLabel hl he hb, hls]
      exact .function hl (entryLabel_iff.mpr (hls ▸ he)) hb (allocasFirst_iff.mpr rfl) ih

/-- Lines up to a closing line, with no function open before them. -/
def hoistOutside : List Line → List Line
  | [] => []
  | l :: b =>
    if isDefine l then
      l :: ((takeLabel isEntryLabel b).1 ++ hoistBody (takeLabel isEntryLabel b).2)
    else l :: hoistOutside b

theorem isClose_of_isDefine (h : isDefine l) : isClose l = false := by
  cases l with
  | nil => rfl
  | cons c cs =>
    have hc : 'd' = c := by
      have hprefix : ('d' == c && ("efine ".toList).isPrefixOf cs) := h
      simpa using (Bool.and_eq_true_iff.mp hprefix).1
    rw [← hc]
    rfl

/-- The entry label lies before the end of the function. -/
theorem Ends.takeLabel_eq (h : Ends b r) : takeLabel isEntryLabel (b ++ r) =
        ((takeLabel isEntryLabel b).1, (takeLabel isEntryLabel b).2 ++ r) ∧
      Ends (takeLabel isEntryLabel b).2 r := by
  cases b with
  | nil =>
    rcases h with ⟨body, c, hb, -, -⟩ | ⟨rfl, -⟩
    · simp at hb
    · exact ⟨rfl, Or.inr ⟨rfl, by simp [takeLabel]⟩⟩
  | cons m b =>
    rw [cons_append, takeLabel, takeLabel]
    split
    · next hm =>
        have hclose : isClose m = false := by simpa using (Bool.and_eq_true_iff.mp hm).2
        exact ⟨rfl, h.tail hclose⟩
    · exact ⟨rfl, h⟩

theorem hoistedLines_append (h : Ends b r) :
    hoistedLines (b ++ r) = hoistOutside b ++ hoistedLines r := by
  induction b with
  | nil => rfl
  | cons l b ih =>
    rw [cons_append, hoistOutside, hoistedLines]
    cases hl : isDefine l with
    | true =>
      obtain ⟨hlabel, hends⟩ := (h.tail (isClose_of_isDefine hl)).takeLabel_eq
      rw [hoistAll_function isEntryLabel hl hlabel hends]
      simp [hoistedLines]
    | false =>
      rw [hoistAll_copied isEntryLabel hl, if_neg (by simp)]
      cases hclose : isClose l with
      | true =>
        have hnil : b = [] := h.tail_nil hclose
        rw [hnil]
        rfl
      | false =>
        rw [cons_append, ← ih (h.tail hclose)]
        rfl

@[simp] theorem length_hoistOutside (b : List Line) : (hoistOutside b).length = b.length := by
  induction b with
  | nil => rfl
  | cons l b ih =>
    rw [hoistOutside]
    have hlabel := congrArg length (takeLabel_append isEntryLabel b)
    rw [length_append] at hlabel
    split
    · simp [hlabel]
    · simp [ih]

theorem hoistOutside_of_none (h : ∀ x ∈ b, isAlloca x = false) : hoistOutside b = b := by
  induction b with
  | nil => rfl
  | cons l b ih =>
    have hb : ∀ x ∈ b, isAlloca x = false := (forall_mem_cons.mp h).2
    have hsplit := takeLabel_append isEntryLabel b
    rw [hoistOutside]
    split
    · rw [hoistBody_of_none, hsplit]
      intro x hx
      apply hb
      rw [← hsplit]
      exact mem_append_right _ hx
    · rw [ih hb]

/-- A `define ` line below the allocas opens a function without allocas. -/
theorem hoistOutside_of_first (h : hoistBody b = b) : hoistOutside b = b := by
  induction b with
  | nil => rfl
  | cons l b ih =>
    cases hl : isAlloca l with
    | true =>
      rw [hoistBody_cons_alloca hl] at h
      rw [hoistOutside, if_neg (by simp [isDefine_of_isAlloca hl]), ih (cons.inj h).2]
    | false =>
      apply hoistOutside_of_none
      exact forall_mem_cons.mpr ⟨hl, none_of_hoistBody_cons hl h⟩

theorem hoistOutside_fixed (h : hoistBody (hoistOutside b) = hoistOutside b) :
    hoistOutside b = b := by
  induction b with
  | nil => rfl
  | cons l b ih =>
    rw [hoistOutside] at h ⊢
    split at h
    · next hl =>
        have hnone := none_of_hoistBody_cons (isAlloca_of_isDefine hl) h
        rw [if_pos hl, hoistBody_of_none, takeLabel_append]
        intro x hx
        exact hnone x (mem_append_right _ (mem_hoistBody.mpr hx))
    · next hl =>
        rw [if_neg hl]
        congr 1
        apply ih
        cases ha : isAlloca l with
        | true =>
          rw [hoistBody_cons_alloca ha] at h
          exact (cons.inj h).2
        | false => exact hoistBody_of_none (none_of_hoistBody_cons ha h)

/-- One scan and the functions of the same lines agree exactly when the allocas
already come first. -/
theorem hoistBody_eq_hoistOutside : hoistBody b = hoistOutside b ↔ hoistBody b = b := by
  constructor
  · intro h
    have hfixed : hoistBody (hoistOutside b) = hoistOutside b := by rw [← h, hoistBody_hoistBody]
    rw [h, hoistOutside_fixed hfixed]
  · intro h
    rw [hoistOutside_of_first h, h]

/-! ## §9. When the two agree. -/

theorem functions_copied (hl : isDefine l = false) (ls : List Line) :
    functions (l :: ls).length (l :: ls) = functions ls.length ls := by simp [functions, hl]

theorem functions_function (hl : isDefine l) (he : takeLabel isLabel ls = (entry, b ++ r))
    (hb : Ends b r) :
    functions (l :: ls).length (l :: ls) = (entry, b) :: functions r.length r := by
  have hrest : r.length ≤ ls.length := by
    simpa only [he, hb.cutBody_eq] using length_rest_le isLabel ls
  rw [length_cons, functions, if_pos hl]
  simp only [he, hb.cutBody_eq]
  rw [(enough_fuel isLabel hrest le_rfl).2]

/-- A function whose entry label starts with `}` has its allocas first. -/
def EntryClosed (f : List Line × List Line) : Prop :=
  ∀ m ∈ f.1, isClose m = true → hoistBody f.2 = f.2

instance (f : List Line × List Line) : Decidable (EntryClosed f) := by
  unfold EntryClosed
  infer_instance

/-- A label taken by both tests does not close a function. -/
theorem entryClosed_of_takeLabel {t : List Line} (h : takeLabel isEntryLabel ls = (entry, t))
    (b : List Line) : EntryClosed (entry, b) := by
  have hfst : (takeLabel isEntryLabel ls).1 = entry := by rw [h]
  intro m hm hclose
  rw [← hfst] at hm
  cases ls with
  | nil => simp [takeLabel] at hm
  | cons y ys =>
    rw [takeLabel] at hm
    split at hm
    · next hy =>
        have hmy : m = y := by simpa using hm
        rw [isEntryLabel, ← hmy, hclose] at hy
        simp at hy
    · simp at hm

/-- The two tests differ on a label that starts with `}`. -/
theorem takeLabel_differs {t : List Line} (h : takeLabel isLabel ls = (entry, t))
    (hne : takeLabel isEntryLabel ls ≠ (entry, t)) :
    ∃ m, entry = [m] ∧ ls = m :: t ∧ isClose m := by
  cases ls with
  | nil => exact absurd h hne
  | cons m ms =>
    rw [takeLabel] at h hne
    split at h
    · next hm =>
        obtain ⟨rfl, rfl⟩ := Prod.mk.inj h
        refine ⟨m, rfl, rfl, ?_⟩
        by_contra hopen
        exact hne (if_pos (by simp [isEntryLabel, hm, hopen]))
    · next hm =>
        apply absurd _ hne
        rw [if_neg (by simp [isEntryLabel, hm]), h]

/-- After a label that starts with `}` the lines up to the next closing one lie
outside any function. -/
theorem hoistedLines_brace {m : Line} (hl : isDefine l) (hm : isClose m)
    (hb : Ends b r) :
    hoistedLines (l :: m :: (b ++ r)) = l :: m :: (hoistOutside b ++ hoistedLines r) := by
  have hnone : takeLabel isEntryLabel (m :: (b ++ r)) = ([], [m] ++ (b ++ r)) := by
    rw [takeLabel, if_neg (by simp [isEntryLabel, hm])]
    rfl
  have hends : Ends [m] (b ++ r) := Or.inl ⟨[], m, rfl, hm, by simp⟩
  have hfirst : hoistBody [m] = [m] := hoistBody_of_none (by simpa using isAlloca_of_isClose hm)
  rw [hoistedLines, hoistAll_function isEntryLabel hl hnone hends, hfirst]
  change l :: m :: hoistedLines (b ++ r) = _
  rw [hoistedLines_append hb]

theorem hoistAll_eq_hoistedLines (ls : List Line) :
    hoistAll isLabel ls = hoistedLines ls ↔ ∀ f ∈ functions ls.length ls, EntryClosed f := by
  induction ls using lines_induction isLabel with
  | hnil => simp [functions, hoistedLines]
  | hcopied l ls hl ih =>
    rw [functions_copied hl, ← ih, hoistedLines, hoistAll_copied isLabel hl,
      hoistAll_copied isEntryLabel hl]
    simp [hoistedLines]
  | hfunction l ls entry b r hl he hb ih =>
    rw [functions_function hl he hb, forall_mem_cons, ← ih, hoistAll_function isLabel hl he hb]
    by_cases hentry : takeLabel isEntryLabel ls = (entry, b ++ r)
    · -- the same label, hence the same body
      rw [hoistedLines, hoistAll_function isEntryLabel hl hentry hb]
      simp [entryClosed_of_takeLabel hentry b, hoistedLines]
    · -- the label starts with a brace: it ends the function on the other side
      obtain ⟨m, rfl, rfl, hclose⟩ := takeLabel_differs he hentry
      rw [hoistedLines_brace hl hclose hb, cons_inj_right, singleton_append, cons_inj_right]
      have hlength : (hoistBody b).length = (hoistOutside b).length := by simp
      constructor
      · intro h
        obtain ⟨hbody, hrest⟩ := append_inj h hlength
        exact ⟨fun _ _ _ => hoistBody_eq_hoistOutside.mp hbody, hrest⟩
      · rintro ⟨hbody, hrest⟩
        have hfirst : hoistBody b = b := hbody m mem_cons_self hclose
        rw [hoistBody_eq_hoistOutside.mpr hfirst, hrest]

/-- The buffer is rewritten to the lines with every function's allocas first,
and a second run leaves it as it is. -/
def Hoists (buf : List Char) : Prop :=
  ∃ out, hoistAllocas buf = (0, out) ∧ (textLines out).Perm (textLines buf) ∧
    Hoisted (textLines buf) (textLines out) ∧ hoistAllocas out = (0, out)

theorem hoistAllocas_eq {buf : List Char} :
    hoistAllocas buf = (0, (hoistAll isLabel (textLines buf)).flatten) := by
  have hlength : (hoistAll isLabel (textLines buf)).flatten.length = buf.length := by
    rw [(hoistAll_perm isLabel (textLines buf)).flatten.length_eq, flatten_textLines]
  exact if_neg (by simpa [hoistAll] using hlength)

/-- **The allocas of every function come first**, and nothing else moves, exactly
when no function with allocas below other lines has a label line that starts
with `}`. -/
theorem hoistAllocas_iff {buf : List Char} (hend : buf.getLast? = some '\n') :
    Hoists buf ↔ ∀ f ∈ functions (textLines buf).length (textLines buf), EntryClosed f := by
  have hperm := hoistAll_perm isLabel (textLines buf)
  have hlines : textLines (hoistAll isLabel (textLines buf)).flatten =
      hoistAll isLabel (textLines buf) := by
    apply textLines_flatten
    intro l hl
    exact textLines_terminated hend l (hperm.mem_iff.mp hl)
  rw [← hoistAll_eq_hoistedLines]
  constructor
  · rintro ⟨out, hout, -, hspec, -⟩
    rw [hoistAllocas_eq] at hout
    rw [← hoisted_iff.mp hspec, ← (Prod.mk.inj hout).2, hlines]
  · intro h
    refine ⟨_, hoistAllocas_eq, ?_, ?_, ?_⟩
    · rw [hlines]
      exact hperm
    · rw [hlines, h]
      exact hoisted_iff.mpr rfl
    · rw [hoistAllocas_eq, hlines, hoistAll_hoistAll fun l => isLabel_of_isAlloca]

/-- An entry label, an alloca below another instruction, and the end. -/
theorem hoistAllocas_entry :
    Hoists "define void @f() \x7b\nentry:\n  call void @g()\n  %a = alloca i64\n\x7d\n".toList :=
  (hoistAllocas_iff (by decide +kernel)).mpr (by decide +kernel)

/-- The line `}:` after the first `define ` does not close it, and the alloca of
the second function leaves its function. -/
theorem hoistAllocas_leaves_function :
    ¬ Hoists "define a\n\x7d:\ndefine b\nX\n  %a = alloca i64\n\x7d\n".toList := by
  rintro ⟨out, hout, -, hlines, -⟩
  have hresult : hoistAllocas "define a\n\x7d:\ndefine b\nX\n  %a = alloca i64\n\x7d\n".toList =
      (0, "define a\n\x7d:\n  %a = alloca i64\ndefine b\nX\n\x7d\n".toList) := by decide +kernel
  rw [← (Prod.mk.inj hout).2, hoisted_iff] at hlines
  exact absurd hlines (by decide +kernel)

end Toke.Codegen
