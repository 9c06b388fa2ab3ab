/-
  Toke.Stdlib.CsvRoundTrip — **ROWS COME BACK AS THEY WERE WRITTEN.**

  A written field carries the reader from the start of a field to its end, in
  every dialect: the strict reader finds nothing to complain about.  Two things
  are lost on the way.  A last row of one empty field has no text at all, and a
  separator that is NUL ends the text the writer returns.  Nothing else is
  (`readBack_iff`).
-/
import Toke.Stdlib.Csv
import Toke.Library.Items

namespace Toke.Stdlib.Csv

open List

variable {sep : UInt8}

section Rows

variable {d : Dialect} (hquote : d.quoteChar = quote)
  (hsep : d.sep ≠ quote ∧ d.sep ≠ cr ∧ d.sep ≠ lf)

variable {s : RowState} {rest : List UInt8}

/-! ## §1. A field. -/

/-- Between two fields or behind the last one. -/
structure RowState.Holds (s : RowState) (row : Row) (field : List UInt8) : Prop where
  inQuotes : s.inQuotes = false
  row : s.row = row
  field : s.field = field

include hquote in
/-- The closing quote, where no other one follows. -/
theorem rowLoop_close (hs : s.inQuotes = true)
    (hrest : rest.head? ≠ some quote) : rowLoop d s (quote :: rest) = rowLoop d s.close rest := by
  rw [rowLoop.eq_def]
  simp only [hs, if_true, hquote]
  cases rest with
  | nil => rfl
  | cons c rest =>
    have hc : c ≠ quote := fun h => hrest (by rw [h]; rfl)
    simp only [if_neg hc]

include hquote in
/-- Doubled quotes are halved, everything else is kept. -/
theorem rowLoop_doubled (f : List UInt8) (hrest : rest.head? ≠ some quote)
    (hs : s.inQuotes = true) :
    ∃ s', s'.Holds s.row (s.field ++ f) ∧
      rowLoop d s (doubled f ++ quote :: rest) = rowLoop d s' rest := by
  induction f generalizing s with
  | nil =>
    refine ⟨s.close, ⟨rfl, rfl, (List.append_nil _).symm⟩, ?_⟩
    exact rowLoop_close hquote hs hrest
  | cons c f ih =>
    have hdoubled : doubled (c :: f) = (if c = quote then [quote, c] else [c]) ++ doubled f := rfl
    rw [hdoubled]
    by_cases hc : c = quote
    · obtain ⟨s', hs', hloop⟩ := ih (s := s.push quote) hs
      refine ⟨s', ⟨hs'.inQuotes, hs'.row, ?_⟩, ?_⟩
      · rw [hs'.field, hc]
        simp [RowState.push]
      · rw [if_pos hc, hc, ← hloop]
        show rowLoop d s (quote :: quote :: (doubled f ++ quote :: rest)) = _
        rw [rowLoop.eq_def]
        simp only [hs, if_true, hquote]
    · obtain ⟨s', hs', hloop⟩ :=
        ih (s := { s with line := if c = lf then s.line + 1 else s.line }.push c) hs
      refine ⟨s', ⟨hs'.inQuotes, hs'.row, ?_⟩, ?_⟩
      · rw [hs'.field]
        simp [RowState.push]
      · rw [if_neg hc, ← hloop]
        show rowLoop d s (c :: (doubled f ++ quote :: rest)) = _
        rw [rowLoop.eq_def]
        simp only [hs, if_true, hquote, if_neg hc]

include hquote in
/-- Bytes that mean nothing are kept. -/
theorem rowLoop_plain {f : List UInt8} (hf : fieldNeedsQuoting d.sep f = false) (rest : List UInt8)
    (hs : s.inQuotes = false) (hclosed : s.justClosed = false) :
    ∃ s', s'.Holds s.row (s.field ++ f) ∧ rowLoop d s (f ++ rest) = rowLoop d s' rest := by
  induction f generalizing s with
  | nil => exact ⟨s, ⟨hs, rfl, (List.append_nil _).symm⟩, rfl⟩
  | cons c f ih =>
    simp only [fieldNeedsQuoting, List.any_cons, Bool.or_eq_false_iff, decide_eq_false_iff_not] at hf
    obtain ⟨⟨⟨⟨hcsep, hcquote⟩, hclf⟩, hccr⟩, htail⟩ := hf
    obtain ⟨s', hs', hloop⟩ := ih htail (s := s.push c) hs hclosed
    refine ⟨s', ⟨hs'.inQuotes, hs'.row, ?_⟩, ?_⟩
    · rw [hs'.field]
      simp [RowState.push]
    · rw [← hloop]
      show rowLoop d s (c :: (f ++ rest)) = _
      rw [rowLoop.eq_def]
      simp [hs, hclosed, hquote, hcsep, hcquote, hclf, hccr]

include hquote in
/-- A written field, from the start of a field. -/
theorem rowLoop_field (f : List UInt8) (hrest : rest.head? ≠ some quote) {row : Row}
    (hs : s.Holds row []) (hclosed : s.justClosed = false) :
    ∃ s', s'.Holds row f ∧ rowLoop d s (writeField d.sep f ++ rest) = rowLoop d s' rest := by
  unfold writeField
  cases hneeds : fieldNeedsQuoting d.sep f with
  | false =>
    obtain ⟨s', hs', hloop⟩ := rowLoop_plain hquote hneeds rest hs.inQuotes hclosed
    rw [hs.row, hs.field] at hs'
    exact ⟨s', hs', hloop⟩
  | true =>
    obtain ⟨s', hs', hloop⟩ := rowLoop_doubled hquote f hrest
      (s := { s with inQuotes := true, justClosed := false, quoteLine := s.line }) rfl
    refine ⟨s', ⟨hs'.inQuotes, hs'.row.trans hs.row, ?_⟩, ?_⟩
    · rw [hs'.field, hs.field, List.nil_append]
    · rw [← hloop, if_pos rfl, List.append_assoc, List.cons_append]
      show rowLoop d s (quote :: (doubled f ++ quote :: rest)) = _
      rw [rowLoop.eq_def]
      simp [hs.inQuotes, hs.field, hclosed, hquote]

/-! ## §2. A row. -/

include hquote hsep in
/-- A separator ends the field. -/
theorem rowLoop_sep (hs : s.inQuotes = false) (rest : List UInt8) : rowLoop d s (d.sep :: rest) =
      rowLoop d { s with row := s.fields, field := [], justClosed := false } rest := by
  rw [rowLoop.eq_def]
  simp [hs, hquote, hsep.1]

theorem writeFields_cons_cons (sep : UInt8) (f g : List UInt8) (fs : Row) :
    writeFields sep (f :: g :: fs) = writeField sep (cstr f) ++ sep :: writeFields sep (g :: fs) := rfl

include hquote hsep in
/-- The fields of a row, up to the end of the last one. -/
theorem rowLoop_fields {fs : Row} (hne : fs ≠ []) (hnul : ∀ f ∈ fs, 0 ∉ f)
    (hrest : rest.head? ≠ some quote) {row : Row} (hs : s.Holds row [])
    (hclosed : s.justClosed = false) :
    ∃ s', s'.inQuotes = false ∧ s'.fields = row ++ fs ∧
      rowLoop d s (writeFields d.sep fs ++ rest) = rowLoop d s' rest := by
  induction fs generalizing s row with
  | nil => exact absurd rfl hne
  | cons f fs ih =>
    have hf := hnul f List.mem_cons_self
    cases fs with
    | nil =>
      obtain ⟨s', hs', hloop⟩ := rowLoop_field hquote f hrest hs hclosed
      refine ⟨s', hs'.inQuotes, ?_, ?_⟩
      · rw [RowState.fields, hs'.row, hs'.field, cstr_of_not_mem hf]
      · rw [← hloop, writeFields, cstr_of_not_mem hf]
    | cons g fs =>
      have hhead : (d.sep :: (writeFields d.sep (g :: fs) ++ rest)).head? ≠ some quote := by
        rw [List.head?_cons, Ne, Option.some_inj]
        exact hsep.1
      obtain ⟨s₁, hs₁, hloop₁⟩ := rowLoop_field hquote f hhead hs hclosed
      obtain ⟨s', hquotes', hfields', hloop'⟩ := ih (List.cons_ne_nil g fs)
        (List.forall_mem_cons.mp hnul).2
        (s := { s₁ with row := s₁.fields, field := [], justClosed := false })
        ⟨hs₁.inQuotes, rfl, rfl⟩ rfl
      refine ⟨s', hquotes', ?_, ?_⟩
      · rw [hfields', RowState.fields, hs₁.row, hs₁.field, cstr_of_not_mem hf, List.append_assoc]
        rfl
      · rw [← hloop', ← rowLoop_sep hquote hsep hs₁.inQuotes, ← hloop₁, writeFields_cons_cons,
          cstr_of_not_mem hf, List.append_assoc, List.cons_append]

/-- The end of the text ends the row. -/
theorem rowLoop_end (hs : s.inQuotes = false) : rowLoop d s [] = .ok (s.fields, s.line, []) := by
  rw [rowLoop.eq_def]
  simp [hs]

include hquote hsep in
/-- A line end ends the row. -/
theorem rowLoop_lineEnd (hs : s.inQuotes = false) (useCrlf : Bool) (rest : List UInt8) :
    rowLoop d s (lineEnd useCrlf ++ rest) = .ok (s.fields, s.line + 1, rest) := by
  obtain ⟨-, hcr, hlf⟩ := hsep
  cases useCrlf with
  | true =>
    show rowLoop d s (cr :: lf :: rest) = _
    rw [rowLoop.eq_def]
    simp [hs, hquote, hcr.symm, show cr ≠ quote by decide]
  | false =>
    show rowLoop d s (lf :: rest) = _
    rw [rowLoop.eq_def]
    simp [hs, hquote, hlf.symm, show lf ≠ quote by decide, show lf ≠ cr by decide]

end Rows

/-! ## §3. The text. -/

section Text

variable {sep : UInt8} (hsep : sep ≠ quote ∧ sep ≠ cr ∧ sep ≠ lf) (useCrlf : Bool)

variable {row : Row}

/-- The rows, with line ends between them. -/
def text (sep : UInt8) (useCrlf : Bool) : List Row → List UInt8
  | [] => []
  | row :: rows => writeFields sep row ++ rows.flatMap fun row => lineEnd useCrlf ++ writeFields sep row

theorem writerow_buf (rows : List Row) {w : Writer} (hw : w.firstRow = false) :
    (rows.foldl writerow w).buf =
      w.buf ++ rows.flatMap fun row => lineEnd w.useCrlf ++ writeFields w.sep row := by
  induction rows generalizing w with
  | nil => exact (append_nil _).symm
  | cons row rows ih =>
    rw [foldl_cons, ih rfl]
    simp [writerow, hw]

/-- What `csv_writer_writerow` has put in the buffer. -/
theorem written_eq (rows : List Row) : written sep useCrlf rows = cstr (text sep useCrlf rows) := by
  unfold written flush
  cases rows with
  | nil => rfl
  | cons row rows =>
    rw [foldl_cons, writerow_buf rows rfl]
    rfl

include hsep in
/-- The last row of a text, if there is anything of it. -/
theorem parseRow_last (hne : row ≠ []) (hnul : ∀ f ∈ row, 0 ∉ f) (htext : writeFields sep row ≠ [])
    (lazyquotes : Bool) :
    parseRow sep quote lazyquotes (writeFields sep row) = some (row, []) := by
  obtain ⟨s', hs', hfields, hloop⟩ := rowLoop_fields (d := ⟨sep, quote, lazyquotes, false⟩) rfl hsep hne
    hnul (show ([] : List UInt8).head? ≠ some quote from nofun) (s := ⟨false, false, 1, 1, [], []⟩) ⟨rfl, rfl, rfl⟩ rfl
  rw [List.append_nil, rowLoop_end hs', hfields] at hloop
  unfold parseRow parseRowEx
  rw [if_neg htext]
  simp only [hloop]
  rfl

include hsep in
/-- A row before a line end. -/
theorem parseRow_line (hne : row ≠ []) (hnul : ∀ f ∈ row, 0 ∉ f) (rest : List UInt8)
    (lazyquotes : Bool) :
    parseRow sep quote lazyquotes (writeFields sep row ++ (lineEnd useCrlf ++ rest)) =
      some (row, rest) := by
  have hhead : (lineEnd useCrlf ++ rest).head? ≠ some quote := by cases useCrlf <;> exact nofun
  obtain ⟨s', hs', hfields, hloop⟩ := rowLoop_fields (d := ⟨sep, quote, lazyquotes, false⟩) rfl hsep hne
    hnul hhead (s := ⟨false, false, 1, 1, [], []⟩) ⟨rfl, rfl, rfl⟩ rfl
  rw [rowLoop_lineEnd rfl hsep hs', hfields] at hloop
  have htext : writeFields sep row ++ (lineEnd useCrlf ++ rest) ≠ [] := by
    cases useCrlf <;> simp [lineEnd]
  unfold parseRow parseRowEx
  rw [if_neg htext]
  simp only [hloop]
  rfl

/-- A field without text is empty. -/
theorem writeField_eq_nil {f : List UInt8} : writeField sep f = [] ↔ f = [] := by
  unfold writeField
  split
  · next hneeds =>
    refine ⟨nofun, ?_⟩
    rintro rfl
    cases hneeds
  · rfl

/-- Only a row of one empty field has no text. -/
theorem writeFields_eq_nil (hne : row ≠ []) (hnul : ∀ f ∈ row, 0 ∉ f) :
    writeFields sep row = [] ↔ row = [[]] := by
  match row, hne with
  | [f], _ =>
    rw [writeFields, cstr_of_not_mem (hnul f mem_cons_self), writeField_eq_nil, cons.injEq]
    exact (and_iff_left rfl).symm
  | f :: g :: fs, _ =>
    exact ⟨fun h => absurd (append_eq_nil_iff.mp h).2 (cons_ne_nil _ _), nofun⟩

/-- What is read of the rows: the last one is missing when it has no text. -/
def readable (rows : List Row) : List Row := if rows.getLast? = some [[]] then rows.dropLast else rows

theorem readable_eq_self {rows : List Row} : readable rows = rows ↔ rows.getLast? ≠ some [[]] := by
  unfold readable
  split
  · next hlast =>
    refine ⟨fun h => ?_, fun h => absurd hlast h⟩
    have hne : rows ≠ [] := by
      rintro rfl
      cases hlast
    have hlen := congrArg length h
    have := length_pos_of_ne_nil hne
    rw [length_dropLast] at hlen
    omega
  · next hlast => exact ⟨fun _ => hlast, fun _ => rfl⟩

include hsep in
/-- One row after the other. -/
theorem rows_text {rows : List Row} (hrows : ∀ row ∈ rows, row ≠ [] ∧ ∀ f ∈ row, 0 ∉ f) {fuel : Nat}
    (hfuel : rows.length ≤ fuel) {r : Reader} (hr : r.sep = sep ∧ r.quoteChar = quote)
    (hdata : r.data = text sep useCrlf rows) : Reader.rows fuel r = readable rows := by
  induction rows generalizing fuel r with
  | nil =>
    cases fuel with
    | zero => rfl
    | succ fuel =>
      unfold Reader.rows Reader.hasNext
      rw [hdata]
      rfl
  | cons row rows ih =>
    obtain ⟨hne, hnul⟩ := hrows row List.mem_cons_self
    have hrest := (List.forall_mem_cons.mp hrows).2
    obtain ⟨fuel, rfl⟩ : ∃ n, fuel = n + 1 := ⟨fuel - 1, by rw [List.length_cons] at hfuel; omega⟩
    have hfuel' : rows.length ≤ fuel := Nat.le_of_succ_le_succ hfuel
    unfold Reader.rows Reader.hasNext Reader.next
    rw [hr.1, hr.2, hdata]
    cases rows with
    | nil =>
      have htext : text sep useCrlf [row] = writeFields sep row := List.append_nil _
      rw [htext]
      by_cases hempty : row = [[]]
      · rw [(writeFields_eq_nil hne hnul).mpr hempty, hempty]
        rfl
      · have hbytes : writeFields sep row ≠ [] := fun h => hempty ((writeFields_eq_nil hne hnul).mp h)
        have hlast : readable [row] = [row] := readable_eq_self.mpr fun h => hempty (Option.some_inj.mp h)
        rw [parseRow_last hsep hne hnul hbytes, if_pos (decide_eq_true hbytes), hlast]
        exact congrArg (row :: ·) (ih hrest hfuel' ⟨rfl, rfl⟩ rfl)
    | cons row' rows =>
      have htext : text sep useCrlf (row :: row' :: rows) =
          writeFields sep row ++ (lineEnd useCrlf ++ text sep useCrlf (row' :: rows)) := by
        simp [text]
      have hbytes : text sep useCrlf (row :: row' :: rows) ≠ [] := by
        rw [htext]
        cases useCrlf <;> simp [lineEnd]
      have hlast : readable (row :: row' :: rows) = row :: readable (row' :: rows) := by
        unfold readable
        rw [List.getLast?_cons_cons]
        split <;> rfl
      rw [if_pos (decide_eq_true hbytes), htext, parseRow_line hsep useCrlf hne hnul, hlast]
      exact congrArg (row :: ·) (ih hrest hfuel' ⟨rfl, rfl⟩ rfl)

end Text

/-! ## §4. NUL as separator. -/

theorem zero_notMem_writeField {f : List UInt8} (h : 0 ∉ f) : 0 ∉ writeField sep f := by
  unfold writeField doubled
  split
  · intro hmem
    simp only [cons_append, mem_cons, mem_append, mem_flatMap] at hmem
    rcases hmem with hmem | ⟨c, hc, hmem⟩ | hmem
    · cases hmem
    · split at hmem
      · simp only [mem_cons, not_mem_nil, or_false] at hmem
        rcases hmem with hmem | rfl
        · cases hmem
        · exact h hc
      · rw [mem_singleton.mp hmem] at h
        exact h hc
    · exact absurd hmem (by decide)
  · exact h

theorem zero_notMem_writeFields {row : Row} (hnul : ∀ f ∈ row, 0 ∉ f)
    (hsep : sep ≠ 0 ∨ row.length = 1) : 0 ∉ writeFields sep row := by
  induction row with
  | nil => exact nofun
  | cons f fs ih =>
    have hf := hnul f mem_cons_self
    have hfield : 0 ∉ writeField sep (cstr f) := by
      rw [cstr_of_not_mem hf]
      exact zero_notMem_writeField hf
    cases fs with
    | nil => exact hfield
    | cons g fs =>
      have hne : sep ≠ 0 := hsep.resolve_right (by simp)
      rw [writeFields_cons_cons, mem_append, mem_cons, not_or, not_or]
      exact ⟨hfield, hne.symm, ih (forall_mem_cons.mp hnul).2 (.inl hne)⟩

theorem zero_notMem_text (useCrlf : Bool) {rows : List Row} (hnul : ∀ row ∈ rows, ∀ f ∈ row, 0 ∉ f)
    (hsep : sep ≠ 0 ∨ ∀ row ∈ rows, row.length = 1) :
    0 ∉ text sep useCrlf rows := by
  have hrow : ∀ row ∈ rows, 0 ∉ writeFields sep row := fun row h =>
    zero_notMem_writeFields (hnul row h) (hsep.imp_right fun hall => hall row h)
  have hend : 0 ∉ lineEnd useCrlf := by cases useCrlf <;> decide
  cases rows with
  | nil => exact nofun
  | cons row rows =>
    rw [text, mem_append, mem_flatMap, not_or]
    refine ⟨hrow row mem_cons_self, ?_⟩
    rintro ⟨row', hrow', hmem⟩
    exact (mem_append.mp hmem).elim hend (hrow row' (mem_cons_of_mem row hrow'))

/-- A separator that does not occur leaves one field to a row. -/
theorem rowLoop_single {d : Dialect} (hsep : d.sep = 0) (hstrict : d.strict = false) (s : RowState)
    (data : List UInt8) (hdata : 0 ∉ data) :
    ∃ row line rest, rowLoop d s data = .ok (row, line, rest) ∧ row.length = s.row.length + 1 ∧
      0 ∉ rest := by
  have htail : ∀ {c : UInt8} {l : List UInt8}, 0 ∉ c :: l → 0 ∉ l :=
    fun h hl => h (mem_cons_of_mem _ hl)
  fun_induction rowLoop d s data with
  | case1 s h => simp [hstrict] at h
  | case2 s _ => exact ⟨_, _, _, rfl, by simp [RowState.fields], nofun⟩
  | case3 s _ rest ih => exact ih (htail (htail hdata))
  | case4 s _ c rest _ ih => exact ih (htail hdata)
  | case5 s _ ih => exact ih nofun
  | case6 s c rest _ _ ih => exact ih (htail hdata)
  | case7 s rest _ _ ih => exact ih (htail hdata)
  | case8 s rest _ _ h => simp [hstrict] at h
  | case9 s rest _ _ _ ih => exact ih (htail hdata)
  | case10 s rest _ _ _ => exact absurd (hsep ▸ mem_cons_self) hdata
  | case11 s rest _ _ _ =>
    -- a line feed behind the carriage return goes with it
    refine ⟨_, _, _, rfl, by simp [RowState.fields], ?_⟩
    split
    · exact fun h => htail hdata (mem_of_mem_tail h)
    · exact htail hdata
  | case12 s rest _ _ _ _ => exact ⟨_, _, _, rfl, by simp [RowState.fields], htail hdata⟩
  | case13 s c rest _ _ _ _ _ h => simp [hstrict] at h
  | case14 s c rest _ _ _ _ _ _ ih => exact ih (htail hdata)

theorem rows_single {fuel : Nat} {r : Reader} (hsep : r.sep = 0) (hdata : 0 ∉ r.data) :
    ∀ row ∈ Reader.rows fuel r, row.length = 1 := by
  induction fuel generalizing r with
  | zero => exact nofun
  | succ fuel ih =>
    intro row hrow
    unfold Reader.rows at hrow
    split at hrow
    · next hnext =>
      have hne : r.data ≠ [] := of_decide_eq_true hnext
      obtain ⟨row₁, line, rest, hloop, hlen, hrest⟩ :=
        rowLoop_single (d := ⟨r.sep, r.quoteChar, r.lazyquotes, false⟩) hsep rfl
          ⟨false, false, 1, 1, [], []⟩ r.data hdata
      have hparse : r.next = (row₁, { r with data := rest, lineNumber := r.lineNumber + 1 }) := by
        unfold Reader.next parseRow parseRowEx
        rw [if_neg hne]
        simp only [hloop]
      rw [hparse] at hrow
      rcases mem_cons.mp hrow with rfl | hrow
      · exact hlen
      · exact ih (r := { r with data := rest, lineNumber := r.lineNumber + 1 }) hsep hrest row hrow
    · cases hrow

theorem length_le_text (sep : UInt8) (useCrlf : Bool) (rows : List Row) :
    rows.length ≤ (text sep useCrlf rows).length + 1 := by
  cases rows with
  | nil => exact Nat.zero_le _
  | cons row rows =>
    have hlines : rows.length ≤
        (rows.flatMap fun row => lineEnd useCrlf ++ writeFields sep row).length :=
      Items.length_le_flatMap fun row _ => by cases useCrlf <;> simp [lineEnd]
    rw [text, length_append, length_cons]
    omega

/-- **What was written is read back**, for every separator but the quote and the
line ends, exactly when the last row is not a single empty field and, with NUL
as separator, nothing is separated. -/
theorem readBack_iff (sep : UInt8) (useCrlf : Bool) (rows : List Row)
    (hsep : sep ≠ quote ∧ sep ≠ cr ∧ sep ≠ lf) (hrows : ∀ row ∈ rows, row ≠ [] ∧ ∀ f ∈ row, 0 ∉ f) :
    readBack sep (written sep useCrlf rows) = rows ↔
      rows.getLast? ≠ some [[]] ∧ (sep ≠ 0 ∨ ∀ row ∈ rows, row.length = 1) := by
  have hnul := fun row h => (hrows row h).2
  rw [written_eq]
  by_cases hseparated : sep ≠ 0 ∨ ∀ row ∈ rows, row.length = 1
  · -- nothing cuts the text
    rw [cstr_of_not_mem (zero_notMem_text useCrlf hnul hseparated), ← readable_eq_self]
    have hread := rows_text hsep useCrlf hrows (length_le_text sep useCrlf rows)
      (r := (readerNew (text sep useCrlf rows)).setSeparator sep) ⟨rfl, rfl⟩ rfl
    unfold readBack
    rw [hread]
    exact (and_iff_left hseparated).symm
  · refine ⟨fun hread => ?_, fun h => absurd h.2 hseparated⟩
    rw [not_or, not_not] at hseparated
    refine absurd (fun row hrow => ?_) hseparated.2
    rw [← hread] at hrow
    refine rows_single hseparated.1 ?_ row hrow
    intro hmem
    have := mem_takeWhile_imp hmem
    simp at this

/-- Quotes, separators and line ends in the fields, and an empty row that is not
the last one. -/
theorem quotedRows_readBack :
    readBack 59 (written 59 true [[[34, 59], [13, 10]], [[]], [[], [97]]]) =
      [[[34, 59], [13, 10]], [[]], [[], [97]]] :=
  (readBack_iff 59 true _ (by decide) (by decide)).mpr (by decide)

/-- `a`, and behind it a row of one empty field: the second row is lost. -/
theorem emptyLastRow_lost : readBack 44 (written 44 true [[[97]], [[]]]) = [[[97]]] := by
  decide +kernel

end Toke.Stdlib.Csv
