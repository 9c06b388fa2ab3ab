/-
  Toke.Stdlib.Csv — **SEPARATED VALUES** (`stdlib/csv.c`).

  The writer quotes a field only where it must, and puts line ends between the
  rows; the reader is a loop over quotes, doubled quotes, separators and line
  ends.  `parse_row_ex` serves the lax and the strict reader; only the strict
  one has errors.
-/
import Toke.Stdlib.Bytes

namespace Toke.Stdlib.Csv

/-- The fields of a row. -/
abbrev Row := List (List UInt8)

/-- The double quote. -/
def quote : UInt8 := 34
/-- Carriage return. -/
def cr : UInt8 := 13
/-- Line feed. -/
def lf : UInt8 := 10

/-! ## §1. The writer. -/

/-- `TkCsvWriter`. -/
structure Writer where
  buf : List UInt8
  firstRow : Bool
  sep : UInt8
  useCrlf : Bool

/-- `csv_writer_new`, with `csv_writer_set_separator` and `csv_writer_use_crlf`. -/
def writerNew (sep : UInt8) (useCrlf : Bool) : Writer := ⟨[], true, sep, useCrlf⟩

/-- `field_needs_quoting`. -/
def fieldNeedsQuoting (sep : UInt8) (s : List UInt8) : Bool :=
  s.any fun c => c = sep || c = quote || c = lf || c = cr

/-- The bytes between the quotes. -/
def doubled (s : List UInt8) : List UInt8 :=
  s.flatMap fun c => if c = quote then [quote, c] else [c]

/-- A field, in quotes where it needs them. -/
def writeField (sep : UInt8) (f : List UInt8) : List UInt8 :=
  if fieldNeedsQuoting sep f then quote :: doubled f ++ [quote] else f

/-- The fields of a row, with separators between them. -/
def writeFields (sep : UInt8) : Row → List UInt8
  | [] => []
  | [f] => writeField sep (cstr f)
  | f :: fs => writeField sep (cstr f) ++ sep :: writeFields sep fs

/-- The line end of a writer. -/
def lineEnd (useCrlf : Bool) : List UInt8 := if useCrlf then [cr, lf] else [lf]

/-- `csv_writer_writerow`. -/
def writerow (w : Writer) (row : Row) : Writer :=
  { w with
    buf := w.buf ++ (if w.firstRow then [] else lineEnd w.useCrlf) ++ writeFields w.sep row
    firstRow := false }

/-- `csv_writer_flush`: the text has no length of its own. -/
def flush (w : Writer) : List UInt8 := cstr w.buf

/-! ## §2. One row. -/

/-- What a row is read with. -/
structure Dialect where
  sep : UInt8
  quoteChar : UInt8
  lazyquotes : Bool
  strict : Bool

/-- The outcomes of `RowParse` that are errors. -/
inductive RowError where
  | unterminated
  | afterQuote
  | bareQuote
  deriving DecidableEq

/-- The locals of `parse_row_ex`. -/
structure RowState where
  inQuotes : Bool
  justClosed : Bool
  quoteLine : Nat
  line : Nat
  field : List UInt8
  row : Row

/-- `rowbuf_push` of the field. -/
def RowState.fields (s : RowState) : Row := s.row ++ [cstr s.field]

/-- One more byte of the field. -/
def RowState.push (s : RowState) (c : UInt8) : RowState := { s with field := s.field ++ [c] }

/-- The closing quote. -/
def RowState.close (s : RowState) : RowState := { s with inQuotes := false, justClosed := true }

/-- The loop of `parse_row_ex`: the fields, the line behind the row and the
bytes behind it; or an error, with the line to blame. -/
def rowLoop (d : Dialect) : RowState → List UInt8 → Except (RowError × Nat) (Row × Nat × List UInt8)
  | s, [] =>
    if d.strict && s.inQuotes then .error (.unterminated, s.quoteLine)
    else .ok (s.fields, s.line, [])
  | s, c :: rest =>
    if s.inQuotes then
      if c = d.quoteChar then
        match rest with
        | c' :: rest' =>
          if c' = d.quoteChar then rowLoop d (s.push d.quoteChar) rest'
          else rowLoop d s.close (c' :: rest')
        | [] => rowLoop d s.close []
      else rowLoop d ({ s with line := if c = lf then s.line + 1 else s.line }.push c) rest
    else if c = d.quoteChar then
      if d.lazyquotes && s.field ≠ [] then rowLoop d (s.push c) rest
      else if d.strict && (s.field ≠ [] || s.justClosed) then
        .error (if s.justClosed then .afterQuote else .bareQuote, s.line)
      else rowLoop d { s with inQuotes := true, justClosed := false, quoteLine := s.line } rest
    else if c = d.sep then
      rowLoop d { s with row := s.fields, field := [], justClosed := false } rest
    else if c = cr then
      .ok (s.fields, s.line + 1, if rest.head? = some lf then rest.tail else rest)
    else if c = lf then .ok (s.fields, s.line + 1, rest)
    else if d.strict && s.justClosed then .error (.afterQuote, s.line)
    else rowLoop d (s.push c) rest

/-- `parse_row_ex`; `none` is `RP_EOF`. -/
def parseRowEx (d : Dialect) (line : Nat) (data : List UInt8) :
    Option (Except (RowError × Nat) (Row × Nat × List UInt8)) :=
  if data = [] then none else some (rowLoop d ⟨false, false, line, line, [], []⟩ data)

/-- `parse_row`: the fields and the bytes behind the row. -/
def parseRow (sep quoteChar : UInt8) (lazyquotes : Bool) (data : List UInt8) : Option (Row × List UInt8) :=
  match parseRowEx ⟨sep, quoteChar, lazyquotes, false⟩ 1 data with
  | some (.ok (row, _, rest)) => some (row, rest)
  | _ => none

/-! ## §3. The reader. -/

/-- `TkCsvReader` as `csv_reader_new` makes it: what is left of the data, and
the settings. -/
structure Reader where
  data : List UInt8
  sep : UInt8
  quoteChar : UInt8
  lazyquotes : Bool
  lineNumber : Nat

/-- `csv_reader_new`. -/
def readerNew (data : List UInt8) : Reader := ⟨data, 44, quote, false, 0⟩

/-- `csv_reader_set_separator`. -/
def Reader.setSeparator (r : Reader) (sep : UInt8) : Reader := { r with sep }

/-- `csv_reader_has_next`. -/
def Reader.hasNext (r : Reader) : Bool := r.data ≠ []

/-- `csv_reader_next`; the empty array at the end. -/
def Reader.next (r : Reader) : Row × Reader :=
  match parseRow r.sep r.quoteChar r.lazyquotes r.data with
  | some (row, rest) => (row, { r with data := rest, lineNumber := r.lineNumber + 1 })
  | none => ([], r)

/-- The rows a loop over `csv_reader_has_next` and `csv_reader_next` reads. -/
def Reader.rows : Nat → Reader → List Row
  | 0, _ => []
  | fuel + 1, r => if r.hasNext then r.next.1 :: Reader.rows fuel r.next.2 else []

/-- The text of a list of rows. -/
def written (sep : UInt8) (useCrlf : Bool) (rows : List Row) : List UInt8 :=
  flush (rows.foldl writerow (writerNew sep useCrlf))

/-- All rows of a text; every row takes at least one byte. -/
def readBack (sep : UInt8) (text : List UInt8) : List Row :=
  Reader.rows (text.length + 1) ((readerNew text).setSeparator sep)

end Toke.Stdlib.Csv
