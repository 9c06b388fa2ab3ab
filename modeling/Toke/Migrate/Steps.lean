/-
  Toke.Migrate.Steps — **THE TEXT-LEVEL STEPS OF `tkc_migrate`** (`migrate.c`, steps 3 to 6).

  From the cleaned text and its tokens on, each step writes a buffer through
  one index:

      step 3   `buf`   the tokens rewritten           clen*3+2048
      step 4   `buf2`  `e|{` becomes `mt e {`         blen*2+512
      step 5   `buf3`  `if c {` becomes `if(c){`      b2*2+256, then back into `buf2`
      step 6   `out`   `}` becomes `};`               b2*2+256, then back into `buf2`

  Step 4 finds a `|{` after it has copied the expression before it: it goes
  back over the copy and writes it again behind `mt `.
-/
import Toke.Lexer.Lex
import Toke.Library.Writing

namespace Toke.Migrate

open Writing

/-! ## §1. Helpers. -/

/-- `remove_underscores` into a buffer of `cap` bytes. -/
def removeUnderscores (s : List Char) (cap : Nat) : List Char :=
  (s.filter (· != '_')).take (cap - 1)

/-- `s[i]` is a quote that no backslash escapes. -/
def quoteAt (s : List Char) (i : Nat) : Bool :=
  s[i]? == some '"' && (i == 0 || s[i - 1]? != some '\\')

/-- `is_in_string`. -/
def isInString (s : List Char) (pos : Nat) : Bool :=
  (List.range pos).foldl (fun q i => if quoteAt s i then !q else q) false

/-- `is_primitive`. -/
def isPrimitive (lo : List Char) : Bool :=
  ["i64", "u64", "i32", "u32", "i16", "u16", "i8", "u8", "f32", "f64", "str", "bool",
    "void"].any fun s => s.toList == lo

/-- `(ch>='A'&&ch<='Z') ? ch+32 : ch`. -/
def lower (ch : Char) : Char :=
  if 'A' ≤ ch ∧ ch ≤ 'Z' then Char.ofNat (ch.toNat + 32) else ch

/-! ## §2. Step 3: tokens. -/

/-- The kind of a token of the array, counted back from `i`. -/
def kindBefore (toks : List Token) (i back : Nat) : Option TokenKind :=
  if back ≤ i then (toks[i - back]?).map (·.kind) else none

/-- The kinds of a type name. -/
def typeNameKinds : List TokenKind := [.typeIdent, .ident]

/-- Does the `[` at `i` open `[Type]`? -/
def opensType (toks : List Token) (i : Nat) : Bool :=
  (toks[i + 1]?).any (fun t => typeNameKinds.contains t.kind) &&
    (toks[i + 2]?).any fun t => t.kind = .rbracket

/-- Does the `]` at `i` close `[Type]`? -/
def closesType (toks : List Token) (i : Nat) : Bool :=
  kindBefore toks i 2 = some .lbracket && (kindBefore toks i 1).any typeNameKinds.contains

/-- Is the token at `i` the name of a `t=` declaration that heads a statement? -/
def afterTypeDecl (c : Source) (toks : List Token) (i : Nat) : Bool :=
  kindBefore toks i 1 = some .eq && 2 ≤ i &&
    (toks[i - 2]?).any (fun t => t.kind = .kwT ||
      (t.kind = .ident && t.len = 1 && (c.drop t.start).head?.any ['t', 'T'].contains)) &&
    (i < 3 || (kindBefore toks i 3).any [TokenKind.semi, .lbrace, .rbrace].contains)

/-- The words that never get a `$`. -/
def plainWords : List String :=
  ["if", "el", "lp", "br", "let", "mut", "as", "rt", "mt", "sc", "true", "false"]

/-- Does the identifier at `i`, without its underscores `tmp`, get a `$`? -/
def needsDollar (c : Source) (toks : List Token) (i : Nat) (tmp : List Char) : Bool :=
  (kindBefore toks i 1 = some .at || afterTypeDecl c toks i) && !isPrimitive tmp &&
    tmp.head?.any (fun ch => 'a' ≤ ch && ch ≤ 'z') && !plainWords.any fun s => s.toList == tmp

/-- What is written for the token at `i`. -/
def tokenText (c : Source) (toks : List Token) (i : Nat) (t : Token) : List Char :=
  match t.kind with
  | .kwM | .kwF | .kwT | .kwI =>
    if t.len = 1 then (t.text c).map lower else t.text c
  | .typeIdent =>
    let clean := removeUnderscores (((t.text c).take 127).map lower) 128
    if isPrimitive clean then clean else '$' :: clean
  | .lbracket => if opensType toks i then ['@'] else ".get(".toList
  | .rbracket => if closesType toks i then [] else [')']
  | .ident =>
    let tmp := removeUnderscores (t.text c) 256
    if needsDollar c toks i tmp then '$' :: tmp else tmp
  | .dollar => ['$']
  | .caret | .tilde | .shl | .shr => []
  | _ => t.text c

/-- The token loop: the gap before a token, then the token. -/
def tokenLoop (c : Source) (toks : List Token) : List Token → Nat → Nat → Pen Char → Pen Char × Nat
  | [], _, prev, w => (w, prev)
  | t :: ts, i, prev, w =>
    if t.kind = .eof then (w, prev)
    else
      tokenLoop c toks ts (i + 1) (t.start + t.len)
        ((w.puts (slice c prev (t.start - prev))).puts (tokenText c toks i t))

/-- Step 3, with its terminator. -/
def tokenStep (c : Source) (toks : List Token) : Pen Char :=
  let (w, prev) := tokenLoop c toks toks 0 0 .start
  (w.puts (c.drop prev)).mark

/-! ## §3. Step 4: `|{`. -/

/-- The `|{` that is rewritten. -/
def matchHead (buf : List Char) (p : Nat) : Bool :=
  buf[p]? == some '|' && buf[p + 1]? == some '{' && !isInString buf p

/-- The bytes before which an expression starts. -/
def boundaries : List Char := [';', '{', '=', '\n', '<']

/-- The walk back over balanced parentheses. -/
def walkBack (buf : List Char) : Nat → Nat → Nat
  | _, 0 => 0
  | depth, es + 1 =>
    match buf[es]? with
    | some ')' => walkBack buf (depth + 1) es
    | some '(' => if depth > 0 then walkBack buf (depth - 1) es else es + 1
    | some pc => if depth = 0 ∧ pc ∈ boundaries then es + 1 else walkBack buf depth es
    | none => walkBack buf depth es

/-- Where the expression before `p` starts. -/
def exprStart (buf : List Char) (p : Nat) : Nat :=
  let es := walkBack buf 0 p
  es + ((slice buf es (p - es)).takeWhile isBlank).length

/-- `buf2`, and for each rewrite the bytes it goes back over and the copy it
writes instead. -/
structure Matching where
  pen : Pen Char
  rewinds : List (List Char × List Char)
  deriving DecidableEq

/-- The rewrite of the `|{` at `p`. -/
def Matching.rewrite (buf : List Char) (p : Nat) (m : Matching) : Matching :=
  let es := exprStart buf p
  let copy := slice buf es (p - es)
  { pen := (m.pen.rewind (p - es)).puts ("mt ".toList ++ copy ++ " \x7b".toList)
    rewinds := (m.pen.text.drop (m.pen.text.length - (p - es)), copy) :: m.rewinds }

/-- The loop of step 4. -/
def matchLoop (buf : List Char) : Nat → Nat → Matching → Matching
  | 0, _, m => m
  | fuel + 1, p, m =>
    match buf[p]? with
    | none => m
    | some ch =>
      if matchHead buf p then matchLoop buf fuel (p + 2) (m.rewrite buf p)
      else matchLoop buf fuel (p + 1) { m with pen := m.pen.put ch }

/-- Step 4 without its terminator. -/
def matchStep (buf : List Char) : Matching := matchLoop buf buf.length 0 ⟨.start, []⟩

/-! ## §4. Step 5: `if c {`. -/

/-- An `if ` without parentheses, where a keyword can stand. -/
def ifHead (s : List Char) (p : Nat) : Bool :=
  p + 3 < s.length && s[p]? == some 'i' && s[p + 1]? == some 'f' && s[p + 2]? == some ' ' &&
    s[p + 3]? != some '(' && !isInString s p &&
    (p == 0 || (s[p - 1]?).any [';', '{', '\n', ' '].contains)

/-- The loop of step 5. -/
def wrapLoop (s : List Char) : Nat → Nat → Pen Char → Pen Char
  | 0, _, w => w
  | fuel + 1, p, w =>
    match s[p]? with
    | none => w
    | some ch =>
      if ifHead s p then
        let p₁ := p + 2 + ((s.drop (p + 2)).takeWhile (· == ' ')).length
        let cond := (s.drop p₁).takeWhile (· != '{')
        let w := (w.puts "if(".toList).puts cond
        -- the blanks before the brace are taken back
        let w := w.rewind (w.text.reverse.takeWhile isBlank).length
        wrapLoop s fuel (p₁ + cond.length + 1) (w.puts ")\x7b".toList)
      else wrapLoop s fuel (p + 1) (w.put ch)

/-- Step 5. -/
def wrapStep (s : List Char) : Pen Char := wrapLoop s s.length 0 .start

/-! ## §5. Step 6: `};`. -/

/-- White space. -/
def isSpace (ch : Char) : Bool := ch == ' ' || ch == '\t' || ch == '\n' || ch == '\r'

/-- Is a `;` added behind the `}` at `i`?  Not before `el`, `;`, `)` or `}`. -/
def semiAfter (s : List Char) (i : Nat) : Bool :=
  let j := i + 1 + ((s.drop (i + 1)).takeWhile isSpace).length
  match s[j]? with
  | none => true
  | some ch =>
    if ch = 'e' ∧ s[j + 1]? = some 'l' then false
    else if ch = ';' ∨ ch = ')' ∨ ch = '}' then false
    else ('a' ≤ ch && ch ≤ 'z') || ['$', '@', '<', '('].contains ch

/-- One turn of `postpass_semicolons`. -/
def semiTurn (s : List Char) (w : Pen Char) (i : Nat) : Pen Char :=
  match s[i]? with
  | none => w
  | some ch =>
    if ch = '}' ∧ isInString s i = false ∧ semiAfter s i = true then (w.put ch).put ';'
    else w.put ch

/-- `postpass_semicolons`. -/
def postpassSemicolons (s : List Char) : Pen Char := (List.range s.length).foldl (semiTurn s) .start

/-! ## §6. The steps together. -/

/-- Every buffer that steps 3 to 6 write, and the rewinds of step 4. -/
structure Steps where
  buf : Pen Char
  buf2 : Pen Char
  buf3 : Pen Char
  back5 : Pen Char
  out : Pen Char
  back6 : Pen Char
  rewinds : List (List Char × List Char)

/-- Steps 3 to 6. -/
def migrateSteps (c : Source) (toks : List Token) : Steps :=
  let buf := tokenStep c toks
  let m := matchStep buf.text
  let buf3 := wrapStep m.pen.text
  let out := postpassSemicolons buf3.text
  { buf
    buf2 := m.pen.mark
    buf3
    back5 := (Pen.start.puts buf3.text).mark
    out
    back6 := Pen.start.puts out.text
    rewinds := m.rewinds }

/-- Every write is inside its buffer, and every rewrite of step 4 goes back
over exactly the copy of the expression. -/
structure Steps.Safe (s : Steps) (clen : Nat) : Prop where
  buf : s.buf.Inside (clen * 3 + 2048)
  buf2 : s.buf2.Inside (s.buf.text.length * 2 + 512)
  buf3 : s.buf3.Inside (s.buf2.text.length * 2 + 256)
  back5 : s.back5.Inside (s.buf.text.length * 2 + 512)
  out : s.out.Inside (s.buf3.text.length * 2 + 256)
  back6 : s.back6.Inside (s.buf.text.length * 2 + 512)
  rewinds : ∀ r ∈ s.rewinds, r.1 = r.2

end Toke.Migrate
