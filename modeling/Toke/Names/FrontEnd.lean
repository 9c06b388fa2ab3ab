/-
  Toke.Names.FrontEnd — **THE PASSES BEFORE THE TYPE CHECKER** (driver part of `main.c`).

  A default-profile source is lexed, parsed and resolved; each pass has to
  report nothing for the next one to run.
-/
import Toke.Parser.Program
import Toke.Names.Resolve

namespace Toke

/-- The tree of a source that lexes and parses without error. -/
def parseSource (src : Source) : Option Node :=
  match lex .default (src.length + 16) src with
  | none => none
  | some toks =>
    match parse (toks.length + src.length + 205) toks src .default with
    | some (some out) => if out.errors.isEmpty then some out.root else none
    | _ => none

/-- The tree and the name environment of a source that the resolver accepts. -/
def frontEnd (imports : Imports) (src : Source) : Option (Node × NameEnv) :=
  match parseSource src with
  | none => none
  | some ast =>
    if (resolveNames imports src ast).accepts then some (ast, nameEnv imports src ast)
    else none

end Toke
