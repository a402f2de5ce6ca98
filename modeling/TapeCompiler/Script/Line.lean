import TapeCompiler.Script.Quote

/-! # Statement lines

Source text is brought to one statement a line (`normalize`): notes behind `//` are dropped, lines
are cut at semicolons outside of quotes and brackets, an opening brace ends its line and a closing
one starts its own; `\x7d else` stays together. -/

namespace TapeCompiler.Source

open Text

/-- A statement line and the number of the source line it comes from. -/
structure Line where
  number : Nat
  text : List Char
  deriving DecidableEq, Repr

/-- The text in front of the first two slashes outside of quotes. -/
def beforeNote : Marked → List Char
  | ('/', true) :: ('/', true) :: _ => []
  | (c, _) :: r => c :: beforeNote r
  | [] => []

/-- A finished piece, trimmed, if anything is left; it was gathered backwards. -/
def finished (gathered : List Char) : List (List Char) :=
  let t := trim gathered.reverse
  if t.isEmpty then [] else [t]

/-- Whether `else` comes next. -/
def elseNext (cs : List Char) : Bool := (after? "else".toList (trimFront cs)).isSome

/-- The lines of a piece: `\x7b` **ends a line** and `\x7d` starts one. -/
def cutBraces (gathered : List Char) : Marked → List (List Char)
  | [] => finished gathered
  | (c, isPlain) :: r =>
    if isPlain ∧ c = '\x7b' then finished (c :: gathered) ++ cutBraces [] r
    else if isPlain ∧ c = '\x7d' then
      finished gathered ++
        if elseNext (chars r) then cutBraces [c] r else [c] :: cutBraces [] r
    else cutBraces (c :: gathered) r

/-- The statements of a source line. -/
def statementsOf (line : List Char) : List (List Char) :=
  let text := trim (beforeNote (plain line))
  if text.isEmpty then []
  else (splitTop ';' text).flatMap fun piece => cutBraces [] (plain piece)

/-- The statement lines of a source text. -/
def normalize (source : String) : List Line :=
  (splitOn '\n' source.toList).zipIdx.flatMap fun (line, i) =>
    (statementsOf line).map fun text => ⟨i + 1, text⟩

end TapeCompiler.Source
