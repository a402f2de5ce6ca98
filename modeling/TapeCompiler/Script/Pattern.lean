import TapeCompiler.Script.Quote
import TapeCompiler.Script.Token

/-! # Patterns

The fixed beginnings and ends of statements: keywords, names (`name?`), dotted names (`dotted?`),
headers in parentheses before an opening brace (`header?`), and number texts (`numberText?`). -/

namespace TapeCompiler.Source

open Text

/-- What follows a keyword. -/
def keyword? (word : String) (cs : List Char) : Option (List Char) := after? word.toList cs

/-- What follows one or more blanks. -/
def blanks? : List Char → Option (List Char)
  | [] => none
  | c :: cs => if isBlank c then some (trimFront cs) else none

/-- Whether a text is a name. -/
def isName : List Char → Bool
  | [] => false
  | c :: cs => isNameStart c && cs.all isNamePart

/-- A name in front, **as long as possible**, and what follows it. -/
def name? (cs : List Char) : Option (List Char × List Char) :=
  let run := cs.takeWhile isNamePart
  if isName run then some (run, cs.dropWhile isNamePart) else none

/-- Names joined by dots in front, and what follows them. -/
def dotted? (cs : List Char) : Option (List (List Char) × List Char) :=
  let part (c : Char) : Bool := isNamePart c || c = '.'
  let names := splitOn '.' (cs.takeWhile part)
  if names.all isName then some (names, cs.dropWhile part) else none

/-- A text of one line, if it is one. -/
def oneLine? (cs : List Char) : Option (List Char) := if cs.contains '\n' then none else some cs

/-- A text of one line that is not empty. -/
def content? (cs : List Char) : Option (List Char) := if cs.isEmpty then none else oneLine? cs

/-- What stands in the parentheses of a header that ends with an opening brace. -/
def header? (cs : List Char) : Option (List Char) := do
  let r ← after? ['('] (trimFront cs)
  let r ← before? '\x7b' r
  let r ← before? ')' (trimBack r)
  oneLine? r

/-- The text without a closing brace in front and the blanks behind it. -/
def afterBrace (cs : List Char) : List Char := trimFront ((after? ['\x7d'] cs).getD cs)

/-- A digit or more, and what follows them. -/
def decimals? (cs : List Char) : Option (List Char × List Char) :=
  let run := cs.takeWhile isDecimal
  if run.isEmpty then none else some (run, cs.dropWhile isDecimal)

/-- A number text: its sign, its digits and, behind a point, more digits. -/
structure NumberText where
  negative : Bool
  whole : List Char
  places : Option (List Char)
  deriving DecidableEq, Repr

/-- The parts of a number text; digits may be of **any script**. -/
def numberText? (cs : List Char) : Option NumberText :=
  let (negative, r) := match cs with
    | '-' :: r => (true, r)
    | r => (false, r)
  match decimals? r with
  | some (whole, []) => some ⟨negative, whole, none⟩
  | some (whole, '.' :: r) =>
    match decimals? r with
    | some (places, []) => some ⟨negative, whole, some places⟩
    | _ => none
  | _ => none

end TapeCompiler.Source
