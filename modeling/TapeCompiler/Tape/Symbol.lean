import TapeCompiler.Fault

/-! # The symbols of the tape language

The eight base symbols and the negation `~` are executed (`Op.ofChar?`); ten further signs mark
calls, labels and notes and are skipped by the machine. `strip` leaves the base symbols only, and
`sanitize` takes every symbol and sign out of a text. -/

namespace TapeCompiler

/-- An executed symbol. -/
inductive Op
  | inc
  | dec
  | left
  | right
  | enter
  | leave
  | write
  | read
  | negate
  deriving DecidableEq, Repr

/-- The operation a character stands for; all other characters are skipped. -/
def Op.ofChar? : Char → Option Op
  | '+' => some inc
  | '-' => some dec
  | '<' => some left
  | '>' => some right
  | '[' => some enter
  | ']' => some leave
  | '.' => some write
  | ',' => some read
  | '~' => some negate
  | _ => none

/-- The character of an operation. -/
def Op.char : Op → Char
  | inc => '+'
  | dec => '-'
  | left => '<'
  | right => '>'
  | enter => '['
  | leave => ']'
  | write => '.'
  | read => ','
  | negate => '~'

theorem Op.ofChar?_char (o : Op) : Op.ofChar? o.char = some o := by cases o <;> rfl

/-- A sign that marks what the tape language cannot express. -/
inductive Sign
  /-- A call of a function of the program. -/
  | call
  /-- A call that nothing resolves. -/
  | unresolved
  | ret
  | label
  | jump
  | conditional
  | importing
  | exporting
  | object
  | comment
  deriving DecidableEq, Repr

/-- The character of a sign. -/
def Sign.char : Sign → Char
  | call => '@'
  | unresolved => '?'
  | ret => '^'
  | label => ':'
  | jump => '|'
  | conditional => '='
  | importing => '&'
  | exporting => '%'
  | object => '*'
  | comment => '#'

/-- The sign of a character. -/
def Sign.ofChar? (c : Char) : Option Sign :=
  [call, unresolved, ret, label, jump, conditional, importing, exporting, object, comment].find?
    fun s => s.char = c

/-- Whether a character is one of the eight base symbols. -/
def isBase (c : Char) : Bool :=
  match Op.ofChar? c with
  | some .negate | none => false
  | some _ => true

/-- Negation in base symbols; the cell to the right must be zero. -/
def negation : List Char := "[->-<]>[-<+>]<".toList

/-- One character in base symbols. -/
def stripChar (c : Char) : List Char :=
  match Op.ofChar? c with
  | some .negate => negation
  | some _ => [c]
  | none => []

/-- The code in **base symbols only**: negation is spelled out, all else dropped. -/
def strip (code : String) : String := String.ofList (code.toList.flatMap stripChar)

/-- A character that a free text may not hold. -/
def isReserved (c : Char) : Bool :=
  (Op.ofChar? c).isSome || (Sign.ofChar? c).isSome || c = '\n' || c = '\r'

/-- A free text with an underscore for every symbol, sign and line break. -/
def sanitize (text : String) : String :=
  String.ofList (text.toList.map fun c => if isReserved c then '_' else c)

theorem not_isReserved_sanitize (text : String) : ∀ c ∈ (sanitize text).toList, ¬ isReserved c := by
  simp only [sanitize, String.toList_ofList, List.mem_map]
  rintro c ⟨d, -, rfl⟩
  split
  · decide
  · assumption

end TapeCompiler
