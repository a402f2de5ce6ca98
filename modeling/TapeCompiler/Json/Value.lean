import TapeCompiler.Json.Number

/-! # JSON values

`Value.read?` reads a text that is one JSON value between blanks. Texts are kept undecoded, for only
some are ever looked at: `Units.text?` is the text, unless half of a surrogate pair stands alone. -/

namespace TapeCompiler.Json

/-- A text as code points and the numbers of its escapes, in order. -/
abbrev Units := List Nat

/-- The characters, with pairs of surrogates joined. -/
def Units.chars? : Units → Option (List Char)
  | [] => some []
  | [u] => if 0xD800 ≤ u ∧ u < 0xE000 then none else some [Char.ofNat u]
  | u :: v :: rest =>
    if 0xD800 ≤ u ∧ u < 0xDC00 then
      if 0xDC00 ≤ v ∧ v < 0xE000 then
        let c := Char.ofNat (0x10000 + (u - 0xD800) * 0x400 + (v - 0xDC00))
        (Units.chars? rest).map (c :: ·)
      else none
    else if 0xDC00 ≤ u ∧ u < 0xE000 then none
    else (Units.chars? (v :: rest)).map (Char.ofNat u :: ·)

/-- The text. -/
def Units.text? (units : Units) : Option String := units.chars?.map String.ofList

/-- A JSON value; the members of an object keep their order and may repeat a name. -/
inductive Value
  | null
  | bool (b : Bool)
  | number (n : Numeral)
  | text (units : Units)
  | array (items : List Value)
  | object (members : List (Units × Value))

/-! ### Reading -/

/-- A reader takes something from the front of a text and leaves the rest. -/
abbrev Reader (α : Type) := List Char → Option (α × List Char)

/-- Whether a character is blank. -/
def isBlank (c : Char) : Bool := c = ' ' || c = '\n' || c = '\t' || c = '\r'

/-- A text without the blanks in front. -/
def skipBlanks (cs : List Char) : List Char := cs.dropWhile isBlank

/-- The value of a hexadecimal digit. -/
def hexValue? (c : Char) : Option Nat :=
  if '0' ≤ c ∧ c ≤ '9' then some (c.toNat - '0'.toNat)
  else if 'a' ≤ c ∧ c ≤ 'f' then some (c.toNat - 'a'.toNat + 10)
  else if 'A' ≤ c ∧ c ≤ 'F' then some (c.toNat - 'A'.toNat + 10)
  else none

/-- The number of hexadecimal digits. -/
def hex? (cs : List Char) : Option Nat :=
  cs.foldlM (fun n c => (hexValue? c).map fun d => 16 * n + d) 0

/-- The character that an escape of one letter stands for. -/
def escaped? : Char → Option Char
  | '"' => some '"'
  | '\\' => some '\\'
  | '/' => some '/'
  | 'b' => some '\x08'
  | 'f' => some '\x0c'
  | 'n' => some '\n'
  | 'r' => some '\r'
  | 't' => some '\t'
  | _ => none

/-- Reads a text behind its opening quote; control characters must be escaped. -/
def readText : Reader Units
  | [] => none
  | '"' :: rest => some ([], rest)
  | '\\' :: 'u' :: a :: b :: c :: d :: rest => do
    let unit ← hex? [a, b, c, d]
    let (units, rest) ← readText rest
    return (unit :: units, rest)
  | '\\' :: letter :: rest => do
    let c ← escaped? letter
    let (units, rest) ← readText rest
    return (c.toNat :: units, rest)
  | c :: rest => do
    guard (' ' ≤ c ∧ c ≠ '\\')
    let (units, rest) ← readText rest
    return (c.toNat :: units, rest)

/-- Reads digits, at least one. -/
def readRun : Reader (List Char) := fun cs =>
  let digits := cs.takeWhile Char.isDigit
  if digits.isEmpty then none else some (digits, cs.dropWhile Char.isDigit)

/-- Reads the digits behind a point, if there is one. -/
def readPlaces : Reader (List Char)
  | '.' :: rest => readRun rest
  | rest => some ([], rest)

/-- Reads the digits of an exponent. -/
def readPower (negative : Bool) : Reader (Option Int) := fun cs => do
  let (digits, rest) ← readRun cs
  let n ← readDigits digits
  return (some (if negative then -(n : Int) else n), rest)

/-- Reads an exponent, if there is one. -/
def readExponent : Reader (Option Int)
  | 'e' :: rest | 'E' :: rest =>
    match rest with
    | '+' :: rest => readPower false rest
    | '-' :: rest => readPower true rest
    | rest => readPower false rest
  | rest => some (none, rest)

/-- Reads a number; only a lone zero may **start with zero**. -/
def readNumeral : Reader Numeral := fun cs => do
  let (negative, cs) := match cs with
    | '-' :: rest => (true, rest)
    | rest => (false, rest)
  let (whole, cs) ← readRun cs
  guard (whole.head? ≠ some '0' ∨ whole = ['0'])
  let (places, cs) ← readPlaces cs
  let (exponent, cs) ← readExponent cs
  return (⟨negative, whole, places, exponent⟩, cs)

mutual
/-- Reads a value that nests at most `n` deep. -/
def readValue (n : Nat) (cs : List Char) : Option (Value × List Char) :=
  match n with
  | 0 => none
  | n + 1 =>
    match skipBlanks cs with
    | 'n' :: 'u' :: 'l' :: 'l' :: rest => some (.null, rest)
    | 't' :: 'r' :: 'u' :: 'e' :: rest => some (.bool true, rest)
    | 'f' :: 'a' :: 'l' :: 's' :: 'e' :: rest => some (.bool false, rest)
    | '"' :: rest => (readText rest).map fun (units, rest) => (.text units, rest)
    | '[' :: rest =>
      match skipBlanks rest with
      | ']' :: rest => some (.array [], rest)
      | rest => (readItems n rest).map fun (items, rest) => (.array items, rest)
    | '\x7b' :: rest =>
      match skipBlanks rest with
      | '\x7d' :: rest => some (.object [], rest)
      | rest => (readMembers n rest).map fun (members, rest) => (.object members, rest)
    | rest => (readNumeral rest).map fun (numeral, rest) => (.number numeral, rest)

/-- Reads the items of an array and its end. -/
def readItems (n : Nat) (cs : List Char) : Option (List Value × List Char) :=
  match n with
  | 0 => none
  | n + 1 => do
    let (item, rest) ← readValue n cs
    match skipBlanks rest with
    | ']' :: rest => return ([item], rest)
    | ',' :: rest =>
      let (items, rest) ← readItems n rest
      return (item :: items, rest)
    | _ => none

/-- Reads the members of an object and its end. -/
def readMembers (n : Nat) (cs : List Char) : Option (List (Units × Value) × List Char) :=
  match n with
  | 0 => none
  | n + 1 =>
    match skipBlanks cs with
    | '"' :: rest => do
      let (name, rest) ← readText rest
      match skipBlanks rest with
      | ':' :: rest =>
        let (value, rest) ← readValue n rest
        match skipBlanks rest with
        | '\x7d' :: rest => return ([(name, value)], rest)
        | ',' :: rest =>
          let (members, rest) ← readMembers n rest
          return ((name, value) :: members, rest)
        | _ => none
      | _ => none
    | _ => none
end

/-- The value that a whole text writes. Of two steps of reading at least one takes a character, so
twice the length of the text bounds the nesting. -/
def Value.read? (text : String) : Option Value := do
  let cs := text.toList
  let (value, rest) ← readValue (2 * cs.length + 1) cs
  guard (skipBlanks rest).isEmpty
  return value

end TapeCompiler.Json
