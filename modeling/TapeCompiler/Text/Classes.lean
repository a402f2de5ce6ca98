import TapeCompiler.Text.Tables

/-! # Character classes

The classes the source language and the listings ask for: blanks (`isBlank`), the characters of a
name (`isNameStart`, `isNamePart`), decimal digits (`isDecimal`), and the characters that a quoted
text spells by number (`isSpelled`). Between double quotes, these, quotes, backslashes and the usual
controls are escaped (`quoted`). -/

namespace TapeCompiler.Text

/-- White space, of any script; the byte order mark is none. -/
def isBlank (c : Char) : Bool :=
  c = ' ' || ('\t' ≤ c && c ≤ '\r') || c.toNat = 0x85 || c.toNat = 0xA0 || c.toNat = 0x1680 ||
  (0x2000 ≤ c.toNat && c.toNat ≤ 0x200A) || c.toNat = 0x2028 || c.toNat = 0x2029 ||
  c.toNat = 0x202F || c.toNat = 0x205F || c.toNat = 0x3000

/-- A letter, digit, mark or underscore, of any script. -/
def isWord (c : Char) : Bool :=
  if c.toNat < 0x80 then c.isAlphanum || c = '_' else wordTable.has c

/-- A decimal digit, of any script. -/
def isDecimal (c : Char) : Bool :=
  if c.toNat < 0x80 then c.isDigit else digitTable.has c

/-- The first character of a name: **an ASCII letter**, an underscore or a dollar sign. -/
def isNameStart (c : Char) : Bool := c.isAlpha || c = '_' || c = '$'

/-- A later character of a name. -/
def isNamePart (c : Char) : Bool := isWord c || c = '$'

/-- A character that a quoted text spells by its number: it has no glyph of its own. -/
def isSpelled (c : Char) : Bool :=
  if 0x20 ≤ c.toNat && c.toNat < 0x7F then false else hiddenTable.has c || extenderTable.has c

/-- The text without blanks in front. -/
def trimFront (cs : List Char) : List Char := cs.dropWhile isBlank

/-- The text without blanks at its end. -/
def trimBack (cs : List Char) : List Char := (cs.reverse.dropWhile isBlank).reverse

/-- The text without blanks at either end. -/
def trim (cs : List Char) : List Char := trimBack (trimFront cs)

/-! ### Quoted text -/

/-- The number of a character in hexadecimal. -/
def hex (n : Nat) : List Char := Nat.toDigits 16 n

/-- One character as it stands between quotes. -/
def escape (c : Char) : List Char :=
  if c = '"' then ['\\', '"']
  else if c = '\\' then ['\\', '\\']
  else if c = '\n' then ['\\', 'n']
  else if c = '\r' then ['\\', 'r']
  else if c = '\t' then ['\\', 't']
  else if c = '\x00' then ['\\', '0']
  else if isSpelled c then ['\\', 'u', '\x7b'] ++ hex c.toNat ++ ['\x7d']
  else [c]

/-- A text between double quotes. -/
def quoted (s : String) : String :=
  String.ofList ('"' :: s.toList.flatMap escape ++ ['"'])

end TapeCompiler.Text
