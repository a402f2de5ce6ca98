import TapeCompiler.Text.Classes
import TapeCompiler.Text.Pieces

/-! # Quotes and nesting

A scan of source text knows where it stands relative to quotes (`Quoting`); `plain` marks the
characters that lie outside of them. On marked text separators are found at nesting depth zero
(`splitTop`), and the partner of a first bracket at the end (`enclosed?`). -/

namespace TapeCompiler.Source

open Text

/-- Where a scan stands relative to quotes. -/
inductive Quoting
  | outside
  | inside (quote : Char)
  /-- Behind a backslash. -/
  | escaped (quote : Char)
  deriving DecidableEq, Repr

/-- Whether a character opens a quotation. -/
def isQuote (c : Char) : Bool := c = '"' || c = '\''

/-- Where a scan stands after a character. -/
def Quoting.next : Quoting → Char → Quoting
  | outside, c => if isQuote c then inside c else outside
  | inside q, c => if c = '\\' then escaped q else if c = q then outside else inside q
  | escaped q, _ => inside q

/-- A text of which every character is marked: true **outside of quotes**, false for the quotes and
all between them. -/
abbrev Marked := List (Char × Bool)

/-- Marks the characters from a state of the scan on. -/
def markFrom : Quoting → List Char → Marked
  | _, [] => []
  | s, c :: cs => (c, s = .outside && s.next c = .outside) :: markFrom (s.next c) cs

/-- Marks the characters of a text. -/
def plain (cs : List Char) : Marked := markFrom .outside cs

/-- The characters of a marked text. -/
def chars (m : Marked) : List Char := m.map Prod.fst

theorem chars_markFrom (s : Quoting) (cs : List Char) : chars (markFrom s cs) = cs := by
  induction cs generalizing s with
  | nil => rfl
  | cons c cs ih => exact congrArg (c :: ·) (ih _)

@[simp] theorem chars_plain (cs : List Char) : chars (plain cs) = cs := chars_markFrom _ cs

/-! ### Nesting -/

/-- How a character outside of quotes changes the depth of parentheses and brackets. -/
def nesting (c : Char) : Int :=
  if c = '(' ∨ c = '[' then 1 else if c = ')' ∨ c = ']' then -1 else 0

/-- The depth behind a marked character. -/
def deeper (depth : Int) (c : Char × Bool) : Int := if c.2 then depth + nesting c.1 else depth

/-- The pieces between the separators outside of quotes **at depth zero**. -/
def piecesAt (sep : Char) : Int → Marked → List (List Char)
  | _, [] => [[]]
  | depth, c :: r =>
    if c.2 ∧ c.1 = sep ∧ depth = 0 then [] :: piecesAt sep depth r
    else consFirst c.1 (piecesAt sep (deeper depth c) r)

/-- The trimmed pieces of a text between separators; empty ones are kept. -/
def splitTop (sep : Char) (cs : List Char) : List (List Char) :=
  (piecesAt sep 0 (plain cs)).map trim

/-- Whether the bracket open at a depth is closed by the last character. -/
def closesLast (opening closing : Char) : Nat → Marked → Bool
  | _, [] => false
  | depth, (c, isPlain) :: r =>
    if isPlain ∧ c = opening then closesLast opening closing (depth + 1) r
    else if isPlain ∧ c = closing then
      if depth ≤ 1 then r.isEmpty else closesLast opening closing (depth - 1) r
    else closesLast opening closing depth r

/-- What stands between a first bracket and a last one that closes it. -/
def enclosed? (opening closing : Char) (cs : List Char) : Option (List Char) :=
  match cs with
  | c :: r =>
    if c = opening ∧ closesLast opening closing 0 (plain cs) then some r.dropLast else none
  | [] => none

end TapeCompiler.Source
