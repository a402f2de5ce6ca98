import TapeCompiler.Tape.Symbol

/-! # Structured tape code

`Code` addresses cells absolutely: it adds to cells, executes a symbol on a cell and repeats while
a cell is not zero. Writing it (`Code.write`) puts the moves in between; a `Writer` knows the cell
its text leaves the pointer on. Every loop is written from its cell to its cell, so that cell is the
right one after any number of rounds. -/

namespace TapeCompiler

/-- Tape code over absolute addresses. -/
inductive Code
  | skip
  /-- Goes to a cell. -/
  | move (cell : Nat)
  | add (cell n : Nat)
  | sub (cell n : Nat)
  /-- Executes a symbol on a cell. -/
  | on (cell : Nat) (op : Op)
  /-- A text that leaves the pointer where it is. -/
  | text (s : String)
  /-- Repeats the body while the cell is not zero. -/
  | loop (cell : Nat) (body : Code)
  /-- Opens a loop on a cell; the code that closes it stands elsewhere. -/
  | opening (cell : Nat)
  /-- Closes a loop on a cell. -/
  | closing (cell : Nat)
  | seq (first second : Code)
  deriving DecidableEq, Repr

namespace Code

instance : Append Code := ⟨Code.seq⟩

/-- One code after another. -/
def all : List Code → Code
  | [] => skip
  | [c] => c
  | c :: cs => c ++ all cs

/-- Sets a cell to zero. -/
def clear (cell : Nat) : Code := loop cell (sub cell 1)

/-- A marker: a sign and a text in which nothing is executed. -/
def mark (s : Sign) (note : String) : Code := text (s.char.toString ++ sanitize note)

end Code

/-- A text of tape code and the cell it leaves the pointer on. -/
structure Writer where
  text : String
  pointer : Nat
  deriving DecidableEq, Repr

namespace Writer

/-- A writer with nothing written and the pointer on a cell. -/
def on (pointer : Nat) : Writer := ⟨"", pointer⟩

/-- Appends a character some number of times. -/
def push (w : Writer) (c : Char) (n : Nat) : Writer := { w with text := w.text.pushn c n }

/-- Moves the pointer to a cell. -/
def moveTo (w : Writer) (cell : Nat) : Writer :=
  let w := if cell > w.pointer then w.push '>' (cell - w.pointer)
    else w.push '<' (w.pointer - cell)
  { w with pointer := cell }

/-- Appends a text that leaves the pointer where it is. -/
def append (w : Writer) (s : String) : Writer := { w with text := w.text ++ s }

@[simp] theorem pointer_push (w : Writer) (c : Char) (n : Nat) :
    (w.push c n).pointer = w.pointer := rfl

@[simp] theorem pointer_moveTo (w : Writer) (cell : Nat) : (w.moveTo cell).pointer = cell := rfl

end Writer

namespace Code

/-- Writes code behind a text. -/
def write : Code → Writer → Writer
  | skip, w => w
  | move cell, w => w.moveTo cell
  | add cell n, w => (w.moveTo cell).push '+' n
  | sub cell n, w => (w.moveTo cell).push '-' n
  | on cell op, w => (w.moveTo cell).push op.char 1
  | text s, w => w.append s
  | loop cell body, w => ((body.write ((w.moveTo cell).push '[' 1)).moveTo cell).push ']' 1
  | opening cell, w => (w.moveTo cell).push '[' 1
  | closing cell, w => (w.moveTo cell).push ']' 1
  | seq first second, w => second.write (first.write w)

@[simp] theorem write_append (c d : Code) (w : Writer) :
    (c ++ d).write w = d.write (c.write w) := rfl

/-- The text of code that starts on a cell. -/
def textFrom (pointer : Nat) (c : Code) : String := (c.write (Writer.on pointer)).text

end Code

end TapeCompiler
