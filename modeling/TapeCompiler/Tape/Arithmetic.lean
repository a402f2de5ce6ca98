import TapeCompiler.Cells.Operand
import TapeCompiler.Tape.Cell
import TapeCompiler.Tape.Code

/-! # Arithmetic on cells

Tape code for adding constants, copying cells, the thirteen operators, truth values and printing.
Above the cells of the program lies a scratch block (`Scratch`); every piece of code expects the
scratch cells it uses to be zero and leaves them zero. -/

namespace TapeCompiler

/-- A block of twelve work cells, given by its first. -/
structure Scratch where
  base : Nat
  deriving DecidableEq, Repr

/-- The cells of a scratch block. -/
def scratchCells : Nat := 12

namespace Scratch

/-- The cell in which a number is negated. -/
def neg (s : Scratch) : Nat := s.base

/-- The cell right of `neg`, **always zero**: the expansion of a negation goes through it. -/
def guard (s : Scratch) : Nat := s.base + 1

/-- The cell in which a constant is built. -/
def constant (s : Scratch) : Nat := s.base + 2

/-- The cell by which a constant is multiplied. -/
def multiplier (s : Scratch) : Nat := s.base + 3

/-- The first operand. -/
def a (s : Scratch) : Nat := s.base + 4

/-- The second operand. -/
def b (s : Scratch) : Nat := s.base + 5

/-- What is left of a divisor, or a copy. -/
def c (s : Scratch) : Nat := s.base + 6

/-- A quotient. -/
def d (s : Scratch) : Nat := s.base + 7

/-- A remainder, or the choice between two values. -/
def e (s : Scratch) : Nat := s.base + 8

/-- A flag. -/
def f (s : Scratch) : Nat := s.base + 9

/-- A copy to be tested. -/
def g (s : Scratch) : Nat := s.base + 10

/-- The way back of a copy. -/
def h (s : Scratch) : Nat := s.base + 11

end Scratch

namespace Code

/-! ### Moving and building -/

/-- Adds a cell to another and clears it. -/
def moveAdd (source target : Nat) : Code := loop source (sub source 1 ++ add target 1)

/-- Subtracts a cell from another and clears it. -/
def moveSub (source target : Nat) : Code := loop source (sub source 1 ++ sub target 1)

/-- Adds a cell to another; the cell is restored by way of a third. -/
def copyAdd (source target way : Nat) : Code :=
  loop source (sub source 1 ++ add target 1 ++ add way 1) ++ moveAdd way source

/-- The digits of a number in base 16, highest first; zero has none. -/
def digits16 (n : Nat) : List Nat :=
  if _h : n = 0 then [] else digits16 (n / 16) ++ [n % 16]
termination_by n
decreasing_by omega

/-- Multiplies a cell by 16. -/
def times16 (cell way : Nat) : Code := moveAdd cell way ++ loop way (sub way 1 ++ add cell 16)

/-- Builds a number in a cell that is zero, **digit by digit in base 16**. -/
def build (cell n way : Nat) : Code :=
  match digits16 n with
  | [] => skip
  | first :: rest =>
    rest.foldl (fun code digit => code ++ times16 cell way ++ add cell digit) (add cell first)

/-- The largest number written as a plain run of one symbol. -/
def directLimit : Nat := 16

/-- Adds a constant to a cell, modulo the width: directly when the number or its complement is
small, else built in scratch. -/
def addConst (w : CellWidth) (s : Scratch) (cell : Nat) (n : Int64) : Code :=
  let up := w.wrap n
  let down := w.modulus - up
  if up = 0 then skip
  else if up ≤ directLimit then add cell up
  else if down ≤ directLimit then sub cell down
  else build s.constant up s.multiplier ++ moveAdd s.constant cell

/-- Adds a number to a cell; a negative one is written as its magnitude and **negated**. -/
def addLiteral (w : CellWidth) (s : Scratch) (cell : Nat) (n : Int64) : Code :=
  if n ≥ 0 then addConst w s cell n
  else
    let magnitude := n.toInt.natAbs % w.modulus
    if magnitude = 0 then skip
    else addConst w s s.neg (Int64.ofNat magnitude) ++ on s.neg .negate ++ moveAdd s.neg cell

/-- Writes cell values from a cell on. -/
def writeCells (w : CellWidth) (s : Scratch) : Nat → List Int64 → Code
  | _, [] => skip
  | cell, n :: rest => clear cell ++ addLiteral w s cell n ++ writeCells w s (cell + 1) rest

/-- Writes every cell of a value. -/
def writeValue (w : CellWidth) (s : Scratch) (address : Nat) (v : Value) : Code :=
  writeCells w s address v.cells

/-! ### Operands -/

/-- Adds an operand's first cell to a cell. -/
def load (w : CellWidth) (s : Scratch) (o : Operand) (cell : Nat) : Code :=
  match o with
  | .value v => addLiteral w s cell v.firstCell
  | .cells address _ => copyAdd address cell s.constant

/-- Adds 1 to a flag if an operand is true: a value by its truth, cells by the first. -/
def setBool (s : Scratch) (flag : Nat) : Operand → Code
  | .value v => if v.truthy then add flag 1 else skip
  | .cells address _ => copyAdd address s.a s.b ++ loop s.a (clear s.a ++ add flag 1)

/-- Prints the cells of a value, one after another. -/
def printCells (w : CellWidth) (s : Scratch) : List Int64 → Code
  | [] => skip
  | n :: rest => addLiteral w s s.a n ++ on s.a .write ++ clear s.a ++ printCells w s rest

/-- Prints `n` cells from a cell on, **leaving out zeros**: they are padding behind a shorter
value. -/
def printTail (s : Scratch) : Nat → Nat → Code
  | _, 0 => skip
  | cell, n + 1 =>
    copyAdd cell s.a s.b ++ loop s.a (on cell .write ++ clear s.a) ++ printTail s (cell + 1) n

/-- Prints an operand; the first cell of a variable is printed even when it is zero. -/
def printOperand (w : CellWidth) (s : Scratch) : Operand → Code
  | .value v => printCells w s v.cells
  | .cells address len => on address .write ++ printTail s (address + 1) (len - 1)

/-! ### Operators -/

/-- From `x` in `a` and `y` in `b` makes `a = 0` and `b = max (y - x) 0`. -/
def lessThan (s : Scratch) : Code :=
  loop s.a (sub s.a 1 ++ copyAdd s.b s.g s.h ++ loop s.g (clear s.g ++ sub s.b 1))

/-- From `n` in `a` and `m` in `b` makes `n / m` in `d` and `n % m` in `e`, all else zero. -/
def divMod (s : Scratch) : Code :=
  copyAdd s.b s.c s.g
    ++ loop s.a (sub s.a 1 ++ sub s.c 1 ++ add s.e 1 ++ add s.f 1
      ++ copyAdd s.c s.g s.h
      ++ loop s.g (clear s.g ++ sub s.f 1)
      ++ loop s.f (add s.d 1 ++ clear s.e ++ copyAdd s.b s.c s.g ++ sub s.f 1))
    ++ clear s.b ++ clear s.c

/-- Sets a target to 1 if a test cell is not zero, else to 0; the test cell is cleared. -/
def isNonzero (test target : Nat) : Code :=
  clear target ++ loop test (clear test ++ add target 1)

/-- Sets a target to 0 if a test cell is not zero, else to 1; the test cell is cleared. -/
def isZero (test target : Nat) : Code :=
  clear target ++ add target 1 ++ loop test (clear test ++ sub target 1)

/-- Sets a target to an operator's result on the operands' first cells. Comparisons are
**unsigned**; a division by zero leaves an unspecified value. -/
def binary (w : CellWidth) (s : Scratch) (o : Operator) (l r : Operand) (target : Nat) : Code :=
  let both (x y : Operand) := load w s x s.a ++ load w s y s.b
  match o with
  | .add => both l r ++ clear target ++ moveAdd s.a target ++ moveAdd s.b target
  | .sub => both l r ++ clear target ++ moveAdd s.a target ++ moveSub s.b target
  | .mul =>
    both l r ++ clear target ++ loop s.a (sub s.a 1 ++ copyAdd s.b target s.c) ++ clear s.b
  | .div => both l r ++ divMod s ++ clear target ++ moveAdd s.d target ++ clear s.e
  | .mod => both l r ++ divMod s ++ clear target ++ moveAdd s.e target ++ clear s.d
  | .eq => both l r ++ moveSub s.b s.a ++ isZero s.a target
  | .notEq => both l r ++ moveSub s.b s.a ++ isNonzero s.a target
  | .lt => both l r ++ lessThan s ++ isNonzero s.b target
  | .gt => both r l ++ lessThan s ++ isNonzero s.b target
  | .ltEq => both r l ++ lessThan s ++ isZero s.b target
  | .gtEq => both l r ++ lessThan s ++ isZero s.b target
  | .and =>
    both l r ++ clear target ++ copyAdd s.a target s.c
      ++ loop s.a (clear s.a ++ clear target ++ copyAdd s.b target s.c) ++ clear s.b
  | .or =>
    both l r ++ clear target ++ copyAdd s.a target s.c ++ add s.f 1
      ++ loop s.a (clear s.a ++ sub s.f 1)
      ++ loop s.f (clear target ++ copyAdd s.b target s.c ++ sub s.f 1) ++ clear s.b

end Code

end TapeCompiler
