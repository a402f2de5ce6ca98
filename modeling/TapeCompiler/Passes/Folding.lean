import TapeCompiler.Cells.Program

/-! # Passes, folding and pairs of updates

A pass turns a program into another and counts the changes and notes it made (`Pass`). Passes never
fail: what one does not recognise stays as it is.

The first passes look at one instruction or two. An operator on two known values becomes a store of
its value (`folding`), and a store none of whose cells is read anywhere in the program goes
(`deadStores`). Two increments of one cell in a row become one addition of two, two decrements one
subtraction (`updatePairs`); a merged update is not merged again, so three increments become an
addition and an increment. -/

namespace TapeCompiler

/-- A program after a pass and the number of changes. -/
abbrev Pass := Program → Program × Nat

namespace Pass

/-- The pass that changes nothing. -/
def none : Pass := fun p => (p, 0)

/-- One pass after another; the changes add up. -/
def andThen (first second : Pass) : Pass := fun p =>
  let (p, n) := first p
  let (p, m) := second p
  (p, n + m)

/-- All passes of a list, in order. -/
def all (passes : List Pass) : Pass := passes.foldr andThen none

/-- A pass on the instructions alone. -/
def onInstructions (f : List Instruction → List Instruction × Nat) : Pass := fun p =>
  let (code, n) := f p.instructions
  ({ p with instructions := code }, n)

end Pass

/-! ### Folding and dead stores -/

/-- The store that an operator on **two known values** comes to, if it has a value. -/
def Instruction.folded? : Instruction → Option Instruction
  | .binary target operator (.value l) (.value r) =>
    (Value.fold operator l r).map (Instruction.setValue target)
  | _ => none

/-- Replaces operators on known values. -/
def folding : Pass := Pass.onInstructions fun code =>
  (code.map fun i => i.folded?.getD i, code.countP fun i => i.folded?.isSome)

/-- Whether an instruction stores a value of which **no cell is read**. -/
def Instruction.isDeadStore (read : List Nat) : Instruction → Bool
  | .setValue address value =>
    (Instruction.setValue address value).writes.all fun cell => !read.contains cell
  | _ => false

/-- The cells read by instructions. -/
def readCells (code : List Instruction) : List Nat := code.flatMap Instruction.reads

/-- Takes dead stores out. -/
def deadStores : Pass := Pass.onInstructions fun code =>
  let read := readCells code
  (code.filter fun i => !i.isDeadStore read, code.countP (Instruction.isDeadStore read))

/-! ### Pairs of updates -/

/-- What two updates in a row come to, if they can be merged. -/
def Instruction.merged? : Instruction → Instruction → Option Instruction
  | .update a .increment, .update b .increment =>
    if a = b then some (.update a (.addBy 2)) else none
  | .update a .decrement, .update b .decrement =>
    if a = b then some (.update a (.subtractBy 2)) else none
  | _, _ => none

/-- Merges pairs, **from the front**. -/
def mergeUpdates : List Instruction → List Instruction × Nat
  | i :: j :: rest =>
    match i.merged? j with
    | some merged =>
      let (code, n) := mergeUpdates rest
      (merged :: code, n + 1)
    | none =>
      let (code, n) := mergeUpdates (j :: rest)
      (i :: code, n)
  | code => (code, 0)

/-- Merges pairs of updates. -/
def updatePairs : Pass := Pass.onInstructions mergeUpdates

end TapeCompiler
