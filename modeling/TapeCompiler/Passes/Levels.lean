import TapeCompiler.Passes.Notes
import TapeCompiler.Passes.Reordering

/-! # Sharing and levels

A result that some cell still holds is copied instead of computed again (`sharing`). A memo says
which cell holds the result of which operator on which operands; it is forgotten wherever control
may enter or leave, and by and by as cells are written.

A level has its own passes and those of every level below (`passes`). Level 4 is the highest and
adds nothing to level 3. -/

namespace TapeCompiler

/-- The result of an operator on two operands, and the cell that holds it. -/
structure Known where
  operator : Operator
  left : Operand
  right : Operand
  cell : Nat
  deriving DecidableEq, Repr

/-- Whether the memo entry **no longer holds** after a write to a cell. -/
def Known.dependsOn (k : Known) (cell : Nat) : Bool :=
  k.cell = cell || k.left.reads cell || k.right.reads cell

/-- A memo after a write to a cell. -/
def forget (memo : List Known) (cell : Nat) : List Known :=
  memo.filter fun k => !k.dependsOn cell

/-- The cell that holds a result. -/
def known? (memo : List Known) (operator : Operator) (l r : Operand) : Option Nat :=
  (memo.find? fun k => k.operator = operator && k.left = l && k.right = r).map Known.cell

/-- An instruction under a memo, and the memo after it. A result that stays computed is kept unless
its operands read the target. -/
def shareOne (memo : List Known) (i : Instruction) : Instruction × List Known :=
  if i.isBoundary then (i, [])
  else
    match i with
    | .binary target operator l r =>
      let after := forget memo target
      let kept :=
        if l.reads target || r.reads target then after else ⟨operator, l, r, target⟩ :: after
      match known? memo operator l r with
      | none => (i, kept)
      | some cell => if cell = target then (i, kept) else (.copyValue target cell, after)
    | i => (i, i.writes.foldl forget memo)

/-- Shares results, with the number of copies made. -/
def shareResults (memo : List Known) : List Instruction → List Instruction × Nat
  | [] => ([], 0)
  | i :: rest =>
    let (j, memo) := shareOne memo i
    let (code, n) := shareResults memo rest
    (j :: code, if j = i then n else n + 1)

/-- Copies results that some cell still holds. -/
def sharing : Pass := Pass.onInstructions (shareResults [])

/-! ### Levels -/

/-- The highest level. -/
def maxLevel : Nat := 4

/-- The passes of a level, in order. -/
def passes (level : Nat) : List Pass :=
  (if 1 ≤ level then [folding, deadStores] else [])
    ++ (if 2 ≤ level then [updatePairs, loopNotes] else [])
    ++ (if 3 ≤ level then [reordering, inlineNotes, sharing] else [])

/-- A program after the passes of a level, and the number of changes. -/
def Program.optimize (level : Nat) (p : Program) : Program × Nat := Pass.all (passes level) p

end TapeCompiler
