import TapeCompiler.Cells.Instruction

/-! # Control flow

The jumps that lowering makes have two shapes, a loop and a branch with an else. A plan lists the
shapes found in a list of instructions (`ControlPlan.of`); shapes that cross another one are left
out, for brackets nest. `ControlPlan.role` says what an instruction is under a plan, and `depth` how
deep its shapes nest.

Shapes name instructions by their index. -/

namespace TapeCompiler

/-! ### Shapes -/

/-- A **loop**: a label, a straight test, a conditional jump out, the body, a jump back. -/
structure LoopShape where
  /-- The label in front of the test. -/
  head : Nat
  /-- The jump out when the test fails. -/
  test : Nat
  /-- The jump back. -/
  back : Nat
  /-- The label behind the jump back. -/
  stop : Nat
  deriving DecidableEq, Repr

/-- A **branch**: a test, the first side, a jump over the other, its label, the other side and the
label behind it. -/
structure BranchShape where
  test : Nat
  /-- The jump over the other side. -/
  turn : Nat
  /-- The label of the other side. -/
  other : Nat
  /-- The label behind. -/
  stop : Nat
  deriving DecidableEq, Repr

/-- The index of a label: **the first of its name**. -/
def labelIndex? (code : List Instruction) (name : String) : Option Nat :=
  code.findIdx? fun i =>
    match i with
    | .label n => n = name
    | _ => false

/-- Whether an instruction is a label or jumps. -/
def Instruction.isFlow : Instruction → Bool
  | .label _ | .jump _ | .jumpUnless .. | .branch .. => true
  | _ => false

/-- The first label or jump at `start` or behind it. -/
def nextFlow? (code : List Instruction) (start : Nat) : Option (Nat × Instruction) :=
  (code.zipIdx.drop start).findSome? fun (i, k) => if i.isFlow then some (k, i) else none

/-- The loop that a jump to a label closes. -/
def loopAt? (code : List Instruction) (back : Nat) (label : String) : Option LoopShape := do
  let head ← labelIndex? code label
  guard (head < back)
  match ← nextFlow? code (head + 1) with
  | (test, .jumpUnless _ out) =>
    guard (test < back)
    let stop ← labelIndex? code out
    guard (stop = back + 1)
    return ⟨head, test, back, stop⟩
  | _ => none

/-- The branch that a test opens. -/
def branchAt? (code : List Instruction) (test : Nat) (label : String) : Option BranchShape := do
  let other ← labelIndex? code label
  guard (test + 2 ≤ other)
  match ← code[other - 1]? with
  | .jump out =>
    let stop ← labelIndex? code out
    guard (other ≤ stop)
    return ⟨test, other - 1, other, stop⟩
  | _ => none

/-- The loops, by their jumps back. -/
def loopShapes (code : List Instruction) : List LoopShape :=
  code.zipIdx.filterMap fun (i, k) =>
    match i with
    | .jump label => loopAt? code k label
    | _ => none

/-- The branches, by their tests. -/
def branchShapes (code : List Instruction) : List BranchShape :=
  code.zipIdx.filterMap fun (i, k) =>
    match i with
    | .branch _ label => branchAt? code k label
    | _ => none

/-! ### Crossing -/

/-- What is between a pair of brackets, and the number of the shape that it belongs to. -/
structure Span where
  first : Nat
  last : Nat
  owner : Nat
  deriving DecidableEq, Repr

/-- Whether two spans overlap and neither lies in the other. -/
def Span.crosses (a b : Span) : Bool :=
  (a.first < b.first && b.first < a.last && a.last < b.last) ||
    (b.first < a.first && a.first < b.last && b.last < a.last)

/-- The spans of loops and branches; a branch has one for each side. -/
def spans (loops : List LoopShape) (branches : List BranchShape) : List Span :=
  loops.zipIdx.map (fun (l, k) => ⟨l.test, l.back, k⟩)
    ++ (branches.zipIdx loops.length).flatMap fun (b, k) =>
      [⟨b.test, b.turn, k⟩, ⟨b.turn, b.stop, k⟩]

/-- The owners dropped after two spans were compared: of two that cross, the one that **starts
later** goes. -/
def dropOne (a : Span) (dropped : List Nat) (b : Span) : List Nat :=
  if a.owner = b.owner || dropped.contains a.owner || dropped.contains b.owner then dropped
  else if a.crosses b then (if a.first > b.first then a.owner else b.owner) :: dropped
  else dropped

/-- The owners to drop so that no two spans cross. -/
def crossing (dropped : List Nat) : List Span → List Nat
  | [] => dropped
  | a :: rest => crossing (rest.foldl (dropOne a) dropped) rest

/-! ### The plan -/

/-- The shapes that become brackets. -/
structure ControlPlan where
  loops : List LoopShape
  branches : List BranchShape
  deriving DecidableEq, Repr

/-- What an instruction is under a plan. -/
inductive Role
  | loopTest (shape : LoopShape)
  | loopBack
  | branchTest
  | branchOther
  | branchStop
  /-- A label that brackets stand for. -/
  | silent
  /-- No part of a shape. -/
  | plain
  deriving DecidableEq, Repr

namespace ControlPlan

/-- The plan of a list of instructions. -/
def of (code : List Instruction) : ControlPlan :=
  let loops := loopShapes code
  let branches := branchShapes code
  let dropped := crossing [] (spans loops branches)
  { loops := (loops.zipIdx.filter fun (_, k) => !dropped.contains k).map Prod.fst
    branches :=
      ((branches.zipIdx loops.length).filter fun (_, k) => !dropped.contains k).map Prod.fst }

/-- Whether an index is that of a label that brackets stand for. -/
def isSilent (plan : ControlPlan) (k : Nat) : Bool :=
  plan.loops.any (fun l => l.head = k || l.stop = k) || plan.branches.any fun b => b.other = k

/-- What the instruction at an index is. -/
def role (plan : ControlPlan) (k : Nat) : Instruction → Role
  | .jumpUnless .. =>
    match plan.loops.reverse.find? fun l => l.test = k with
    | some shape => .loopTest shape
    | none => .plain
  | .jump _ =>
    if plan.loops.any fun l => l.back = k then .loopBack
    else if plan.branches.any fun b => b.turn = k then .branchOther
    else .plain
  | .branch .. => if plan.branches.any fun b => b.test = k then .branchTest else .plain
  | .label _ =>
    if plan.branches.any fun b => b.stop = k then .branchStop
    else if plan.isSilent k then .silent
    else .plain
  | _ => .plain

/-- The nesting before and after an index, with the deepest so far. -/
def depthStep (plan : ControlPlan) (state : Nat × Nat) (k : Nat) : Nat × Nat :=
  let (now, deepest) := state
  let opens := plan.loops.any (fun l => l.test = k) || plan.branches.any fun b => b.test = k
  let closes := plan.loops.any (fun l => l.back = k) || plan.branches.any fun b => b.stop = k
  let inside := if opens then now + 1 else now
  (if closes then inside - 1 else inside, max deepest inside)

/-- The **deepest nesting** of the shapes among `n` instructions. -/
def depth (plan : ControlPlan) (n : Nat) : Nat :=
  ((List.range n).foldl plan.depthStep (0, 0)).2

end ControlPlan

end TapeCompiler
