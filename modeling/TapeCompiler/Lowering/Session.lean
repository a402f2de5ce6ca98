import TapeCompiler.Cells.Program
import TapeCompiler.Memory.Planner

/-! # The state of lowering

Lowering walks a program tree, asks the planner for a block for every declaration and temporary and
appends instructions. Operands are carried **by name** (`Slot`) until the instruction that uses them
is appended, for a collection may move every block in between; `allocate` applies the moves to all
that was lowered before. A failed lowering keeps its state.

When the planner is asked for cells, some time has passed since its last collection, and by that
time another one may be due. A session is given these times as a `Schedule`, one for each
request. -/

namespace TapeCompiler

/-- The **seconds since the last collection**, at each request to come. -/
abbrev Schedule := Nat → Int

/-- The state of lowering. -/
structure Session where
  planner : Planner
  schedule : Schedule
  program : Program
  /-- The kind of each declared name in the scope that owns it, newest first. -/
  kinds : List ((String × String) × DeclKind)
  /-- The labels numbered so far. -/
  labels : Nat
  /-- The functions numbered so far. -/
  functions : Nat
  /-- The temporaries named so far. -/
  temporaries : Nat
  warnings : List String

/-- Lowering fails with a fault and keeps its state. -/
abbrev Lowering := ExceptT Fault (StateM Session)

/-- An operand before its address is known. -/
inductive Slot
  | value (v : Value)
  | named (name : String) (len : Nat)
  deriving DecidableEq, Repr

namespace Lowering

/-- The state before anything is lowered. -/
def start (p : Planner) (schedule : Schedule) : Session := ⟨p, schedule, .empty, [], 0, 0, 0, []⟩

/-! ### Numbers and notes -/

/-- A warning. -/
def warn (message : String) : Lowering Unit :=
  modify fun s => { s with warnings := s.warnings ++ [message] }

/-- A number shared by the labels of one construct. -/
def nextLabel : Lowering Nat :=
  modifyGet fun s => (s.labels, { s with labels := s.labels + 1 })

/-- The number of a function, from 1 on. -/
def nextFunction : Lowering Nat :=
  modifyGet fun s => (s.functions + 1, { s with functions := s.functions + 1 })

/-- Appends an instruction. -/
def emit (i : Instruction) : Lowering Unit :=
  modify fun s =>
    { s with program := { s.program with instructions := s.program.instructions ++ [i] } }

/-! ### Names and blocks -/

/-- The block a name stands for. -/
def block? (name : String) : Lowering (Option Block) := do
  return (← get).planner.visible? name

/-- The tag of the innermost scope. -/
def scope : Lowering String := do return (← get).planner.scope

/-- The address of a name that has a block. -/
def address (name : String) : Lowering Nat := do
  match ← block? name with
  | some b => return b.address
  | none => throw (.defect (.noAllocation name))

/-- Changes the planner by a request, made **at the next time of the schedule**. -/
def request {α : Type} (f : Planner → Int → Except Fault α × Planner) : Lowering α := do
  let s ← get
  let (result, planner) := f s.planner (s.schedule 0)
  modify fun s => { s with planner := planner, schedule := fun n => s.schedule (n + 1) }
  liftExcept result
where
  /-- A result as a step of lowering. -/
  liftExcept : Except Fault α → Lowering α
    | .ok a => return a
    | .error f => throw f

/-- The moves of the last collections, taken from the planner. -/
def takeMoves : Lowering (List Relocation) :=
  modifyGet fun s =>
    let (moves, planner) := s.planner.takeMoves
    (moves, { s with planner := planner })

/-- The address of a name's block in the innermost scope; **what was lowered follows the moves**. -/
def allocate (name : String) (size : Nat) : Lowering Nat := do
  let address ← request fun p idle => p.allocate name size idle
  let moves ← takeMoves
  modify fun s => { s with program := s.program.relocate moves }
  return address

/-- The address of a name with room for `size` cells. A block that is too small moves, and what was
lowered follows it. -/
def ensureCapacity (name : String) (size : Nat) : Lowering Nat := do
  if (← block? name).isNone then return ← allocate name size
  match ← request fun p idle => p.resize name size idle with
  | some moved =>
    let moves ← takeMoves
    modify fun s => { s with program := s.program.grow moved size moves }
  | none => pure ()
  address name

/-- A new temporary of some cells. -/
def temporary (size : Nat) : Lowering String := do
  let n ← modifyGet fun s => (s.temporaries, { s with temporaries := s.temporaries + 1 })
  let name := s!"__tmp_{n}"
  discard (allocate name size)
  return name

/-- The kind of the binding a name stands for; temporaries have none. -/
def liveKind? (name : String) : Lowering (Option DeclKind) := do
  let s ← get
  return (s.planner.visible? name).bind fun b => s.kinds.lookup (name, b.scope)

/-- Notes the kind of a name in a scope. -/
def setKind (name scope : String) (kind : DeclKind) : Lowering Unit :=
  modify fun s => { s with kinds := ((name, scope), kind) :: s.kinds }

/-- Marks a read of a name and gives the size of its block. -/
def readVariable (name : String) : Lowering Nat := do
  match ← block? name with
  | none => throw (.undefinedVariable name)
  | some b =>
    modify fun s => { s with planner := (s.planner.addReference name).2 }
    return b.size

/-- Makes a block the visible binding of a name; a binding at another address is displaced. -/
def bind (name : String) (info : VariableInfo) : Lowering Unit :=
  modify fun s =>
    let displaced := (s.program.bindings.find? name).filter fun v => v.address ≠ info.address
    { s with program := { s.program with
        bindings := s.program.bindings.insert name info
        shadowed := s.program.shadowed ++ (displaced.map fun v => (name, v)).toList } }

/-- The operand of a slot. -/
def resolve : Slot → Lowering Operand
  | .value v => return .value v
  | .named name len => return .cells (← address name) len

/-! ### Scopes -/

/-- Opens a scope and gives its tag. -/
def enter (name : String) : Lowering String :=
  modifyGet fun s =>
    let (tag, planner) := s.planner.enter name
    (tag, { s with planner := planner })

/-- The binding a variable has after its scope was left, if it is another one. -/
def uncovered? (s : Session) (name : String) (info : VariableInfo) : Option VariableInfo :=
  (s.planner.visible? name).bind fun b =>
    if b.address = info.address then none
    else some ⟨b.address, b.size, (s.kinds.lookup (name, b.scope)).getD info.kind⟩

/-- Closes the innermost scope: names it shadowed **see their outer binding again**. -/
def leave : Lowering Unit :=
  modify fun s =>
    let s := { s with planner := s.planner.leave.2 }
    let hidden := s.program.bindings.filter fun (name, info) => (uncovered? s name info).isSome
    { s with program := { s.program with
        bindings := s.program.bindings.map fun (name, info) =>
          (name, (uncovered? s name info).getD info)
        shadowed := s.program.shadowed ++ hidden } }

end Lowering

end TapeCompiler
