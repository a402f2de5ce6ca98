import TapeCompiler.Lowering.Expression

/-! # Lowering of statements

A branch becomes `branch` to its else label, the first block, a jump to the end, the else label, the
second block and the end label; a loop becomes its first clause, the test label, the test,
`jumpUnless` to the end, the body, the update label, the last clause, a jump to the test and the end
label. Function bodies are kept as they are. `lower` lowers a whole program. -/

namespace TapeCompiler

namespace Lowering

/-- A scope around some lowering. -/
def within (name : String) (body : Lowering Unit) : Lowering Unit := do
  discard (enter name)
  body
  leave

/-- Gives each parameter a cell in the function's scope. -/
def parameters (function scope : String) : List String → Lowering Unit
  | [] => return
  | param :: rest => do
    let address ← allocate param 1
    setKind param scope .block
    modify fun s => { s with program := { s.program with
      functions := s.program.functions.modify function fun f =>
        { f with locals := f.locals.insert param ⟨address, 1, .block⟩ } } }
    parameters function scope rest

/-- Declares a function: a cell with its number, and its parameters. -/
def declareFunction (name : String) (params : List String) (body : List Statement) :
    Lowering Unit := do
  let id ← nextFunction
  let address ← allocate name 1
  setKind name (← scope) .function
  bind name ⟨address, 1, .function⟩
  emit (.setValue address (.int (Int64.ofNat id)))
  modify fun s => { s with program := { s.program with
    functions := s.program.functions.insert name ⟨id, params, body, [], false⟩ } }
  let tag ← enter name
  parameters name tag params
  leave

/-- The test of a loop, in a cell of its own; a loop without a test goes on forever. -/
def loopTest (test : Option Expr) : Lowering Operand := do
  let flag ← temporary 1
  match test with
  | some e => into e flag
  | none => emit (.setValue (← address flag) (.int 1))
  return .cell (← address flag)

mutual
/-- Lowers a statement. -/
def statement : Statement → Lowering Unit
  | .declare kind name init => declare kind name (init.map fun e => (e, into e))
  | .function name params body => declareFunction name params body
  | .branch test consequent alternate => do
    let id ← nextLabel
    let condition ← resolve (← operandOf test)
    emit (.branch condition s!"if_else_{id}")
    within "if" (statements consequent)
    emit (.jump s!"if_end_{id}")
    emit (.label s!"if_else_{id}")
    otherwise alternate
    emit (.label s!"if_end_{id}")
  | .loop init test last body => do
    discard (enter "for")
    firstClause init
    let id ← nextLabel
    emit (.label s!"for_test_{id}")
    let condition ← loopTest test
    emit (.jumpUnless condition s!"for_end_{id}")
    within "loop" (statements body)
    emit (.label s!"for_update_{id}")
    match last with
    | some e => effect e
    | none => pure ()
    emit (.jump s!"for_test_{id}")
    emit (.label s!"for_end_{id}")
    leave
  | .ret argument => do
    match argument with
    | some e => emit (.ret (some (← resolve (← operandOf e))))
    | none => emit (.ret none)
  | .effect e => effect e

/-- Lowers statements, in order. -/
def statements : List Statement → Lowering Unit
  | [] => return
  | s :: rest => do
    statement s
    statements rest

/-- Lowers the block behind an else, if there is one. -/
def otherwise : Option (List Statement) → Lowering Unit
  | none => return
  | some body => within "else" (statements body)

/-- Lowers the first clause of a loop, if there is one. -/
def firstClause : Option Statement → Lowering Unit
  | none => return
  | some s => statement s
end

end Lowering

/-- Lowers a whole program with a planner, whose requests are made at the times of a schedule: the
fault, if there is one, and the state reached. -/
def Script.lower (s : Script) (p : Planner) (schedule : Schedule) : Except Fault Unit × Session :=
  (Lowering.statements s.body).run.run (Lowering.start p schedule)

end TapeCompiler
