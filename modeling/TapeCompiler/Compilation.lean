import TapeCompiler.Emission.Emitter
import TapeCompiler.Lowering.Statement
import TapeCompiler.Script.Statement
import TapeCompiler.Settings

/-! # Compilation

A source is read, lowered, improved by passes and emitted (`compile`), and the code can be run at
once (`compileAndRun`). A failed compilation gives its fault and no warnings. -/

namespace TapeCompiler

/-- Measures of a compilation. -/
structure Measures where
  /-- The nodes of the program tree. -/
  nodes : Nat
  /-- The instructions before the passes. -/
  lowered : Nat
  /-- The instructions after the passes. -/
  improved : Nat
  /-- The changes and notes made by the passes. -/
  changes : Nat
  /-- The characters of the code. -/
  extendedSize : Nat
  /-- The characters of the code in base symbols. -/
  baseSize : Nat
  /-- The collections during lowering. -/
  collections : Nat
  deriving DecidableEq, Repr

/-- The size of the code by its size in base symbols; 0 when there is none. -/
def Measures.ratio (m : Measures) : Binary64 :=
  if m.baseSize = 0 then .zero false else .ofRatio false m.extendedSize m.baseSize

/-- What a compilation gives. -/
structure Compiled where
  code : String
  /-- The code in base symbols, when only these are allowed. -/
  stripped : Option String
  program : Program
  /-- The warnings of every stage, in order. -/
  warnings : List String
  measures : Measures
  deriving Repr

/-- The code to be executed. -/
def Compiled.output (c : Compiled) : String := c.stripped.getD c.code

/-- **Compiles a source** with a library; the planner is asked at the times of a schedule. -/
def compileWith (library : Library) (settings : Settings) (source : String) (schedule : Schedule) :
    Except Fault Compiled := do
  settings.check
  let script ← Source.readScript source
  let (result, session) := script.lower (← Planner.new settings.memory) schedule
  result
  let planner := session.planner
  let (program, changes) := session.program.optimize settings.level
  let (code, emitted) :=
    program.emit library settings.width settings.memory.memorySize planner.highWater
  let code ← code
  let base := strip code
  return {
    code
    stripped := if settings.extended then none else some base
    program
    warnings := script.notices.map (fun n => s!"line {n.line}: {n.message}")
      ++ session.warnings ++ planner.warnings ++ emitted
    measures := {
      nodes := script.nodeCount
      lowered := session.program.instructions.length
      improved := program.instructions.length
      changes
      extendedSize := code.length
      baseSize := base.length
      collections := planner.collections } }

/-- The library that settings ask for. -/
def Settings.libraryUsed (c : Settings) : Library :=
  if c.library then Library.standard else Library.empty

/-- Compiles a source as settings say. -/
def compile (settings : Settings) (source : String) (schedule : Schedule) :
    Except Fault Compiled :=
  compileWith settings.libraryUsed settings source schedule

/-- Compiles a source and executes the code on a new machine. -/
def compileAndRun (settings : Settings) (source : String) (schedule : Schedule)
    (input : List UInt8) : Except Fault Execution := do
  let compiled ← compile settings source schedule
  ((Machine.new settings.machine).run compiled.output input).1

end TapeCompiler
