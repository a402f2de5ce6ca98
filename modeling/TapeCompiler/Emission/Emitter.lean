import TapeCompiler.Cells.Program
import TapeCompiler.Emission.Control
import TapeCompiler.Library

/-! # Emission

A program becomes tape code, one line for each instruction (`Program.emit`). Control flow that a
plan knows becomes brackets over flag cells; every other jump becomes a marker, with a warning.

The tape has the cells of the program first, then the scratch block, then two flag cells for each
level of nesting. Where these lie is computed with sums that know no bound (`Program.emit`). Machine
words hold the sums modulo `wordSize` (`Program.emitWrapping`), so that cells next to the end of the
address space make the flag cells come before them. -/

namespace TapeCompiler

/-- What does not change while a program is emitted. -/
structure Emitter where
  library : Library
  width : CellWidth
  scratch : Scratch
  /-- The first flag cell. -/
  flags : Nat
  /-- The variables of the program. -/
  bindings : Names VariableInfo
  /-- The names of the program's functions. -/
  functions : List String

/-- A piece of code with the warnings on it. -/
abbrev Warned := Code × List String

namespace Emitter

/-! ### Single instructions -/

/-- An operand as templates see it: cells bear the name of **the first variable at their address**,
or a name made up of it. -/
def argument (e : Emitter) : Operand → Argument
  | .value v => .value v
  | .cells address len =>
    let owner := List.find? (fun (_, v) => v.address = address) e.bindings
    .cells (owner.elim s!"cell{address}" Prod.fst) address len

/-- The code of a library call made with the pointer on a cell, if there is a template for it. -/
def expand (e : Emitter) (pointer : Nat) (name : String) (args : List Operand)
    (target : Option Nat) : Option Code × List String :=
  let site : Site := ⟨pointer, e.scratch, target, e.width⟩
  match e.library.expand? name site (args.map e.argument) with
  | none => (none, [])
  | some (.ok code) => (some code, [])
  | some (.error f) => (none, ["template '" ++ name ++ s!"' not applied: {f.message}"])

/-- A library call, or what stands in its place. -/
def expandOr (e : Emitter) (pointer : Nat) (name : String) (args : List Operand)
    (target : Option Nat) (instead : Warned) : Warned :=
  match e.expand pointer name args target with
  | (some code, warnings) => (code, warnings)
  | (none, warnings) => (instead.1, warnings ++ instead.2)

section Calls
variable {e : Emitter} {name : String}

@[simp] theorem operand_argument (o : Operand) : (e.argument o).operand = o := by
  cases o <;> rfl

theorem expandOr_of_none (h : e.library.find? name = none) (pointer : Nat) (args : List Operand)
    (target : Option Nat) (instead : Warned) :
    e.expandOr pointer name args target instead = instead := by
  simp [expandOr, expand, Library.expand?, h]

variable {b : Builtin} {under : String} (h : e.library.find? name = some (b.template under))
  {args : List Operand}
include h

/-- A call of a known function is **expanded to its code**. -/
theorem expandOr_of_takes (hb : b.Takes args.length) (pointer : Nat) (target : Option Nat)
    (instead : Warned) : e.expandOr pointer name args target instead =
      (b.code ⟨pointer, e.scratch, target, e.width⟩ args, []) := by
  have hlen : b.Takes (args.map e.argument).length := by simpa using hb
  simp only [expandOr, expand, Library.expand?, h, Option.map_some, Builtin.expand_template hlen,
    List.map_map]
  simp [Function.comp_def]

/-- With a **wrong number of arguments** it is left as it is, with a warning in front. -/
theorem expandOr_of_misfit (hb : ¬ b.Takes args.length) (pointer : Nat) (target : Option Nat)
    (instead : Warned) : e.expandOr pointer name args target instead = (instead.1,
      ("template '" ++ name ++ "' not applied: " ++
        (Fault.argumentCount name 2 args.length).message) :: instead.2) := by
  have hlen : ¬ b.Takes (args.map e.argument).length := by simpa using hb
  simp only [expandOr, expand, Library.expand?, h, Option.map_some,
    Builtin.expand_template_of_misfit hlen, List.length_map]
  simp [String.append_assoc, toString]

end Calls

/-- The marker of a call that nothing resolves. -/
def unresolved (name : String) : Warned :=
  (.mark .unresolved name, ["unresolved call to '" ++ name ++ "'"])

/-- The marker of a call, by whether it is one of the program's functions. -/
def callMark (e : Emitter) (name : String) : Warned :=
  if e.functions.contains name then
    (.mark .call name, ["call to user function '" ++ name ++ "' emitted as a call marker"])
  else unresolved name

/-- Stores the first cells of operands from a cell on; an operand **already in its place** stays
as it is. -/
def storeAll (e : Emitter) : Nat → List Operand → Code
  | _, [] => .skip
  | cell, o :: rest =>
    (if o.address? = some cell then .skip else .clear cell ++ .load e.width e.scratch o cell)
      ++ storeAll e (cell + 1) rest

/-- The code of an instruction that is **no part of a shape**, written with the pointer on a
cell. -/
def plain (e : Emitter) (pointer : Nat) : Instruction → Warned
  | .setValue address value => (.writeValue e.width e.scratch address value, [])
  | .copyValue target source =>
    (if target = source then .skip
      else .clear target ++ .copyAdd source target e.scratch.a, [])
  | .binary target operator l r => (.binary e.width e.scratch operator l r target, [])
  | .print ops =>
    e.expandOr pointer printCallee ops none
      (.all (ops.map (Code.printOperand e.width e.scratch)), [])
  | .callFunction name args target => e.expandOr pointer name args target (e.callMark name)
  | .callMethod _ objectName method args target =>
    let name := objectName ++ "." ++ method
    e.expandOr pointer name args target (unresolved name)
  | .createArray address elements => (e.storeAll address elements, [])
  | .createObject address fields =>
    (.mark .object (" ".intercalate (fields.map Prod.fst))
      ++ e.storeAll address (fields.map Prod.snd), [])
  | .update address change => (.addConst e.width e.scratch address change.delta, [])
  | .label name => (.mark .label name, [])
  | .jump label => (.mark .jump label, ["jump to '" ++ label ++ "' emitted as a marker"])
  | .jumpUnless _ label =>
    (.mark .conditional label, ["conditional jump to '" ++ label ++ "' emitted as a marker"])
  | .branch _ label =>
    (.mark .conditional label, ["branch to '" ++ label ++ "' emitted as a marker"])
  | .ret _ => (.mark .ret "", [])
  | .comment text => (.mark .comment text, [])
  | .importModule name => (.mark .importing name, [])
  | .exportCell name _ => (.mark .exporting name, [])

end Emitter

/-! ### Frames -/

/-- An open shape. -/
inductive OpenShape
  /-- A loop over a flag that holds while its test does. -/
  | loop (flag : Nat) (test : List Instruction) (condition : Operand)
  | branch (first other : Nat)
  deriving DecidableEq, Repr

/-- The state of emission. -/
structure Emission where
  writer : Writer
  /-- The open shapes, the innermost first. -/
  frames : List OpenShape
  warnings : List String
  deriving Repr

namespace Emission

/-- The state before anything is written. -/
def start : Emission := ⟨Writer.on 0, [], []⟩

/-- Writes code. -/
def write (st : Emission) (c : Code) : Emission := { st with writer := c.write st.writer }

end Emission

namespace Emitter

/-- The first of the two flag cells of the next shape. -/
def nextFlag (e : Emitter) (st : Emission) : Nat := e.flags + 2 * st.frames.length

/-- Writes an instruction that is no part of a shape. -/
def writePlain (e : Emitter) (st : Emission) (i : Instruction) : Emission :=
  let (code, warnings) := e.plain st.writer.pointer i
  { st.write code with warnings := st.warnings ++ warnings }

/-- Opens a loop over a flag that its test sets. -/
def openLoop (e : Emitter) (condition : Operand) (test : List Instruction) (st : Emission) :
    Emission :=
  let flag := e.nextFlag st
  { st.write (.setBool e.scratch flag condition ++ .opening flag) with
    frames := .loop flag test condition :: st.frames }

/-- Closes a loop: the test is **run again** and its flag set anew. -/
def closeLoop (e : Emitter) (k : Nat) (st : Emission) : Except Fault Emission :=
  match st.frames with
  | .loop flag test condition :: rest =>
    .ok ((test.foldl e.writePlain { st with frames := rest }).write
      (.clear flag ++ .setBool e.scratch flag condition ++ .closing flag))
  | _ => .error (.defect (.strayLoopEnd k))

/-- Opens the first side of a branch; the flag of the other side is set until it is entered. -/
def openBranch (e : Emitter) (condition : Operand) (st : Emission) : Emission :=
  let first := e.nextFlag st
  let other := first + 1
  { st.write (.add other 1 ++ .setBool e.scratch first condition ++ .opening first
      ++ .sub other 1) with
    frames := .branch first other :: st.frames }

/-- Goes from the first side of a branch to the other. -/
def switchBranch (k : Nat) (st : Emission) : Except Fault Emission :=
  match st.frames with
  | .branch first other :: _ =>
    .ok (st.write (.clear first ++ .closing first ++ .opening other ++ .sub other 1))
  | _ => .error (.defect (.strayElse k))

/-- Closes the other side of a branch. -/
def closeBranch (k : Nat) (st : Emission) : Except Fault Emission :=
  match st.frames with
  | .branch _ other :: rest => .ok ({ st with frames := rest }.write (.closing other))
  | _ => .error (.defect (.strayBranchEnd k))

/-- Writes the instruction at an index. -/
def step (e : Emitter) (plan : ControlPlan) (code : List Instruction) (k : Nat) (i : Instruction)
    (st : Emission) : Except Fault Emission :=
  match plan.role k i, i with
  | .loopTest shape, .jumpUnless condition _ =>
    .ok (e.openLoop condition ((code.take shape.test).drop (shape.head + 1)) st)
  | .loopBack, _ => e.closeLoop k st
  | .branchTest, .branch condition _ => .ok (e.openBranch condition st)
  | .branchOther, _ => switchBranch k st
  | .branchStop, _ => closeBranch k st
  | .silent, _ => .ok st
  | _, _ => .ok (e.writePlain st i)

/-- Writes instructions, each on a line; a fault keeps the state it was found in. -/
def run (e : Emitter) (plan : ControlPlan) (code : List Instruction) :
    List (Instruction × Nat) → Emission → Except Fault Unit × Emission
  | [], st =>
    if st.frames.isEmpty then (.ok (), st)
    else (.error (.defect (.openFrames st.frames.length)), st)
  | (i, k) :: rest, st =>
    match e.step plan code k i st with
    | .ok st => run e plan code rest (st.write (.text "\n"))
    | .error f => (.error f, st)

end Emitter

/-! ### Programs -/

namespace Program

/-- The emitter of a program for a scratch block and the flag cells. -/
def emitter (p : Program) (library : Library) (width : CellWidth) (scratch : Scratch)
    (flags : Nat) : Emitter :=
  ⟨library, width, scratch, flags, p.bindings, p.functions.map Prod.fst⟩

/-- The tape code of a program that needs some cells of a tape of `memorySize`, and the warnings. -/
def emitWith (p : Program) (plan : ControlPlan) (e : Emitter) (needed memorySize : Nat) :
    Except Fault String × List String :=
  if needed > memorySize then (.error (.exceeded (.tapeCells needed memorySize)), [])
  else
    let (result, st) := e.run plan p.instructions p.instructions.zipIdx .start
    (result.map fun _ => st.writer.text, st.warnings)

/-- The **tape code of a program** on a tape of `memorySize` cells, and the warnings. Scratch and
flag cells lie above every cell of the program and above the first `reserved` cells. -/
def emit (p : Program) (library : Library) (width : CellWidth) (memorySize reserved : Nat) :
    Except Fault String × List String :=
  let plan := ControlPlan.of p.instructions
  let base := max p.maxAddress reserved
  let flags := base + scratchCells
  let needed := flags + 2 * plan.depth p.instructions.length
  p.emitWith plan (p.emitter library width ⟨base⟩ flags) needed memorySize

/-- The tape code of a program, its cells counted **in machine words**: every sum is modulo
`wordSize`. -/
def emitWrapping (p : Program) (library : Library) (width : CellWidth) (memorySize reserved : Nat) :
    Except Fault String × List String :=
  let plan := ControlPlan.of p.instructions
  let base := max p.maxAddressWrapping reserved
  let flags := (base + scratchCells) % wordSize
  let needed := (flags + 2 * plan.depth p.instructions.length) % wordSize
  p.emitWith plan (p.emitter library width ⟨base⟩ flags) needed memorySize

end Program

end TapeCompiler
