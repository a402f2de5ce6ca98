import TapeCompiler.Memory.Model
import TapeCompiler.Number

/-! # Faults

Every way in which reading, compiling or running a program can fail is a constructor of `Fault`.
`Fault.message` is its wording, `Fault.category` the part of the work it is reported under and
`Fault.severity` whether a retry makes sense. -/

namespace TapeCompiler

/-- One of the two brackets of the tape language. -/
inductive Bracket
  | opening
  | closing
  deriving DecidableEq, Repr

/-- The bracket as a character. -/
def Bracket.char : Bracket → Char
  | opening => '['
  | closing => ']'

/-- A setting that is refused before any work starts. -/
inductive BadSetting
  | cellWidth (bits : Nat)
  | emptyTape
  | noOperations
  | noMemory
  | noHeap (model : MemoryModel) (size : Nat)
  | threshold (value : Binary64)
  | level (n : Nat)
  /-- The settings are no JSON object of the expected types. -/
  | unreadable
  deriving DecidableEq, Repr

/-- The wording of a refused setting. -/
def BadSetting.message : BadSetting → String
  | cellWidth bits => s!"cell width must be 8, 16 or 32 bits, got {bits}"
  | emptyTape => "tape size must be at least 1"
  | noOperations => "operation limit must be at least 1"
  | noMemory => "memory size must be at least one cell"
  | noHeap model size =>
    s!"{model.name} memory model needs more than {heapBase} cells, got {size}"
  | threshold value => s!"gc threshold must be in (0, 1], got {value.text}"
  | level n => s!"optimization level must be 0-4, got {n}"
  | unreadable => "compile options"

/-- A bound that a compilation may not exceed. -/
inductive Bound
  | blockNesting
  | expressionNesting
  | tapeCells (needed available : Nat)
  deriving DecidableEq, Repr

/-- The deepest nesting of blocks or expressions that is accepted. -/
def nestingLimit : Nat := 64

/-- What a bound limits. -/
def Bound.subject : Bound → String
  | blockNesting => "block nesting depth"
  | expressionNesting => "expression nesting depth"
  | tapeCells needed _ => s!"emitted code needs {needed} tape cells"

/-- The value of a bound. -/
def Bound.limit : Bound → Nat
  | blockNesting | expressionNesting => nestingLimit
  | tapeCells _ available => available

/-- A fault of the compiler's own making. -/
inductive Defect
  | noAllocation (name : String)
  | strayLoopEnd (index : Nat)
  | strayElse (index : Nat)
  | strayBranchEnd (index : Nat)
  | openFrames (count : Nat)
  deriving DecidableEq, Repr

/-- The wording of a defect. -/
def Defect.message : Defect → String
  | noAllocation name => "'" ++ name ++ "' has no live allocation"
  | strayLoopEnd index => s!"loop closed at instruction {index} without an open loop"
  | strayElse index => s!"else branch at instruction {index} without an open if"
  | strayBranchEnd index => s!"if closed at instruction {index} without an open if"
  | openFrames count => s!"{count} control-flow block(s) left open"

/-- Why reading, compiling or running a program failed. -/
inductive Fault
  /-- The block opened on a line has no end. -/
  | unclosedBlock (line : Nat) (header : String)
  /-- The digits of a number are not all ASCII. -/
  | invalidNumber (text : String)
  /-- A name is used before any declaration of it. -/
  | undefinedVariable (name : String)
  /-- A constant is assigned, updated or declared again. -/
  | constantReassigned (name : String)
  /-- A block of cells does not fit even after a collection. -/
  | outOfMemory (name : String) (requested memorySize : Nat)
  | badSetting (setting : BadSetting)
  /-- A bracket has no partner. -/
  | unmatchedBracket (bracket : Bracket) (position : Nat)
  /-- The pointer left the tape. -/
  | pointerOutOfBounds (position tapeSize : Nat)
  | exceeded (bound : Bound)
  /-- A library function got another number of arguments than it takes. -/
  | argumentCount (callee : String) (expected got : Nat)
  | defect (d : Defect)
  deriving DecidableEq, Repr

/-- The part of the work a fault is reported under. -/
inductive Category
  | parse
  | memory
  | runtime
  | internal
  deriving DecidableEq, Repr

/-- The name of a category. -/
def Category.name : Category → String
  | parse => "parse"
  | memory => "memory"
  | runtime => "runtime"
  | internal => "internal"

/-- Whether anything is gained by going on after a fault. -/
inductive Severity
  | fatal
  | recoverable
  deriving DecidableEq, Repr

/-- The name of a severity. -/
def Severity.name : Severity → String
  | fatal => "Fatal"
  | recoverable => "Recoverable"

namespace Fault

/-- The wording of a fault. -/
def message : Fault → String
  | unclosedBlock line header =>
    s!"Syntax error at line {line}: block opened by '" ++ header ++ "' is never closed"
  | invalidNumber text =>
    "Parse error: invalid number '" ++ text ++ "': invalid float literal"
  | undefinedVariable name => s!"Undefined variable: {name}"
  | constantReassigned name => s!"Cannot reassign constant: {name}"
  | outOfMemory name requested memorySize =>
    s!"Out of memory: cannot allocate {requested} cell(s) for '" ++ name ++
      s!"' (memory size {memorySize})"
  | badSetting setting => s!"Invalid configuration: {setting.message}"
  | unmatchedBracket bracket position =>
    "Unmatched '" ++ bracket.char.toString ++ s!"' at position {position}"
  | pointerOutOfBounds position tapeSize =>
    s!"Tape pointer out of bounds at position {position} (tape size {tapeSize})"
  | exceeded bound => s!"Resource limit exceeded: {bound.subject} (limit: {bound.limit})"
  | argumentCount callee expected got =>
    s!"Compiler error: {callee} expects {expected} argument(s), got {got}"
  | defect d => s!"Internal error: {d.message}"

/-- The part of the work a fault is reported under. -/
def category : Fault → Category
  | unclosedBlock .. | invalidNumber _ | undefinedVariable _ | constantReassigned _ => .parse
  | outOfMemory .. | badSetting _ => .memory
  | unmatchedBracket .. | pointerOutOfBounds .. => .runtime
  | exceeded _ | argumentCount .. | defect _ => .internal

/-- Whether anything is gained by going on after a fault. -/
def severity : Fault → Severity
  | unclosedBlock .. | invalidNumber _ | outOfMemory .. | unmatchedBracket .. | defect _ => .fatal
  | _ => .recoverable

/-- The wording with the category in front. -/
def tagged (f : Fault) : String := s!"[{f.category.name}] {f.message}"

end Fault

end TapeCompiler
