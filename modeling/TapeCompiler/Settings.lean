import TapeCompiler.Json.Value
import TapeCompiler.Memory.Planner
import TapeCompiler.Passes.Levels
import TapeCompiler.Tape.Machine

/-! # Settings

What a compilation can be told (`Settings`), which settings are refused (`Settings.check`) and how
they are written in JSON (`Settings.ofJson`). -/

namespace TapeCompiler

/-- How much is logged. -/
inductive LogLevel
  | trace
  | debug
  | info
  | warn
  | error
  deriving DecidableEq, Repr

/-- The name of a log level. -/
def LogLevel.name : LogLevel → String
  | trace => "trace"
  | debug => "debug"
  | info => "info"
  | warn => "warn"
  | error => "error"

/-- The log level of a name. -/
def LogLevel.ofName? (name : String) : Option LogLevel :=
  [trace, debug, info, warn, error].find? fun l => l.name = name

/-- What a compilation can be told. -/
structure Settings where
  /-- The level of the passes. -/
  level : Nat := 2
  memory : PlannerSettings := {}
  width : CellWidth := .bits8
  /-- Whether calls of library functions are expanded. -/
  library : Bool := true
  /-- Whether the code may hold more than the base symbols. -/
  extended : Bool := true
  log : LogLevel := .info
  deriving DecidableEq, Repr

namespace Settings

/-- Refuses levels that do not exist, then what the planner refuses. -/
def check (c : Settings) : Except Fault Unit :=
  if c.level > maxLevel then .error (.badSetting (.level c.level)) else c.memory.check

/-- The machine that fits the code. -/
def machine (c : Settings) : MachineSettings :=
  { tapeSize := c.memory.memorySize, width := c.width }

end Settings

/-! ### Settings in JSON -/

namespace Json.Value

/-- A natural number below a limit. -/
def nat? (limit : Nat) : Value → Option Nat
  | number n => n.nat? limit
  | _ => none

/-- A truth value. -/
def bool? : Value → Option Bool
  | bool b => some b
  | _ => none

/-- A binary64 number. -/
def binary64? : Value → Option Binary64
  | number n => n.binary64?
  | _ => none

/-- A name: a text, or an object whose only member has that name and is null. -/
def name? : Value → Option String
  | text units => units.text?
  | object [(units, null)] => units.text?
  | _ => none

end Json.Value

/-- A setting that can be written: its name, and what its value changes. -/
structure Setting where
  name : String
  set : Settings → Json.Value → Option Settings

namespace Settings

/-- The **settings that can be written**, in order. -/
def all : List Setting :=
  [⟨"opt_level", fun c v => (v.nat? (pow2 8)).map fun n => { c with level := n }⟩,
    ⟨"memory_model", fun c v => (v.name?.bind MemoryModel.ofTag?).map fun m =>
      { c with memory.model := m }⟩,
    ⟨"memory_size", fun c v => (v.nat? (pow2 64)).map fun n => { c with memory.memorySize := n }⟩,
    ⟨"cell_width", fun c v => (v.nat? (pow2 32)).bind fun n =>
      (CellWidth.ofBits n).toOption.map fun w => { c with width := w }⟩,
    ⟨"include_stdlib", fun c v => v.bool?.map fun b => { c with library := b }⟩,
    ⟨"allow_extensions", fun c v => v.bool?.map fun b => { c with extended := b }⟩,
    ⟨"gc_enabled", fun c v => v.bool?.map fun b => { c with memory.collects := b }⟩,
    ⟨"gc_threshold", fun c v => v.binary64?.map fun x => { c with memory.threshold := x }⟩,
    ⟨"log_level", fun c v => (v.name?.bind LogLevel.ofName?).map fun l => { c with log := l }⟩]

/-- Settings from the members of an object. A setting may be written **once**; members of other
names are passed over. -/
def ofMembers (c : Settings) (written : List String) :
    List (Json.Units × Json.Value) → Option Settings
  | [] => some c
  | (units, value) :: rest => do
    let name ← units.text?
    match all.find? fun s => s.name = name with
    | none => ofMembers c written rest
    | some setting =>
      guard (!written.contains name)
      ofMembers (← setting.set c value) (name :: written) rest

/-- Settings from an object, or from an array in the order of `all`; what is not written is as by
default. -/
def ofValue? : Json.Value → Option Settings
  | .object members => ofMembers {} [] members
  | .array items => do
    guard (items.length ≤ all.length)
    (all.zip items).foldlM (fun c (setting, value) => setting.set c value) {}
  | _ => none

/-- The settings that a JSON text writes, if they are accepted. -/
def ofJson (text : String) : Except Fault Settings := do
  match (Json.Value.read? text).bind ofValue? with
  | none => throw (.badSetting .unreadable)
  | some c =>
    c.check
    return c

end Settings

end TapeCompiler
