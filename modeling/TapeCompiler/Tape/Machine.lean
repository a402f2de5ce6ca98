import TapeCompiler.Tape.Cell
import TapeCompiler.Tape.Symbol

/-! # The tape machine

A machine is a tape of cells and a pointer. A run finds the partner of every bracket (`partners`),
clears the tape and executes one operation at a time (`step`) until the code ends, a fault occurs
or the operation limit is spent (`runFor`). Characters that are no operations are skipped; the
positions reported in faults count them all the same. -/

namespace TapeCompiler

/-- What happens at the ends of the tape. -/
inductive PointerMode
  /-- The pointer goes on at the other end. -/
  | wrap
  /-- The run fails. -/
  | strict
  deriving DecidableEq, Repr

/-- The settings of a machine. -/
structure MachineSettings where
  tapeSize : Nat := 30000
  width : CellWidth := .bits8
  maxOperations : Nat := 100000000
  pointerMode : PointerMode := .wrap
  deriving DecidableEq, Repr

/-- Refuses an empty tape and a run of no operations. -/
def MachineSettings.check (c : MachineSettings) : Except Fault Unit :=
  if c.tapeSize = 0 then .error (.badSetting .emptyTape)
  else if c.maxOperations = 0 then .error (.badSetting .noOperations)
  else .ok ()

/-! ### Operations and brackets -/

/-- An operation and the offset of its character in the code. -/
structure Sited where
  op : Op
  position : Nat
  deriving DecidableEq, Repr

/-- The operations of a code, in order. -/
def operations (code : List Char) : List Sited :=
  code.zipIdx.filterMap fun (c, i) => (Op.ofChar? c).map fun op => ⟨op, i⟩

/-- The state of the search for partners: how many operations were seen, the index and position of
each bracket still open, innermost first, and the partners found. -/
structure Pairing where
  seen : Nat
  openings : List (Nat × Nat)
  partner : Array Nat
  deriving DecidableEq, Repr

/-- Takes one operation into account. -/
def Pairing.next (p : Pairing) (s : Sited) : Except Fault Pairing :=
  match s.op with
  | .enter => .ok ⟨p.seen + 1, (p.seen, s.position) :: p.openings, p.partner⟩
  | .leave =>
    match p.openings with
    | [] => .error (.unmatchedBracket .closing s.position)
    | (start, _) :: rest =>
      .ok ⟨p.seen + 1, rest, (p.partner.setIfInBounds start p.seen).setIfInBounds p.seen start⟩
  | _ => .ok ⟨p.seen + 1, p.openings, p.partner⟩

/-- The **partner of every bracket**; the first closing bracket without one is reported, else the
last opening one. -/
def partners (ops : List Sited) : Except Fault (Array Nat) := do
  let p ← ops.foldlM Pairing.next ⟨0, [], Array.replicate ops.length 0⟩
  match p.openings with
  | [] => .ok p.partner
  | (_, position) :: _ => .error (.unmatchedBracket .opening position)

/-! ### Steps -/

/-- The state of a run. -/
structure RunState where
  tape : Array Nat
  pointer : Nat
  /-- The index of the next operation. -/
  counter : Nat
  /-- The bytes not yet read. -/
  input : List UInt8
  output : Array Nat
  /-- The operations executed. -/
  executed : Nat
  deriving DecidableEq, Repr

/-- The value of the current cell. -/
@[inline] def RunState.cell (s : RunState) : Nat := s.tape.getD s.pointer 0

/-- Code ready to be run. -/
structure Routine where
  ops : Array Sited
  partner : Array Nat
  deriving DecidableEq, Repr

/-- Executes one operation; the counter moves on, from the partner where a bracket jumps. -/
@[inline] def step (c : MachineSettings) (r : Routine) (o : Sited) (s : RunState) :
    Except (Fault × RunState) RunState :=
  let ⟨tape, pointer, counter, input, output, executed⟩ := s
  let m := c.width.modulus
  match o.op with
  | .inc =>
    let v := (tape.getD pointer 0 + 1) % m
    .ok ⟨tape.setIfInBounds pointer v, pointer, counter + 1, input, output, executed + 1⟩
  | .dec =>
    let v := (tape.getD pointer 0 + m - 1) % m
    .ok ⟨tape.setIfInBounds pointer v, pointer, counter + 1, input, output, executed + 1⟩
  | .negate =>
    let v := (m - tape.getD pointer 0) % m
    .ok ⟨tape.setIfInBounds pointer v, pointer, counter + 1, input, output, executed + 1⟩
  | .right =>
    if pointer + 1 < tape.size then
      .ok ⟨tape, pointer + 1, counter + 1, input, output, executed + 1⟩
    else match c.pointerMode with
      | .wrap => .ok ⟨tape, 0, counter + 1, input, output, executed + 1⟩
      | .strict => .error (.pointerOutOfBounds o.position tape.size,
          ⟨tape, pointer, counter, input, output, executed⟩)
  | .left =>
    if pointer > 0 then
      .ok ⟨tape, pointer - 1, counter + 1, input, output, executed + 1⟩
    else match c.pointerMode with
      | .wrap => .ok ⟨tape, tape.size - 1, counter + 1, input, output, executed + 1⟩
      | .strict => .error (.pointerOutOfBounds o.position tape.size,
          ⟨tape, pointer, counter, input, output, executed⟩)
  | .write =>
    let v := tape.getD pointer 0
    .ok ⟨tape, pointer, counter + 1, input, output.push v, executed + 1⟩
  | .read =>
    match input with
    | [] =>
      .ok ⟨tape.setIfInBounds pointer 0, pointer, counter + 1, [], output, executed + 1⟩
    | byte :: rest =>
      .ok ⟨tape.setIfInBounds pointer (byte.toNat % m), pointer, counter + 1, rest, output,
        executed + 1⟩
  | .enter =>
    let next := if tape.getD pointer 0 = 0 then r.partner.getD counter 0 else counter
    .ok ⟨tape, pointer, next + 1, input, output, executed + 1⟩
  | .leave =>
    let next := if tape.getD pointer 0 = 0 then counter else r.partner.getD counter 0
    .ok ⟨tape, pointer, next + 1, input, output, executed + 1⟩

/-- How a run ended. -/
inductive Ending
  /-- The code ran off its end. -/
  | finished
  /-- The limit was spent before that. -/
  | halted
  | failed (fault : Fault)
  deriving DecidableEq, Repr

/-- Runs **at most `fuel` operations**. -/
def runFor (c : MachineSettings) (r : Routine) : Nat → RunState → Ending × RunState
  | 0, s => if s.counter < r.ops.size then (.halted, s) else (.finished, s)
  | fuel + 1, s =>
    if h : s.counter < r.ops.size then
      match step c r r.ops[s.counter] s with
      | .ok t => runFor c r fuel t
      | .error (f, t) => (.failed f, t)
    else (.finished, s)

/-! ### Runs -/

/-- What a completed run shows. -/
structure Execution where
  /-- The output as text, with a note when the limit was spent. -/
  output : String
  outputCells : List Nat
  operations : Nat
  halted : Bool
  deriving DecidableEq, Repr

/-- The character of a cell; a number that is no character shows as the replacement character. -/
def cellChar (n : Nat) : Char :=
  if h : n.isValidChar then Char.ofNatAux n h else '\uFFFD'

/-- The note after the output of a run whose limit was spent. -/
def haltNote (limit : Nat) : String := s!"[halted: operation limit {limit} reached]"

/-- A tape machine. -/
structure Machine where
  settings : MachineSettings
  tape : Array Nat
  pointer : Nat
  deriving DecidableEq, Repr

namespace Machine

/-- A machine with a cleared tape. -/
def new (c : MachineSettings) : Machine := ⟨c, Array.replicate (max c.tapeSize 1) 0, 0⟩

/-- What a run over `limit` operations shows. -/
def report (limit : Nat) (halted : Bool) (s : RunState) : Execution where
  output :=
    let text := s.output.foldl (fun text v => text.push (cellChar v)) ""
    if halted then text ++ haltNote limit else text
  outputCells := s.output.toList
  operations := s.executed
  halted := halted

/-- Runs a code on a cleared tape. Bad settings and unpaired brackets are reported before the
machine is touched. -/
def run (m : Machine) (code : String) (input : List UInt8) : Except Fault Execution × Machine :=
  let ops := operations code.toList
  match m.settings.check, partners ops with
  | .error f, _ => (.error f, m)
  | .ok _, .error f => (.error f, m)
  | .ok _, .ok partner =>
    let start : RunState := ⟨Array.replicate m.tape.size 0, 0, 0, input, #[], 0⟩
    let limit := m.settings.maxOperations
    let (ending, s) := runFor m.settings ⟨ops.toArray, partner⟩ limit start
    let after : Machine := ⟨m.settings, s.tape, s.pointer⟩
    match ending with
    | .finished => (.ok (report limit false s), after)
    | .halted => (.ok (report limit true s), after)
    | .failed f => (.error f, after)

/-- The output of a run, or the wording of its fault. -/
def runText (m : Machine) (code : String) (input : List UInt8) : String × Machine :=
  match m.run code input with
  | (.ok e, after) => (e.output, after)
  | (.error f, after) => (s!"Error: {f.message}", after)

end Machine

end TapeCompiler
