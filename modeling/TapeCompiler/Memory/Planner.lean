import TapeCompiler.Fault
import TapeCompiler.Text.Names
import TapeCompiler.Text.Pieces

/-! # The memory planner

A planner hands out numbered blocks of cells to names. A name may have several blocks, one for each
open scope that bound it; their numbers are on the **stack of the name**, and the last one is the
block it stands for (`Planner.visible?`). Leaving a scope or dropping a block makes it inactive, and
a collection sweeps the blocks that are inactive or without references and moves the others together
where the model compacts (`Planner.collect`). A request that does not fit forces a collection before
it fails (`Planner.reserve`); what a failed request leaves behind is the planner after that
collection. Every request is told how many seconds ago the last collection was. -/

namespace TapeCompiler

/-- The settings of a planner. -/
structure PlannerSettings where
  model : MemoryModel := .dynamic
  memorySize : Nat := 30000
  collects : Bool := true
  /-- The part of memory in use above which a collection is due. -/
  threshold : Binary64 := .ofDecimal false 75 (-2)
  deriving DecidableEq, Repr

/-- Refuses sizes and thresholds the models cannot work with. -/
def PlannerSettings.check (c : PlannerSettings) : Except Fault Unit :=
  if c.memorySize = 0 then .error (.badSetting .noMemory)
  else if c.model.hasHeap ∧ c.memorySize ≤ heapBase then
    .error (.badSetting (.noHeap c.model c.memorySize))
  else if (Binary64.zero false).lt c.threshold ∧ c.threshold.le (.ofNat 1) then .ok ()
  else .error (.badSetting (.threshold c.threshold))

/-- A block of cells handed out to a name. -/
structure Block where
  /-- Blocks are numbered in the order in which they are created. -/
  id : Nat
  name : String
  address : Nat
  size : Nat
  active : Bool
  /-- The tag of the scope that owns the block. -/
  scope : String
  references : Nat
  deriving DecidableEq, Repr

namespace Block

/-- One past the last cell. -/
def stop (b : Block) : Nat := b.address + b.size

/-- Whether two blocks share a cell. -/
def overlaps (a b : Block) : Bool := a.address < b.stop && b.address < a.stop

/-- Whether a collection keeps the block. -/
def live (b : Block) : Bool := b.active && b.references ≠ 0

/-- The cells of blocks taken together. -/
def total : List Block → Nat
  | [] => 0
  | b :: rest => b.size + total rest

/-- The block after it was given up. -/
def release (b : Block) : Block := { b with active := false, references := 0 }

/-- Whether the block is active and owned by a scope. -/
def activeIn (scope : String) (b : Block) : Bool := b.active && b.scope = scope

/-- Whether the block lies in the heap of a model that compacts it. -/
def inHeap (model : MemoryModel) (b : Block) : Bool := model = .hybrid && heapBase ≤ b.address

end Block

/-- An open scope. -/
structure Frame where
  tag : String
  /-- The stack pointer when the scope was opened. -/
  mark : Nat
  deriving DecidableEq, Repr

/-- The outcome of a collection. -/
structure Sweep where
  collected : Nat
  freedCells : Nat
  relocated : Nat
  forced : Bool
  deriving DecidableEq, Repr

/-- The numbers of the active blocks of each name, **innermost last**. -/
abbrev Stacks := Names (List Nat)

namespace Stacks

/-- The numbers on the stack of a name. -/
def of (m : Stacks) (name : String) : List Nat := (m.find? name).getD []

/-- The stacks without a number of a name. -/
def without (m : Stacks) (name : String) (id : Nat) : Stacks :=
  match (m.of name).idxOf? id with
  | none => m
  | some k => m.insert name ((m.of name).eraseIdx k)

end Stacks

/-- A memory planner. -/
structure Planner where
  settings : PlannerSettings
  /-- The blocks not yet swept, **newest first**. -/
  blocks : List Block
  bindings : Stacks
  /-- The number of active blocks. -/
  activeCount : Nat
  /-- The cells of the blocks not yet swept. -/
  activeCells : Nat
  /-- The blocks ever handed out. -/
  created : Nat
  /-- The open scopes, innermost first, without the outermost. -/
  frames : List Frame
  /-- The scopes ever opened. -/
  opened : Nat
  /-- The next free cell of the one region, or of the small one. -/
  low : Nat
  /-- The next free cell of the heap. -/
  heap : Nat
  /-- The next free cell of the globals. -/
  globals : Nat
  /-- The next free cell of the stack. -/
  stack : Nat
  /-- One past the highest cell ever handed out. -/
  highWater : Nat
  collections : Nat
  /-- The moves not yet taken over. -/
  moves : List Relocation
  /-- The attempts to leave the outermost scope. -/
  rootExits : Nat
  deriving DecidableEq, Repr

namespace Planner

/-- The planner of some settings, if they are good. -/
def new (c : PlannerSettings) : Except Fault Planner := do
  c.check
  return ⟨c, [], [], 0, 0, 0, [], 0, 0, heapBase, globalsBase, 0, 0, 0, [], 0⟩

/-! ### Views -/

/-- The blocks in the order in which they were created. -/
def allocations (p : Planner) : List Block := p.blocks.reverse

/-- The part of memory in use. -/
def utilization (p : Planner) : Binary64 :=
  (Binary64.ofNat p.activeCells).div (.ofNat p.settings.memorySize)

/-- The tag of the innermost scope. -/
def scope (p : Planner) : String :=
  match p.frames with
  | [] => rootScope
  | f :: _ => f.tag

/-- The number of open scopes. -/
def depth (p : Planner) : Nat := p.frames.length + 1

/-- The numbers on the stack of a name. -/
def bound (p : Planner) (name : String) : List Nat := p.bindings.of name

/-- The block with a number. -/
def numbered? (p : Planner) (id : Nat) : Option Block := p.blocks.find? fun b => b.id = id

/-- The block a name stands for: **the last one on its stack**. -/
def visible? (p : Planner) (name : String) : Option Block :=
  (p.bound name).getLast?.bind fun id => (p.numbered? id).filter Block.active

/-- The address of the block a name stands for. -/
def address? (p : Planner) (name : String) : Option Nat := (p.visible? name).map Block.address

/-- What was warned about. -/
def warnings (p : Planner) : List String :=
  List.replicate p.rootExits "exit_scope called on the root scope; ignored"

/-! ### Stacks of names -/

/-- Takes a number off the stack of a name; returns where it was. -/
def unbind (p : Planner) (name : String) (id : Nat) : Option Nat × Planner :=
  ((p.bound name).idxOf? id, { p with bindings := p.bindings.without name id })

/-- Takes blocks off the stacks of their names. -/
def unbindAll (p : Planner) (blocks : List Block) : Planner :=
  { p with bindings := blocks.foldl (fun m b => m.without b.name b.id) p.bindings }

/-- The planner with one block changed. -/
def modifyBlock (p : Planner) (id : Nat) (f : Block → Block) : Planner :=
  { p with blocks := p.blocks.map fun b => if b.id = id then f b else b }

/-- Gives up an active block. -/
def release (p : Planner) (id : Nat) : Planner :=
  { p.modifyBlock id Block.release with activeCount := p.activeCount - 1 }

/-! ### Collections -/

/-- Whether a collection is due some seconds after the last one. -/
def collectionDue (p : Planner) (idle : Int) : Bool :=
  p.settings.collects &&
    (p.settings.threshold.lt p.utilization || idle > collectionInterval)

/-- The next free cells of the two regions that are compacted. -/
structure Cursor where
  low : Nat
  heap : Nat
  deriving DecidableEq, Repr

namespace Cursor

/-- The next free cell of the region of a block. -/
def target (model : MemoryModel) (k : Cursor) (b : Block) : Nat :=
  if b.inHeap model then k.heap else k.low

/-- The next free cells behind a block. -/
def next (model : MemoryModel) (k : Cursor) (b : Block) : Cursor :=
  if b.inHeap model then { k with heap := k.heap + b.size } else { k with low := k.low + b.size }

/-- Blocks put **one behind the other**, in their regions. -/
def pack (model : MemoryModel) (k : Cursor) : List Block → List Block
  | [] => []
  | b :: rest => { b with address := k.target model b } :: pack model (k.next model b) rest

end Cursor

/-- The moves from blocks to where they are put. -/
def movesOf (blocks packed : List Block) : List Relocation :=
  (blocks.zip packed).filterMap fun (b, c) =>
    if b.address = c.address then none else some ⟨b.address, c.address, b.size⟩

/-- Moves all blocks together, **lowest address first**; returns how many moved. -/
def compact (p : Planner) : Nat × Planner :=
  let model := p.settings.model
  let sorted := p.allocations.mergeSort fun a b => a.address ≤ b.address
  let packed := Cursor.pack model ⟨0, heapBase⟩ sorted
  let k := sorted.foldl (Cursor.next model) ⟨0, heapBase⟩
  let moves := movesOf sorted packed
  (moves.length, { p with
    blocks := p.blocks.map fun b => (packed.find? fun c => c.id = b.id).getD b
    low := k.low
    heap := if model = .hybrid then k.heap else p.heap
    moves := p.moves ++ moves })

/-- Sweeps every block that is **inactive or without references**; returns them. -/
def sweep (p : Planner) : List Block × Planner :=
  let swept := p.allocations.filter fun b => !b.live
  let kept : Planner := { p with
    blocks := p.blocks.filter Block.live
    activeCount := p.activeCount - swept.countP Block.active
    activeCells := p.activeCells - Block.total swept }
  (swept, kept.unbindAll swept)

/-- Sweeps, and compacts where the model does. -/
def collect (p : Planner) (forced : Bool) : Sweep × Planner :=
  let (swept, p) := p.sweep
  let (relocated, p) := if p.settings.model.compacts then p.compact else (0, p)
  (⟨swept.length, Block.total swept, relocated, forced⟩,
    { p with collections := p.collections + 1 })

/-- Hands over the moves made since the last time. -/
def takeMoves (p : Planner) : List Relocation × Planner := (p.moves, { p with moves := [] })

/-! ### Requests -/

/-- The next free cell after a request of `size` cells, if they end at or below the limit. -/
def bump (next size limit : Nat) : Option Nat :=
  if next + size ≤ limit then some (next + size) else none

/-- Takes cells from the heap. -/
def placeInHeap (p : Planner) (size : Nat) : Option (Nat × Planner) :=
  (bump p.heap size p.settings.memorySize).map fun next => (p.heap, { p with heap := next })

/-- Takes cells from the low region. -/
def placeLow (p : Planner) (size limit : Nat) : Option (Nat × Planner) :=
  (bump p.low size limit).map fun next => (p.low, { p with low := next })

/-- Takes cells from the globals in the outermost scope and from the stack in any other. -/
def placeByScope (p : Planner) (size : Nat) : Option (Nat × Planner) :=
  if p.frames.isEmpty then
    (bump p.globals size heapBase).map fun next => (p.globals, { p with globals := next })
  else
    (bump p.stack size globalsBase).map fun next => (p.stack, { p with stack := next })

/-- Finds room for cells where the model says, if there is any. -/
def place (p : Planner) (size : Nat) : Option (Nat × Planner) :=
  match p.settings.model with
  | .static | .dynamic => p.placeLow size p.settings.memorySize
  | .hybrid =>
    (if size ≤ 2 then p.placeLow size heapBase else none).or (p.placeInHeap size)
  | .segmented => (p.placeByScope size).or (p.placeInHeap size)

/-- The fault of a request that does not fit. -/
def outOfMemory (p : Planner) (name : String) (size : Nat) : Fault :=
  .outOfMemory name size p.settings.memorySize

/-- Finds room for cells: after a collection if one is due, and after **one more, forced**, if the
request does not fit. -/
def reserve (p : Planner) (name : String) (size : Nat) (idle : Int) :
    Except Fault Nat × Planner :=
  let p := if p.collectionDue idle then (p.collect false).2 else p
  match p.place size with
  | some (address, p) => (.ok address, p)
  | none =>
    let p := (p.collect true).2
    match p.place size with
    | some (address, p) => (.ok address, p)
    | none => (.error (p.outOfMemory name size), p)

/-- Adds a block. -/
def record (p : Planner) (b : Block) : Planner :=
  { p with
    blocks := b :: p.blocks
    activeCount := p.activeCount + 1
    activeCells := p.activeCells + b.size
    created := p.created + 1
    highWater := max p.highWater b.stop }

/-- Adds a new block and puts its number at a place of the stack of its name, or on top. -/
def add (p : Planner) (place : Option Nat) (name : String) (address size : Nat) (scope : String)
    (references : Nat) : Planner :=
  let stack := p.bound name
  let k := place.elim stack.length fun k => min k stack.length
  { p.record ⟨p.created, name, address, size, true, scope, references⟩ with
    bindings := p.bindings.insert name (stack.insertIdx k p.created) }

/-- The address of a name's block **in the innermost scope**, taking at least one cell on first
use. -/
def allocate (p : Planner) (name : String) (size : Nat) (idle : Int) :
    Except Fault Nat × Planner :=
  let size := max size 1
  let scope := p.scope
  match (p.visible? name).filter fun b => b.scope = scope with
  | some b => (.ok b.address, p)
  | none =>
    match p.reserve name size idle with
    | (.error f, p) => (.error f, p)
    | (.ok address, p) => (.ok address, p.add none name address size scope 1)

/-- Room for the block that a name moves to. Segmented stack blocks end with the innermost scope; a
block of another scope goes to the heap. -/
def reserveIn (p : Planner) (scope name : String) (size : Nat) (idle : Int) :
    Except Fault Nat × Planner :=
  if p.settings.model = .segmented ∧ scope ≠ p.scope then
    match p.placeInHeap size with
    | some (address, p) => (.ok address, p)
    | none => (.error (p.outOfMemory name size), p)
  else p.reserve name size idle

/-- Moves the block a name stands for to a larger one **owned by the same scope**, which takes its
place on the stack. The old block is given up first, so that a collection may reclaim it. -/
def resize (p : Planner) (name : String) (size : Nat) (idle : Int) :
    Except Fault (Option Relocation) × Planner :=
  match p.visible? name with
  | none => (.ok none, p)
  | some old =>
    if old.size ≥ size then (.ok none, p)
    else
      let (place, p) := p.unbind name old.id
      match (p.release old.id).reserveIn old.scope name size idle with
      | (.error f, p) => (.error f, p)
      | (.ok address, p) =>
        (.ok (some ⟨old.address, address, old.size⟩),
          p.add place name address size old.scope (max old.references 1))

/-- Gives up the block a name stands for; a binding it hid is visible again. -/
def deallocate (p : Planner) (name : String) : Bool × Planner :=
  match (p.bound name).getLast? with
  | none => (false, p)
  | some id =>
    let p := (p.unbind name id).2
    if ((p.numbered? id).filter Block.active).isSome then (true, p.release id) else (false, p)

/-- Changes the references of the block a name stands for. -/
def refer (p : Planner) (name : String) (f : Nat → Nat) : Bool × Planner :=
  match p.visible? name with
  | none => (false, p)
  | some b => (true, p.modifyBlock b.id fun b => { b with references := f b.references })

/-- Adds a reference to the block a name stands for. -/
def addReference (p : Planner) (name : String) : Bool × Planner := p.refer name (· + 1)

/-- Drops a reference to the block a name stands for, if there is one left. -/
def removeReference (p : Planner) (name : String) : Bool × Planner := p.refer name (· - 1)

/-! ### Scopes -/

/-- Opens a scope; its tag is unique. -/
def enter (p : Planner) (name : String) : String × Planner :=
  let tag := name ++ "#" ++ toString (p.opened + 1)
  (tag, { p with frames := ⟨tag, p.stack⟩ :: p.frames, opened := p.opened + 1 })

/-- Closes the innermost scope and gives up **exactly the blocks it owns**; returns how many. The
outermost scope stays open. -/
def leave (p : Planner) : Nat × Planner :=
  match p.frames with
  | [] => (0, { p with rootExits := p.rootExits + 1 })
  | f :: rest =>
    let closed := p.allocations.filter (Block.activeIn f.tag)
    let outside : Planner := { p with
      blocks := p.blocks.map fun b => if b.activeIn f.tag then { b with active := false } else b
      activeCount := p.activeCount - closed.length
      frames := rest
      stack := if p.settings.model = .segmented then f.mark else p.stack }
    (closed.length, outside.unbindAll closed)

end Planner

/-! ### Listing -/

/-- The line of a block. -/
def Block.line (b : Block) : String :=
  Text.padLeft 6 ' ' (toString b.address) ++ ".." ++ Text.padRight 6 (toString b.stop) ++ " " ++
    Text.padRight 16 b.name ++ s!" refs={b.references} {b.scope}" ++
    (if b.active then "" else " (inactive)")

/-- The blocks of a planner as a table. -/
def Planner.listing (p : Planner) : String :=
  let title := s!"{p.settings.model.name} planner, {p.settings.memorySize} cell(s), " ++
    s!"high water {p.highWater}"
  let rows := (p.allocations.mergeSort fun a b => a.address ≤ b.address).map Block.line
  String.join ((title :: rows).map fun l => l ++ "\n")

end TapeCompiler
