/-! # Memory models and moves

The four policies for handing out cells, and the borders of their regions. Static and dynamic memory
is one region; hybrid memory keeps small requests below `heapBase`; segmented memory has a stack
below `globalsBase`, globals up to `heapBase` and a heap above.

A relocation records that a block of cells moved. A batch of them maps an address by the first move
whose source holds it (`relocate`). -/

namespace TapeCompiler

/-- A policy for handing out cells. -/
inductive MemoryModel
  /-- One region, never compacted. -/
  | static
  /-- One region, compacted after each sweep. -/
  | dynamic
  /-- Small requests from cell 0, larger ones from the heap base; both compacted. -/
  | hybrid
  /-- A stack, globals and a heap, never compacted. -/
  | segmented
  deriving DecidableEq, Repr

namespace MemoryModel

/-- The name used in messages and listings. -/
def name : MemoryModel → String
  | static => "Static"
  | dynamic => "Dynamic"
  | hybrid => "Hybrid"
  | segmented => "Segmented"

/-- The name used in settings. -/
def tag : MemoryModel → String
  | static => "STATIC"
  | dynamic => "DYNAMIC"
  | hybrid => "HYBRID"
  | segmented => "SEGMENTED"

/-- The model a setting names. -/
def ofTag? (s : String) : Option MemoryModel :=
  [static, dynamic, hybrid, segmented].find? fun m => m.tag = s

/-- Whether a sweep is followed by compaction. -/
def compacts : MemoryModel → Bool
  | dynamic | hybrid => true
  | static | segmented => false

/-- Whether the model has a heap above `heapBase`. -/
def hasHeap : MemoryModel → Bool
  | hybrid | segmented => true
  | static | dynamic => false

end MemoryModel

/-- The first heap cell. -/
def heapBase : Nat := 1024

/-- The first cell of the globals region, which ends the stack region. -/
def globalsBase : Nat := 512

/-- The tag of the outermost scope. -/
def rootScope : String := "global"

/-- The seconds after which a collection is due. -/
def collectionInterval : Int := 10

/-! ### Moves -/

/-- The move of `size` cells. -/
structure Relocation where
  source : Nat
  target : Nat
  size : Nat
  deriving DecidableEq, Repr

/-- The new address of a cell of the block moved. -/
def Relocation.newAddress? (r : Relocation) (address : Nat) : Option Nat :=
  if r.source ≤ address ∧ address < r.source + r.size then
    some (r.target + (address - r.source))
  else none

/-- An address mapped by the **first move that holds it**. -/
def relocate (moves : List Relocation) (address : Nat) : Nat :=
  (moves.findSome? fun r => r.newAddress? address).getD address

@[simp] theorem relocate_nil (address : Nat) : relocate [] address = address := rfl

end TapeCompiler
