import TapeCompiler.Passes.Folding

/-! # Reordering

The cells a program names fall into slots: blocks that overlap share one. The slots are packed from
cell zero on, the most used first (`reordering`). Inside a slot cells keep their places. -/

namespace TapeCompiler

/-! ### Slots -/

/-- A run of cells, as its first and the one past its last. -/
abbrev Extent := Nat × Nat

/-- The number of cells. -/
def Extent.size (e : Extent) : Nat := e.2 - e.1

/-- The order by first cell, then by last. -/
def Extent.before (a b : Extent) : Bool := a.1 < b.1 || (a.1 = b.1 && a.2 ≤ b.2)

/-- Joins sorted extents that **share a cell** with the one before. -/
def joinOverlaps : List Extent → List Extent
  | [] => []
  | e :: rest => go e rest
where
  go (last : Extent) : List Extent → List Extent
    | [] => [last]
    | e :: rest =>
      if e.1 < last.2 then go (last.1, max last.2 e.2) rest else last :: go e rest

/-- The extents of the symbols and the instructions of a program. -/
def Program.extents (p : Program) : List Extent :=
  let locals := p.functions.flatMap fun (_, f) => f.locals
  ((p.bindings ++ p.shadowed ++ locals).map fun (_, v) => (v.address, v.address + v.size))
    ++ p.instructions.flatMap Instruction.blocks

/-- The **slots of a program**, by address. -/
def Program.slots (p : Program) : List Extent := joinOverlaps (p.extents.mergeSort Extent.before)

/-! ### Use -/

/-- The cells by which copies, prints and operators use slots. -/
def Instruction.uses : Instruction → List Nat
  | .copyValue target source => [target, source]
  | .print ops => ops.filterMap Operand.address?
  | .binary target _ l r => target :: (l.address?.toList ++ r.address?.toList)
  | _ => []

/-- The number of the slot, from 1 on, that a use of a cell goes to: the **last slot that starts no
later**. -/
def slotNumber (slots : List Extent) (cell : Nat) : Nat := slots.countP fun e => e.1 ≤ cell

/-- The number of uses of each slot. -/
def slotUses (slots : List Extent) (uses : List Nat) : List Nat :=
  let numbers := uses.map (slotNumber slots)
  slots.zipIdx.map fun (_, k) => numbers.count (k + 1)

/-! ### Packing -/

/-- Places slots one behind another. -/
def pack : Nat → List Extent → List Relocation
  | _, [] => []
  | next, e :: rest => ⟨e.1, next, e.size⟩ :: pack (next + e.size) rest

/-- Where the slots go: **the most used first**, of equally used ones the lower first. -/
def packed (slots : List Extent) (uses : List Nat) : List Relocation :=
  let ranked := (slots.zip (slotUses slots uses)).mergeSort fun a b => b.2 ≤ a.2
  pack 0 (ranked.map Prod.fst)

/-- Packs the slots of a program; counts one unless every slot is in its place already. -/
def reordering : Pass := fun p =>
  let moves := packed p.slots (p.instructions.flatMap Instruction.uses)
  if moves.all fun m => m.source = m.target then (p, 0)
  else (p.mapAddress (relocate moves), 1)

end TapeCompiler
