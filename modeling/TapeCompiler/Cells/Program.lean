import TapeCompiler.Cells.Instruction
import TapeCompiler.Memory.Model
import TapeCompiler.Script.Tree
import TapeCompiler.Text.Names

/-! # Programs on cells

A program is a list of instructions with the names it binds: the visible binding of each name, the
bindings that were displaced, and the functions. Names are kept in order (`Names`). -/

namespace TapeCompiler

/-- The block of a variable. -/
structure VariableInfo where
  address : Nat
  size : Nat
  kind : DeclKind
  deriving DecidableEq, Repr

/-- The block with its address mapped. -/
def VariableInfo.mapAddress (f : Nat → Nat) (v : VariableInfo) : VariableInfo :=
  { v with address := f v.address }

/-- A declared function; its body is kept as it was read. -/
structure FunctionInfo where
  /-- Also the value of the function's cell. -/
  id : Nat
  params : List String
  body : List Statement
  locals : Names VariableInfo
  inlineCandidate : Bool
  deriving Repr

/-- A program on cells. -/
structure Program where
  bindings : Names VariableInfo
  /-- Bindings displaced by a nested declaration of the name, or by the end of their scope. -/
  shadowed : List (String × VariableInfo)
  functions : Names FunctionInfo
  instructions : List Instruction
  deriving Repr

namespace Program

/-- The empty program. -/
def empty : Program := ⟨[], [], [], []⟩

/-- The program with every address of a symbol mapped. -/
def mapSymbols (f : Nat → Nat) (p : Program) : Program :=
  { p with
    bindings := p.bindings.mapValues (VariableInfo.mapAddress f)
    shadowed := p.shadowed.map fun (name, info) => (name, info.mapAddress f)
    functions := p.functions.mapValues fun fn =>
      { fn with locals := fn.locals.mapValues (VariableInfo.mapAddress f) } }

/-- The program with **every address mapped**. -/
def mapAddress (f : Nat → Nat) (p : Program) : Program :=
  { p.mapSymbols f with instructions := p.instructions.map (Instruction.mapAddress f) }

/-- The program after one batch of moves. -/
def relocate (p : Program) (moves : List Relocation) : Program :=
  if moves.isEmpty then p else p.mapAddress (TapeCompiler.relocate moves)

/-- The program after a variable's block moved to a larger one of `size` cells. Operands that named
the whole old block name the whole new one; the other moves of the same collection apply to every
other cell. -/
def grow (p : Program) (moved : Relocation) (size : Nat) (moves : List Relocation) : Program :=
  let f address := (moved.newAddress? address).getD (TapeCompiler.relocate moves address)
  { p with instructions := p.instructions.map (Instruction.widen moved.source moved.size size) }
    |>.mapAddress f

/-- One past the highest cell of an instruction, a variable or a displaced binding. -/
def maxAddress (p : Program) : Nat :=
  let code := p.instructions.foldl (fun top i => max top i.maxAddress) 0
  let symbols := p.bindings.map Prod.snd ++ p.shadowed.map Prod.snd
  symbols.foldl (fun top v => max top (v.address + v.size)) code

/-- One past the highest cell, in machine words. -/
def maxAddressWrapping (p : Program) : Nat :=
  let code := p.instructions.foldl (fun top i => max top i.maxAddressWrapping) 0
  let symbols := p.bindings.map Prod.snd ++ p.shadowed.map Prod.snd
  symbols.foldl (fun top v => max top ((v.address + v.size) % wordSize)) code

end Program

end TapeCompiler
