import TapeCompiler.Cells.Value
import TapeCompiler.Text.Classes

/-! # Operands

An instruction works on values and on runs of cells. -/

namespace TapeCompiler

/-- A value, or `len` cells from `address` on. -/
inductive Operand
  | value (v : Value)
  | cells (address len : Nat)
  deriving DecidableEq, Repr, Inhabited

namespace Operand

/-- One cell. -/
def cell (address : Nat) : Operand := cells address 1

/-- The value, if it is one. -/
def value? : Operand → Option Value
  | value v => some v
  | cells .. => none

/-- The first cell, if there are cells. -/
def address? : Operand → Option Nat
  | value _ => none
  | cells address _ => some address

/-- The cells read. -/
def span : Operand → List Nat
  | value _ => []
  | cells address len => List.range' address len

/-- The first cell and the one past the last; a value has none. -/
def bounds : Operand → Nat × Nat
  | value _ => (0, 0)
  | cells address len => (address, address + len)

/-- Whether a cell is read. -/
def reads : Operand → Nat → Bool
  | value _, _ => false
  | cells address len, cell => address ≤ cell && cell < address + len

/-- The operand with its address mapped. -/
def mapAddress (f : Nat → Nat) : Operand → Operand
  | value v => value v
  | cells address len => cells (f address) len

/-- The operand, stretched to `newLen` cells if it is exactly the block of `len` cells at
`block`. -/
def widen (block len newLen : Nat) : Operand → Operand
  | value v => value v
  | cells address n => if address = block ∧ n = len then cells address newLen else cells address n

/-- The text of an operand: texts are quoted, cells written by address and length. -/
def text : Operand → String
  | value (.str s) => Text.quoted s
  | value v => v.text
  | cells address len => if len = 1 then s!"@{address}" else s!"@{address}[{len}]"

end Operand

end TapeCompiler
