import TapeCompiler.Library
import TapeCompiler.Cells.Program
import TapeCompiler.Proofs.Tape.Operators
import Mathlib.Order.Fin.Basic

/-! # What an instruction does

`Instruction.effect` is the effect of an instruction on the cells modulo the width, on the input and
on the output. Labels, jumps, notes and calls without a template have none. Cells that the
instruction does not write keep their numbers (`cells_effect`). -/

namespace TapeCompiler

variable {w : CellWidth}

/-! ### Storing and printing -/

namespace Store

/-- Numbers stored **from a cell on**. -/
def setAll (σ : Store w) : Nat → List w.Cell → Store w
  | _, [] => σ
  | a, v :: rest => (σ.set a v).setAll (a + 1) rest

/-- Operands stored from a cell on, **one after another**: a later one sees the cells stored
before. -/
def storeAll (σ : Store w) : Nat → List Operand → Store w
  | _, [] => σ
  | a, o :: rest => (σ.set a (σ.first o)).storeAll (a + 1) rest

/-- Numbers written. -/
def write (σ : Store w) (vs : List w.Cell) : Store w :=
  { σ with output := σ.output ++ vs.map Fin.val }

/-- The numbers that an operand prints: all of a value; of cells the first, and the others unless
they are zero. -/
def shown (σ : Store w) : Operand → List w.Cell
  | .value v => v.cells.map w.literal
  | .cells a len =>
    σ.cells a :: ((List.range' (a + 1) (len - 1)).map σ.cells).filter fun v => v ≠ 0

/-- Operands printed. -/
def print (σ : Store w) (ops : List Operand) : Store w := σ.write (ops.flatMap σ.shown)

@[simp] theorem cells_write (σ : Store w) (vs : List w.Cell) : (σ.write vs).cells = σ.cells := rfl

@[simp] theorem write_nil (σ : Store w) : σ.write [] = σ := by
  simp [write]

theorem write_append (σ : Store w) (us vs : List w.Cell) :
    σ.write (us ++ vs) = (σ.write us).write vs := by
  simp [write]

theorem write_cons (σ : Store w) (v : w.Cell) (vs : List w.Cell) :
    σ.write (v :: vs) = (σ.put v).write vs := by
  simp [write, put]

@[simp] theorem shown_write (σ : Store w) (vs : List w.Cell) : (σ.write vs).shown = σ.shown := by
  funext o
  cases o <;> rfl

theorem cells_setAll (σ : Store w) (a : Nat) (vs : List w.Cell) {b : Nat}
    (h : b ∉ List.range' a vs.length) : (σ.setAll a vs).cells b = σ.cells b := by
  induction vs generalizing σ a with
  | nil => rfl
  | cons v rest ih =>
    rw [List.length_cons, List.range'_succ, List.mem_cons, not_or] at h
    rw [setAll, ih _ _ h.2, cells_set_of_ne _ _ h.1]

theorem cells_setAll_cons (σ : Store w) (a : Nat) (v : w.Cell) (vs : List w.Cell) :
    (σ.setAll a (v :: vs)).cells a = v := by
  rw [setAll, cells_setAll _ _ _ (by simp [List.mem_range'_1]), cells_set_self]

@[simp] theorem input_setAll (σ : Store w) (a : Nat) (vs : List w.Cell) :
    (σ.setAll a vs).input = σ.input := by
  induction vs generalizing σ a with
  | nil => rfl
  | cons v rest ih => exact ih _ _

@[simp] theorem output_setAll (σ : Store w) (a : Nat) (vs : List w.Cell) :
    (σ.setAll a vs).output = σ.output := by
  induction vs generalizing σ a with
  | nil => rfl
  | cons v rest ih => exact ih _ _

theorem cells_storeAll (σ : Store w) (a : Nat) (os : List Operand) {b : Nat}
    (h : b ∉ List.range' a os.length) : (σ.storeAll a os).cells b = σ.cells b := by
  induction os generalizing σ a with
  | nil => rfl
  | cons o rest ih =>
    rw [List.length_cons, List.range'_succ, List.mem_cons, not_or] at h
    rw [storeAll, ih _ _ h.2, cells_set_of_ne _ _ h.1]

theorem cells_storeAll_cons (σ : Store w) (a : Nat) (o : Operand) (os : List Operand) :
    (σ.storeAll a (o :: os)).cells a = σ.first o := by
  rw [storeAll, cells_storeAll _ _ _ (by simp [List.mem_range'_1]), cells_set_self]

theorem cells_receive (σ : Store w) {a b : Nat} (h : b ≠ a) :
    (σ.receive a).cells b = σ.cells b := by
  obtain ⟨cells, input, output⟩ := σ
  cases input <;> exact cells_set_of_ne _ _ h

end Store

/-- **Whether a condition holds**: a value by its truth, cells by the first. -/
def Store.holds (σ : Store w) : Operand → Bool
  | .value v => v.truthy
  | .cells a _ => decide (σ.cells a ≠ 0)

/-! ### Calls -/

/-- What a function of the standard library does with operands. A choice between two is made by
their first cells, unsigned, and **only for a target**. -/
def Builtin.effect (b : Builtin) (args : List Operand) (target : Option Nat) (σ : Store w) :
    Store w :=
  match b, args, target with
  | .print, _, _ => σ.print args
  | .prompt, _, some a => σ.receive a
  | .prompt, _, none => { σ with input := σ.input.tail }
  | .smaller, [x, y], some a => σ.set a (min (σ.first x) (σ.first y))
  | .larger, [x, y], some a => σ.set a (max (σ.first x) (σ.first y))
  | _, _, _ => σ

namespace Library

/-- What a call does by a known library (`Library.Known`): that of the function of its name;
**without a template it does nothing**. -/
def effect (l : Library) (name : String) (args : List Operand) (target : Option Nat)
    (σ : Store w) : Store w :=
  match l.find? name, Builtin.named? name with
  | some _, some b => b.effect args target σ
  | _, _ => σ

variable {l : Library} {name : String}

theorem effect_of_none (h : l.find? name = none) (args : List Operand) (target : Option Nat)
    (σ : Store w) : l.effect name args target σ = σ := by
  simp [effect, h]

theorem effect_of_named {t : Template} {b : Builtin} (h : l.find? name = some t)
    (hb : Builtin.named? name = some b) (args : List Operand) (target : Option Nat)
    (σ : Store w) : l.effect name args target σ = b.effect args target σ := by
  simp [effect, h, hb]

end Library

/-! ### Instructions -/

/-- **What an instruction does** to the cells, the input and the output. -/
def Instruction.effect (l : Library) : Instruction → Store w → Store w
  | .setValue a v, σ => σ.setAll a (v.cells.map w.literal)
  | .copyValue target source, σ => σ.set target (σ.cells source)
  | .binary target o x y, σ => σ.set target (o.onCells (σ.first x) (σ.first y))
  | .print ops, σ => σ.print ops
  | .callFunction name args target, σ => l.effect name args target σ
  | .callMethod _ object method args target, σ =>
    l.effect (object ++ "." ++ method) args target σ
  | .createArray a elements, σ => σ.storeAll a elements
  | .createObject a fields, σ => σ.storeAll a (fields.map Prod.snd)
  | .update a change, σ => σ.set a (σ.cells a + w.literal change.delta)
  | _, σ => σ

namespace Instruction

theorem cells_builtinEffect (b : Builtin) (args : List Operand) (target : Option Nat)
    (σ : Store w) {a : Nat} (h : a ∉ target) : (b.effect args target σ).cells a = σ.cells a := by
  unfold Builtin.effect
  split
  · rfl
  · exact Store.cells_receive _ fun he => h (by rw [he]; rfl)
  · rfl
  · exact Store.cells_set_of_ne _ _ fun he => h (by rw [he]; rfl)
  · exact Store.cells_set_of_ne _ _ fun he => h (by rw [he]; rfl)
  · rfl

theorem cells_libraryEffect (l : Library) (name : String) (args : List Operand)
    (target : Option Nat) (σ : Store w) {a : Nat} (h : a ∉ target.toList) :
    (l.effect name args target σ).cells a = σ.cells a := by
  unfold Library.effect
  split
  · exact cells_builtinEffect _ _ _ _ (by simpa using h)
  · rfl

/-- **A cell that is not written keeps its number.** -/
theorem cells_effect (l : Library) (i : Instruction) (σ : Store w) {a : Nat} (h : a ∉ i.writes) :
    (i.effect l σ).cells a = σ.cells a := by
  cases i with
  | setValue b v => exact Store.cells_setAll _ _ _ (by simpa [writes, Value.size] using h)
  | copyValue | binary | update =>
    exact Store.cells_set_of_ne _ _ (by simpa [writes] using h)
  | callFunction | callMethod => exact cells_libraryEffect _ _ _ _ _ h
  | createArray b es =>
    refine Store.cells_storeAll _ _ _ fun hm => h ?_
    simp only [List.mem_range'_1, writes] at hm ⊢
    omega
  | createObject b fs =>
    refine Store.cells_storeAll _ _ _ fun hm => h ?_
    simp only [List.mem_range'_1, List.length_map, writes] at hm ⊢
    omega
  | _ => rfl

end Instruction

end TapeCompiler
