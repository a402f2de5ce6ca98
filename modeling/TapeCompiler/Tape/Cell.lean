import TapeCompiler.Fault

/-! # Cells

A cell holds a natural number below `2 ^ bits`. `CellWidth.wrap` reduces an integer into that
range (`wrap_lt`). -/

namespace TapeCompiler

/-- The width of a cell. -/
inductive CellWidth
  | bits8
  | bits16
  | bits32
  deriving DecidableEq, Repr

namespace CellWidth

/-- The bits of a cell. -/
def bits : CellWidth → Nat
  | bits8 => 8
  | bits16 => 16
  | bits32 => 32

/-- The number of values of a cell. -/
def modulus : CellWidth → Nat
  | bits8 => 256
  | bits16 => 65536
  | bits32 => 4294967296

/-- The width of a number of bits; no other widths exist. -/
def ofBits (n : Nat) : Except Fault CellWidth :=
  match n with
  | 8 => .ok bits8
  | 16 => .ok bits16
  | 32 => .ok bits32
  | _ => .error (.badSetting (.cellWidth n))

/-- An integer **modulo the number of values**. -/
def wrap (w : CellWidth) (n : Int64) : Nat := (n.toInt % w.modulus).toNat

theorem modulus_eq (w : CellWidth) : w.modulus = pow2 w.bits := by cases w <;> rfl

theorem modulus_pos (w : CellWidth) : 0 < w.modulus := by cases w <;> decide

theorem wrap_lt (w : CellWidth) (n : Int64) : w.wrap n < w.modulus := by
  have h := w.modulus_pos
  have := Int.emod_lt_of_pos n.toInt (b := (w.modulus : Int)) (by omega)
  have := Int.emod_nonneg n.toInt (b := (w.modulus : Int)) (by omega)
  unfold wrap; omega

end CellWidth

end TapeCompiler
