import TapeCompiler.Passes.Folding
import TapeCompiler.Proofs.Cells.Effect

/-! # Numbers as cells

Folding computes with 64 bits. Sums, differences and products agree modulo the width
(`literal_add`, `literal_sub`, `literal_mul`); quotients and remainders do on numbers of the width
(`literal_div`, `literal_mod`), and there a number is zero, or another number, if its cell is. -/

namespace TapeCompiler

variable {w : CellWidth}

namespace CellWidth

theorem modulus_dvd (w : CellWidth) : (w.modulus : Int) ∣ ((2 ^ 64 : Nat) : Int) := by
  cases w <;> decide

theorem bmod_emod_modulus (x : Int) : x.bmod (2 ^ 64) % (w.modulus : Int) = x % w.modulus := by
  rw [← Int.emod_emod_of_dvd _ w.modulus_dvd, Int.bmod_emod, Int.emod_emod_of_dvd _ w.modulus_dvd]

theorem val_literal (n : Int64) : ((w.literal n).val : Int) = n.toInt % w.modulus := by
  have := Int.emod_nonneg n.toInt (b := (w.modulus : Int)) (by have := w.modulus_pos; omega)
  show ((w.wrap n : Nat) : Int) = _
  unfold wrap
  omega

theorem literal_add (m n : Int64) : w.literal (m + n) = w.literal m + w.literal n := by
  apply Fin.ext
  have h : ((w.literal (m + n)).val : Int) = ((w.literal m + w.literal n).val : Int) := by
    rw [Fin.val_add, val_literal, Int64.toInt_add, bmod_emod_modulus, Int.natCast_mod,
      Int.natCast_add, val_literal, val_literal, ← Int.add_emod]
  exact_mod_cast h

theorem literal_mul (m n : Int64) : w.literal (m * n) = w.literal m * w.literal n := by
  apply Fin.ext
  have h : ((w.literal (m * n)).val : Int) = ((w.literal m * w.literal n).val : Int) := by
    rw [Fin.val_mul, val_literal, Int64.toInt_mul, bmod_emod_modulus, Int.natCast_mod,
      Int.natCast_mul, val_literal, val_literal, ← Int.mul_emod]
  exact_mod_cast h

theorem literal_sub (m n : Int64) : w.literal (m - n) = w.literal m - w.literal n := by
  rw [eq_sub_iff_add_eq, ← literal_add, Int64.sub_add_cancel]

end CellWidth

/-- A value that is **a number of the width**. -/
def Value.InWidth (w : CellWidth) (v : Value) : Prop :=
  ∃ n : Int64, v = .int n ∧ 0 ≤ n.toInt ∧ n.toInt < w.modulus

section Numbers
variable {m n : Int64} (hm : 0 ≤ m.toInt ∧ m.toInt < w.modulus)
  (hn : 0 ≤ n.toInt ∧ n.toInt < w.modulus)
include hm

theorem val_literal_of_inWidth : ((w.literal m).val : Int) = m.toInt := by
  rw [CellWidth.val_literal, Int.emod_eq_of_lt hm.1 hm.2]

theorem literal_eq_zero_iff : w.literal m = 0 ↔ m = 0 := by
  rw [Fin.ext_iff, ← Int64.toInt_inj]
  have := val_literal_of_inWidth hm
  simp only [Fin.val_zero, Int64.toInt_zero]
  omega

include hn

theorem literal_inj_of_inWidth : w.literal m = w.literal n ↔ m = n := by
  rw [Fin.ext_iff, ← Int64.toInt_inj, ← val_literal_of_inWidth hm, ← val_literal_of_inWidth hn]
  omega

theorem literal_div : w.literal (m / n) = w.literal m / w.literal n := by
  apply Fin.ext
  have h : ((w.literal (m / n)).val : Int) = ((w.literal m / w.literal n).val : Int) := by
    have hle : m.toInt / n.toInt ≤ m.toInt := Int.ediv_le_self _ hm.1
    have hnonneg : 0 ≤ m.toInt / n.toInt := Int.ediv_nonneg hm.1 hn.1
    rw [CellWidth.val_literal, Int64.toInt_div, CellWidth.bmod_emod_modulus,
      Int.tdiv_eq_ediv_of_nonneg hm.1, Int.emod_eq_of_lt hnonneg (by omega), Fin.div_val,
      Int.natCast_div, val_literal_of_inWidth hm, val_literal_of_inWidth hn]
  exact_mod_cast h

theorem literal_mod : w.literal (m % n) = w.literal m % w.literal n := by
  apply Fin.ext
  have h : ((w.literal (m % n)).val : Int) = ((w.literal m % w.literal n).val : Int) := by
    have hle : m.toInt % n.toInt ≤ m.toInt := by
      have := Int.emod_add_mul_ediv m.toInt n.toInt
      have := Int.mul_nonneg hn.1 (Int.ediv_nonneg hm.1 hn.1)
      omega
    have hnonneg : 0 ≤ m.toInt % n.toInt := by
      rw [← Int.tmod_eq_emod_of_nonneg hm.1]
      exact Int.tmod_nonneg _ hm.1
    rw [CellWidth.val_literal, Int64.toInt_mod, Int.tmod_eq_emod_of_nonneg hm.1,
      Int.emod_eq_of_lt hnonneg (by omega), Fin.val_mod, Int.natCast_mod,
      val_literal_of_inWidth hm, val_literal_of_inWidth hn]
  exact_mod_cast h

end Numbers

theorem literal_bool (b : Bool) :
    w.literal (Value.bool b).firstCell = if b = true then 1 else 0 := by
  cases b <;> cases w <;> rfl

end TapeCompiler
