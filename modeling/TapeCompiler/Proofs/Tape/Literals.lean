import TapeCompiler.Proofs.Tape.Counting
import Mathlib.Data.Int.ModEq
import Mathlib.Tactic.Ring

/-! # Constants, literals and operands

Constants are built in scratch digit by digit, negative literals by negation. Whatever the way, the
cell grows by the number modulo the width (`runs_addConst`, `runs_addLiteral`), and an operand adds
its first cell (`runs_load`). Scratch cells that were zero are zero again. -/

namespace TapeCompiler

variable {w : CellWidth}

namespace CellWidth

/-- An integer as a cell holds it. -/
def literal (w : CellWidth) (n : Int64) : w.Cell := ⟨w.wrap n, w.wrap_lt n⟩

theorem cell_wrap (n : Int64) : w.cell (w.wrap n) = w.literal n := cell_val (w.literal n)

theorem cell_mul_val (a x : Nat) : w.cell (a * (w.cell x).val) = w.cell (a * x) := by
  apply Fin.ext
  simp [cell, Nat.mul_mod]

theorem cell_modulus_sub {n : Nat} (h : n ≤ w.modulus) : w.cell (w.modulus - n) = -w.cell n := by
  have h' : w.cell (w.modulus - n) + w.cell n = 0 := by
    rw [← cell_add, Nat.sub_add_cancel h]
    exact Fin.ext (Nat.mod_self _)
  exact eq_neg_of_add_eq_zero_left h'

theorem modulus_le : w.modulus ≤ 2 ^ 32 := by cases w <;> decide

/-- **A negative number** is the negation of its magnitude. -/
theorem literal_of_neg {n : Int64} (h : ¬ n ≥ 0) :
    w.literal n = -w.cell (n.toInt.natAbs % w.modulus) := by
  have hneg : n.toInt < 0 := by
    rw [ge_iff_le, Int64.le_iff_toInt_le, Int64.toInt_zero] at h
    omega
  have hm := w.modulus_pos
  set r := n.toInt.natAbs % w.modulus with hr
  have hlt : r < w.modulus := Nat.mod_lt _ hm
  rw [← cell_modulus_sub hlt.le]
  apply Fin.ext
  show w.wrap n = (w.modulus - r) % w.modulus
  unfold wrap
  obtain ⟨a, ha⟩ : ∃ a : Nat, n.toInt = -a := ⟨n.toInt.natAbs, by omega⟩
  have har : r = a % w.modulus := by rw [hr, ha]; simp
  have hdiv := Nat.div_add_mod a w.modulus
  have hint : (-(a : Int)) % (w.modulus : Int) = (((w.modulus - r) % w.modulus : Nat) : Int) := by
    rw [Int.natCast_mod, Nat.cast_sub hlt.le]
    apply Int.ModEq.symm
    rw [Int.modEq_iff_dvd]
    refine ⟨-((a / w.modulus : Nat) : Int) - 1, ?_⟩
    have : (a : Int) = w.modulus * ((a / w.modulus : Nat) : Int) + r := by
      rw [har]; exact_mod_cast hdiv.symm
    rw [this]
    ring
  rw [ha, hint, Int.toNat_natCast]

theorem wrap_ofNat {n : Nat} (h : n < 2 ^ 63) : w.wrap (Int64.ofNat n) = n % w.modulus := by
  unfold wrap
  rw [Int64.toInt_ofNat_of_lt h]
  exact_mod_cast rfl

theorem literal_ofNat {n : Nat} (h : n < w.modulus) : w.literal (Int64.ofNat n) = w.cell n := by
  have hle := w.modulus_le
  exact Fin.ext (wrap_ofNat (by omega))

end CellWidth

/-- The number that an operand stands for: its first cell. -/
def Store.first (σ : Store w) : Operand → w.Cell
  | .value v => w.literal v.firstCell
  | .cells a _ => σ.cells a

namespace Code

variable {σ : Store w}

/-! ### Building -/

/-- The store of a multiplication **when `k` is left** to be counted. -/
def multiplying (σ : Store w) (a way k : Nat) : Store w :=
  (σ.set way (w.cell k)).set a (w.cell (16 * ((σ.cells a).val - k)))

theorem cells_multiplying_way {a way : Nat} (h : a ≠ way) (k : Nat) :
    (multiplying σ a way k).cells way = w.cell k := by
  simp [multiplying, Store.cells_set, h.symm]

/-- A multiplication starts **when the cell is moved** to the way. -/
theorem multiplying_start {a way : Nat} (h : a ≠ way) (hw : σ.cells way = 0) :
    multiplying σ a way (σ.cells a).val =
      (σ.set a 0).set way (σ.cells way + σ.cells a) := by
  refine Store.ext (fun x => ?_) rfl rfl
  simp only [multiplying, Store.cells_set, CellWidth.cell_val, hw, zero_add, Nat.sub_self,
    Nat.mul_zero, CellWidth.cell_zero]
  grind

theorem runs_multiplying {a way : Nat} (h : a ≠ way) {k : Nat} (hk : k < (σ.cells a).val) :
    (sub way 1 ++ add a 16).Runs (multiplying σ a way (k + 1)) (multiplying σ a way k) := by
  refine Runs.seq (runs_sub _ _) ((runs_add _ _).to (Store.ext (fun x => ?_) rfl rfl))
  have h16 : w.cell (16 * ((σ.cells a).val - k)) =
      w.cell (16 * ((σ.cells a).val - (k + 1))) + w.cell 16 := by
    rw [← CellWidth.cell_add]; congr 1; omega
  simp only [multiplying, Store.cells_set, h16, CellWidth.cell_succ k]
  grind

theorem runs_times16 {a way : Nat} (h : a ≠ way) (hw : σ.cells way = 0) :
    (times16 a way).Runs σ (σ.set a (w.cell (16 * (σ.cells a).val))) := by
  refine Runs.seq ((runs_moveAdd h).to (multiplying_start h hw).symm) ?_
  refine (runs_countdown (multiplying σ a way) (σ.cells a).isLt
    (fun k _ => cells_multiplying_way h k) fun k hk => runs_multiplying h hk).to ?_
  refine Store.ext (fun x => ?_) rfl rfl
  simp only [multiplying, Store.cells_set, CellWidth.cell_zero, Nat.sub_zero]
  grind

/-- The number that digits in base 16 stand for, highest first. -/
def ofDigits16 (x : Nat) (digits : List Nat) : Nat := digits.foldl (fun x d => 16 * x + d) x

theorem ofDigits16_digits16 (n : Nat) : ofDigits16 0 (digits16 n) = n := by
  induction n using Nat.strongRecOn with
  | ind n ih =>
    rw [digits16]
    split_ifs with h
    · exact h.symm
    · unfold ofDigits16 at ih ⊢
      rw [List.foldl_append, ih (n / 16) (by omega)]
      simp only [List.foldl_cons, List.foldl_nil]
      omega

section Building
variable {a way : Nat} (h : a ≠ way) (hw : σ.cells way = 0)
include h hw

/-- Code that makes a number takes in **one more digit**. -/
theorem runs_digit {code : Code} {x : Nat} (hc : code.Runs σ (σ.set a (w.cell x))) (d : Nat) :
    (code ++ times16 a way ++ add a d).Runs σ (σ.set a (w.cell (16 * x + d))) := by
  have hway : (σ.set a (w.cell x)).cells way = 0 := by rw [Store.cells_set_of_ne _ _ h.symm, hw]
  refine Runs.seq (Runs.seq hc (runs_times16 h hway)) ((runs_add _ _).to ?_)
  simp [CellWidth.cell_mul_val, CellWidth.cell_add]

theorem runs_digits (rest : List Nat) {code : Code} {x : Nat}
    (hc : code.Runs σ (σ.set a (w.cell x))) :
    (rest.foldl (fun code digit => code ++ times16 a way ++ add a digit) code).Runs σ
      (σ.set a (w.cell (ofDigits16 x rest))) := by
  induction rest generalizing code x with
  | nil => exact hc
  | cons d rest ih => exact ih (runs_digit h hw hc d)

theorem runs_build (ha : σ.cells a = 0) (n : Nat) :
    (build a n way).Runs σ (σ.set a (w.cell n)) := by
  have hn := ofDigits16_digits16 n
  unfold build
  split
  · next heq =>
    rw [heq] at hn
    rw [← hn]
    exact (Store.set_eq_self ha : σ.set a (w.cell 0) = σ)
  · next first rest heq =>
    rw [heq] at hn
    rw [← hn]
    have hfirst : (add a first).Runs σ (σ.set a (w.cell first)) :=
      (runs_add a first).to (by simp [ha])
    simpa [ofDigits16] using runs_digits h hw rest hfirst

end Building

/-! ### Adding -/

/-- The scratch cells that constants and literals are made in are zero. -/
structure Ready (σ : Store w) (s : Scratch) : Prop where
  neg : σ.cells s.neg = 0
  constant : σ.cells s.constant = 0
  multiplier : σ.cells s.multiplier = 0

theorem Ready.set {s : Scratch} (h : Ready σ s) {a : Nat} (v : w.Cell)
    (ha : a < s.base ∨ s.base + 4 ≤ a) : Ready (σ.set a v) s where
  neg := by rw [Store.cells_set_of_ne _ _ (by unfold Scratch.neg; omega), h.neg]
  constant := by rw [Store.cells_set_of_ne _ _ (by unfold Scratch.constant; omega), h.constant]
  multiplier := by
    rw [Store.cells_set_of_ne _ _ (by unfold Scratch.multiplier; omega), h.multiplier]

section Adding
variable {s : Scratch} {a : Nat}

theorem runs_addConst (hc : σ.cells s.constant = 0) (hm : σ.cells s.multiplier = 0)
    (hac : a ≠ s.constant) (n : Int64) :
    (addConst w s a n).Runs σ (σ.set a (σ.cells a + w.literal n)) := by
  have hw := w.wrap_lt n
  rw [← CellWidth.cell_wrap]
  unfold addConst
  simp only
  split_ifs with h0 h1 h2
  · rw [h0, CellWidth.cell_zero, add_zero, Store.set_cells_self]
    rfl
  · exact runs_add _ _
  · refine (runs_sub _ _).to ?_
    rw [CellWidth.cell_modulus_sub hw.le, sub_neg_eq_add]
  · refine Runs.seq (runs_build (by unfold Scratch.constant Scratch.multiplier; omega) hm hc _)
      ((runs_moveAdd hac.symm).to ?_)
    rw [Store.cells_set_self, Store.cells_set_of_ne _ _ hac, Store.set_set, Store.set_eq_self hc]

/-- **Adding a literal** of either sign. -/
theorem runs_addLiteral (hs : Ready σ s) (ha : a < s.base ∨ s.base + 4 ≤ a) (n : Int64) :
    (addLiteral w s a n).Runs σ (σ.set a (σ.cells a + w.literal n)) := by
  unfold addLiteral
  split_ifs with h
  · exact runs_addConst hs.constant hs.multiplier (by unfold Scratch.constant; omega) n
  · have hm := Nat.mod_lt n.toInt.natAbs w.modulus_pos
    simp only
    rw [CellWidth.literal_of_neg h]
    split_ifs with h0
    · rw [h0, CellWidth.cell_zero, neg_zero, add_zero, Store.set_cells_self]
      rfl
    · have hn : a ≠ s.neg := by unfold Scratch.neg; omega
      have hadd : (addConst w s s.neg (Int64.ofNat (n.toInt.natAbs % w.modulus))).Runs σ
          (σ.set s.neg (w.cell (n.toInt.natAbs % w.modulus))) := by
        refine (runs_addConst hs.constant hs.multiplier
          (by unfold Scratch.constant Scratch.neg; omega) _).to ?_
        rw [hs.neg, zero_add, CellWidth.literal_ofNat hm]
      have hneg : (on s.neg .negate).Runs (σ.set s.neg (w.cell (n.toInt.natAbs % w.modulus)))
          (σ.set s.neg (-w.cell (n.toInt.natAbs % w.modulus))) := by
        show _ = _
        simp [Store.act]
      refine Runs.seq (Runs.seq hadd hneg) ((runs_moveAdd hn.symm).to ?_)
      · rw [Store.cells_set_self, Store.cells_set_of_ne _ _ hn, Store.set_set,
          Store.set_eq_self hs.neg]

theorem runs_load (hs : Ready σ s) (ha : s.base + 4 ≤ a ∨ a < s.base) {o : Operand}
    (ho : ∀ b ∈ o.address?, b < s.base) (hne : ∀ b ∈ o.address?, b ≠ a) :
    (load w s o a).Runs σ (σ.set a (σ.cells a + σ.first o)) := by
  cases o with
  | value v => exact runs_addLiteral hs ha.symm _
  | cells b len =>
    have hb := ho b rfl
    exact runs_copyAdd (hne b rfl) (by unfold Scratch.constant; omega)
      (by unfold Scratch.constant; omega) hs.constant

end Adding

end Code

end TapeCompiler
