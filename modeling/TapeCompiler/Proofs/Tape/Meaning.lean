import TapeCompiler.Proofs.Machine.Completion
import TapeCompiler.Proofs.Repetition
import TapeCompiler.Tape.Arithmetic
import Mathlib.Algebra.Group.Fin.Basic
import Mathlib.Algebra.GroupWithZero.Nat
import Mathlib.Logic.Function.Basic

/-! # The meaning of tape code

A `Store` has a number below the modulus in each of infinitely many cells, the bytes not yet read
and the numbers written. `Code.Runs` says what code does to a store; no pointer occurs in it. The
two halves of a loop that stand apart (`Code.opening`, `Code.closing`) have no meaning of their own.

* `Code.Runs.unique`: code has at most one outcome;
* `Code.Within`: the cells code names, and those it negates;
* `Code.Runs.frame`: a cell that code does not name keeps its number. -/

namespace TapeCompiler

/-! ### Stores -/

/-- What a cell of a width holds. -/
abbrev CellWidth.Cell (w : CellWidth) : Type := Fin w.modulus

instance (w : CellWidth) : NeZero w.modulus := ⟨Nat.pos_iff_ne_zero.mp w.modulus_pos⟩

/-- A number **modulo the number of values** of a cell. -/
def CellWidth.cell (w : CellWidth) (n : Nat) : w.Cell := Fin.ofNat w.modulus n

namespace CellWidth

variable {w : CellWidth}

@[simp] theorem cell_zero : w.cell 0 = 0 := rfl

@[simp] theorem cell_val (v : w.Cell) : w.cell v.val = v := Fin.ofNat_val_eq_self v

theorem val_cell {n : Nat} (h : n < w.modulus) : (w.cell n).val = n := Nat.mod_eq_of_lt h

theorem cell_add (m n : Nat) : w.cell (m + n) = w.cell m + w.cell n := by
  apply Fin.ext
  simp [cell, Fin.val_add]

theorem cell_succ (n : Nat) : w.cell (n + 1) = w.cell n + w.cell 1 := cell_add n 1

theorem cell_succ' (n : Nat) : w.cell (n + 1) = w.cell 1 + w.cell n := by
  rw [cell_succ, add_comm]

theorem cell_succ_sub (n : Nat) : w.cell (n + 1) - w.cell 1 = w.cell n := by
  rw [cell_succ, add_sub_cancel_right]

theorem cell_ne_zero {n : Nat} (h : n ≠ 0) (hn : n < w.modulus) : w.cell n ≠ 0 := fun h0 => by
  have := congrArg Fin.val h0
  rw [val_cell hn] at this
  exact h this

theorem one_lt_modulus (w : CellWidth) : 1 < w.modulus := by cases w <;> decide

end CellWidth

/-- What tape code works on. -/
structure Store (w : CellWidth) where
  cells : Nat → w.Cell
  /-- The bytes not yet read. -/
  input : List UInt8
  /-- The numbers written, in order. -/
  output : List Nat

namespace Store

variable {w : CellWidth}

/-- The store before anything is executed. -/
def start (input : List UInt8) : Store w := ⟨fun _ => 0, input, []⟩

/-- A cell holds a number. -/
def set (σ : Store w) (a : Nat) (v : w.Cell) : Store w :=
  { σ with cells := Function.update σ.cells a v }

/-- A number is written. -/
def put (σ : Store w) (v : w.Cell) : Store w := { σ with output := σ.output ++ [v.val] }

/-- A cell receives the next byte, or zero when there is none. -/
def receive (σ : Store w) (a : Nat) : Store w :=
  match σ.input with
  | [] => σ.set a 0
  | byte :: rest => { σ.set a (w.cell byte.toNat) with input := rest }

/-- What a symbol does on a cell. -/
def act (σ : Store w) (a : Nat) : Op → Store w
  | .write => σ.put (σ.cells a)
  | .read => σ.receive a
  | .negate => σ.set a (-σ.cells a)
  | _ => σ

@[simp] theorem cells_set_self (σ : Store w) (a : Nat) (v : w.Cell) : (σ.set a v).cells a = v := by
  simp [set]

theorem cells_set_of_ne (σ : Store w) {a b : Nat} (v : w.Cell) (h : b ≠ a) :
    (σ.set a v).cells b = σ.cells b := by
  simp [set, h]

theorem cells_set (σ : Store w) (a b : Nat) (v : w.Cell) :
    (σ.set a v).cells b = if b = a then v else σ.cells b := by
  simp [set, Function.update_apply]

@[simp] theorem input_set (σ : Store w) (a : Nat) (v : w.Cell) : (σ.set a v).input = σ.input := rfl

@[simp] theorem output_set (σ : Store w) (a : Nat) (v : w.Cell) :
    (σ.set a v).output = σ.output := rfl

@[simp] theorem set_set (σ : Store w) (a : Nat) (u v : w.Cell) :
    (σ.set a u).set a v = σ.set a v := by
  simp [set]

@[simp] theorem set_cells_self (σ : Store w) (a : Nat) : σ.set a (σ.cells a) = σ := by
  simp [set]

theorem set_eq_self {σ : Store w} {a : Nat} {v : w.Cell} (h : σ.cells a = v) : σ.set a v = σ := by
  rw [← h, set_cells_self]

theorem ext {σ τ : Store w} (hc : ∀ a, σ.cells a = τ.cells a) (hi : σ.input = τ.input)
    (ho : σ.output = τ.output) : σ = τ := by
  obtain ⟨c, i, o⟩ := σ
  obtain ⟨c', i', o'⟩ := τ
  obtain rfl : c = c' := funext hc
  obtain rfl : i = i' := hi
  obtain rfl : o = o' := ho
  rfl

end Store

/-! ### Meaning -/

namespace Code

variable {w : CellWidth}

/-- **What code does** to a store. -/
def Runs : Code → Store w → Store w → Prop
  | skip, σ, τ | move _, σ, τ | text _, σ, τ => τ = σ
  | add a n, σ, τ => τ = σ.set a (σ.cells a + w.cell n)
  | sub a n, σ, τ => τ = σ.set a (σ.cells a - w.cell n)
  | on a o, σ, τ => τ = σ.act a o
  | loop a body, σ, τ => While (fun σ => σ.cells a ≠ 0) body.Runs σ τ
  | opening _, _, _ | closing _, _, _ => False
  | seq first second, σ, τ => ∃ ρ, first.Runs σ ρ ∧ second.Runs ρ τ

theorem Runs.unique {c : Code} : ∀ {σ τ υ : Store w}, c.Runs σ τ → c.Runs σ υ → τ = υ := by
  induction c with
  | skip | move | text | add | sub | on => intro σ τ υ h h'; exact h.trans h'.symm
  | loop a body ih =>
    intro σ τ υ h h'
    exact While.unique (R := body.Runs) (fun _ _ _ hb hc => ih hb hc) h h'
  | opening | closing => intro σ τ υ h; exact h.elim
  | seq first second ih₁ ih₂ =>
    rintro σ τ υ ⟨ρ, h₁, h₂⟩ ⟨ρ', h₁', h₂'⟩
    exact ih₂ h₂ (ih₁ h₁' h₁ ▸ h₂')

/-! ### The cells that code names -/

/-- Code without open ends whose **cells** lie in `P` and whose **negated** cells lie in `N`; no
text of it is executed. -/
def Within (P N : Nat → Prop) : Code → Prop
  | skip => True
  | move a | add a _ | sub a _ => P a
  | on a o => P a ∧ (o = .write ∨ o = .read ∨ (o = .negate ∧ N a))
  | text s => opsOf s = []
  | loop a body => P a ∧ body.Within P N
  | opening _ | closing _ => False
  | seq first second => first.Within P N ∧ second.Within P N

theorem Within.mono {P P' N N' : Nat → Prop} (hP : ∀ a, P a → P' a) (hN : ∀ a, N a → N' a)
    {c : Code} (h : c.Within P N) : c.Within P' N' := by
  induction c with
  | skip => trivial
  | move | add | sub => exact hP _ h
  | on a o =>
    obtain ⟨ha, ho⟩ := h
    refine ⟨hP a ha, ?_⟩
    rcases ho with ho | ho | ⟨ho, hn⟩
    · exact Or.inl ho
    · exact Or.inr (Or.inl ho)
    · exact Or.inr (Or.inr ⟨ho, hN a hn⟩)
  | text => exact h
  | loop a body ih => exact ⟨hP a h.1, ih h.2⟩
  | opening | closing => exact h.elim
  | seq first second ih₁ ih₂ => exact ⟨ih₁ h.1, ih₂ h.2⟩

/-- **A cell that code does not name keeps its number.** -/
theorem Runs.frame {P N : Nat → Prop} {c : Code} (hc : c.Within P N) {a : Nat} (ha : ¬ P a) :
    ∀ {σ τ : Store w}, c.Runs σ τ → τ.cells a = σ.cells a := by
  have hne : ∀ {b}, P b → a ≠ b := fun hb h => ha (h ▸ hb)
  induction c with
  | skip | move | text => rintro σ τ rfl; rfl
  | add | sub => rintro σ τ rfl; exact Store.cells_set_of_ne _ _ (hne hc)
  | on b o =>
    rintro σ τ rfl
    obtain ⟨hb, rfl | rfl | ⟨rfl, -⟩⟩ := hc
    · rfl
    · obtain ⟨cells, input, output⟩ := σ
      cases input <;> exact Store.cells_set_of_ne _ _ (hne hb)
    · exact Store.cells_set_of_ne _ _ (hne hb)
  | loop b body ih =>
    intro σ τ h
    exact (While.invariant (I := fun ρ => ρ.cells a = σ.cells a)
      (fun ρ ρ' hρ _ hr => (ih hc.2 hr).trans hρ) h rfl).1
  | opening | closing => exact hc.elim
  | seq first second ih₁ ih₂ =>
    rintro σ τ ⟨ρ, h₁, h₂⟩
    exact (ih₂ hc.2 h₂).trans (ih₁ hc.1 h₁)

end Code

end TapeCompiler
