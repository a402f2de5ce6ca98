import TapeCompiler.Proofs.Cells.Renaming

/-! # Trees one after another

Instructions in front of a tree (`CodeTree.behind`) and a tree after a tree (`CodeTree.append`).
Written with labels and jumps they stand one after the other (`flatten_append`), and run so too
(`runs_append`). -/

namespace TapeCompiler

variable {w : CellWidth} {l : Library}

namespace CodeTree

/-- A tree with straight instructions in front of it. -/
def behind (seg : List Instruction) : CodeTree → CodeTree
  | done code => done (seg ++ code)
  | branch before n c yes no rest => branch (seg ++ before) n c yes no rest
  | loop before n test c body last rest => loop (seg ++ before) n test c body last rest

/-- **One tree after another.** -/
def append : CodeTree → CodeTree → CodeTree
  | done code, t => t.behind code
  | branch before n c yes no rest, t => branch before n c yes no (rest.append t)
  | loop before n test c body last rest, t => loop before n test c body last (rest.append t)

section Behind
variable {seg : List Instruction} {t : CodeTree} {σ τ : Store w}

@[simp] theorem flatten_behind : (t.behind seg).flatten = seg ++ t.flatten := by
  cases t <;> simp [behind, flatten]

@[simp] theorem labels_behind : (t.behind seg).labels = t.labels := by
  cases t <;> rfl

theorem straight_behind :
    (t.behind seg).Straight ↔ TapeCompiler.Straight seg ∧ t.Straight := by
  cases t <;> simp only [behind, Straight, straight_append, and_assoc]

theorem runs_behind : (t.behind seg).Runs l σ τ ↔ t.Runs l (runAll l seg σ) τ := by
  cases t <;> simp only [behind, Runs, runAll_append]

end Behind

section Append
variable {t u : CodeTree} {σ τ : Store w}

@[simp] theorem flatten_append : (t.append u).flatten = t.flatten ++ u.flatten := by
  induction t with
  | done code => simp [append, flatten]
  | branch _ _ _ _ _ _ _ _ ih => simp [append, flatten, ih]
  | loop _ _ _ _ _ _ _ _ ih => simp [append, flatten, ih]

@[simp] theorem labels_append : (t.append u).labels = t.labels ++ u.labels := by
  induction t with
  | done code => simp [append, labels]
  | branch _ _ _ _ _ _ _ _ ih => simp [append, labels, ih]
  | loop _ _ _ _ _ _ _ _ ih => simp [append, labels, ih]

theorem straight_append : (t.append u).Straight ↔ t.Straight ∧ u.Straight := by
  induction t with
  | done code => rw [append, straight_behind, Straight]
  | branch _ _ _ _ _ _ _ _ ih => simp only [append, Straight, ih, and_assoc]
  | loop _ _ _ _ _ _ _ _ ih => simp only [append, Straight, ih, and_assoc]

theorem all_append {p : Instruction → Prop} : (t.append u).All p ↔ t.All p ∧ u.All p := by
  simp only [All, flatten_append, List.forall_mem_append]

theorem runs_append : (t.append u).Runs l σ τ ↔ ∃ ρ, t.Runs l σ ρ ∧ u.Runs l ρ τ := by
  induction t generalizing σ with
  | done code => simp only [append, runs_behind, Runs, exists_eq_left]
  | branch _ _ _ _ _ _ _ _ ih =>
    simp only [append, Runs, ih]
    constructor
    · rintro ⟨ρ, h₁, υ, h₂, h₃⟩
      exact ⟨υ, ⟨ρ, h₁, h₂⟩, h₃⟩
    · rintro ⟨υ, ⟨ρ, h₁, h₂⟩, h₃⟩
      exact ⟨ρ, h₁, υ, h₂, h₃⟩
  | loop _ _ _ _ _ _ _ _ ih =>
    simp only [append, Runs, ih]
    constructor
    · rintro ⟨ρ, h₁, υ, h₂, h₃⟩
      exact ⟨υ, ⟨ρ, h₁, h₂⟩, h₃⟩
    · rintro ⟨υ, ⟨ρ, h₁, h₂⟩, h₃⟩
      exact ⟨ρ, h₁, υ, h₂, h₃⟩

end Append

end CodeTree

end TapeCompiler
