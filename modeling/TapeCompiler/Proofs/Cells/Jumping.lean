import TapeCompiler.Emission.Control
import TapeCompiler.Proofs.Cells.Effect

/-! # The machine of instructions

Instructions are executed one after another on a store, with a counter that jumps to labels
(`Config.step?`). A jump to a label that is nowhere stops the machine before its end.

* `Steps.unique`, `Steps.split`: a run to the end is the only one, and every shorter run is a part
  of it;
* `Stands`: instructions that stand in others from an index on;
* `steps_straight`: the run through instructions without labels and jumps. -/

namespace TapeCompiler

variable {w : CellWidth} {l : Library} {code : List Instruction}

/-! ### Configurations -/

/-- A **configuration**: the index of the next instruction, and the store. -/
structure Config (w : CellWidth) where
  counter : Nat
  store : Store w

/-- What an instruction makes of a configuration; labels are looked up in `code`. -/
def Instruction.next? (l : Library) (code : List Instruction) (i : Instruction) (c : Config w) :
    Option (Config w) :=
  match i with
  | .jump name => (labelIndex? code name).map fun k => ⟨k, c.store⟩
  | .jumpUnless condition name | .branch condition name =>
    if c.store.holds condition then some ⟨c.counter + 1, c.store⟩
    else (labelIndex? code name).map fun k => ⟨k, c.store⟩
  | i => some ⟨c.counter + 1, i.effect l c.store⟩

/-- **One step** of the machine. -/
def Config.step? (l : Library) (code : List Instruction) (c : Config w) : Option (Config w) :=
  code[c.counter]?.bind fun i => i.next? l code c

/-- A number of steps. -/
inductive Steps (l : Library) (code : List Instruction) : Nat → Config w → Config w → Prop
  | done {c : Config w} : Steps l code 0 c c
  | step {n : Nat} {c d e : Config w} :
    c.step? l code = some d → Steps l code n d e → Steps l code (n + 1) c e

/-- The machine started on a store **halts**: it runs off the end, with a store. -/
def Halts (l : Library) (code : List Instruction) (σ τ : Store w) : Prop :=
  ∃ n, Steps l code n ⟨0, σ⟩ ⟨code.length, τ⟩

namespace Steps

variable {n m : Nat} {c d e : Config w}

theorem one (h : c.step? l code = some d) : Steps l code 1 c d := .step h .done

theorem trans (h : Steps l code n c d) (h' : Steps l code m d e) : Steps l code (n + m) c e := by
  induction h with
  | done => rwa [Nat.zero_add]
  | step hs _ ih =>
    rw [Nat.add_right_comm]
    exact .step hs (ih h')

theorem eq_of_end {τ : Store w} (h : Steps l code n ⟨code.length, τ⟩ d) :
    n = 0 ∧ d = ⟨code.length, τ⟩ := by
  cases h with
  | done => exact ⟨rfl, rfl⟩
  | step hs => simp [Config.step?] at hs

/-- **A run to the end goes through** every configuration that is reached. -/
theorem split {τ : Store w} (h : Steps l code n c ⟨code.length, τ⟩) (h' : Steps l code m c d) :
    ∃ k, n = m + k ∧ Steps l code k d ⟨code.length, τ⟩ := by
  induction h' generalizing n with
  | done => exact ⟨n, (Nat.zero_add n).symm, h⟩
  | step hs _ ih =>
    cases h with
    | done => simp [Config.step?] at hs
    | step hs' h =>
      rw [hs] at hs'
      cases hs'
      obtain ⟨k, rfl, hk⟩ := ih h
      exact ⟨k, by omega, hk⟩

theorem unique {τ υ : Store w} (h : Steps l code n c ⟨code.length, τ⟩)
    (h' : Steps l code m c ⟨code.length, υ⟩) : τ = υ := by
  obtain ⟨k, -, hk⟩ := h.split h'
  exact ((Config.mk.injEq ..).mp (eq_of_end hk).2).2

end Steps

/-- **The machine halts with one store at most.** -/
theorem Halts.unique {σ τ υ : Store w} (h : Halts l code σ τ) (h' : Halts l code σ υ) : τ = υ := by
  obtain ⟨n, hn⟩ := h
  obtain ⟨m, hm⟩ := h'
  exact hn.unique hm

/-! ### Instructions within others -/

/-- Instructions **stand in others** from an index on. -/
def Stands (code : List Instruction) (k : Nat) (seg : List Instruction) : Prop :=
  ∀ j i, seg[j]? = some i → code[k + j]? = some i

section Stands
variable {k : Nat} {i : Instruction} {seg seg' : List Instruction}

theorem stands_self : Stands code 0 code := fun j i h => by rwa [Nat.zero_add]

theorem stands_nil : Stands code k [] := fun j i h => by simp at h

theorem stands_cons : Stands code k (i :: seg) ↔ code[k]? = some i ∧ Stands code (k + 1) seg := by
  constructor
  · intro h
    refine ⟨h 0 i rfl, fun j i' hj => ?_⟩
    rw [Nat.add_right_comm]
    exact h (j + 1) i' (by simpa using hj)
  · rintro ⟨hi, h⟩ j i' hj
    cases j with
    | zero =>
      rw [List.getElem?_cons_zero] at hj
      rwa [← hj]
    | succ j =>
      rw [List.getElem?_cons_succ] at hj
      rw [← Nat.add_assoc, Nat.add_right_comm]
      exact h j i' hj

theorem stands_append :
    Stands code k (seg ++ seg') ↔ Stands code k seg ∧ Stands code (k + seg.length) seg' := by
  induction seg generalizing k with
  | nil => simp [stands_nil]
  | cons i seg ih =>
    rw [List.cons_append, stands_cons, stands_cons, ih, and_assoc, List.length_cons,
      Nat.add_right_comm k, Nat.add_assoc k]

theorem Stands.slice (h : Stands code k seg) : (code.take (k + seg.length)).drop k = seg := by
  refine List.ext_getElem? fun j => ?_
  rw [List.getElem?_drop, List.getElem?_take]
  split_ifs with hj
  · have hj' : j < seg.length := by omega
    exact (h j _ (List.getElem?_eq_getElem hj')).trans (List.getElem?_eq_getElem hj').symm
  · exact (List.getElem?_eq_none (by omega)).symm

end Stands

/-! ### Straight runs -/

/-- **The effect of instructions** one after another. -/
def runAll (l : Library) (seg : List Instruction) (σ : Store w) : Store w :=
  seg.foldl (fun σ i => i.effect l σ) σ

@[simp] theorem runAll_nil (σ : Store w) : runAll l [] σ = σ := rfl

@[simp] theorem runAll_cons (i : Instruction) (seg : List Instruction) (σ : Store w) :
    runAll l (i :: seg) σ = runAll l seg (i.effect l σ) := rfl

@[simp] theorem runAll_append (seg seg' : List Instruction) (σ : Store w) :
    runAll l (seg ++ seg') σ = runAll l seg' (runAll l seg σ) := List.foldl_append

/-- There are **no labels and jumps**. -/
def Straight (seg : List Instruction) : Prop := ∀ i ∈ seg, i.isFlow = false

theorem straight_cons {i : Instruction} {seg : List Instruction} :
    Straight (i :: seg) ↔ i.isFlow = false ∧ Straight seg := by simp [Straight]

theorem straight_append {seg seg' : List Instruction} :
    Straight (seg ++ seg') ↔ Straight seg ∧ Straight seg' := by
  simp only [Straight, List.mem_append]
  exact ⟨fun h => ⟨fun i hi => h i (Or.inl hi), fun i hi => h i (Or.inr hi)⟩,
    fun h i hi => hi.elim (h.1 i) (h.2 i)⟩

theorem step?_straight {i : Instruction} {c : Config w} (hi : code[c.counter]? = some i)
    (hs : i.isFlow = false) : c.step? l code = some ⟨c.counter + 1, i.effect l c.store⟩ := by
  cases i <;> simp_all [Config.step?, Instruction.next?, Instruction.isFlow]

theorem steps_straight {k : Nat} {seg : List Instruction} (h : Stands code k seg)
    (hs : Straight seg) (σ : Store w) :
    Steps l code seg.length ⟨k, σ⟩ ⟨k + seg.length, runAll l seg σ⟩ := by
  induction seg generalizing k σ with
  | nil => exact .done
  | cons i seg ih =>
    rw [stands_cons] at h
    rw [straight_cons] at hs
    have := ih h.2 hs.2 (i.effect l σ)
    rw [List.length_cons, ← Nat.add_assoc, Nat.add_right_comm, runAll_cons]
    exact .step (step?_straight h.1 hs.1) this

end TapeCompiler
