import TapeCompiler.Proofs.Cells.Renaming

/-! # The footprint of an instruction

What an instruction does **depends** on the input and on the cells it lists as read or written, and
on nothing else (`Instruction.effect_shows`). It only adds to the output, and what it adds does not
depend on what was there (`Instruction.effect_behind`). -/

namespace TapeCompiler

variable {w : CellWidth} {l : Library} {i : Instruction}

/-! ### Reading -/

namespace Instruction

/-- The cells an instruction reads or writes. -/
def Touches (i : Instruction) (a : Nat) : Prop := a ∈ i.reads ++ i.writes

theorem touches_of_mem_blocks {b : Nat × Nat} (hb : b ∈ i.blocks) {a : Nat} (h₁ : b.1 ≤ a)
    (h₂ : a < b.2) : i.Touches a := by
  rcases List.mem_append.mp hb with hb | hb
  · obtain ⟨o, ho, rfl⟩ := List.mem_map.mp (List.mem_filter.mp hb).1
    refine List.mem_append_left _ (List.mem_append_left _ (List.mem_flatMap.mpr ⟨o, ho, ?_⟩))
    cases o with
    | value => simp [Operand.bounds] at h₂
    | cells c len =>
      rw [Operand.span, List.mem_range'_1]
      exact ⟨h₁, h₂⟩
  · have one : ∀ c, b = single c → a = c := fun c hc => by
      subst hc
      simp only [single] at h₁ h₂
      omega
    cases i <;> simp only [blocksBeside, List.mem_cons, List.mem_map, List.not_mem_nil,
      Option.mem_toList, or_false] at hb
    case setValue | createArray | createObject =>
      subst hb
      exact List.mem_append_right _ (List.mem_range'_1.mpr ⟨h₁, h₂⟩)
    case copyValue target source =>
      rcases hb with hb | hb <;> simp [Touches, reads, writes, readsBeside, one _ hb]
    case binary target _ _ _ | update target _ | exportCell _ target =>
      simp [Touches, reads, writes, readsBeside, one _ hb]
    case callFunction name args target =>
      obtain ⟨c, hc, rfl⟩ := hb
      simp [Touches, writes, one c rfl, hc]
    case callMethod object _ _ _ target =>
      rcases hb with hb | ⟨c, hc, rfl⟩
      · simp [Touches, reads, readsBeside, one _ hb]
      · simp [Touches, writes, one c rfl, hc]

/-- **An instruction reads what it lists**: on stores that agree on its cells, and in what is read
and written, it does the same to these cells. -/
theorem effect_shows {σ τ : Store w} (hi : i.Proper) (h : σ.Shows id i.Touches τ) :
    (i.effect l σ).Shows id i.Touches (i.effect l τ) := by
  have hmap := (mapped_of_blocks (f := id) (P := i.Touches) hi
    (fun b hb c h₁ h₂ => ⟨touches_of_mem_blocks hb h₁ h₂, by simp only [id]; omega⟩)
    fun _ _ _ _ hac => hac).1
  simpa only [mapAddress_id] using effect_mapAddress (l := l) h hmap

end Instruction

/-! ### Writing -/

/-- A store with other output in front. -/
def Store.behind (σ : Store w) (front : List Nat) : Store w :=
  { σ with output := front ++ σ.output }

namespace Store

variable (σ : Store w) (front : List Nat)

theorem set_behind (a : Nat) (v : w.Cell) : (σ.behind front).set a v = (σ.set a v).behind front :=
  rfl

theorem write_behind (vs : List w.Cell) :
    (σ.behind front).write vs = (σ.write vs).behind front := by
  simp [write, behind]

theorem setAll_behind (a : Nat) (vs : List w.Cell) :
    (σ.behind front).setAll a vs = (σ.setAll a vs).behind front := by
  induction vs generalizing σ a with
  | nil => rfl
  | cons v vs ih => exact ih (σ.set a v) (a + 1)

theorem first_behind : (σ.behind front).first = σ.first := by
  funext o
  cases o <;> rfl

theorem storeAll_behind (a : Nat) (os : List Operand) :
    (σ.behind front).storeAll a os = (σ.storeAll a os).behind front := by
  induction os generalizing σ a with
  | nil => rfl
  | cons o os ih =>
    rw [storeAll, storeAll, first_behind]
    exact ih (σ.set a (σ.first o)) (a + 1)

theorem print_behind (ops : List Operand) :
    (σ.behind front).print ops = (σ.print ops).behind front := by
  have : (σ.behind front).shown = σ.shown := by
    funext o
    cases o <;> rfl
  rw [print, print, this, write_behind]

theorem receive_behind (a : Nat) : (σ.behind front).receive a = (σ.receive a).behind front := by
  obtain ⟨cells, input, output⟩ := σ
  cases input <;> rfl

theorem builtinEffect_behind (b : Builtin) (args : List Operand) (target : Option Nat) :
    b.effect args target (σ.behind front) = (b.effect args target σ).behind front := by
  unfold Builtin.effect
  split
  · exact print_behind σ front args
  · exact receive_behind σ front _
  · rfl
  · rw [first_behind, set_behind]
  · rw [first_behind, set_behind]
  · rfl

theorem libraryEffect_behind (name : String) (args : List Operand) (target : Option Nat) :
    l.effect name args target (σ.behind front) = (l.effect name args target σ).behind front := by
  unfold Library.effect
  split
  · exact builtinEffect_behind σ front _ args target
  · rfl

end Store

namespace Instruction

/-- **An instruction adds to the output** and does not look at it. -/
theorem effect_behind (i : Instruction) (σ : Store w) (front : List Nat) :
    i.effect l (σ.behind front) = (i.effect l σ).behind front := by
  cases i with
  | setValue a v => exact σ.setAll_behind front a _
  | binary t o x y =>
    simp only [effect, Store.first_behind]
    rfl
  | print ops => exact σ.print_behind front ops
  | callFunction name args target => exact σ.libraryEffect_behind front name args target
  | callMethod _ object method args target => exact σ.libraryEffect_behind front _ args target
  | createArray a es => exact σ.storeAll_behind front a es
  | createObject a fs => exact σ.storeAll_behind front a _
  | _ => rfl

theorem effect_eq (i : Instruction) (σ : Store w) :
    i.effect l σ = (i.effect l { σ with output := [] }).behind σ.output := by
  rw [← effect_behind]
  simp [Store.behind]

/-- **The footprint of an instruction**: on stores that agree on the input and on the cells it
touches, the same is left in these cells, of the input, and added to the output. -/
theorem effect_agree {σ τ : Store w} (hi : i.Proper)
    (hcells : ∀ a, i.Touches a → τ.cells a = σ.cells a) (hinput : τ.input = σ.input) :
    (∀ a, i.Touches a → (i.effect l τ).cells a = (i.effect l σ).cells a) ∧
      (i.effect l τ).input = (i.effect l σ).input ∧
      ∃ added, (i.effect l σ).output = σ.output ++ added ∧
        (i.effect l τ).output = τ.output ++ added := by
  have h := effect_shows (l := l) hi (σ := { σ with output := [] })
    (τ := { τ with output := [] }) ⟨hcells, hinput, rfl⟩
  rw [effect_eq i σ, effect_eq i τ]
  exact ⟨h.cells, h.input, _, rfl, congrArg (τ.output ++ ·) h.output⟩

end Instruction

end TapeCompiler
