import TapeCompiler.Emission.Emitter
import TapeCompiler.Proofs.Emission.Shapes

/-! # One step of emission

`step_cases` lists what one step of emission can do: it opens a shape, turns or closes one, or
writes an instruction that belongs to none. -/

namespace TapeCompiler

namespace ControlPlan

variable {plan : ControlPlan}

@[simp] theorem loop_mem_shapes {l : LoopShape} : .loop l ∈ plan.shapes ↔ l ∈ plan.loops := by
  simp [shapes]

@[simp] theorem branch_mem_shapes {b : BranchShape} :
    .branch b ∈ plan.shapes ↔ b ∈ plan.branches := by
  simp [shapes]

end ControlPlan

/-- An index at which no shape of a plan opens, turns or closes. -/
def ControlPlan.Quiet (plan : ControlPlan) (k : Nat) : Prop :=
  ∀ X ∈ plan.shapes, X.first ≠ k ∧ X.last ≠ k ∧ X.turn? ≠ some k

section Quiet
variable {code : List Instruction} {k : Nat} {i : Instruction} (hi : code[k]? = some i)
include hi

theorem quiet_of {plan : ControlPlan} (hv : ∀ X ∈ plan.shapes, X.Valid code)
    (htest : ∀ c out, i = .jumpUnless c out → ∀ l ∈ plan.loops, l.test ≠ k)
    (hback : ∀ out, i = .jump out →
      (∀ l ∈ plan.loops, l.back ≠ k) ∧ ∀ b ∈ plan.branches, b.turn ≠ k)
    (hbranch : ∀ c label, i = .branch c label → ∀ b ∈ plan.branches, b.test ≠ k)
    (hstop : ∀ name, i = .label name → ∀ b ∈ plan.branches, b.stop ≠ k) : plan.Quiet k := by
  intro X hX
  have hXv := hv X hX
  cases X with
  | loop l =>
    rw [ControlPlan.loop_mem_shapes] at hX
    refine ⟨fun h => ?_, fun h => ?_, by simp [Shape.turn?]⟩
    · obtain ⟨c, out, hc⟩ := LoopShape.Valid.jumpUnless_at hXv
      rw [show l.test = k from h, hi] at hc
      exact htest c out (Option.some.inj hc) l hX h
    · obtain ⟨name, hc, -⟩ := LoopShape.Valid.back_at hXv
      rw [show l.back = k from h, hi] at hc
      exact (hback name (Option.some.inj hc)).1 l hX h
  | branch b =>
    rw [ControlPlan.branch_mem_shapes] at hX
    refine ⟨fun h => ?_, fun h => ?_, fun h => ?_⟩
    · obtain ⟨c, label, hc⟩ := BranchShape.Valid.branch_at hXv
      rw [show b.test = k from h, hi] at hc
      exact hbranch c label (Option.some.inj hc) b hX h
    · obtain ⟨name, hc⟩ := BranchShape.Valid.stop_at hXv
      rw [show b.stop = k from h, hi] at hc
      exact hstop name (Option.some.inj hc) b hX h
    · obtain ⟨out, hc⟩ := BranchShape.Valid.jump_at hXv
      rw [show b.turn = k from Option.some.inj h, hi] at hc
      exact (hback out (Option.some.inj hc)).2 b hX (Option.some.inj h)

/-- **What a step of emission can do.** -/
theorem step_cases (e : Emitter) (st : Emission) :
    let plan := ControlPlan.of code
    (∃ l c out, .loop l ∈ plan.shapes ∧ l.test = k ∧ i = .jumpUnless c out ∧
      e.step plan code k i st = .ok (e.openLoop c ((code.take l.test).drop (l.head + 1)) st)) ∨
    (∃ l, .loop l ∈ plan.shapes ∧ l.back = k ∧ e.step plan code k i st = e.closeLoop k st) ∨
    (∃ b c label, .branch b ∈ plan.shapes ∧ b.test = k ∧ i = .branch c label ∧
      e.step plan code k i st = .ok (e.openBranch c st)) ∨
    (∃ b, .branch b ∈ plan.shapes ∧ b.turn = k ∧
      e.step plan code k i st = Emitter.switchBranch k st) ∨
    (∃ b, .branch b ∈ plan.shapes ∧ b.stop = k ∧
      e.step plan code k i st = Emitter.closeBranch k st) ∨
    (plan.Quiet k ∧
      (e.step plan code k i st = .ok st ∨ e.step plan code k i st = .ok (e.writePlain st i))) := by
  intro plan
  have hq := quiet_of hi fun X (hX : X ∈ plan.shapes) => shapes_valid hX
  cases i with
  | jumpUnless c out =>
    cases hf : plan.loops.reverse.find? fun l => l.test = k with
    | some l =>
      have hl := List.mem_reverse.mp (List.mem_of_find?_eq_some hf)
      have ht : l.test = k := by simpa using List.find?_some hf
      exact Or.inl ⟨l, c, out, by simpa using hl, ht, rfl, by
        simp [Emitter.step, ControlPlan.role, hf]⟩
    | none =>
      refine Or.inr (Or.inr (Or.inr (Or.inr (Or.inr ⟨hq ?_ ?_ ?_ ?_, Or.inr ?_⟩))))
      · intro c' out' _ l hl h
        have := List.find?_eq_none.mp hf l (List.mem_reverse.mpr hl)
        simp [h] at this
      · intro out' h; cases h
      · intro c' label h; cases h
      · intro name h; cases h
      · simp [Emitter.step, ControlPlan.role, hf]
  | jump out =>
    by_cases hb : plan.loops.any (fun l => l.back = k) = true
    · obtain ⟨l, hl, h⟩ := List.any_eq_true.mp hb
      exact Or.inr (Or.inl ⟨l, by simpa using hl, by simpa using h, by
        simp [Emitter.step, ControlPlan.role, hb]⟩)
    · by_cases ht : plan.branches.any (fun b => b.turn = k) = true
      · obtain ⟨b, hm, h⟩ := List.any_eq_true.mp ht
        exact Or.inr (Or.inr (Or.inr (Or.inl ⟨b, by simpa using hm, by simpa using h, by
          simp [Emitter.step, ControlPlan.role, hb, ht]⟩)))
      · refine Or.inr (Or.inr (Or.inr (Or.inr (Or.inr ⟨hq ?_ ?_ ?_ ?_, Or.inr ?_⟩))))
        · intro c' out' h; cases h
        · intro out' _
          simp only [List.any_eq_true, decide_eq_true_eq, not_exists, not_and] at hb ht
          exact ⟨hb, ht⟩
        · intro c' label h; cases h
        · intro name h; cases h
        · simp [Emitter.step, ControlPlan.role, hb, ht]
  | branch c label =>
    by_cases hb : plan.branches.any (fun b => b.test = k) = true
    · obtain ⟨b, hm, h⟩ := List.any_eq_true.mp hb
      exact Or.inr (Or.inr (Or.inl ⟨b, c, label, by simpa using hm, by simpa using h, rfl, by
        simp [Emitter.step, ControlPlan.role, hb]⟩))
    · refine Or.inr (Or.inr (Or.inr (Or.inr (Or.inr ⟨hq ?_ ?_ ?_ ?_, Or.inr ?_⟩))))
      · intro c' out' h; cases h
      · intro out' h; cases h
      · intro c' label' _
        simpa only [List.any_eq_true, decide_eq_true_eq, not_exists, not_and] using hb
      · intro name h; cases h
      · simp [Emitter.step, ControlPlan.role, hb]
  | label name =>
    by_cases hb : plan.branches.any (fun b => b.stop = k) = true
    · obtain ⟨b, hm, h⟩ := List.any_eq_true.mp hb
      exact Or.inr (Or.inr (Or.inr (Or.inr (Or.inl ⟨b, by simpa using hm, by simpa using h, by
        simp [Emitter.step, ControlPlan.role, hb]⟩))))
    · refine Or.inr (Or.inr (Or.inr (Or.inr (Or.inr ⟨hq ?_ ?_ ?_ ?_, ?_⟩))))
      · intro c' out' h; cases h
      · intro out' h; cases h
      · intro c' label' h; cases h
      · intro name' _
        simpa only [List.any_eq_true, decide_eq_true_eq, not_exists, not_and] using hb
      · by_cases hs : plan.isSilent k
        · left; simp [Emitter.step, ControlPlan.role, hb, hs]
        · right; simp [Emitter.step, ControlPlan.role, hb, hs]
  | _ =>
    refine Or.inr (Or.inr (Or.inr (Or.inr (Or.inr ⟨hq ?_ ?_ ?_ ?_, Or.inr rfl⟩))))
    · intro c' out' h; cases h
    · intro out' h; cases h
    · intro c' label h; cases h
    · intro name h; cases h

end Quiet

end TapeCompiler
