import TapeCompiler.Proofs.Emission.Nesting
import TapeCompiler.Proofs.Emission.Written

/-! # Which programs are emitted

Emission fails where a shape turns or closes and the innermost open frame is not its own, and at the
end if a frame is left open. Two branches that end at the same label are the one cause: the label
closes one of them. Every other plan nests (`nests_of_not_shares`), and along a plan that nests the
frames are those of the shapes open (`step_of_nests`), so no step fails (`run_of_nests`).

So every program is emitted, refused for its cells or reported as a defect, and which of the three
depends on the cells that it needs and on its plan only (`Program.emission_outcomes`). -/

namespace TapeCompiler

/-! ### Branches that share their end -/

/-- Two branches of a plan **end at the same label**. -/
def ControlPlan.Shares (plan : ControlPlan) : Prop :=
  ∃ b ∈ plan.branches, ∃ d ∈ plan.branches, b ≠ d ∧ b.stop = d.stop

instance (plan : ControlPlan) : Decidable plan.Shares :=
  inferInstanceAs (Decidable (∃ b ∈ plan.branches, ∃ d ∈ plan.branches, b ≠ d ∧ b.stop = d.stop))

/-- A loop does not close where a branch does: one ends at a jump, the other at a label. -/
theorem LoopShape.Valid.back_ne_stop {code : List Instruction} {l : LoopShape} {b : BranchShape}
    (hl : l.Valid code) (hb : b.Valid code) : l.back ≠ b.stop := by
  intro h
  obtain ⟨out, hj, -⟩ := hl.back_at
  obtain ⟨name, hn⟩ := hb.stop_at
  rw [h, hn] at hj
  cases hj

/-- **A plan nests unless branches share their end**: only branches can close together. -/
theorem nests_of_not_shares {code : List Instruction} (h : ¬ (ControlPlan.of code).Shares) :
    (ControlPlan.of code).Nests code where
  valid _ hX := shapes_valid hX
  last_injective X hX Y hY hXY := by
    have hXv := shapes_valid hX
    have hYv := shapes_valid hY
    cases X with
    | loop l =>
      cases Y with
      | loop m => rw [LoopShape.Valid.eq_of_back hXv hYv hXY]
      | branch d => exact absurd hXY (LoopShape.Valid.back_ne_stop hXv hYv)
    | branch b =>
      cases Y with
      | loop m => exact absurd hXY.symm (LoopShape.Valid.back_ne_stop hYv hXv)
      | branch d =>
        rw [ControlPlan.branch_mem_shapes] at hX hY
        by_contra hne
        exact h ⟨b, hX, d, hY, fun he => hne (congrArg Shape.branch he), hXY⟩
  not_crosses _ hX _ hY hne _ hs _ ht := not_crosses hX hY hne hs ht

theorem ControlPlan.Nests.not_shares {plan : ControlPlan} {code : List Instruction}
    (h : plan.Nests code) : ¬ plan.Shares := by
  rintro ⟨b, hb, d, hd, hne, hbd⟩
  have he := h.last_injective (.branch b) (by simpa using hb) (.branch d) (by simpa using hd) hbd
  exact hne (Shape.branch.inj he)

/-! ### The frames of the shapes open -/

/-- A frame **keeps a shape open**: it is of the shape's kind. -/
inductive OpenShape.Keeps : OpenShape → Shape → Prop
  | loop (flag : Nat) (test : List Instruction) (c : Operand) (l : LoopShape) :
    Keeps (.loop flag test c) (.loop l)
  | branch (first other : Nat) (b : BranchShape) : Keeps (.branch first other) (.branch b)

/-- The frames are those of the shapes **open in front of an index**. -/
def Framed (plan : ControlPlan) (k : Nat) (frames : List OpenShape) : Prop :=
  ∃ S, Opened plan k S ∧ List.Forall₂ OpenShape.Keeps frames S

section Framed
variable {plan : ControlPlan} {code : List Instruction} {k : Nat} {frames : List OpenShape}

theorem Framed.eq_nil (hp : plan.Nests code) (h : Framed plan code.length frames) :
    frames = [] := by
  obtain ⟨S, hS, hF⟩ := h
  cases hF with
  | nil => rfl
  | @cons f X F S hfX hF =>
    obtain ⟨hX, -, hlast⟩ := (hS.mem X).mp (by simp)
    exact absurd (hp.valid X hX).last_lt (Nat.not_lt.mpr hlast)

/-- **The innermost frame** is that of the shape that closes or turns. -/
theorem Framed.top (hp : plan.Nests code) (h : Framed plan k frames) {X : Shape}
    (hX : X ∈ plan.shapes) (hk : X.last = k ∨ X.turn? = some k) :
    ∃ f F S, frames = f :: F ∧ f.Keeps X ∧ Opened plan k (X :: S) ∧
      List.Forall₂ OpenShape.Keeps F S := by
  obtain ⟨S, hS, hF⟩ := h
  obtain ⟨R, rfl⟩ := hS.top hp hX hk
  cases hF with
  | cons hfX hF => exact ⟨_, _, R, rfl, hfX, hS, hF⟩

end Framed

/-! ### Emission does not fail -/

section Run
variable {e : Emitter} {code : List Instruction}

/-- **A step does not fail** under a plan that nests, and the frames stay those of the shapes
open. -/
theorem step_of_nests (hp : (ControlPlan.of code).Nests code) {k : Nat} {i : Instruction}
    (hi : code[k]? = some i) {st : Emission} (h : Framed (.of code) k st.frames) :
    ∃ st', e.step (.of code) code k i st = .ok st' ∧ Framed (.of code) (k + 1) st'.frames := by
  rcases step_cases hi e st with ⟨l, c, out, hl, hk, -, hs⟩ | ⟨l, hl, hk, hs⟩ |
    ⟨b, c, label, hb, hk, -, hs⟩ | ⟨b, hb, hk, hs⟩ | ⟨b, hb, hk, hs⟩ | ⟨hq, hs⟩
  · -- a loop opens
    obtain ⟨S, hS, hF⟩ := h
    exact ⟨_, hs, _, hS.push hp hl hk, .cons (.loop ..) hF⟩
  · -- a loop closes
    obtain ⟨f, F, S, hf, hfX, hS, hF⟩ := h.top hp hl (Or.inl hk)
    cases hfX with
    | loop flag test c l =>
      refine ⟨_, hs.trans (by rw [Emitter.closeLoop, hf]), S, hS.pop hp hk, ?_⟩
      show List.Forall₂ _ (test.foldl e.writePlain _).frames S
      rw [Emitter.frames_foldl_writePlain]
      exact hF
  · -- a branch opens
    obtain ⟨S, hS, hF⟩ := h
    exact ⟨_, hs, _, hS.push hp hb hk, .cons (.branch ..) hF⟩
  · -- a branch turns
    have ht : (Shape.branch b).turn? = some k := congrArg some hk
    obtain ⟨f, F, S, hf, hfX, hS, hF⟩ := h.top hp hb (Or.inr ht)
    cases hfX with
    | branch first other b =>
      refine ⟨_, hs.trans (by rw [Emitter.switchBranch, hf]), _, hS.turn hp hb ht, ?_⟩
      show List.Forall₂ _ st.frames _
      rw [hf]
      exact .cons (.branch ..) hF
  · -- a branch closes
    obtain ⟨f, F, S, hf, hfX, hS, hF⟩ := h.top hp hb (Or.inl hk)
    cases hfX with
    | branch first other b =>
      exact ⟨_, hs.trans (by rw [Emitter.closeBranch, hf]), S, hS.pop hp hk, hF⟩
  · -- elsewhere nothing opens, turns or closes
    obtain ⟨S, hS, hF⟩ := h
    have hS' := hS.stay (fun X hX => (hq X hX).1) fun X hX => (hq X hX).2.1
    rcases hs with hs | hs
    · exact ⟨_, hs, S, hS', hF⟩
    · exact ⟨_, hs, S, hS', hF⟩

/-- **Emission does not fail** under a plan that nests. -/
theorem run_of_nests (hp : (ControlPlan.of code).Nests code) :
    ∃ t, e.run (.of code) code code.zipIdx .start = (.ok (), t) := by
  suffices ∀ rest k st, code.drop k = rest → k ≤ code.length → Framed (.of code) k st.frames →
      ∃ t, e.run (.of code) code (rest.zipIdx k) st = (.ok (), t) from
    this code 0 .start rfl (Nat.zero_le _) ⟨[], Opened.zero _, .nil⟩
  intro rest
  induction rest with
  | nil =>
    intro k st hk hle h
    obtain rfl : k = code.length := Nat.le_antisymm hle (List.drop_eq_nil_iff.mp hk)
    exact ⟨st, by simp [Emitter.run, h.eq_nil hp]⟩
  | cons i rest ih =>
    intro k st hk hle h
    have hi : code[k]? = some i := by
      rw [← Nat.add_zero k, ← List.getElem?_drop, hk]
      rfl
    obtain ⟨st', hs, h'⟩ := step_of_nests (e := e) hp hi h
    rw [List.zipIdx_cons, Emitter.run, hs]
    refine ih (k + 1) _ ?_ (List.getElem?_eq_some_iff.mp hi).1 h'
    rw [← List.drop_drop, hk]
    rfl

theorem step_defect {plan : ControlPlan} {k : Nat} {i : Instruction} {st : Emission} {f : Fault}
    (h : e.step plan code k i st = .error f) : ∃ d, f = .defect d := by
  unfold Emitter.step at h
  split at h
  · cases h
  · unfold Emitter.closeLoop at h
    split at h <;> cases h
    exact ⟨_, rfl⟩
  · cases h
  · unfold Emitter.switchBranch at h
    split at h <;> cases h
    exact ⟨_, rfl⟩
  · unfold Emitter.closeBranch at h
    split at h <;> cases h
    exact ⟨_, rfl⟩
  · cases h
  · cases h

theorem run_defect {plan : ControlPlan} {l : List (Instruction × Nat)} {st t : Emission}
    {f : Fault} (h : e.run plan code l st = (.error f, t)) : ∃ d, f = .defect d := by
  induction l generalizing st with
  | nil =>
    unfold Emitter.run at h
    split_ifs at h <;> cases h
    exact ⟨_, rfl⟩
  | cons p l ih =>
    rw [Emitter.run] at h
    cases hs : e.step plan code p.2 p.1 st with
    | ok st' =>
      rw [hs] at h
      exact ih h
    | error g =>
      rw [hs] at h
      cases h
      exact step_defect hs

end Run

/-! ### Programs -/

namespace Program

/-- **How the emission of a program ends** that takes some cells of a tape: with code, refused for
its cells, or with a defect. -/
structure Concludes (p : Program) (needed size : Nat)
    (outcome : Except Fault String × List String) : Prop where
  emitted : (∃ text ws, outcome = (.ok text, ws)) ↔
    needed ≤ size ∧ ¬ (ControlPlan.of p.instructions).Shares
  refused : outcome = (.error (.exceeded (.tapeCells needed size)), []) ↔ size < needed
  defective : (∃ d ws, outcome = (.error (.defect d), ws)) ↔
    needed ≤ size ∧ (ControlPlan.of p.instructions).Shares

section Concluding
variable {p : Program} {e : Emitter} {needed size : Nat}

theorem emitWith_of_lt (h : size < needed) : p.emitWith (.of p.instructions) e needed size =
    (.error (.exceeded (.tapeCells needed size)), []) :=
  if_pos h

theorem emitWith_ok_of_not_shares (h : needed ≤ size)
    (hp : ¬ (ControlPlan.of p.instructions).Shares) :
    ∃ text ws, p.emitWith (.of p.instructions) e needed size = (.ok text, ws) := by
  obtain ⟨t, ht⟩ := run_of_nests (e := e) (nests_of_not_shares hp)
  exact ⟨_, _, emitWith_eq_ok.mpr ⟨h, t, ht, rfl, rfl⟩⟩

theorem emitWith_error_of_shares (h : needed ≤ size) (hp : (ControlPlan.of p.instructions).Shares) :
    ∃ d ws, p.emitWith (.of p.instructions) e needed size = (.error (.defect d), ws) := by
  unfold emitWith
  rw [if_neg (Nat.not_lt.mpr h)]
  cases hr : e.run (.of p.instructions) p.instructions p.instructions.zipIdx .start with
  | mk result t =>
    cases result with
    | ok u => exact absurd hp (nests_of_run hr).not_shares
    | error f =>
      obtain ⟨d, rfl⟩ := run_defect hr
      exact ⟨d, _, rfl⟩

theorem concludes_emitWith (p : Program) (e : Emitter) (needed size : Nat) :
    p.Concludes needed size (p.emitWith (.of p.instructions) e needed size) := by
  rcases Nat.lt_or_ge size needed with hn | hn
  · have h : p.emitWith (.of p.instructions) e needed size = _ := emitWith_of_lt hn
    constructor <;> simp [h, hn]
  · have hnot : ¬ size < needed := Nat.not_lt.mpr hn
    by_cases hs : (ControlPlan.of p.instructions).Shares
    · obtain ⟨d, ws, h⟩ := emitWith_error_of_shares (e := e) hn hs
      constructor <;> simp [h, hn, hs, hnot]
    · obtain ⟨text, ws, h⟩ := emitWith_ok_of_not_shares (e := e) hn hs
      constructor <;> simp [h, hn, hs, hnot]

end Concluding

/-- The cells that the code of a program takes, **counted in machine words**. -/
def cellsCounted (p : Program) (reserved : Nat) : Nat :=
  ((max p.maxAddressWrapping reserved + scratchCells) % wordSize
    + 2 * (ControlPlan.of p.instructions).depth p.instructions.length) % wordSize

/-- **The three outcomes of emission.** A program is emitted if it fits and no two of its branches
share their end, it is refused if it does not fit, and a defect is reported if it fits and two
branches share their end; in machine words as well, where to fit is what the words count. -/
theorem emission_outcomes (p : Program) (library : Library) (w : CellWidth) (size reserved : Nat) :
    p.Concludes (p.cellsNeeded reserved) size (p.emit library w size reserved) ∧
      p.Concludes (p.cellsCounted reserved) size (p.emitWrapping library w size reserved) :=
  ⟨p.concludes_emitWith .., p.concludes_emitWith ..⟩

/-- Two tests whose jumps go to one label behind both. -/
example : (ControlPlan.of [.branch (.cell 0) "first", .jump "end", .label "first",
    .branch (.cell 1) "second", .jump "end", .label "second", .label "end"]).Shares := by
  decide

end Program

end TapeCompiler
