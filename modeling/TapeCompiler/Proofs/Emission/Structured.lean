import TapeCompiler.Proofs.Emission.TreeCode
import TapeCompiler.Proofs.Passes.Parts
import TapeCompiler.Proofs.Warnings

/-! # Structured control flow

Code is **structured** (`Structured`) if all its jumps are parts of shapes, which nest: then every
label is unique, no shape is dropped, and emission ends with no frame open. Instructions written
from a tree are structured (`structured_flatten`), and their emission warns of calls only
(`exists_run_flatten`), never that a jump was left as a marker. -/

namespace TapeCompiler

/-! ### Structured code -/

/-- The label that an instruction jumps to. -/
def Instruction.target? : Instruction → Option String
  | .jump name | .jumpUnless _ name | .branch _ name => some name
  | _ => none

/-- Code whose control flow **becomes brackets**. -/
structure Structured (code : List Instruction) : Prop where
  /-- No label is defined twice. -/
  labels : (labelNames code).Nodup
  /-- Every label that is jumped to is defined. -/
  targets : ∀ i ∈ code, ∀ name ∈ i.target?, name ∈ labelNames code
  /-- The plan knows what every jump is a part of. -/
  recognised : ∀ k i, code[k]? = some i → i.target? ≠ none → (ControlPlan.of code).role k i ≠ .plain
  /-- No shape is dropped because it crosses another. -/
  nested : crossing [] (spans (loopShapes code) (branchShapes code)) = []
  /-- Emission ends well, with no frame open. -/
  closed : ∀ e : Emitter, ∃ st, e.run (.of code) code code.zipIdx .start = (.ok (), st) ∧
    st.frames = []

theorem Instruction.target?_of_straight {i : Instruction} (h : i.isFlow = false) :
    i.target? = none := by
  cases i <;> first | cases h; done | rfl

/-- A jump **has a part** in the shapes of a plan. -/
def ControlPlan.Recognises (plan : ControlPlan) (i : Instruction) (k : Nat) : Prop :=
  i.target? ≠ none → plan.role k i ≠ .plain

namespace ControlPlan

variable {plan : ControlPlan} {k : Nat}

theorem recognises_straight {i : Instruction} (h : i.isFlow = false) : plan.Recognises i k :=
  fun ht => absurd (Instruction.target?_of_straight h) ht

theorem recognises_label (name : String) : plan.Recognises (.label name) k :=
  fun ht => absurd (show (Instruction.label name).target? = none from rfl) ht

theorem recognises_branch {s : BranchShape} (h : s ∈ plan.branches) (c : Operand) (name : String) :
    plan.Recognises (.branch c name) s.test := fun _ => by
  have : plan.branches.any (fun m => m.test = s.test) = true := List.any_eq_true.mpr ⟨s, h, by simp⟩
  simp [role, this]

theorem recognises_turn {s : BranchShape} (h : s ∈ plan.branches) (name : String) :
    plan.Recognises (.jump name) s.turn := fun _ => by
  have : plan.branches.any (fun m => m.turn = s.turn) = true := List.any_eq_true.mpr ⟨s, h, by simp⟩
  simp only [role, this, if_true]
  split <;> exact Role.noConfusion

theorem recognises_test {s : LoopShape} (h : s ∈ plan.loops) (c : Operand) (name : String) :
    plan.Recognises (.jumpUnless c name) s.test := fun _ => by
  unfold role
  cases hf : plan.loops.reverse.find? fun m => m.test = s.test with
  | none => exact absurd (List.find?_eq_none.mp hf s (by simpa using h)) (by simp)
  | some m => exact Role.noConfusion

theorem recognises_back {s : LoopShape} (h : s ∈ plan.loops) (name : String) :
    plan.Recognises (.jump name) s.back := fun _ => by
  have : plan.loops.any (fun m => m.back = s.back) = true := List.any_eq_true.mpr ⟨s, h, by simp⟩
  simp [role, this]

end ControlPlan

namespace CodeTree

variable {plan : ControlPlan}

theorem recognises_segment {seg : List Instruction} (hs : TapeCompiler.Straight seg) (k : Nat) :
    ∀ p ∈ seg.zipIdx k, plan.Recognises p.1 p.2 := fun p hp =>
  ControlPlan.recognises_straight (hs p.1 (List.fst_mem_of_mem_zipIdx hp))

/-- **A plan with the shapes of a tree** knows all its jumps. -/
theorem recognises_flatten {t : CodeTree} : ∀ {k : Nat}, t.Straight → t.loops k ⊆ plan.loops →
    t.branches k ⊆ plan.branches → ∀ p ∈ t.flatten.zipIdx k, plan.Recognises p.1 p.2 := by
  induction t with
  | done seg => exact fun hs _ _ => recognises_segment hs _
  | branch before n c yes no rest ihy ihn ihr =>
    rintro k ⟨hs, hsy, hsn, hsr⟩ hl hb
    simp only [loops, List.append_subset] at hl
    simp only [branches, List.cons_subset, List.append_subset] at hb
    obtain ⟨⟨hly, hln⟩, hlr⟩ := hl
    obtain ⟨hown, ⟨hby, hbn⟩, hbr⟩ := hb
    simp only [flatten, List.zipIdx_append, List.zipIdx_cons, List.forall_mem_append,
      List.forall_mem_cons]
    exact ⟨recognises_segment hs _, ControlPlan.recognises_branch hown _ _, ihy hsy hly hby,
      ControlPlan.recognises_turn hown _, ControlPlan.recognises_label _, ihn hsn hln hbn,
      ControlPlan.recognises_label _, ihr hsr hlr hbr⟩
  | loop before n test c body last rest ihb ihr =>
    rintro k ⟨hs, hst, hsb, hsl, hsr⟩ hl hb
    simp only [loops, List.cons_subset, List.append_subset] at hl
    simp only [branches, List.append_subset] at hb
    obtain ⟨hlb, hown, hlr⟩ := hl
    obtain ⟨hbb, hbr⟩ := hb
    simp only [flatten, List.zipIdx_append, List.zipIdx_cons, List.forall_mem_append,
      List.forall_mem_cons]
    exact ⟨recognises_segment hs _, ControlPlan.recognises_label _, recognises_segment hst _,
      ControlPlan.recognises_test hown _ _, ihb hsb hlb hbb, ControlPlan.recognises_label _,
      recognises_segment hsl _, ControlPlan.recognises_back hown _, ControlPlan.recognises_label _,
      ihr hsr hlr hbr⟩

/-- **A tree jumps to its own labels.** -/
theorem targets_flatten {defined : List String} {t : CodeTree} : t.Straight →
    labelNames t.flatten ⊆ defined → ∀ i ∈ t.flatten, ∀ name ∈ i.target?, name ∈ defined := by
  have hseg : ∀ {seg : List Instruction}, TapeCompiler.Straight seg →
      ∀ i ∈ seg, ∀ name ∈ i.target?, name ∈ defined := fun hs i hi name hn => by
    rw [Instruction.target?_of_straight (hs i hi)] at hn
    cases hn
  have hjump : ∀ {i : Instruction} {name : String}, i.target? = some name → name ∈ defined →
      ∀ name ∈ i.target?, name ∈ defined := fun hi hd name hn => by
    rw [hi] at hn
    cases hn
    exact hd
  induction t with
  | done seg => exact fun hs _ => hseg hs
  | branch before n c yes no rest ihy ihn ihr =>
    rintro ⟨hs, hsy, hsn, hsr⟩ hd
    simp only [flatten, labelNames_append, labelNames_branch, labelNames_jump, labelNames_label,
      List.append_subset, List.cons_subset] at hd
    obtain ⟨-, hy, helse, hn, hend, hr⟩ := hd
    simp only [flatten, List.forall_mem_append, List.forall_mem_cons]
    exact ⟨hseg hs, hjump rfl helse, ihy hsy hy, hjump rfl hend, by simp [Instruction.target?],
      ihn hsn hn, by simp [Instruction.target?], ihr hsr hr⟩
  | loop before n test c body last rest ihb ihr =>
    rintro ⟨hs, hst, hsb, hsl, hsr⟩ hd
    simp only [flatten, labelNames_append, labelNames_jumpUnless, labelNames_jump, labelNames_label,
      List.append_subset, List.cons_subset] at hd
    obtain ⟨-, htest, -, hb, -, -, hend, hr⟩ := hd
    simp only [flatten, List.forall_mem_append, List.forall_mem_cons]
    exact ⟨hseg hs, by simp [Instruction.target?], hseg hst, hjump rfl hend, ihb hsb hb,
      by simp [Instruction.target?], hseg hsl, hjump rfl htest, by simp [Instruction.target?],
      ihr hsr hr⟩

end CodeTree

/-! ### Warnings of emission -/

namespace Emitter

/-- How the warnings **on calls** open. -/
def openings : List String := ["template '", "unresolved call to '", "call to user function '"]

variable {e : Emitter}

theorem opensAs_unresolved (name : String) : ∀ m ∈ (unresolved name).2, OpensAs openings m := by
  intro m hm
  obtain rfl := List.mem_singleton.mp hm
  rw [String.append_assoc]
  exact opensAs_append (by decide) _

theorem opensAs_callMark (name : String) : ∀ m ∈ (e.callMark name).2, OpensAs openings m := by
  unfold callMark
  split
  · intro m hm
    obtain rfl := List.mem_singleton.mp hm
    rw [String.append_assoc]
    exact opensAs_append (by decide) _
  · exact opensAs_unresolved name

theorem opensAs_expandOr (p : Nat) (name : String) (args : List Operand) (target : Option Nat)
    {instead : Warned} (hi : ∀ m ∈ instead.2, OpensAs openings m) :
    ∀ m ∈ (e.expandOr p name args target instead).2, OpensAs openings m := by
  unfold expandOr expand
  dsimp only
  cases e.library.expand? name ⟨p, e.scratch, target, e.width⟩ (args.map e.argument) with
  | none => simpa using hi
  | some r =>
    cases r with
    | ok code => simp
    | error f =>
      refine List.forall_mem_cons.mpr ⟨?_, hi⟩
      rw [String.append_assoc]
      exact opensAs_append (by decide) _

/-- **A straight instruction** is warned about for its call only. -/
theorem opensAs_plain {i : Instruction} (h : i.isFlow = false) (p : Nat) :
    ∀ m ∈ (e.plain p i).2, OpensAs openings m := by
  cases i with
  | print | callFunction | callMethod => 
    first
    | exact opensAs_expandOr _ _ _ _ (by simp)
    | exact opensAs_expandOr _ _ _ _ (opensAs_callMark _)
    | exact opensAs_expandOr _ _ _ _ (opensAs_unresolved _)
  | jump | jumpUnless | branch => cases h
  | _ => exact fun m hm => by cases hm

end Emitter

/-! ### Quiet emission -/

/-- Emission warned of **calls only**. -/
def Emission.Warned (st : Emission) : Prop := ∀ m ∈ st.warnings, OpensAs Emitter.openings m

/-- Emission goes over instructions **quietly**: it warns of calls only. -/
structure Emitter.Quiet (e : Emitter) (code : List Instruction) (k : Nat) (seg : List Instruction)
    (st st' : Emission) : Prop where
  passes : e.Passes code k seg st st'
  warned : st.Warned → st'.Warned

section Quiet
variable {e : Emitter} {code : List Instruction} {k : Nat} {seg seg' : List Instruction}
  {st st₁ st₂ : Emission}

theorem Emitter.Quiet.append (h : e.Quiet code k seg st st₁)
    (h' : e.Quiet code (k + seg.length) seg' st₁ st₂) : e.Quiet code k (seg ++ seg') st st₂ :=
  ⟨h.passes.append h'.passes, fun hw => h'.warned (h.warned hw)⟩

theorem quiet_one {i : Instruction} (h : e.step (.of code) code k i st = .ok st₁)
    (hw : st.Warned → st₁.Warned) :
    e.Quiet code k [i] st (st₁.write (.text "\n")) :=
  ⟨passes_one h, hw⟩

theorem warned_writePlain {i : Instruction} (hi : i.isFlow = false)
    (h : st.Warned) : (e.writePlain st i).Warned :=
  List.forall_mem_append.mpr ⟨h, Emitter.opensAs_plain hi _⟩

theorem warned_rewritten {test : List Instruction} (ht : Straight test)
    (h : st.Warned) : (test.foldl e.writePlain st).Warned := by
  induction test generalizing st with
  | nil => exact h
  | cons i test ih =>
    obtain ⟨hi, ht⟩ := straight_cons.mp ht
    exact ih ht (warned_writePlain hi h)

theorem exists_quiet_straight (code : List Instruction) (st : Emission) (hs : Straight seg) :
    ∃ st', e.Quiet code k seg st st' ∧ st'.frames = st.frames := by
  induction seg generalizing k st with
  | nil => exact ⟨st, ⟨fun _ => rfl, id⟩, rfl⟩
  | cons i seg ih =>
    obtain ⟨hi, hs⟩ := straight_cons.mp hs
    have h : e.Quiet code k [i] st _ :=
      quiet_one (CodeTree.step_straight e st hi) (warned_writePlain hi)
    obtain ⟨st', h', hf⟩ := ih ((e.writePlain st i).write (.text "\n")) hs
    exact ⟨st', h.append h', hf⟩

theorem exists_quiet_label (st : Emission) (name : String)
    (h : ∀ s ∈ (ControlPlan.of code).branches, s.stop ≠ k) :
    ∃ st', e.Quiet code k [.label name] st st' ∧ st'.frames = st.frames := by
  obtain ⟨d, -, hd⟩ := CodeTree.step_label e st name h
  exact ⟨_, quiet_one hd id, rfl⟩

/-- **Emission goes quietly over a tree** and leaves the frames open that were open before. -/
theorem exists_quiet_tree
    (hstop : ∀ s ∈ (ControlPlan.of code).branches,
      ∃ n, code[s.stop]? = some (.label (LabelKind.ifEnd.name n))) {t : CodeTree} :
    ∀ {k : Nat} (st : Emission), t.StandsAt code k →
      ∃ st', e.Quiet code k t.flatten st st' ∧ st'.frames = st.frames := by
  induction t with
  | done seg => exact fun st ht => exists_quiet_straight code st ht.straight
  | branch before n cond yes no rest ihy ihn ihr =>
    intro k st ht
    obtain ⟨-, -, -, -, hother, -, -, -⟩ := CodeTree.stands_branch.mp ht.stands
    obtain ⟨hs, hty, htn, htr, hown⟩ := ht.of_branch
    obtain ⟨st₁, h₁, hf₁⟩ := exists_quiet_straight (e := e) (k := k) code st hs
    have hopen := CodeTree.step_branch e st₁ cond (LabelKind.ifElse.name n) hown
    obtain ⟨st₂, h₂, hf₂⟩ := ihy ((e.openBranch cond st₁).write (.text "\n")) hty
    have hswitch := CodeTree.step_turn e st₂ (LabelKind.ifEnd.name n) hown
    simp only [Emitter.switchBranch, hf₂, Emission.write, Emitter.openBranch] at hswitch
    obtain ⟨st₃, h₃, hf₃⟩ := exists_quiet_label (e := e) _ (LabelKind.ifElse.name n)
      (stop_ne_of_kind hstop (by decide) hother)
    obtain ⟨st₄, h₄, hf₄⟩ := ihn st₃ htn
    have hclose := CodeTree.step_stop e st₄ (LabelKind.ifEnd.name n) hown
    simp only [Emitter.closeBranch, hf₄, hf₃, Emission.write] at hclose
    obtain ⟨st', h', hf'⟩ := ihr _ htr
    exact ⟨st', h₁.append ((quiet_one hopen id).append (h₂.append ((quiet_one hswitch id).append
      (h₃.append (h₄.append ((quiet_one hclose id).append h')))))), hf'.trans hf₁⟩
  | loop before n test cond body last rest ihb ihr =>
    intro k st ht
    obtain ⟨-, hhead, hte, hexit, -, hagain, -, -, hend, -⟩ := CodeTree.stands_loop.mp ht.stands
    obtain ⟨⟨hs, hst, hsl⟩, htb, htr, hown⟩ := ht.of_loop
    obtain ⟨st₁, h₁, hf₁⟩ := exists_quiet_straight (e := e) (k := k) code st hs
    obtain ⟨st₂, h₂, hf₂⟩ := exists_quiet_label (e := e) st₁ (LabelKind.forTest.name n)
      (stop_ne_of_kind hstop (by decide) hhead)
    obtain ⟨st₃, h₃, hf₃⟩ := exists_quiet_straight (e := e) code st₂ hst
    have hopen := CodeTree.step_test e st₃ hown hexit
    simp only [hte.slice] at hopen
    obtain ⟨st₄, h₄, hf₄⟩ := ihb ((e.openLoop cond test st₃).write (.text "\n")) htb
    obtain ⟨st₅, h₅, hf₅⟩ := exists_quiet_label (e := e) st₄ (LabelKind.forUpdate.name n)
      (stop_ne_of_kind hstop (by decide) hagain)
    obtain ⟨st₆, h₆, hf₆⟩ := exists_quiet_straight (e := e) code st₅ hsl
    have hclose := CodeTree.step_back e st₆ (LabelKind.forTest.name n) hown
    simp only [Emitter.closeLoop, hf₆, hf₅, hf₄, Emission.write, Emitter.openLoop] at hclose
    obtain ⟨st₇, h₇, hf₇⟩ := exists_quiet_label (e := e) _ (LabelKind.forEnd.name n)
      (stop_ne_of_kind hstop (by decide) hend)
    obtain ⟨st', h', hf'⟩ := ihr st₇ htr
    refine ⟨st', h₁.append (h₂.append (h₃.append ((quiet_one hopen id).append (h₄.append
      (h₅.append (h₆.append ((quiet_one hclose ?_).append (h₇.append h')))))))), ?_⟩
    · exact fun hm => warned_rewritten hst hm
    · exact hf'.trans (hf₇.trans ((Emitter.frames_foldl_writePlain _ _).trans
        (hf₃.trans (hf₂.trans hf₁))))

end Quiet

/-! ### Instructions written from a tree -/

section Tree
variable {t : CodeTree} (hs : t.Straight) (hd : t.labels.Nodup)
include hs hd

/-- **Emission of a tree** ends well, with no frame open and with warnings on calls only. -/
theorem exists_run_flatten (e : Emitter) :
    ∃ st, e.run (.of t.flatten) t.flatten t.flatten.zipIdx .start = (.ok (), st) ∧
      st.frames = [] ∧ st.Warned := by
  obtain ⟨st, h, hf⟩ := exists_quiet_tree (e := e) (CodeTree.stop_flatten hs hd) .start
    (CodeTree.standsAt_self hs hd)
  have hrun := h.passes []
  rw [List.append_nil] at hrun
  simp only [List.zipIdx_nil, Emitter.run, hf, List.isEmpty_nil, Emission.start, if_true] at hrun
  exact ⟨st, hrun, hf, h.warned fun m hm => by cases hm⟩

/-- **Instructions written from a tree are structured.** -/
theorem structured_flatten : Structured t.flatten where
  labels := CodeTree.nodup_labelNames hs hd
  targets := CodeTree.targets_flatten hs (List.Subset.refl _)
  recognised k i hi := by
    have h := CodeTree.standsAt_self hs hd
    exact CodeTree.recognises_flatten hs h.loops h.branches (i, k)
      (List.mem_zipIdx_iff_getElem?.mpr hi)
  nested := CodeTree.crossing_flatten hs hd
  closed e := by
    obtain ⟨st, h, hf, -⟩ := exists_run_flatten hs hd e
    exact ⟨st, h, hf⟩

end Tree

end TapeCompiler
