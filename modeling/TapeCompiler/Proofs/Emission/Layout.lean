import TapeCompiler.Proofs.Cells.Running
import TapeCompiler.Proofs.Emission.Steps
import Mathlib.Data.List.Basic

/-! # The plan of a tree

The shapes found in the instructions of a tree are its loops and branches, where they stand
(`loopShapes_flatten`, `branchShapes_flatten`). Their spans nest, so none is dropped
(`planOf_flatten`), and a step of emission at a part of a shape is the one of that part
(`step_test`, `step_back`, `step_branch`, `step_turn`, `step_stop`, `step_label`). -/

namespace TapeCompiler

/-! ### Flow behind straight instructions -/

theorem Stands.drop_eq {code seg : List Instruction} {k : Nat} (h : Stands code k seg) :
    code.drop k = seg ++ code.drop (k + seg.length) := by
  refine List.ext_getElem? fun j => ?_
  rw [List.getElem?_drop, List.getElem?_append]
  split_ifs with hj
  · rw [h j _ (List.getElem?_eq_getElem hj), List.getElem?_eq_getElem hj]
  · rw [List.getElem?_drop]
    congr 1
    omega

/-- **The first flow instruction** behind straight ones. -/
theorem nextFlow?_eq {code seg : List Instruction} {k : Nat} {i : Instruction}
    (hs : Straight seg) (h : Stands code k seg) (hi : code[k + seg.length]? = some i)
    (hf : i.isFlow = true) : nextFlow? code k = some (k + seg.length, i) := by
  have hstand : Stands code k (seg ++ [i]) :=
    stands_append.mpr ⟨h, stands_cons.mpr ⟨hi, stands_nil⟩⟩
  have hz : code.zipIdx.drop k = (code.drop k).zipIdx k := by
    refine List.ext_getElem? fun j => ?_
    simp [List.getElem?_zipIdx, List.getElem?_drop]
  have hnone : ∀ f : Instruction × Nat → Option (Nat × Instruction),
      (∀ p, p.1.isFlow = false → f p = none) → (seg.zipIdx k).findSome? f = none := fun f hf =>
    List.findSome?_eq_none_iff.mpr fun p hp => hf p (hs p.1 (List.fst_mem_of_mem_zipIdx hp))
  unfold nextFlow?
  rw [hz, hstand.drop_eq, List.zipIdx_append, List.zipIdx_append, List.append_assoc,
    List.findSome?_append, hnone _ fun p hp => by simp [hp]]
  simp [hf]

/-! ### The shapes of a tree -/

namespace CodeTree

/-- The loops of a tree that stands at an index, by their jumps back. -/
def loops : CodeTree → Nat → List LoopShape
  | done _, _ => []
  | branch before _ _ yes no rest, k =>
    let test := k + before.length
    let turn := test + 1 + yes.flatten.length
    let stop := turn + 1 + 1 + no.flatten.length
    yes.loops (test + 1) ++ no.loops (turn + 1 + 1) ++ rest.loops (stop + 1)
  | loop before _ test _ body last rest, k =>
    let head := k + before.length
    let exit := head + 1 + test.length
    let again := exit + 1 + body.flatten.length
    let back := again + 1 + last.length
    body.loops (exit + 1) ++ ⟨head, exit, back, back + 1⟩ :: rest.loops (back + 1 + 1)

/-- The branches of a tree that stands at an index, by their tests. -/
def branches : CodeTree → Nat → List BranchShape
  | done _, _ => []
  | branch before _ _ yes no rest, k =>
    let test := k + before.length
    let turn := test + 1 + yes.flatten.length
    let stop := turn + 1 + 1 + no.flatten.length
    ⟨test, turn, turn + 1, stop⟩ :: (yes.branches (test + 1) ++ no.branches (turn + 1 + 1)
      ++ rest.branches (stop + 1))
  | loop before _ test _ body last rest, k =>
    let exit := k + before.length + 1 + test.length
    let back := exit + 1 + body.flatten.length + 1 + last.length
    body.branches (exit + 1) ++ rest.branches (back + 1 + 1)

/-- The loops and branches. -/
def shapes (t : CodeTree) (k : Nat) : List Shape :=
  (t.loops k).map .loop ++ (t.branches k).map .branch

section Found
variable {code : List Instruction} (hu : (labelNames code).Nodup)

/-- The loop that an instruction closes, if it is a jump back. -/
def loopFrom (code : List Instruction) (p : Instruction × Nat) : Option LoopShape :=
  match p.1 with
  | .jump label => loopAt? code p.2 label
  | _ => none

/-- The branch that an instruction opens, if it is a test of one. -/
def branchFrom (code : List Instruction) (p : Instruction × Nat) : Option BranchShape :=
  match p.1 with
  | .branch _ label => branchAt? code p.2 label
  | _ => none

theorem filterMap_straight {α : Type} {f : Instruction × Nat → Option α}
    (hf : ∀ i k, i.isFlow = false → f (i, k) = none) {seg : List Instruction}
    (hs : TapeCompiler.Straight seg) (k : Nat) : (seg.zipIdx k).filterMap f = [] :=
  List.filterMap_eq_nil_iff.mpr fun p hp => hf p.1 p.2 (hs p.1 (List.fst_mem_of_mem_zipIdx hp))

theorem loopFrom_straight (i : Instruction) (k : Nat) (h : i.isFlow = false) :
    loopFrom code (i, k) = none := by
  cases i <;> simp_all [loopFrom, Instruction.isFlow]

theorem branchFrom_straight (i : Instruction) (k : Nat) (h : i.isFlow = false) :
    branchFrom code (i, k) = none := by
  cases i <;> simp_all [branchFrom, Instruction.isFlow]

include hu

/-- **The loops found** in the instructions of a tree. -/
theorem filterMap_loopFrom {t : CodeTree} :
    ∀ {k : Nat}, t.Straight → Stands code k t.flatten →
      (t.flatten.zipIdx k).filterMap (loopFrom code) = t.loops k := by
  induction t with
  | done seg => exact fun hs _ => filterMap_straight loopFrom_straight hs _
  | branch before n c yes no rest ihy ihn ihr =>
    rintro k ⟨hs, hsy, hsn, hsr⟩ h
    obtain ⟨-, -, hy, -, -, hn, hstop, hr⟩ := stands_branch.mp h
    -- the jump over the other side goes forward
    have hturn : loopAt? code (k + before.length + 1 + yes.flatten.length)
        (LabelKind.ifEnd.name n) = none := by
      have : ¬ k + before.length + 1 + yes.flatten.length + 1 + 1 + no.flatten.length <
          k + before.length + 1 + yes.flatten.length := by omega
      simp [loopAt?, labelIndex?_eq hu hstop, guard, this]
    simp only [flatten, loops, List.zipIdx_append, List.zipIdx_cons, List.filterMap_append,
      List.filterMap_cons, filterMap_straight loopFrom_straight hs, ihy hsy hy, ihn hsn hn,
      ihr hsr hr, loopFrom, hturn, List.nil_append, List.append_assoc]
  | loop before n test c body last rest ihb ihr =>
    rintro k ⟨hs, hst, hsb, hsl, hsr⟩ h
    obtain ⟨-, hhead, ht, hexit, hbody, -, hlast, hjump, hstop, hr⟩ := stands_loop.mp h
    have hback : loopAt? code (k + before.length + 1 + test.length + 1 + body.flatten.length + 1
        + last.length) (LabelKind.forTest.name n) = some ⟨k + before.length,
          k + before.length + 1 + test.length, k + before.length + 1 + test.length + 1
            + body.flatten.length + 1 + last.length, k + before.length + 1 + test.length + 1
              + body.flatten.length + 1 + last.length + 1⟩ := by
      have h₁ : k + before.length < k + before.length + 1 + test.length + 1 + body.flatten.length
          + 1 + last.length := by omega
      have h₂ : k + before.length + 1 + test.length < k + before.length + 1 + test.length + 1
          + body.flatten.length + 1 + last.length := by omega
      simp [loopAt?, labelIndex?_eq hu hhead, nextFlow?_eq hst ht hexit rfl,
        labelIndex?_eq hu hstop, guard, h₁, h₂]
    simp only [flatten, loops, List.zipIdx_append, List.zipIdx_cons, List.filterMap_append,
      List.filterMap_cons, filterMap_straight loopFrom_straight hs,
      filterMap_straight loopFrom_straight hst, filterMap_straight loopFrom_straight hsl,
      ihb hsb hbody, ihr hsr hr, loopFrom, hback, List.nil_append]

/-- **The branches found** in the instructions of a tree. -/
theorem filterMap_branchFrom {t : CodeTree} :
    ∀ {k : Nat}, t.Straight → Stands code k t.flatten →
      (t.flatten.zipIdx k).filterMap (branchFrom code) = t.branches k := by
  induction t with
  | done seg => exact fun hs _ => filterMap_straight branchFrom_straight hs _
  | branch before n c yes no rest ihy ihn ihr =>
    rintro k ⟨hs, hsy, hsn, hsr⟩ h
    obtain ⟨-, -, hy, hturn, hother, hn, hstop, hr⟩ := stands_branch.mp h
    have htest : branchAt? code (k + before.length) (LabelKind.ifElse.name n) =
        some ⟨k + before.length, k + before.length + 1 + yes.flatten.length,
          k + before.length + 1 + yes.flatten.length + 1,
          k + before.length + 1 + yes.flatten.length + 1 + 1 + no.flatten.length⟩ := by
      have h₁ : k + before.length + 2 ≤ k + before.length + 1 + yes.flatten.length + 1 := by omega
      have h₂ : k + before.length + 1 + yes.flatten.length + 1 ≤
          k + before.length + 1 + yes.flatten.length + 1 + 1 + no.flatten.length := by omega
      simp only [branchAt?, labelIndex?_eq hu hother, labelIndex?_eq hu hstop, guard, if_pos h₁,
        Nat.add_sub_cancel, hturn, if_pos h₂, Option.bind_eq_bind, Option.bind_some, Option.pure_def]
    simp only [flatten, branches, List.zipIdx_append, List.zipIdx_cons, List.filterMap_append,
      List.filterMap_cons, filterMap_straight branchFrom_straight hs, ihy hsy hy, ihn hsn hn,
      ihr hsr hr, branchFrom, htest, List.nil_append, List.append_assoc]
  | loop before n test c body last rest ihb ihr =>
    rintro k ⟨hs, hst, hsb, hsl, hsr⟩ h
    obtain ⟨-, -, -, -, hbody, -, -, -, -, hr⟩ := stands_loop.mp h
    simp only [flatten, branches, List.zipIdx_append, List.zipIdx_cons, List.filterMap_append,
      List.filterMap_cons, filterMap_straight branchFrom_straight hs,
      filterMap_straight branchFrom_straight hst, filterMap_straight branchFrom_straight hsl,
      ihb hsb hbody, ihr hsr hr, branchFrom, List.nil_append]

end Found

/-! ### Nesting -/

section Nesting
variable {k n : Nat} {X Y : Shape} {before test last : List Instruction} {c : Operand}
  {yes no body rest : CodeTree}

theorem mem_shapes_branch : X ∈ (branch before n c yes no rest).shapes k ↔
    X = .branch ⟨k + before.length, k + before.length + 1 + yes.flatten.length,
      k + before.length + 1 + yes.flatten.length + 1,
      k + before.length + 1 + yes.flatten.length + 1 + 1 + no.flatten.length⟩ ∨
    X ∈ yes.shapes (k + before.length + 1) ∨
    X ∈ no.shapes (k + before.length + 1 + yes.flatten.length + 1 + 1) ∨
    X ∈ rest.shapes
      (k + before.length + 1 + yes.flatten.length + 1 + 1 + no.flatten.length + 1) := by
  simp only [shapes, loops, branches, List.map_append, List.map_cons, List.mem_append,
    List.mem_cons]
  tauto

theorem mem_shapes_loop : X ∈ (loop before n test c body last rest).shapes k ↔
    X = .loop ⟨k + before.length, k + before.length + 1 + test.length,
      k + before.length + 1 + test.length + 1 + body.flatten.length + 1 + last.length,
      k + before.length + 1 + test.length + 1 + body.flatten.length + 1 + last.length + 1⟩ ∨
    X ∈ body.shapes (k + before.length + 1 + test.length + 1) ∨
    X ∈ rest.shapes (k + before.length + 1 + test.length + 1 + body.flatten.length + 1
      + last.length + 1 + 1) := by
  simp only [shapes, loops, branches, List.map_append, List.map_cons, List.mem_append,
    List.mem_cons]
  tauto

theorem spans_within {t : CodeTree} : ∀ {k : Nat}, X ∈ t.shapes k → ∀ s ∈ X.spans,
    k ≤ s.1 ∧ s.1 < s.2 ∧ s.2 < k + t.flatten.length := by
  induction t with
  | done => intro k h; simp [shapes, loops, branches] at h
  | branch before n c yes no rest ihy ihn ihr =>
    intro k h s hs
    rw [length_branch]
    rcases mem_shapes_branch.mp h with rfl | h | h | h
    · simp only [Shape.spans, List.mem_cons, List.not_mem_nil, or_false] at hs
      rcases hs with rfl | rfl <;> simp only <;> omega
    · have := ihy h s hs; omega
    · have := ihn h s hs; omega
    · have := ihr h s hs; omega
  | loop before n test c body last rest ihb ihr =>
    intro k h s hs
    rw [length_loop]
    rcases mem_shapes_loop.mp h with rfl | h | h
    · simp only [Shape.spans, List.mem_cons, List.not_mem_nil, or_false] at hs
      subst hs
      simp only
      omega
    · have := ihb h s hs; omega
    · have := ihr h s hs; omega

/-- **The spans of a tree nest.** -/
theorem not_crosses {t : CodeTree} : ∀ {k : Nat}, X ∈ t.shapes k → Y ∈ t.shapes k →
    ∀ s ∈ X.spans, ∀ u ∈ Y.spans, ¬ Crosses s u := by
  induction t with
  | done => intro k h; simp [shapes, loops, branches] at h
  | branch before n c yes no rest ihy ihn ihr =>
    intro k hX hY s hs u hu
    rcases mem_shapes_branch.mp hX with rfl | hX | hX | hX <;>
      rcases mem_shapes_branch.mp hY with rfl | hY | hY | hY
    -- shapes of one part
    case inr.inl.inr.inl => exact ihy hX hY s hs u hu
    case inr.inr.inl.inr.inr.inl => exact ihn hX hY s hs u hu
    case inr.inr.inr.inr.inr.inr => exact ihr hX hY s hs u hu
    all_goals
      try have hX := spans_within hX s hs
      try have hY := spans_within hY u hu
      simp only [Shape.spans, List.mem_cons, List.not_mem_nil, or_false] at hs hu
      unfold Crosses
      grind
  | loop before n test c body last rest ihb ihr =>
    intro k hX hY s hs u hu
    rcases mem_shapes_loop.mp hX with rfl | hX | hX <;>
      rcases mem_shapes_loop.mp hY with rfl | hY | hY
    case inr.inl.inr.inl => exact ihb hX hY s hs u hu
    case inr.inr.inr.inr => exact ihr hX hY s hs u hu
    all_goals
      try have hX := spans_within hX s hs
      try have hY := spans_within hY u hu
      simp only [Shape.spans, List.mem_cons, List.not_mem_nil, or_false] at hs hu
      unfold Crosses
      grind

end Nesting

theorem stop_at {code : List Instruction} {t : CodeTree} :
    ∀ {k : Nat}, Stands code k t.flatten → ∀ s ∈ t.branches k,
      ∃ n, code[s.stop]? = some (.label (LabelKind.ifEnd.name n)) := by
  induction t with
  | done => intro k _ s hs; simp [branches] at hs
  | branch before n c yes no rest ihy ihn ihr =>
    intro k h s hs
    obtain ⟨-, -, hy, -, -, hn, hstop, hr⟩ := stands_branch.mp h
    simp only [branches, List.mem_cons, List.mem_append] at hs
    rcases hs with rfl | (hs | hs) | hs
    · exact ⟨n, hstop⟩
    · exact ihy hy s hs
    · exact ihn hn s hs
    · exact ihr hr s hs
  | loop before n test c body last rest ihb ihr =>
    intro k h s hs
    obtain ⟨-, -, -, -, hbody, -, -, -, -, hr⟩ := stands_loop.mp h
    simp only [branches, List.mem_append] at hs
    rcases hs with hs | hs
    · exact ihb hbody s hs
    · exact ihr hr s hs

/-! ### The plan -/

theorem crossing_eq_nil {spans : List Span} (h : ∀ a ∈ spans, ∀ b ∈ spans, a.crosses b = false) :
    crossing [] spans = [] := by
  induction spans with
  | nil => rfl
  | cons a rest ih =>
    have hfold : ∀ {m : List Span}, m ⊆ rest → m.foldl (dropOne a) [] = [] := by
      intro m hm
      induction m with
      | nil => rfl
      | cons b m ihm =>
        have hb := h a (by simp) b (List.mem_cons_of_mem _ (hm (by simp)))
        rw [List.foldl_cons, show dropOne a [] b = [] by simp [dropOne, hb]]
        exact ihm fun x hx => hm (List.mem_cons_of_mem _ hx)
    rw [crossing, hfold (List.Subset.refl _)]
    exact ih fun x hx y hy => h x (by simp [hx]) y (by simp [hy])

section Plan
variable {t : CodeTree} (hs : t.Straight) (hd : t.labels.Nodup)
include hs hd

theorem loopShapes_flatten : loopShapes t.flatten = t.loops 0 :=
  filterMap_loopFrom (nodup_labelNames hs hd) hs stands_self

theorem branchShapes_flatten : branchShapes t.flatten = t.branches 0 :=
  filterMap_branchFrom (nodup_labelNames hs hd) hs stands_self

/-- **The shapes of a tree** do not cross: none is dropped. -/
theorem crossing_flatten :
    crossing [] (spans (loopShapes t.flatten) (branchShapes t.flatten)) = [] := by
  rw [loopShapes_flatten hs hd, branchShapes_flatten hs hd]
  have hspan : ∀ a ∈ spans (t.loops 0) (t.branches 0),
      ∃ X ∈ t.shapes 0, (a.first, a.last) ∈ X.spans := by
    intro a ha
    rw [spans_eq, List.mem_flatMap] at ha
    obtain ⟨⟨X, m⟩, hX, ha⟩ := ha
    obtain ⟨s, hs, rfl⟩ := List.mem_map.mp ha
    exact ⟨X, List.fst_mem_of_mem_zipIdx hX, hs⟩
  refine crossing_eq_nil fun a ha b hb => ?_
  obtain ⟨X, hX, hs⟩ := hspan a ha
  obtain ⟨Y, hY, hu⟩ := hspan b hb
  rw [← Bool.not_eq_true, Span.crosses_iff]
  exact not_crosses hX hY _ hs _ hu

/-- **The plan of a tree** has all its loops and branches. -/
theorem planOf_flatten : ControlPlan.of t.flatten = ⟨t.loops 0, t.branches 0⟩ := by
  have hcross := crossing_flatten hs hd
  rw [loopShapes_flatten hs hd, branchShapes_flatten hs hd] at hcross
  unfold ControlPlan.of
  simp only [loopShapes_flatten hs hd, branchShapes_flatten hs hd, hcross]
  simp

end Plan

/-! ### Steps at the parts of a shape -/

section Steps
variable {code : List Instruction} (e : Emitter) (st : Emission)

theorem step_test {s : LoopShape} {c : Operand} {name : String}
    (h : s ∈ (ControlPlan.of code).loops)
    (hi : code[s.test]? = some (.jumpUnless c name)) :
    e.step (.of code) code s.test (.jumpUnless c name) st =
      .ok (e.openLoop c ((code.take s.test).drop (s.head + 1)) st) := by
  have hv : ∀ m ∈ (ControlPlan.of code).loops, m.Valid code := fun m hm =>
    shapes_valid (X := .loop m) (by simpa using hm)
  cases hf : (ControlPlan.of code).loops.reverse.find? fun m => m.test = s.test with
  | none => exact absurd (List.find?_eq_none.mp hf s (by simpa using h)) (by simp)
  | some m =>
    have hm := List.mem_reverse.mp (List.mem_of_find?_eq_some hf)
    have heq : m.test = s.test := by simpa using List.find?_some hf
    obtain rfl := (hv m hm).eq_of_test (hv s h) heq
    simp [Emitter.step, ControlPlan.role, hf]

theorem step_back {s : LoopShape} (name : String) (h : s ∈ (ControlPlan.of code).loops) :
    e.step (.of code) code s.back (.jump name) st = e.closeLoop s.back st := by
  have hb : (ControlPlan.of code).loops.any (fun m => m.back = s.back) = true :=
    List.any_eq_true.mpr ⟨s, h, by simp⟩
  simp [Emitter.step, ControlPlan.role, hb]

theorem step_branch {s : BranchShape} (c : Operand) (name : String)
    (h : s ∈ (ControlPlan.of code).branches) :
    e.step (.of code) code s.test (.branch c name) st = .ok (e.openBranch c st) := by
  have hb : (ControlPlan.of code).branches.any (fun m => m.test = s.test) = true :=
    List.any_eq_true.mpr ⟨s, h, by simp⟩
  simp [Emitter.step, ControlPlan.role, hb]

theorem step_turn {s : BranchShape} (name : String) (h : s ∈ (ControlPlan.of code).branches) :
    e.step (.of code) code s.turn (.jump name) st = Emitter.switchBranch s.turn st := by
  have hs : s.Valid code := shapes_valid (X := .branch s) (by simpa using h)
  -- a jump back goes to a label in front of it
  have hl : (ControlPlan.of code).loops.any (fun m => m.back = s.turn) = false := by
    refine List.any_eq_false.mpr fun m hm hmk => ?_
    have hv : m.Valid code := shapes_valid (X := .loop m) (by simpa using hm)
    obtain ⟨label, hj, hh⟩ := hv.back_at
    obtain ⟨out, hj', hstop⟩ := hs.turn_at
    rw [of_decide_eq_true hmk, hj'] at hj
    cases hj
    rw [hstop] at hh
    have h₁ := Option.some.inj hh
    have h₂ := of_decide_eq_true hmk
    have h₃ := hv.head_lt
    have h₄ := hv.test_lt
    have h₅ := hs.turn_lt
    omega
  have hb : (ControlPlan.of code).branches.any (fun m => m.turn = s.turn) = true :=
    List.any_eq_true.mpr ⟨s, h, by simp⟩
  simp [Emitter.step, ControlPlan.role, hl, hb]

theorem step_stop {s : BranchShape} (name : String) (h : s ∈ (ControlPlan.of code).branches) :
    e.step (.of code) code s.stop (.label name) st = Emitter.closeBranch s.stop st := by
  have hb : (ControlPlan.of code).branches.any (fun m => m.stop = s.stop) = true :=
    List.any_eq_true.mpr ⟨s, h, by simp⟩
  simp [Emitter.step, ControlPlan.role, hb]

theorem step_label (name : String) {k : Nat}
    (h : ∀ s ∈ (ControlPlan.of code).branches, s.stop ≠ k) :
    ∃ d : Code, (d = .skip ∨ d = .mark .label name) ∧
      e.step (.of code) code k (.label name) st = .ok (st.write d) := by
  have hb : (ControlPlan.of code).branches.any (fun m => m.stop = k) = false :=
    List.any_eq_false.mpr fun m hm hmk => h m hm (of_decide_eq_true hmk)
  by_cases hs : (ControlPlan.of code).isSilent k
  · exact ⟨.skip, .inl rfl, by simp [Emitter.step, ControlPlan.role, hb, hs]; rfl⟩
  · refine ⟨.mark .label name, .inr rfl, ?_⟩
    simp [Emitter.step, ControlPlan.role, hb, hs, Emitter.writePlain, Emitter.plain]
    rfl

theorem step_straight {i : Instruction} (h : i.isFlow = false) {plan : ControlPlan} {k : Nat} :
    e.step plan code k i st = .ok (e.writePlain st i) := by
  cases i <;> first | rfl | simp [Instruction.isFlow] at h

end Steps

end CodeTree

end TapeCompiler
