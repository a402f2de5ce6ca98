import TapeCompiler.Proofs.Emission.TreeCode
import TapeCompiler.Proofs.Passes.Trees

/-! # The room a tree needs

The deepest nesting of the plan of a tree is that of the tree (`depth_flatten`), so that passes
which keep the form of the tree keep the number of flag cells. Emission of a tree fails for want of
room only (`Program.emit_of_room`). -/

namespace TapeCompiler

/-- How deep branches and loops **nest**. -/
def CodeTree.nesting : CodeTree → Nat
  | done _ => 0
  | branch _ _ _ yes no rest => max (max yes.nesting no.nesting + 1) rest.nesting
  | loop _ _ _ _ body _ rest => max (body.nesting + 1) rest.nesting

theorem CodeTree.nesting_map {g : List Instruction → List Instruction} {h : Operand → Operand}
    (t : CodeTree) : (t.map g h).nesting = t.nesting := by
  induction t with
  | done => rfl
  | branch _ _ _ _ _ _ ihy ihn ihr => simp only [map, nesting, ihy, ihn, ihr]
  | loop _ _ _ _ _ _ _ ihb ihr => simp only [map, nesting, ihb, ihr]

theorem CodeTree.nesting_noted (t : CodeTree) : t.noted.nesting = t.nesting := by
  induction t with
  | done => rfl
  | branch _ _ _ _ _ _ ihy ihn ihr => simp only [noted, nesting, ihy, ihn, ihr]
  | loop _ _ _ _ _ _ _ ihb ihr => simp only [noted, nesting, ihb, ihr]

namespace ControlPlan

variable {plan : ControlPlan} {k : Nat}

theorem now_le_deepest (k : Nat) : (plan.depthAt k).1 ≤ (plan.depthAt k).2 := by
  cases k with
  | zero => exact Nat.le_refl _
  | succ k =>
    rw [depthAt_succ, depthStep]
    simp only
    refine Nat.le_trans ?_ (Nat.le_max_right _ _)
    split_ifs <;> omega

theorem depthAt_quiet {n : Nat}
    (h : ∀ X ∈ plan.shapes, (X.first < k ∨ k + n ≤ X.first) ∧ (X.last < k ∨ k + n ≤ X.last)) :
    plan.depthAt (k + n) = plan.depthAt k := by
  induction n with
  | zero => rfl
  | succ n ih =>
    have hk := ih fun X hX => by
      have := h X hX
      omega
    have hopen : ¬ ∃ X ∈ plan.shapes, X.first = k + n := by
      rintro ⟨X, hX, he⟩
      have := h X hX
      omega
    have hclose : ¬ ∃ X ∈ plan.shapes, X.last = k + n := by
      rintro ⟨X, hX, he⟩
      have := h X hX
      omega
    rw [← Nat.add_assoc, depthAt_succ, hk, depthStep]
    simp only [opens_iff, closes_iff, if_neg hopen, if_neg hclose]
    exact Prod.ext rfl (Nat.max_eq_left (now_le_deepest k))

theorem depthAt_open (h : ∃ X ∈ plan.shapes, X.first = k) (hc : ¬ ∃ X ∈ plan.shapes, X.last = k) :
    plan.depthAt (k + 1) =
      ((plan.depthAt k).1 + 1, max (plan.depthAt k).2 ((plan.depthAt k).1 + 1)) := by
  rw [depthAt_succ, depthStep]
  simp only [opens_iff, closes_iff, if_pos h, if_neg hc]

theorem depthAt_close (h : ∃ X ∈ plan.shapes, X.last = k) (ho : ¬ ∃ X ∈ plan.shapes, X.first = k) :
    plan.depthAt (k + 1) = ((plan.depthAt k).1 - 1, (plan.depthAt k).2) := by
  rw [depthAt_succ, depthStep]
  simp only [opens_iff, closes_iff, if_pos h, if_neg ho]
  exact Prod.ext rfl (Nat.max_eq_left (now_le_deepest k))

/-- Among the instructions of a tree, **the shapes of a plan are those of the tree**. -/
structure Holds (plan : ControlPlan) (t : CodeTree) (k : Nat) : Prop where
  shapes : ∀ X ∈ t.shapes k, X ∈ plan.shapes
  first : ∀ X ∈ plan.shapes, k ≤ X.first → X.first < k + t.flatten.length → X ∈ t.shapes k
  last : ∀ X ∈ plan.shapes, k ≤ X.last → X.last < k + t.flatten.length → X ∈ t.shapes k

end ControlPlan

namespace CodeTree

theorem ends_within {t : CodeTree} {k : Nat} {X : Shape} (h : X ∈ t.shapes k) :
    k ≤ X.first ∧ X.first < X.last ∧ X.last < k + t.flatten.length := by
  cases X with
  | loop l => exact spans_within h (l.test, l.back) (by simp [Shape.spans])
  | branch b =>
    have h₁ := spans_within h (b.test, b.turn) (by simp [Shape.spans])
    have h₂ := spans_within h (b.turn, b.stop) (by simp [Shape.spans])
    simp only at h₁ h₂
    exact ⟨h₁.1, h₁.2.1.trans h₂.2.1, h₂.2.2⟩

section Parts
variable {k a b c n : Nat} {X : Shape} {before test last : List Instruction} {cond : Operand}
  {yes no body rest : CodeTree}

/-- **Where the shapes of a branch are**: the branch itself, and those of its parts. -/
theorem shapes_of_branch (ha : a = k + before.length) (hb : b = a + 1 + yes.flatten.length)
    (hc : c = b + 1 + 1 + no.flatten.length) (h : X ∈ (branch before n cond yes no rest).shapes k) :
    (X.first = a ∧ X.last = c) ∨
    (X ∈ yes.shapes (a + 1) ∧ a + 1 ≤ X.first ∧ X.first < X.last ∧ X.last < b) ∨
    (X ∈ no.shapes (b + 1 + 1) ∧ b + 1 + 1 ≤ X.first ∧ X.first < X.last ∧ X.last < c) ∨
    (X ∈ rest.shapes (c + 1) ∧ c + 1 ≤ X.first ∧ X.first < X.last ∧
      X.last < c + 1 + rest.flatten.length) := by
  subst ha hb hc
  rcases mem_shapes_branch.mp h with rfl | h | h | h
  · exact Or.inl ⟨rfl, rfl⟩
  · exact Or.inr (Or.inl ⟨h, ends_within h⟩)
  · exact Or.inr (Or.inr (Or.inl ⟨h, ends_within h⟩))
  · exact Or.inr (Or.inr (Or.inr ⟨h, ends_within h⟩))

theorem shapes_of_loop (ha : a = k + before.length + 1 + test.length)
    (hb : b = a + 1 + body.flatten.length) (hc : c = b + 1 + last.length)
    (h : X ∈ (loop before n test cond body last rest).shapes k) :
    (X.first = a ∧ X.last = c) ∨
    (X ∈ body.shapes (a + 1) ∧ a + 1 ≤ X.first ∧ X.first < X.last ∧ X.last < b) ∨
    (X ∈ rest.shapes (c + 1 + 1) ∧ c + 1 + 1 ≤ X.first ∧ X.first < X.last ∧
      X.last < c + 1 + 1 + rest.flatten.length) := by
  subst ha hb hc
  rcases mem_shapes_loop.mp h with rfl | h | h
  · exact Or.inl ⟨rfl, rfl⟩
  · exact Or.inr (Or.inl ⟨h, ends_within h⟩)
  · exact Or.inr (Or.inr ⟨h, ends_within h⟩)

end Parts

end CodeTree

namespace ControlPlan

variable {plan : ControlPlan} {t t' : CodeTree} {k k' : Nat}

/-- What a plan holds for a tree, it holds for a part that no other shape of the tree reaches. -/
theorem Holds.part (h : plan.Holds t k) (hk : k ≤ k')
    (hl : k' + t'.flatten.length ≤ k + t.flatten.length)
    (hsub : ∀ X ∈ t'.shapes k', X ∈ t.shapes k)
    (hrest : ∀ X ∈ t.shapes k, X ∈ t'.shapes k' ∨
      ((X.first < k' ∨ k' + t'.flatten.length ≤ X.first) ∧
        (X.last < k' ∨ k' + t'.flatten.length ≤ X.last))) : plan.Holds t' k' where
  shapes X hX := h.shapes X (hsub X hX)
  first X hX h₁ h₂ := by
    rcases hrest X (h.first X hX (by omega) (by omega)) with hX | hX
    · exact hX
    · omega
  last X hX h₁ h₂ := by
    rcases hrest X (h.last X hX (by omega) (by omega)) with hX | hX
    · exact hX
    · omega

theorem Holds.quiet (h : plan.Holds t k) (k' n : Nat) (hk : k ≤ k')
    (hl : k' + n ≤ k + t.flatten.length)
    (hrest : ∀ X ∈ t.shapes k,
      (X.first < k' ∨ k' + n ≤ X.first) ∧ (X.last < k' ∨ k' + n ≤ X.last)) :
    plan.depthAt (k' + n) = plan.depthAt k' := by
  refine depthAt_quiet fun X hX => ?_
  constructor
  · by_contra hin
    have := hrest X (h.first X hX (by omega) (by omega))
    omega
  · by_contra hin
    have := hrest X (h.last X hX (by omega) (by omega))
    omega

section Cases
variable {before test last : List Instruction} {n : Nat} {cond : Operand}
  {yes no body rest : CodeTree}

/-- What a plan holds for a branch, it holds for its parts; in between nothing opens or closes but
the branch. -/
theorem Holds.branch (h : plan.Holds (.branch before n cond yes no rest) k) {a b c : Nat}
    (ha : a = k + before.length) (hb : b = a + 1 + yes.flatten.length)
    (hc : c = b + 1 + 1 + no.flatten.length) :
    plan.Holds yes (a + 1) ∧ plan.Holds no (b + 1 + 1) ∧ plan.Holds rest (c + 1) ∧
      plan.depthAt a = plan.depthAt k ∧
      plan.depthAt (a + 1) =
        ((plan.depthAt a).1 + 1, max (plan.depthAt a).2 ((plan.depthAt a).1 + 1)) ∧
      plan.depthAt (b + 1 + 1) = plan.depthAt b ∧
      plan.depthAt (c + 1) = ((plan.depthAt c).1 - 1, (plan.depthAt c).2) := by
  have hlen := CodeTree.length_branch k before n cond yes no rest
  rw [← ha, ← hb, ← hc] at hlen
  have hcases : ∀ X ∈ (CodeTree.branch before n cond yes no rest).shapes k, _ := fun X hX =>
    CodeTree.shapes_of_branch ha hb hc hX
  have hself : ∃ X ∈ plan.shapes, X.first = a ∧ X.last = c :=
    ⟨_, h.shapes _ (CodeTree.mem_shapes_branch.mpr (Or.inl rfl)), by subst ha; rfl,
      by subst hc hb ha; rfl⟩
  refine ⟨h.part (by omega) (by omega) (fun X hX => ?_) fun X hX => ?_,
    h.part (by omega) (by omega) (fun X hX => ?_) fun X hX => ?_,
    h.part (by omega) (by omega) (fun X hX => ?_) fun X hX => ?_, ?_, ?_, ?_, ?_⟩
  · subst ha
    exact CodeTree.mem_shapes_branch.mpr (Or.inr (Or.inl hX))
  · rcases hcases X hX with hX | hX | hX | hX
    · exact Or.inr (by omega)
    · exact Or.inl hX.1
    · exact Or.inr (by omega)
    · exact Or.inr (by omega)
  · subst hb ha
    exact CodeTree.mem_shapes_branch.mpr (Or.inr (Or.inr (Or.inl hX)))
  · rcases hcases X hX with hX | hX | hX | hX
    · exact Or.inr (by omega)
    · exact Or.inr (by omega)
    · exact Or.inl hX.1
    · exact Or.inr (by omega)
  · subst hc hb ha
    exact CodeTree.mem_shapes_branch.mpr (Or.inr (Or.inr (Or.inr hX)))
  · rcases hcases X hX with hX | hX | hX | hX
    · exact Or.inr (by omega)
    · exact Or.inr (by omega)
    · exact Or.inr (by omega)
    · exact Or.inl hX.1
  · rw [ha]
    refine h.quiet _ _ (Nat.le_refl _) (by omega) fun X hX => ?_
    rcases hcases X hX with hX | hX | hX | hX <;> omega
  · refine depthAt_open (hself.imp fun X hX => ⟨hX.1, hX.2.1⟩) ?_
    rintro ⟨X, hX, hlast⟩
    rcases hcases X (h.last X hX (by omega) (by omega)) with hX | hX | hX | hX <;> omega
  · refine h.quiet b 2 (by omega) (by omega) fun X hX => ?_
    rcases hcases X hX with hX | hX | hX | hX <;> omega
  · refine depthAt_close (hself.imp fun X hX => ⟨hX.1, hX.2.2⟩) ?_
    rintro ⟨X, hX, hfirst⟩
    rcases hcases X (h.first X hX (by omega) (by omega)) with hX | hX | hX | hX <;> omega

theorem Holds.loop (h : plan.Holds (.loop before n test cond body last rest) k) {a b c : Nat}
    (ha : a = k + before.length + 1 + test.length) (hb : b = a + 1 + body.flatten.length)
    (hc : c = b + 1 + last.length) :
    plan.Holds body (a + 1) ∧ plan.Holds rest (c + 1 + 1) ∧
      plan.depthAt a = plan.depthAt k ∧
      plan.depthAt (a + 1) =
        ((plan.depthAt a).1 + 1, max (plan.depthAt a).2 ((plan.depthAt a).1 + 1)) ∧
      plan.depthAt c = plan.depthAt b ∧
      plan.depthAt (c + 1) = ((plan.depthAt c).1 - 1, (plan.depthAt c).2) ∧
      plan.depthAt (c + 1 + 1) = plan.depthAt (c + 1) := by
  have hlen := CodeTree.length_loop k before n test cond body last rest
  rw [← ha, ← hb, ← hc] at hlen
  have hcases : ∀ X ∈ (CodeTree.loop before n test cond body last rest).shapes k, _ := fun X hX =>
    CodeTree.shapes_of_loop ha hb hc hX
  have hself : ∃ X ∈ plan.shapes, X.first = a ∧ X.last = c :=
    ⟨_, h.shapes _ (CodeTree.mem_shapes_loop.mpr (Or.inl rfl)), by subst ha; rfl,
      by subst hc hb ha; rfl⟩
  refine ⟨h.part (by omega) (by omega) (fun X hX => ?_) fun X hX => ?_,
    h.part (by omega) (by omega) (fun X hX => ?_) fun X hX => ?_, ?_, ?_, ?_, ?_, ?_⟩
  · subst ha
    exact CodeTree.mem_shapes_loop.mpr (Or.inr (Or.inl hX))
  · rcases hcases X hX with hX | hX | hX
    · exact Or.inr (by omega)
    · exact Or.inl hX.1
    · exact Or.inr (by omega)
  · subst hc hb ha
    exact CodeTree.mem_shapes_loop.mpr (Or.inr (Or.inr hX))
  · rcases hcases X hX with hX | hX | hX
    · exact Or.inr (by omega)
    · exact Or.inr (by omega)
    · exact Or.inl hX.1
  · rw [show a = k + (before.length + 1 + test.length) by omega]
    refine h.quiet _ _ (Nat.le_refl _) (by omega) fun X hX => ?_
    rcases hcases X hX with hX | hX | hX <;> omega
  · refine depthAt_open (hself.imp fun X hX => ⟨hX.1, hX.2.1⟩) ?_
    rintro ⟨X, hX, hlast⟩
    rcases hcases X (h.last X hX (by omega) (by omega)) with hX | hX | hX <;> omega
  · rw [show c = b + (1 + last.length) by omega]
    refine h.quiet _ _ (by omega) (by omega) fun X hX => ?_
    rcases hcases X hX with hX | hX | hX <;> omega
  · refine depthAt_close (hself.imp fun X hX => ⟨hX.1, hX.2.2⟩) ?_
    rintro ⟨X, hX, hfirst⟩
    rcases hcases X (h.first X hX (by omega) (by omega)) with hX | hX | hX <;> omega
  · refine h.quiet (c + 1) 1 (by omega) (by omega) fun X hX => ?_
    rcases hcases X hX with hX | hX | hX <;> omega

end Cases

/-- **Over a tree the nesting comes back**, and gets as deep as the tree nests. -/
theorem Holds.depthAt (h : plan.Holds t k) : plan.depthAt (k + t.flatten.length) =
    ((plan.depthAt k).1, max (plan.depthAt k).2 ((plan.depthAt k).1 + t.nesting)) := by
  induction t generalizing k with
  | done code =>
    rw [h.quiet _ _ (Nat.le_refl _) (Nat.le_refl _)
      (by simp [CodeTree.shapes, CodeTree.loops, CodeTree.branches])]
    exact Prod.ext rfl (Nat.max_eq_left (now_le_deepest k)).symm
  | branch before n cond yes no rest ihy ihn ihr =>
    obtain ⟨hy, hn, hr, hfront, hopen, hturn, hclose⟩ := h.branch rfl rfl rfl
    rw [CodeTree.length_branch, ihr hr, hclose, ihn hn, hturn, ihy hy, hopen, hfront,
      CodeTree.nesting]
    exact Prod.ext (by simp only; omega) (by simp only; omega)
  | loop before n test cond body last rest ihb ihr =>
    obtain ⟨hb, hr, hfront, hopen, hlast, hclose, hend⟩ := h.loop rfl rfl rfl
    rw [CodeTree.length_loop, ihr hr, hend, hclose, hlast, ihb hb, hopen, hfront,
      CodeTree.nesting]
    exact Prod.ext (by simp only; omega) (by simp only; omega)

end ControlPlan

/-- **The plan of a tree** gets as deep as the tree nests. -/
theorem CodeTree.depth_flatten {t : CodeTree} (hs : t.Straight) (hd : t.labels.Nodup) :
    (ControlPlan.of t.flatten).depth t.flatten.length = t.nesting := by
  have hholds : (ControlPlan.of t.flatten).Holds t 0 := by
    have hplan : (ControlPlan.of t.flatten).shapes = t.shapes 0 := by
      rw [planOf_flatten hs hd]
      rfl
    exact ⟨fun X hX => hplan ▸ hX, fun X hX _ _ => hplan ▸ hX, fun X hX _ _ => hplan ▸ hX⟩
  have hdepth := hholds.depthAt
  rw [Nat.zero_add] at hdepth
  have : (ControlPlan.of t.flatten).depth t.flatten.length =
      ((ControlPlan.of t.flatten).depthAt t.flatten.length).2 := rfl
  rw [this, hdepth]
  simp [ControlPlan.depthAt]

theorem Program.IsTree.cellsNeeded {p : Program} {t : CodeTree} (ht : p.IsTree t) (reserved : Nat) :
    p.cellsNeeded reserved = max p.maxAddress reserved + scratchCells + 2 * t.nesting := by
  unfold Program.cellsNeeded
  rw [ht.code, CodeTree.depth_flatten ht.straight ht.nodup]
  rfl

theorem Program.room_of_emit {p : Program} {t : CodeTree} (ht : p.IsTree t) {library : Library}
    {w : CellWidth} {size reserved : Nat} {text : String} {ws : List String}
    (h : p.emit library w size reserved = (.ok text, ws)) :
    max p.maxAddress reserved + scratchCells + 2 * t.nesting ≤ size :=
  ht.cellsNeeded reserved ▸ (Program.emit_eq_ok.mp h).1

/-- **A program that is a tree is emitted** where there is room for it. -/
theorem Program.emit_of_room {p : Program} {t : CodeTree} (ht : p.IsTree t) {library : Library}
    (hl : library.Known) (w : CellWidth) {size reserved : Nat}
    (h : max p.maxAddress reserved + scratchCells + 2 * t.nesting ≤ size) :
    ∃ text ws, p.emit library w size reserved = (.ok text, ws) := by
  obtain ⟨c, ⟨ws, hemit⟩, -⟩ := Program.emit_tree (fun _ hi => ht.mem hi) ht.code ht.straight
    ht.nodup hl (w := w) (ht.cellsNeeded reserved ▸ h)
  exact ⟨_, ws, hemit⟩

end TapeCompiler
