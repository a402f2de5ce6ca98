import TapeCompiler.Emission.Control
import Mathlib.Data.List.Pairwise
import Mathlib.Data.Option.Basic
import Mathlib.Tactic.Common

/-! # The shapes of a plan

`Shape` is a loop or a branch of a plan, as the span from the instruction that opens it to the one
that closes it; a branch turns in between.

* `shapes_valid`: a shape of a plan was found in the code, and the code determines it by the
  instruction that opens it (`Valid.eq_of_first`);
* `not_crosses`: spans of different shapes of a plan do not cross. -/

namespace TapeCompiler

/-! ### Labels and jumps -/

theorem labelIndex?_eq_some {code : List Instruction} {name : String} {k : Nat}
    (h : labelIndex? code name = some k) : code[k]? = some (.label name) := by
  obtain ⟨hk, hp, -⟩ := List.findIdx?_eq_some_iff_getElem.mp h
  rw [List.getElem?_eq_getElem hk]
  cases hi : code[k] <;> simp_all

theorem nextFlow?_eq_some {code : List Instruction} {start k : Nat} {i : Instruction}
    (h : nextFlow? code start = some (k, i)) : start ≤ k ∧ code[k]? = some i := by
  obtain ⟨⟨j, m⟩, hm, hj⟩ := List.exists_of_findSome?_eq_some h
  simp only at hj
  split_ifs at hj
  cases hj
  obtain ⟨n, hn⟩ := List.mem_iff_getElem?.mp hm
  rw [List.getElem?_drop, List.getElem?_zipIdx, Option.map_eq_some_iff] at hn
  obtain ⟨x, hx, he⟩ := hn
  simp only [Nat.zero_add, Prod.mk.injEq] at he
  obtain ⟨rfl, rfl⟩ := he
  exact ⟨by omega, hx⟩

/-! ### Shapes in code -/

/-- A loop **stands in code**. -/
structure LoopShape.Valid (code : List Instruction) (l : LoopShape) : Prop where
  head_lt : l.head < l.test
  test_lt : l.test < l.back
  stop_eq : l.stop = l.back + 1
  test_at : ∃ c out, nextFlow? code (l.head + 1) = some (l.test, .jumpUnless c out) ∧
    labelIndex? code out = some l.stop
  back_at : ∃ label, code[l.back]? = some (.jump label) ∧ labelIndex? code label = some l.head

/-- A branch **stands in code**. -/
structure BranchShape.Valid (code : List Instruction) (b : BranchShape) : Prop where
  test_lt : b.test < b.turn
  turn_eq : b.turn + 1 = b.other
  other_le : b.other ≤ b.stop
  test_at : ∃ c label, code[b.test]? = some (.branch c label) ∧
    labelIndex? code label = some b.other
  turn_at : ∃ out, code[b.turn]? = some (.jump out) ∧ labelIndex? code out = some b.stop

theorem mem_loopShapes {code : List Instruction} {l : LoopShape} (h : l ∈ loopShapes code) :
    l.Valid code := by
  obtain ⟨⟨i, k⟩, hm, hl⟩ := List.mem_filterMap.mp h
  have hk : code[k]? = some i := (List.mk_mem_zipIdx_iff_getElem?).mp hm
  cases i with
  | jump label =>
    simp only [loopAt?, Option.bind_eq_bind, Option.bind_eq_some_iff, Option.pure_def] at hl
    obtain ⟨head, hhead, u, hlt, ⟨test, j⟩, hnext, hl⟩ := hl
    rw [Option.guard_eq_some'] at hlt
    cases j with
    | jumpUnless c out =>
      simp only [Option.bind_eq_some_iff] at hl
      obtain ⟨u₁, htest, stop, hstop, u₂, heq, hl⟩ := hl
      rw [Option.guard_eq_some'] at htest heq
      cases hl
      have := nextFlow?_eq_some hnext
      exact ⟨by simp only; omega, htest, heq, ⟨c, out, hnext, hstop⟩, label, hk, hhead⟩
    | _ => simp at hl
  | _ => simp at hl

theorem mem_branchShapes {code : List Instruction} {b : BranchShape} (h : b ∈ branchShapes code) :
    b.Valid code := by
  obtain ⟨⟨i, k⟩, hm, hb⟩ := List.mem_filterMap.mp h
  have hk : code[k]? = some i := (List.mk_mem_zipIdx_iff_getElem?).mp hm
  cases i with
  | branch c label =>
    simp only [branchAt?, Option.bind_eq_bind, Option.bind_eq_some_iff, Option.pure_def] at hb
    obtain ⟨other, hother, u, hle, j, hj, hb⟩ := hb
    rw [Option.guard_eq_some'] at hle
    cases j with
    | jump out =>
      simp only [Option.bind_eq_some_iff] at hb
      obtain ⟨stop, hstop, u₁, hle', hb⟩ := hb
      rw [Option.guard_eq_some'] at hle'
      cases hb
      exact ⟨by simp only; omega, by simp only; omega, hle', ⟨c, label, hk, hother⟩, out, hj, hstop⟩
    | _ => simp at hb
  | _ => simp at hb

namespace LoopShape.Valid

variable {code : List Instruction} {l m : LoopShape}

theorem jumpUnless_at (h : l.Valid code) : ∃ c out, code[l.test]? = some (.jumpUnless c out) :=
  let ⟨c, out, hn, _⟩ := h.test_at
  ⟨c, out, (nextFlow?_eq_some hn).2⟩

theorem eq_of_back (hl : l.Valid code) (hm : m.Valid code) (h : l.back = m.back) : l = m := by
  obtain ⟨name, hb, hh⟩ := hl.back_at
  obtain ⟨name', hb', hh'⟩ := hm.back_at
  obtain ⟨c, out, ht, -⟩ := hl.test_at
  obtain ⟨c', out', ht', -⟩ := hm.test_at
  have hs := hl.stop_eq
  have hs' := hm.stop_eq
  rw [h, hb'] at hb
  cases hb
  rw [hh'] at hh
  have hhead : m.head = l.head := Option.some.inj hh
  rw [← hhead, ht'] at ht
  simp only [Option.some.injEq, Prod.mk.injEq] at ht
  cases l; cases m
  simp_all

theorem eq_of_test (hl : l.Valid code) (hm : m.Valid code) (h : l.test = m.test) : l = m := by
  refine hl.eq_of_back hm ?_
  obtain ⟨c, out, ht, ho⟩ := hl.test_at
  obtain ⟨c', out', ht', ho'⟩ := hm.test_at
  have hs := hl.stop_eq
  have hs' := hm.stop_eq
  have h₁ := (nextFlow?_eq_some ht).2
  rw [h, (nextFlow?_eq_some ht').2] at h₁
  cases h₁
  rw [ho'] at ho
  have := Option.some.inj ho
  omega

end LoopShape.Valid

namespace BranchShape.Valid

variable {code : List Instruction} {b d : BranchShape}

theorem branch_at (h : b.Valid code) : ∃ c label, code[b.test]? = some (.branch c label) :=
  let ⟨c, label, hb, _⟩ := h.test_at
  ⟨c, label, hb⟩

theorem jump_at (h : b.Valid code) : ∃ out, code[b.turn]? = some (.jump out) :=
  let ⟨out, hj, _⟩ := h.turn_at
  ⟨out, hj⟩

theorem stop_at (h : b.Valid code) : ∃ name, code[b.stop]? = some (.label name) :=
  let ⟨out, _, hs⟩ := h.turn_at
  ⟨out, labelIndex?_eq_some hs⟩

theorem turn_lt (h : b.Valid code) : b.turn < b.stop := by
  have := h.turn_eq
  have := h.other_le
  omega

theorem eq_of_turn (hb : b.Valid code) (hd : d.Valid code) (h : b.turn = d.turn) :
    b.other = d.other ∧ b.stop = d.stop := by
  obtain ⟨out, hj, hs⟩ := hb.turn_at
  obtain ⟨out', hj', hs'⟩ := hd.turn_at
  have := hb.turn_eq
  have := hd.turn_eq
  rw [h, hj'] at hj
  cases hj
  rw [hs'] at hs
  exact ⟨by omega, (Option.some.inj hs).symm⟩

theorem eq_of_test (hb : b.Valid code) (hd : d.Valid code) (h : b.test = d.test) : b = d := by
  obtain ⟨c, label, ht, ho⟩ := hb.test_at
  obtain ⟨c', label', ht', ho'⟩ := hd.test_at
  rw [h, ht'] at ht
  cases ht
  rw [ho'] at ho
  have hother : d.other = b.other := Option.some.inj ho
  have h₁ := hb.turn_eq
  have h₂ := hd.turn_eq
  have hturn : b.turn = d.turn := by omega
  have hstop := (hb.eq_of_turn hd hturn).2
  cases b; cases d
  simp_all

end BranchShape.Valid

/-! ### Loops and branches together -/

/-- A loop or a branch. -/
inductive Shape
  | loop (l : LoopShape)
  | branch (b : BranchShape)
  deriving DecidableEq, Repr

namespace Shape

/-- The instruction that opens the shape. -/
def first : Shape → Nat
  | loop l => l.test
  | branch b => b.test

/-- The instruction that closes the shape. -/
def last : Shape → Nat
  | loop l => l.back
  | branch b => b.stop

/-- The instruction at which a branch goes to its other side. -/
def turn? : Shape → Option Nat
  | loop _ => none
  | branch b => some b.turn

/-- The **spans between brackets**; a branch has one for each side. -/
def spans : Shape → List (Nat × Nat)
  | loop l => [(l.test, l.back)]
  | branch b => [(b.test, b.turn), (b.turn, b.stop)]

/-- The shape stands in code. -/
def Valid (code : List Instruction) : Shape → Prop
  | loop l => l.Valid code
  | branch b => b.Valid code

variable {code : List Instruction} {X Y : Shape}

theorem Valid.first_lt (h : X.Valid code) : X.first < X.last := by
  cases X with
  | loop l => exact LoopShape.Valid.test_lt h
  | branch b => exact Nat.lt_trans (BranchShape.Valid.test_lt h) (BranchShape.Valid.turn_lt h)

theorem Valid.last_lt (h : X.Valid code) : X.last < code.length := by
  cases X with
  | loop l =>
    obtain ⟨name, hb, -⟩ := LoopShape.Valid.back_at h
    exact (List.getElem?_eq_some_iff.mp hb).1
  | branch b =>
    obtain ⟨name, hb⟩ := BranchShape.Valid.stop_at h
    exact (List.getElem?_eq_some_iff.mp hb).1

/-- **A shape is determined by the instruction that opens it.** -/
theorem Valid.eq_of_first (hX : X.Valid code) (hY : Y.Valid code) (h : X.first = Y.first) :
    X = Y := by
  cases X with
  | loop l =>
    obtain ⟨c, out, hl⟩ := LoopShape.Valid.jumpUnless_at hX
    cases Y with
    | loop m => rw [LoopShape.Valid.eq_of_test hX hY h]
    | branch b =>
      obtain ⟨c', out', hb⟩ := BranchShape.Valid.branch_at hY
      rw [show l.test = b.test from h, hb] at hl
      cases hl
  | branch b =>
    obtain ⟨c', out', hb⟩ := BranchShape.Valid.branch_at hX
    cases Y with
    | loop l =>
      obtain ⟨c, out, hl⟩ := LoopShape.Valid.jumpUnless_at hY
      rw [← show b.test = l.test from h, hb] at hl
      cases hl
    | branch d => rw [BranchShape.Valid.eq_of_test hX hY h]

end Shape

/-- The shapes of a plan. -/
def ControlPlan.shapes (plan : ControlPlan) : List Shape :=
  plan.loops.map .loop ++ plan.branches.map .branch

/-! ### Crossing -/

/-- Whether two spans overlap and neither lies in the other. -/
def Crosses (a b : Nat × Nat) : Prop :=
  a.1 < b.1 ∧ b.1 < a.2 ∧ a.2 < b.2 ∨ b.1 < a.1 ∧ a.1 < b.2 ∧ b.2 < a.2

theorem Span.crosses_iff (a b : Span) :
    a.crosses b = true ↔ Crosses (a.first, a.last) (b.first, b.last) := by
  simp [Span.crosses, Crosses, and_assoc]

theorem subset_dropOne (a : Span) (dropped : List Nat) (b : Span) :
    dropped ⊆ dropOne a dropped b := by
  unfold dropOne
  split_ifs <;> simp

theorem subset_foldl_dropOne (a : Span) (rest : List Span) (dropped : List Nat) :
    dropped ⊆ rest.foldl (dropOne a) dropped := by
  induction rest generalizing dropped with
  | nil => simp
  | cons b rest ih => exact List.Subset.trans (subset_dropOne a dropped b) (ih _)

theorem subset_crossing (l : List Span) (dropped : List Nat) : dropped ⊆ crossing dropped l := by
  induction l generalizing dropped with
  | nil => simp [crossing]
  | cons a rest ih => exact List.Subset.trans (subset_foldl_dropOne a rest dropped) (ih _)

/-- Two spans need no dropping: one belongs to a dropped shape, or they do not cross. -/
def Settled (dropped : List Nat) (a b : Span) : Prop :=
  a.owner = b.owner ∨ a.owner ∈ dropped ∨ b.owner ∈ dropped ∨ a.crosses b = false

theorem Settled.mono {dropped dropped' : List Nat} (h : dropped ⊆ dropped') {a b : Span}
    (hs : Settled dropped a b) : Settled dropped' a b := by
  rcases hs with hs | hs | hs | hs
  · exact Or.inl hs
  · exact Or.inr (Or.inl (h hs))
  · exact Or.inr (Or.inr (Or.inl (h hs)))
  · exact Or.inr (Or.inr (Or.inr hs))

instance (dropped : List Nat) : Std.Symm (Settled dropped) where
  symm a b h := by
    have hc : b.crosses a = a.crosses b := by
      rw [Bool.eq_iff_iff, Span.crosses_iff, Span.crosses_iff]
      exact Or.comm
    rcases h with h | h | h | h
    · exact Or.inl h.symm
    · exact Or.inr (Or.inr (Or.inl h))
    · exact Or.inr (Or.inl h)
    · exact Or.inr (Or.inr (Or.inr (hc.trans h)))

theorem settled_dropOne (a : Span) (dropped : List Nat) (b : Span) :
    Settled (dropOne a dropped b) a b := by
  unfold Settled dropOne
  split_ifs <;> simp_all
  tauto

theorem settled_foldl (a : Span) (rest : List Span) (dropped : List Nat) :
    ∀ b ∈ rest, Settled (rest.foldl (dropOne a) dropped) a b := by
  induction rest generalizing dropped with
  | nil => simp
  | cons c rest ih =>
    intro b hb
    rcases List.mem_cons.mp hb with rfl | hb
    · exact (settled_dropOne a dropped b).mono (subset_foldl_dropOne a rest _)
    · exact ih _ b hb

theorem pairwise_crossing (l : List Span) (dropped : List Nat) :
    l.Pairwise (Settled (crossing dropped l)) := by
  induction l generalizing dropped with
  | nil => exact .nil
  | cons a rest ih =>
    exact .cons (fun b hb => (settled_foldl a rest dropped b hb).mono (subset_crossing _ _)) (ih _)

/-! ### The shapes of a plan -/

/-- All shapes found, crossing or not. -/
def foundShapes (code : List Instruction) : List Shape :=
  (loopShapes code).map .loop ++ (branchShapes code).map .branch

theorem spans_eq (loops : List LoopShape) (branches : List BranchShape) :
    TapeCompiler.spans loops branches =
      (loops.map Shape.loop ++ branches.map Shape.branch).zipIdx.flatMap fun (X, k) =>
        X.spans.map fun s => ⟨s.1, s.2, k⟩ := by
  rw [List.zipIdx_append, List.zipIdx_map, List.zipIdx_map, List.flatMap_append, List.flatMap_map,
    List.flatMap_map, TapeCompiler.spans, List.map_eq_flatMap, List.length_map, Nat.zero_add]
  rfl

theorem mem_shapes_of {code : List Instruction} {X : Shape}
    (h : X ∈ (ControlPlan.of code).shapes) : ∃ k, (foundShapes code)[k]? = some X ∧
      k ∉ crossing [] (spans (loopShapes code) (branchShapes code)) := by
  have key : (ControlPlan.of code).shapes = ((foundShapes code).zipIdx.filter fun (_, k) =>
      !(crossing [] (spans (loopShapes code) (branchShapes code))).contains k).map Prod.fst := by
    simp [ControlPlan.shapes, ControlPlan.of, foundShapes, List.zipIdx_append, List.zipIdx_map,
      List.filter_map, Function.comp_def]
  rw [key, List.mem_map] at h
  obtain ⟨⟨Y, k⟩, hm, rfl⟩ := h
  obtain ⟨hm, hk⟩ := List.mem_filter.mp hm
  exact ⟨k, List.mk_mem_zipIdx_iff_getElem?.mp hm, by simpa using hk⟩

theorem mem_foundShapes {code : List Instruction} {X : Shape} (h : X ∈ foundShapes code) :
    X.Valid code := by
  rcases List.mem_append.mp h with h | h
  · obtain ⟨l, hl, rfl⟩ := List.mem_map.mp h
    exact mem_loopShapes hl
  · obtain ⟨b, hb, rfl⟩ := List.mem_map.mp h
    exact mem_branchShapes hb

/-- **The shapes of a plan stand in the code.** -/
theorem shapes_valid {code : List Instruction} {X : Shape}
    (h : X ∈ (ControlPlan.of code).shapes) : X.Valid code := by
  obtain ⟨k, hk, -⟩ := mem_shapes_of h
  exact mem_foundShapes (List.mem_of_getElem? hk)

/-- **Spans of different shapes of a plan do not cross.** -/
theorem not_crosses {code : List Instruction} {X Y : Shape}
    (hX : X ∈ (ControlPlan.of code).shapes) (hY : Y ∈ (ControlPlan.of code).shapes) (hne : X ≠ Y)
    {s t : Nat × Nat} (hs : s ∈ X.spans) (ht : t ∈ Y.spans) : ¬ Crosses s t := by
  obtain ⟨j, hj, hjd⟩ := mem_shapes_of hX
  obtain ⟨k, hk, hkd⟩ := mem_shapes_of hY
  have hjk : j ≠ k := fun h => hne (Option.some.inj (hj.symm.trans (h ▸ hk)))
  have hmem : ∀ {Z : Shape} {m : Nat} {u : Nat × Nat}, (foundShapes code)[m]? = some Z →
      u ∈ Z.spans → (⟨u.1, u.2, m⟩ : Span) ∈ spans (loopShapes code) (branchShapes code) := by
    intro Z m u hZ hu
    rw [spans_eq]
    exact List.mem_flatMap.mpr ⟨(Z, m), List.mk_mem_zipIdx_iff_getElem?.mpr hZ,
      List.mem_map.mpr ⟨u, hu, rfl⟩⟩
  have hall := (pairwise_crossing (spans (loopShapes code) (branchShapes code)) []).forall
    (hmem hj hs) (hmem hk ht) fun he => hjk (Span.mk.inj he).2.2
  rcases hall with h | h | h | h
  · exact absurd h hjk
  · exact absurd h hjd
  · exact absurd h hkd
  · intro hc
    rw [(Span.crosses_iff _ _).mpr hc] at h
    cases h

end TapeCompiler
