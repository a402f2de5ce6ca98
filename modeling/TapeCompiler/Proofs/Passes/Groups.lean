import TapeCompiler.Proofs.Passes.Packing
import Mathlib.Algebra.Order.BigOperators.Group.List
import Mathlib.Data.List.Pairwise
import Mathlib.Logic.Relation

/-! # Groups of blocks that overlap

Two cells are linked if extents that share cells lead from the one to the other
(`Program.Linked`). Joining joins only extents that share a cell, so what relates the cells of each
extent relates those of a slot (`whole_join`): the slots hold the named cells and no others
(`exists_slot_iff`), and they are the groups of linked cells (`linked_iff_of_slot`).

How often a group is used (`groupUses`) can be computed, for linked cells are those of one slot
(`linked_iff`). -/

namespace TapeCompiler

instance (e : Extent) (c : Nat) : Decidable (e.Holds c) :=
  inferInstanceAs (Decidable (e.1 ≤ c ∧ c < e.2))

/-! ### What is named -/

namespace Program

variable {p : Program} {c d : Nat}

/-- The **symbols**: the variables, the displaced bindings and the locals of the functions. -/
def symbols (p : Program) : List (String × VariableInfo) :=
  p.bindings ++ p.shadowed ++ p.functions.flatMap fun (_, f) => f.locals

/-- The extent of a symbol. -/
def extentOf (s : String × VariableInfo) : Extent := (s.2.address, s.2.address + s.2.size)

theorem extents_eq (p : Program) :
    p.extents = p.symbols.map extentOf ++ p.instructions.flatMap Instruction.blocks := rfl

/-- Whether a symbol or an instruction **names a cell**. -/
def Mentions (p : Program) (c : Nat) : Prop := ∃ e ∈ p.extents, e.Holds c

/-- Two cells **in one group**: extents that share cells lead from the one to the other. -/
def Linked (p : Program) : Nat → Nat → Prop :=
  Relation.ReflTransGen fun c d => ∃ e ∈ p.extents, e.Holds c ∧ e.Holds d

end Program

theorem Instruction.le_of_mem_blocks {i : Instruction} {b : Nat × Nat} (h : b ∈ i.blocks) :
    b.1 ≤ b.2 := by
  rcases List.mem_append.mp h with h | h
  · exact Nat.le_of_lt (of_decide_eq_true (List.mem_filter.mp h).2)
  · have hall : ∀ b ∈ i.blocksBeside, b.1 ≤ b.2 := by cases i <;> simp [blocksBeside, single]
    exact hall b h

theorem Program.le_of_mem_extents {p : Program} {e : Extent} (h : e ∈ p.extents) : e.1 ≤ e.2 := by
  rw [extents_eq] at h
  rcases List.mem_append.mp h with h | h
  · obtain ⟨s, -, rfl⟩ := List.mem_map.mp h
    exact Nat.le_add_right _ _
  · obtain ⟨i, -, h⟩ := List.mem_flatMap.mp h
    exact Instruction.le_of_mem_blocks h

/-! ### Joining -/

section Joining
variable {R : Nat → Nat → Prop} {last e : Extent} {l : List Extent}

/-- Any two cells of an extent are related. -/
def Extent.Whole (R : Nat → Nat → Prop) (e : Extent) : Prop :=
  ∀ c d, e.Holds c → e.Holds d → R c d

/-- Two extents **that share a cell**, as one. -/
theorem Extent.Whole.join (hR : ∀ a b c, R a b → R b c → R a c) (hlast : last.Whole R)
    (he : e.Whole R) (hle : last.1 ≤ e.1) (hover : e.1 < last.2) :
    Extent.Whole R (last.1, max last.2 e.2) := by
  rintro c d ⟨hc, hc'⟩ ⟨hd, hd'⟩
  simp only at hc hc' hd hd'
  -- a cell past the first extent is in the second, and so is the cell that both have
  have hshared : last.Holds e.1 := ⟨hle, hover⟩
  have hpast : ∀ a, a < max last.2 e.2 → ¬ a < last.2 → e.Holds a ∧ e.Holds e.1 := fun a ha hn =>
    ⟨⟨by omega, by omega⟩, ⟨Nat.le_refl _, by omega⟩⟩
  by_cases hcl : c < last.2
  · by_cases hdl : d < last.2
    · exact hlast c d ⟨hc, hcl⟩ ⟨hd, hdl⟩
    · obtain ⟨h, h'⟩ := hpast d hd' hdl
      exact hR _ _ _ (hlast c e.1 ⟨hc, hcl⟩ hshared) (he e.1 d h' h)
  · obtain ⟨h, h'⟩ := hpast c hc' hcl
    by_cases hdl : d < last.2
    · exact hR _ _ _ (he c e.1 h h') (hlast e.1 d hshared ⟨hd, hdl⟩)
    · exact he c d h (hpast d hd' hdl).1

theorem whole_go (hR : ∀ a b c, R a b → R b c → R a c)
    (hs : (last :: l).Pairwise fun a b => a.1 ≤ b.1) (h : ∀ e ∈ last :: l, e.Whole R) :
    ∀ s ∈ joinOverlaps.go last l, s.Whole R := by
  induction l generalizing last with
  | nil => exact h
  | cons e l ih =>
    obtain ⟨hfirst, hs⟩ := List.pairwise_cons.mp hs
    obtain ⟨hlast, h⟩ := List.forall_mem_cons.mp h
    obtain ⟨he, hl⟩ := List.forall_mem_cons.mp h
    unfold joinOverlaps.go
    split_ifs with hover
    · refine ih (List.pairwise_cons.mpr ⟨fun x hx => hfirst x (by simp [hx]), hs.of_cons⟩) ?_
      exact List.forall_mem_cons.mpr ⟨hlast.join hR he (hfirst e (by simp)) hover, hl⟩
    · exact List.forall_mem_cons.mpr ⟨hlast, ih hs h⟩

theorem whole_join (hR : ∀ a b c, R a b → R b c → R a c) (h : ∀ e ∈ l, e.Whole R) :
    ∀ s ∈ joinOverlaps (l.mergeSort Extent.before), s.Whole R := by
  have hs := pairwise_before l
  have h : ∀ e ∈ l.mergeSort Extent.before, e.Whole R := fun e he => h e (List.mem_mergeSort.mp he)
  generalize l.mergeSort Extent.before = m at hs h
  cases m with
  | nil => simp [joinOverlaps]
  | cons e m => exact whole_go hR hs h

end Joining

theorem rel_or_rel_of_pairwise {α : Type} {R : α → α → Prop} {l : List α} (h : l.Pairwise R)
    {a b : α} (ha : a ∈ l) (hb : b ∈ l) (hab : a ≠ b) : R a b ∨ R b a := by
  have : Std.Symm fun a b => R a b ∨ R b a := ⟨fun _ _ => Or.symm⟩
  exact (h.imp (S := fun a b => R a b ∨ R b a) Or.inl).forall ha hb hab

theorem Slots.unique {low high : Nat} {l : List Extent} (h : Slots low high l) {s t : Extent}
    (hs : s ∈ l) (ht : t ∈ l) {c : Nat} (hsc : s.Holds c) (htc : t.Holds c) : s = t := by
  by_contra hne
  unfold Extent.Holds at hsc htc
  have := rel_or_rel_of_pairwise h.apart hs ht hne
  omega

/-- The number of uses of the cells of an extent. -/
def Extent.used (e : Extent) (uses : List Nat) : Nat := uses.countP fun c => e.Holds c

/-! ### The slots of a program -/

namespace Program

variable {p : Program} {c d : Nat} {s : Extent}

/-- The slots are apart and hold every extent. -/
theorem slots_spec (p : Program) : ∃ high, Slots 0 high p.slots ∧
    ∀ e ∈ p.extents, ∃ s ∈ p.slots, s.1 ≤ e.1 ∧ e.2 ≤ s.2 :=
  ⟨(p.extents.map Prod.snd).sum, slots_join fun _ he =>
    ⟨le_of_mem_extents he, List.le_sum_of_mem (List.mem_map_of_mem he)⟩⟩

/-- The slots hold **the named cells** and no others. -/
theorem exists_slot_iff : (∃ s ∈ p.slots, s.Holds c) ↔ p.Mentions c := by
  constructor
  · rintro ⟨s, hs, hc⟩
    have hwhole := whole_join (R := fun c d => p.Mentions c ∧ p.Mentions d)
      (fun _ _ _ h h' => ⟨h.1, h'.2⟩) (fun e he c d hc hd => ⟨⟨e, he, hc⟩, ⟨e, he, hd⟩⟩) s hs
    exact (hwhole c c hc hc).1
  · rintro ⟨e, he, hlow, hhigh⟩
    obtain ⟨high, -, hcover⟩ := p.slots_spec
    obtain ⟨s, hs, h, h'⟩ := hcover e he
    exact ⟨s, hs, by omega, by omega⟩

/-- **A slot is a group**: what is linked to one of its cells are its cells. -/
theorem linked_iff_of_slot (hs : s ∈ p.slots) (hc : s.Holds c) : p.Linked c d ↔ s.Holds d := by
  obtain ⟨high, hslots, hcover⟩ := p.slots_spec
  constructor
  · intro h
    induction h with
    | refl => exact hc
    | @tail a b _ hab ih =>
      obtain ⟨e, he, ha, hb⟩ := hab
      obtain ⟨t, ht, hlow, hhigh⟩ := hcover e he
      have hin : ∀ x, e.Holds x → t.Holds x := fun x hx => ⟨by have := hx.1; omega, by
        have := hx.2
        omega⟩
      rw [hslots.unique hs ht ih (hin a ha)]
      exact hin b hb
  · refine whole_join (R := p.Linked) (fun _ _ _ h h' => h.trans h') (fun e he c d hc hd => ?_)
      s hs c d hc
    exact .single ⟨e, he, hc, hd⟩

theorem linked_iff : p.Linked c d ↔ c = d ∨ ∃ s ∈ p.slots, s.Holds c ∧ s.Holds d := by
  constructor
  · intro h
    rcases h.cases_head with rfl | ⟨b, ⟨e, he, hc, -⟩, -⟩
    · exact Or.inl rfl
    · obtain ⟨s, hs, hc⟩ := exists_slot_iff.mpr ⟨e, he, hc⟩
      exact Or.inr ⟨s, hs, hc, (linked_iff_of_slot hs hc).mp h⟩
  · rintro (rfl | ⟨s, hs, hc, hd⟩)
    · exact .refl
    · exact (linked_iff_of_slot hs hc).mpr hd

instance (p : Program) (c d : Nat) : Decidable (p.Linked c d) :=
  decidable_of_iff _ linked_iff.symm

/-- The cells by which copies, prints and operators use slots, in order. -/
def uses (p : Program) : List Nat := p.instructions.flatMap Instruction.uses

/-- How often copies, prints and operators **use the group** of a cell. -/
def groupUses (p : Program) (c : Nat) : Nat := p.uses.countP fun d => p.Linked c d

theorem groupUses_of_slot (hs : s ∈ p.slots) (hc : s.Holds c) :
    p.groupUses c = s.used p.uses :=
  List.countP_congr fun d _ => by simp only [decide_eq_true_eq, linked_iff_of_slot hs hc]

end Program

end TapeCompiler
