import TapeCompiler.Passes.Reordering
import TapeCompiler.Proofs.Cells.Renaming
import Mathlib.Data.List.Perm.Basic
import Mathlib.Tactic.Common

/-! # Slots and their packing

Joined extents are disjoint and hold every extent they were made of (`Slots`), and packing them
takes no more cells than they span (`total_le`). The packing maps different cells of slots to
different cells (`relocate_pack_inj`) and keeps a slot in one piece (`relocate_pack_add`).

* `packs_packed`: the moves of reordering have all of this. -/

namespace TapeCompiler

/-- The number of cells of extents. -/
def Extent.total (l : List Extent) : Nat := (l.map Extent.size).sum

/-- Whether a cell lies in an extent. -/
def Extent.Holds (e : Extent) (c : Nat) : Prop := e.1 ≤ c ∧ c < e.2

/-- **Disjoint extents**, by address. -/
structure Slots (low high : Nat) (l : List Extent) : Prop where
  apart : l.Pairwise fun a b => a.2 ≤ b.1
  bounds : ∀ e ∈ l, low ≤ e.1 ∧ e.1 ≤ e.2 ∧ e.2 ≤ high

/-! ### Joining -/

section Joining
variable {last e : Extent} {l : List Extent} {high : Nat}

theorem slots_go (last : Extent) (hlast : last.1 ≤ last.2 ∧ last.2 ≤ high)
    (hl : ∀ e ∈ l, last.1 ≤ e.1 ∧ e.1 ≤ e.2 ∧ e.2 ≤ high)
    (hs : l.Pairwise fun a b => a.1 ≤ b.1) : Slots last.1 high (joinOverlaps.go last l) := by
  induction l generalizing last with
  | nil =>
    refine ⟨List.pairwise_singleton _ _, fun e he => ?_⟩
    rw [List.mem_singleton.mp he]
    omega
  | cons e l ih =>
    obtain ⟨hfirst, hs⟩ := List.pairwise_cons.mp hs
    have he := hl e (by simp)
    unfold joinOverlaps.go
    split_ifs with hover
    · refine ih (last.1, max last.2 e.2) ?_ (fun x hx => hl x (by simp [hx])) hs
      simp only
      omega
    · have hrest := ih e ⟨he.2.1, he.2.2⟩ (fun x hx => by
        have := hl x (by simp [hx])
        have := hfirst x hx
        omega) hs
      refine ⟨List.pairwise_cons.mpr ⟨fun x hx => ?_, hrest.apart⟩, fun x hx => ?_⟩
      · have := hrest.bounds x hx
        omega
      · rcases List.mem_cons.mp hx with rfl | hx
        · omega
        · have := hrest.bounds x hx
          omega

theorem covered_go (last : Extent) (hl : ∀ e ∈ l, last.1 ≤ e.1)
    (hs : l.Pairwise fun a b => a.1 ≤ b.1) :
    ∀ e ∈ last :: l, ∃ s ∈ joinOverlaps.go last l, s.1 ≤ e.1 ∧ e.2 ≤ s.2 := by
  induction l generalizing last with
  | nil =>
    intro e he
    rw [List.mem_singleton.mp he]
    exact ⟨last, by simp [joinOverlaps.go], Nat.le_refl _, Nat.le_refl _⟩
  | cons x l ih =>
    obtain ⟨hfirst, hs⟩ := List.pairwise_cons.mp hs
    have hx := hl x (by simp)
    intro e he
    unfold joinOverlaps.go
    split_ifs with hover
    · have hjoin := ih (last.1, max last.2 x.2) (fun y hy => hl y (by simp [hy])) hs
      rcases List.mem_cons.mp he with rfl | he
      · obtain ⟨s, hs', h₁, h₂⟩ := hjoin _ List.mem_cons_self
        simp only at h₁ h₂
        exact ⟨s, hs', h₁, by omega⟩
      · rcases List.mem_cons.mp he with rfl | he
        · obtain ⟨s, hs', h₁, h₂⟩ := hjoin _ List.mem_cons_self
          simp only at h₁ h₂
          exact ⟨s, hs', by omega, by omega⟩
        · exact hjoin e (by simp [he])
    · rcases List.mem_cons.mp he with rfl | he
      · exact ⟨e, by simp, Nat.le_refl _, Nat.le_refl _⟩
      · obtain ⟨s, hs', h⟩ := ih x hfirst hs e he
        exact ⟨s, by simp [hs'], h⟩

theorem pairwise_before (l : List Extent) :
    (l.mergeSort Extent.before).Pairwise fun a b => a.1 ≤ b.1 := by
  refine (List.pairwise_mergeSort (fun a b c hab hbc => ?_) (fun a b => ?_) l).imp fun h => ?_
  all_goals simp only [Extent.before, Bool.or_eq_true, Bool.and_eq_true, decide_eq_true_eq] at *
  all_goals omega

/-- **Joined extents** are slots that hold every extent. -/
theorem slots_join (hl : ∀ e ∈ l, e.1 ≤ e.2 ∧ e.2 ≤ high) :
    Slots 0 high (joinOverlaps (l.mergeSort Extent.before)) ∧
      ∀ e ∈ l, ∃ s ∈ joinOverlaps (l.mergeSort Extent.before), s.1 ≤ e.1 ∧ e.2 ≤ s.2 := by
  have hsort := pairwise_before l
  have hmem : ∀ e, e ∈ l ↔ e ∈ l.mergeSort Extent.before := fun e => List.mem_mergeSort.symm
  simp only [hmem] at hl ⊢
  generalize l.mergeSort Extent.before = m at *
  cases m with
  | nil => exact ⟨⟨List.Pairwise.nil, by simp [joinOverlaps]⟩, by simp⟩
  | cons e m =>
    obtain ⟨hfirst, hsort⟩ := List.pairwise_cons.mp hsort
    have hslots := slots_go e (hl e (by simp))
      (fun x hx => ⟨hfirst x hx, (hl x (by simp [hx])).1, (hl x (by simp [hx])).2⟩) hsort
    exact ⟨⟨hslots.apart, fun x hx => ⟨Nat.zero_le _, (hslots.bounds x hx).2⟩⟩,
      covered_go e hfirst hsort⟩

end Joining

theorem Slots.total_le {high : Nat} {l : List Extent} (low : Nat) (h : Slots low high l)
    (hle : low ≤ high) : low + Extent.total l ≤ high := by
  induction l generalizing low with
  | nil => exact hle
  | cons e l ih =>
    have he := h.bounds e (by simp)
    obtain ⟨hfirst, hrest⟩ := List.pairwise_cons.mp h.apart
    have := ih e.2 ⟨hrest, fun x hx =>
      ⟨hfirst x hx, (h.bounds x (by simp [hx])).2⟩⟩ he.2.2
    simp only [Extent.total, List.map_cons, List.sum_cons, Extent.size] at this ⊢
    omega

/-! ### Packing -/

section Packing
variable {l : List Extent} {next c d : Nat}

/-- No cell lies in two of the extents. -/
def Extent.Apart (l : List Extent) : Prop :=
  l.Pairwise fun a b => ∀ c, ¬ (Extent.Holds a c ∧ Extent.Holds b c)

theorem relocate_pack_cons (e : Extent) (l : List Extent) (next c : Nat) :
    relocate (pack next (e :: l)) c =
      if e.1 ≤ c ∧ c < e.1 + e.size then next + (c - e.1)
      else relocate (pack (next + e.size) l) c := by
  unfold relocate
  rw [pack, List.findSome?_cons, Relocation.newAddress?]
  split_ifs <;> rfl

theorem holds_size {e : Extent} : e.1 ≤ c ∧ c < e.1 + e.size ↔ e.Holds c := by
  unfold Extent.Holds Extent.size
  omega

theorem relocate_pack_bounds (next : Nat) (h : ∃ e ∈ l, e.Holds c) :
    next ≤ relocate (pack next l) c ∧ relocate (pack next l) c < next + Extent.total l := by
  induction l generalizing next with
  | nil => simp at h
  | cons e l ih =>
    rw [relocate_pack_cons]
    simp only [Extent.total, List.map_cons, List.sum_cons]
    split_ifs with he
    · omega
    · have := ih (next + e.size) (by
        obtain ⟨e', he', hc⟩ := h
        rcases List.mem_cons.mp he' with rfl | he'
        · exact absurd (holds_size.mpr hc) he
        · exact ⟨e', he', hc⟩)
      unfold Extent.total at this
      omega

theorem relocate_pack_inj (hc : ∃ e ∈ l, e.Holds c) (hd : ∃ e ∈ l, e.Holds d)
    (h : relocate (pack next l) c = relocate (pack next l) d) : c = d := by
  have hrest : ∀ {c : Nat} {e : Extent} {l : List Extent}, ¬ (e.1 ≤ c ∧ c < e.1 + e.size) →
      (∃ e' ∈ e :: l, e'.Holds c) → ∃ e' ∈ l, e'.Holds c := by
    rintro c e l he ⟨e', he', hc⟩
    rcases List.mem_cons.mp he' with rfl | he'
    · exact absurd (holds_size.mpr hc) he
    · exact ⟨e', he', hc⟩
  induction l generalizing next with
  | nil => simp at hc
  | cons e l ih =>
    rw [relocate_pack_cons, relocate_pack_cons] at h
    split_ifs at h with h₁ h₂ h₂
    · omega
    · have := (relocate_pack_bounds (next + e.size) (hrest h₂ hd)).1
      omega
    · have := (relocate_pack_bounds (next + e.size) (hrest h₁ hc)).1
      omega
    · exact ih (hrest h₁ hc) (hrest h₂ hd) h

theorem relocate_pack_add (ha : Extent.Apart l) {e : Extent} (he : e ∈ l) (hc : e.Holds c)
    (hd : e.Holds (c + d)) :
    relocate (pack next l) (c + d) = relocate (pack next l) c + d := by
  induction l generalizing next with
  | nil => simp at he
  | cons e' l ih =>
    obtain ⟨hfirst, ha⟩ := List.pairwise_cons.mp ha
    rw [relocate_pack_cons, relocate_pack_cons]
    rcases List.mem_cons.mp he with rfl | he
    · rw [if_pos (holds_size.mpr hc), if_pos (holds_size.mpr hd)]
      unfold Extent.Holds at hc
      omega
    · rw [if_neg fun h => hfirst e he c ⟨holds_size.mp h, hc⟩,
        if_neg fun h => hfirst e he (c + d) ⟨holds_size.mp h, hd⟩]
      exact ih ha he

end Packing

/-! ### The moves of reordering -/

/-- A map of cells that **keeps extents whole** and apart, below a limit. -/
structure Packs (f : Nat → Nat) (l : List Extent) (limit : Nat) : Prop where
  below : ∀ c, (∃ e ∈ l, e.Holds c) → f c < limit
  inj : ∀ c d, (∃ e ∈ l, e.Holds c) → (∃ e ∈ l, e.Holds d) → f c = f d → c = d
  add : ∀ e ∈ l, ∀ c d, e.Holds c → e.Holds (c + d) → f (c + d) = f c + d
  outside : ∀ c, (¬ ∃ e ∈ l, e.Holds c) → f c = c

theorem relocate_pack_outside {l : List Extent} {next c : Nat} (h : ¬ ∃ e ∈ l, e.Holds c) :
    relocate (pack next l) c = c := by
  induction l generalizing next with
  | nil => rfl
  | cons e l ih =>
    rw [relocate_pack_cons, if_neg fun he => h ⟨e, by simp, holds_size.mp he⟩]
    exact ih fun ⟨e', he', hc⟩ => h ⟨e', by simp [he'], hc⟩

/-- The slots with their numbers of uses, in the order in which they are packed. -/
def ranked (slots : List Extent) (uses : List Nat) : List (Extent × Nat) :=
  (slots.zip (slotUses slots uses)).mergeSort fun a b => b.2 ≤ a.2

theorem packed_eq (slots : List Extent) (uses : List Nat) :
    packed slots uses = pack 0 ((ranked slots uses).map Prod.fst) := rfl

theorem perm_ranked (slots : List Extent) (uses : List Nat) :
    ((ranked slots uses).map Prod.fst).Perm slots := by
  have hzip : ((slots.zip (slotUses slots uses)).map Prod.fst) = slots :=
    List.map_fst_zip (by simp [slotUses])
  refine ((List.mergeSort_perm _ _).map _).trans ?_
  rw [hzip]

theorem Slots.apart_of_perm {low high : Nat} {l m : List Extent} (h : Slots low high l)
    (hperm : m.Perm l) : Extent.Apart m := by
  refine (hperm.pairwise_iff fun {a b} hab c hc => hab c hc.symm).mpr ?_
  exact h.apart.imp fun {a b} hab c hc => by
    unfold Extent.Holds at hc
    omega

/-- **The packing of slots**, in whatever order they are packed. -/
theorem packs_packed {slots : List Extent} {high : Nat} (h : Slots 0 high slots)
    (uses : List Nat) : Packs (relocate (packed slots uses)) slots high := by
  rw [packed_eq]
  have hperm := perm_ranked slots uses
  generalize (ranked slots uses).map Prod.fst = l at hperm ⊢
  have hmem : ∀ c, (∃ e ∈ l, e.Holds c) ↔ ∃ e ∈ slots, e.Holds c := fun c => by
    simp only [hperm.mem_iff]
  have hapart := h.apart_of_perm hperm
  have htotal : Extent.total l ≤ high := by
    have := h.total_le 0 (Nat.zero_le _)
    rw [Extent.total, (hperm.map Extent.size).sum_nat]
    unfold Extent.total at this
    omega
  refine ⟨fun c hc => ?_, fun c d hc hd => ?_, fun e he c d hc hd => ?_, fun c hc => ?_⟩
  · have := (relocate_pack_bounds 0 ((hmem c).mpr hc)).2
    omega
  · exact relocate_pack_inj ((hmem c).mpr hc) ((hmem d).mpr hd)
  · exact relocate_pack_add hapart (hperm.mem_iff.mpr he) hc hd
  · exact relocate_pack_outside fun h => hc ((hmem c).mp h)

/-- **A block inside a slot** is mapped as a whole. -/
theorem Packs.mapsWhole {f : Nat → Nat} {l : List Extent} {limit : Nat} (h : Packs f l limit)
    {b : Extent} (hb : ∃ s ∈ l, s.1 ≤ b.1 ∧ b.2 ≤ s.2) :
    Instruction.MapsWhole f (fun c => ∃ e ∈ l, e.Holds c) b := by
  obtain ⟨s, hs, hlow, hhigh⟩ := hb
  intro c hle hlt
  have hc : s.Holds c := ⟨by omega, by omega⟩
  refine ⟨⟨s, hs, hc⟩, ?_⟩
  have hsum : b.1 + (c - b.1) = c := by omega
  rw [← h.add s hs b.1 (c - b.1) ⟨hlow, by omega⟩ (hsum.symm ▸ hc), hsum]

end TapeCompiler
