import TapeCompiler.Proofs.Passes.Groups

/-! # Where packing puts slots

Packing leaves no cell out (`exists_relocate_pack`) and puts a slot in front of those packed after
it (`relocate_pack_lt`). The number that stands beside a slot is the number of uses of its cells
(`slotUses_eq`), so of two slots the more used one goes in front, and of two equally used ones the
lower one, for sorting keeps their order (`relocate_packed_lt`). -/

namespace TapeCompiler

/-! ### Packing -/

section Packing
variable {l : List Extent} {next c : Nat}

/-- **No cell is left out** below the packed cells. -/
theorem exists_relocate_pack (ha : Extent.Apart l) (next : Nat) (hc : c < Extent.total l) :
    ∃ d, (∃ e ∈ l, e.Holds d) ∧ relocate (pack next l) d = next + c := by
  induction l generalizing next c with
  | nil => simp [Extent.total] at hc
  | cons e l ih =>
    obtain ⟨hfirst, ha⟩ := List.pairwise_cons.mp ha
    simp only [Extent.total, List.map_cons, List.sum_cons] at hc
    by_cases hin : c < e.size
    · have hd : e.1 ≤ e.1 + c ∧ e.1 + c < e.1 + e.size := by omega
      refine ⟨e.1 + c, ⟨e, by simp, holds_size.mp hd⟩, ?_⟩
      rw [relocate_pack_cons, if_pos hd]
      omega
    · have hrest : c - e.size < Extent.total l := by
        unfold Extent.total
        omega
      obtain ⟨d, ⟨e', he', hd⟩, heq⟩ := ih ha (next + e.size) hrest
      refine ⟨d, ⟨e', by simp [he'], hd⟩, ?_⟩
      rw [relocate_pack_cons, if_neg fun h => hfirst e' he' d ⟨holds_size.mp h, hd⟩, heq]
      omega

/-- A slot goes **in front of those packed after it**. -/
theorem relocate_pack_lt (ha : Extent.Apart l) (next : Nat) : l.Pairwise fun a b =>
    ∀ c d, a.Holds c → b.Holds d → relocate (pack next l) c < relocate (pack next l) d := by
  induction l generalizing next with
  | nil => exact List.Pairwise.nil
  | cons e l ih =>
    obtain ⟨hfirst, ha⟩ := List.pairwise_cons.mp ha
    have hskip : ∀ a ∈ l, ∀ c, a.Holds c →
        relocate (pack next (e :: l)) c = relocate (pack (next + e.size) l) c := fun a hm c hc => by
      rw [relocate_pack_cons, if_neg fun h => hfirst a hm c ⟨holds_size.mp h, hc⟩]
    refine List.pairwise_cons.mpr ⟨fun b hb c d hc hd => ?_, ?_⟩
    · have hlow := (relocate_pack_bounds (next + e.size) ⟨b, hb, hd⟩).1
      have hc := holds_size.mpr hc
      rw [hskip b hb d hd, relocate_pack_cons, if_pos hc]
      omega
    · refine (ih ha (next + e.size)).imp_of_mem fun {a b} hma hmb h c d hc hd => ?_
      rw [hskip a hma c hc, hskip b hmb d hd]
      exact h c d hc hd

end Packing

/-! ### Uses -/

section Uses
variable {low high : Nat} {slots : List Extent} {uses : List Nat} {a b : Extent} {c d : Nat}

/-- **The number of the slot** that holds a cell. -/
theorem Slots.slotNumber_eq (h : Slots low high slots) {k : Nat} (hk : k < slots.length)
    (hc : slots[k].Holds c) : slotNumber slots c = k + 1 := by
  induction slots generalizing k with
  | nil => simp at hk
  | cons e slots ih =>
    obtain ⟨hfirst, hrest⟩ := List.pairwise_cons.mp h.apart
    have hbound := h.bounds e (by simp)
    unfold slotNumber at ih ⊢
    cases k with
    | zero =>
      have hnone : slots.countP (fun x => x.1 ≤ c) = 0 := by
        refine List.countP_eq_zero.mpr fun x hx => ?_
        have := hfirst x hx
        have := hc.2
        simp only [List.getElem_cons_zero] at this
        simp only [decide_eq_true_eq]
        omega
      rw [List.countP_cons, hnone]
      simpa using hc.1
    | succ k =>
      have hk : k < slots.length := by simpa using hk
      have hc : slots[k].Holds c := by simpa using hc
      have hle : e.1 ≤ c := by
        have := hfirst _ (List.getElem_mem hk)
        have := hc.1
        omega
      rw [List.countP_cons, ih ⟨hrest, fun x hx => h.bounds x (by simp [hx])⟩ hk hc]
      simp [hle]

/-- What stands beside a slot is **the number of uses of its cells**, if every use is of a slot. -/
theorem Slots.slotUses_eq (h : Slots low high slots) (hu : ∀ c ∈ uses, ∃ s ∈ slots, s.Holds c) :
    slotUses slots uses = slots.map fun s => s.used uses := by
  refine List.ext_getElem (by simp [slotUses]) fun k hk _ => ?_
  have hk : k < slots.length := by simpa [slotUses] using hk
  simp only [slotUses, List.getElem_map, List.getElem_zipIdx, Nat.zero_add, List.count,
    List.countP_map]
  refine List.countP_congr fun c hc => ?_
  obtain ⟨s, hs, hsc⟩ := hu c hc
  obtain ⟨j, hj, rfl⟩ := List.getElem_of_mem hs
  have hnumber := h.slotNumber_eq hj hsc
  simp only [Function.comp_apply, hnumber, beq_iff_eq, Nat.add_right_cancel_iff,
    decide_eq_true_eq]
  constructor
  · rintro rfl
    exact hsc
  · intro hkc
    have := h.slotNumber_eq hk hkc
    omega

theorem Slots.ranked_eq (h : Slots low high slots) (hu : ∀ c ∈ uses, ∃ s ∈ slots, s.Holds c) :
    ranked slots uses = (slots.map fun s => (s, s.used uses)).mergeSort fun a b => b.2 ≤ a.2 := by
  rw [ranked, h.slotUses_eq hu, List.map_prod_left_eq_zip]

/-- What holds of any two slots in the order of packing holds of **the more used one and the
other**, and of two equally used ones in the order in which they stand. -/
theorem Slots.rel_of_ranked {F : Extent × Nat → Extent × Nat → Prop} (h : Slots low high slots)
    (hu : ∀ c ∈ uses, ∃ s ∈ slots, s.Holds c) (hF : (ranked slots uses).Pairwise F)
    (ha : a ∈ slots) (hb : b ∈ slots) (hab : a ≠ b) (hrank : b.used uses < a.used uses ∨
      b.used uses = a.used uses ∧ [a, b].Sublist slots) :
    F (a, a.used uses) (b, b.used uses) := by
  rw [h.ranked_eq hu] at hF
  have htrans : ∀ x y z : Extent × Nat, decide (y.2 ≤ x.2) = true → decide (z.2 ≤ y.2) = true →
      decide (z.2 ≤ x.2) = true := by
    simp only [decide_eq_true_eq]
    omega
  have htotal : ∀ x y : Extent × Nat, (decide (y.2 ≤ x.2) || decide (x.2 ≤ y.2)) = true := by
    simp only [Bool.or_eq_true, decide_eq_true_eq]
    omega
  rcases hrank with hlt | ⟨heq, hsub⟩
  · have hsorted := List.pairwise_mergeSort htrans htotal (slots.map fun s => (s, s.used uses))
    have hmem : ∀ s ∈ slots, (s, s.used uses) ∈
        (slots.map fun s => (s, s.used uses)).mergeSort fun a b => b.2 ≤ a.2 := fun s hs =>
      List.mem_mergeSort.mpr (List.mem_map.mpr ⟨s, hs, rfl⟩)
    rcases rel_or_rel_of_pairwise (hsorted.and hF) (hmem a ha) (hmem b hb) (by simp [hab])
      with hr | hr
    · exact hr.2
    · have hle : a.used uses ≤ b.used uses := of_decide_eq_true hr.1
      omega
  · -- sorting keeps the order of equally used slots
    have hkept := List.pair_sublist_mergeSort htrans htotal (by simp [heq])
      (hsub.map fun s => (s, s.used uses))
    exact List.pairwise_iff_forall_sublist.mp hF hkept

theorem Slots.sublist_of_lt (h : Slots low high slots) (ha : a ∈ slots) (hb : b ∈ slots)
    (hab : a ≠ b) (hc : a.Holds c) (hd : b.Holds d) (hlt : c < d) : [a, b].Sublist slots := by
  have hpairs : slots.Pairwise fun a b => [a, b].Sublist slots ∧ a.2 ≤ b.1 :=
    (List.pairwise_iff_forall_sublist.mpr fun h => h).and h.apart
  rcases rel_or_rel_of_pairwise hpairs ha hb hab with hr | hr
  · exact hr.1
  · have := hr.2
    have := hc.1
    have := hd.2
    omega

/-- **The more used slot** goes in front, and of equally used ones the lower. -/
theorem Slots.relocate_packed_lt (h : Slots low high slots)
    (hu : ∀ c ∈ uses, ∃ s ∈ slots, s.Holds c) (ha : a ∈ slots) (hb : b ∈ slots)
    (hab : a ≠ b) (hc : a.Holds c) (hd : b.Holds d) (hrank : b.used uses < a.used uses ∨
      b.used uses = a.used uses ∧ c < d) :
    relocate (packed slots uses) c < relocate (packed slots uses) d := by
  have hfront := relocate_pack_lt (h.apart_of_perm (perm_ranked slots uses)) 0
  rw [← packed_eq, List.pairwise_map] at hfront
  exact h.rel_of_ranked hu hfront ha hb hab
    (hrank.imp id fun ⟨heq, hlt⟩ => ⟨heq, h.sublist_of_lt ha hb hab hc hd hlt⟩) c d hc hd

/-- The cells of slots go to **all cells below a number**. -/
theorem Slots.exists_relocate_packed_iff (h : Slots low high slots) (uses : List Nat) : ∃ n, ∀ c,
    (∃ d, (∃ s ∈ slots, s.Holds d) ∧ relocate (packed slots uses) d = c) ↔ c < n := by
  have hperm := perm_ranked slots uses
  rw [packed_eq]
  generalize (ranked slots uses).map Prod.fst = l at hperm ⊢
  simp only [← hperm.mem_iff]
  refine ⟨Extent.total l, fun c => ⟨?_, fun hc => ?_⟩⟩
  · rintro ⟨d, hd, rfl⟩
    have := (relocate_pack_bounds 0 hd).2
    omega
  · have := exists_relocate_pack (h.apart_of_perm hperm) 0 hc
    rwa [Nat.zero_add] at this

end Uses

end TapeCompiler
