import TapeCompiler.Proofs.Passes.Mentioned
import TapeCompiler.Proofs.Passes.Ranking

/-! # Reordering packs memory

Reordering maps the named cells onto the lowest ones: none is left out, blocks stay whole, different
cells stay apart and the most used groups come first (`Program.Packing`, `packing_reordering`). The
passes in front of it leave the symbols alone and those behind it leave the named cells, so this is
what a program of the higher levels looks like (`optimize_packs`). -/

namespace TapeCompiler

/-- A map of the named cells of a program onto **all cells below a number**. -/
structure Program.Packing (p : Program) (f : Nat → Nat) : Prop where
  dense : ∃ n, ∀ c, (∃ d, p.Mentions d ∧ f d = c) ↔ c < n
  /-- A block or the cells of a symbol stay in one piece. -/
  whole : ∀ e ∈ p.extents, ∀ c, e.Holds c → f c = f e.1 + (c - e.1)
  apart : ∀ c d, p.Mentions c → p.Mentions d → f c = f d → c = d
  /-- Of two groups the more used one is in front, and of equally used ones the one that was. -/
  ordered : ∀ c d, p.Mentions c → p.Mentions d → ¬ p.Linked c d →
    (p.groupUses d < p.groupUses c ∨ p.groupUses d = p.groupUses c ∧ c < d) → f c < f d

/-! ### Reordering -/

section Reordering
variable {p : Program} {f : Nat → Nat}

theorem Program.Packing.mentions (h : p.Packing f) :
    ∃ n, ∀ c, (p.mapAddress f).Mentions c ↔ c < n := by
  obtain ⟨n, hn⟩ := h.dense
  refine ⟨n, fun c => ?_⟩
  rw [← hn, Program.mentions_mapAddress (P := fun _ => True)]
  exact fun e he c hlow hhigh => ⟨trivial, h.whole e he c ⟨hlow, hhigh⟩⟩

/-- Cells of two extents **coincide where they did**. -/
theorem Program.Packing.add_eq_add_iff (h : p.Packing f) {a b : Extent} (ha : a ∈ p.extents)
    (hb : b ∈ p.extents) {i j : Nat} (hi : i < a.size) (hj : j < b.size) :
    f a.1 + i = f b.1 + j ↔ a.1 + i = b.1 + j := by
  have hcell : ∀ {e : Extent} {k : Nat}, e ∈ p.extents → k < e.size →
      p.Mentions (e.1 + k) ∧ f (e.1 + k) = f e.1 + k := by
    intro e k he hk
    have hin : e.Holds (e.1 + k) := holds_size.mp ⟨by omega, by omega⟩
    exact ⟨⟨e, he, hin⟩, by rw [h.whole e he _ hin]; omega⟩
  obtain ⟨hma, hfa⟩ := hcell ha hi
  obtain ⟨hmb, hfb⟩ := hcell hb hj
  rw [← hfa, ← hfb]
  exact ⟨h.apart _ _ hma hmb, congrArg f⟩

theorem packing_reordering (hp : ∀ i ∈ p.instructions, i.Proper) :
    ∃ f, (reordering p).1 = p.mapAddress f ∧ p.Packing f := by
  obtain ⟨high, hslots, hcover⟩ := p.slots_spec
  have hpacks := packs_packed hslots p.uses
  have hslot : ∀ c, p.Mentions c ↔ ∃ s ∈ p.slots, s.Holds c := fun c =>
    Program.exists_slot_iff.symm
  have huses : ∀ c ∈ p.uses, ∃ s ∈ p.slots, s.Holds c := by
    intro c hc
    obtain ⟨i, hi, hc⟩ := List.mem_flatMap.mp hc
    exact (hslot c).mp (Program.mentions_iff.mpr
      (Or.inr ⟨i, hi, Instruction.mentions_of_uses (hp i hi) hc⟩))
  refine ⟨_, reordering_eq p, ⟨?_, fun e he c hc => ?_, fun c d hc hd => ?_, ?_⟩⟩
  · simp only [hslot]
    exact hslots.exists_relocate_packed_iff p.uses
  · exact (hpacks.mapsWhole (hcover e he) c hc.1 hc.2).2
  · exact hpacks.inj c d ((hslot c).mp hc) ((hslot d).mp hd)
  · intro c d hc hd hlinked hrank
    obtain ⟨a, ha, hac⟩ := (hslot c).mp hc
    obtain ⟨b, hb, hbd⟩ := (hslot d).mp hd
    rw [Program.linked_iff_of_slot ha hac] at hlinked
    rw [Program.groupUses_of_slot ha hac, Program.groupUses_of_slot hb hbd] at hrank
    exact hslots.relocate_packed_lt huses ha hb (fun h => hlinked (h ▸ hbd)) hac hbd hrank

end Reordering

/-! ### Levels -/

theorem Pass.all_append (l m : List Pass) (p : Program) :
    (Pass.all (l ++ m) p).1 = (Pass.all m (Pass.all l p).1).1 := by
  induction l generalizing p with
  | nil => rfl
  | cons f l ih => exact ih _

theorem optimize_of_le {level : Nat} (hl : 3 ≤ level) (p : Program) : (p.optimize level).1 =
    (sharing (inlineNotes (reordering (p.optimize 2).1).1).1).1 := by
  have hpasses : passes level = passes 2 ++ [reordering, inlineNotes, sharing] := by
    simp [passes, hl, Nat.le_trans (by decide : 2 ≤ 3) hl, Nat.le_trans (by decide : 1 ≤ 3) hl]
  rw [Program.optimize, hpasses, Pass.all_append]
  rfl

/-- **Memory is packed** on the higher levels. The cells named then are all below some number.
Symbols keep their names and sizes, and share cells where they did; blocks stay whole, and the
groups most used after the passes of the second level come first. -/
theorem optimize_packs {p : Program} (hp : ∀ i ∈ p.instructions, i.Proper) {level : Nat}
    (hl : 3 ≤ level) : ∃ f, (p.optimize 2).1.Packing f ∧
      (p.optimize level).1 = (sharing (inlineNotes ((p.optimize 2).1.mapAddress f)).1).1 ∧
      (∃ n, ∀ c, (p.optimize level).1.Mentions c ↔ c < n) ∧
      ((p.optimize level).1.symbols = p.symbols.map fun s => (s.1, s.2.mapAddress f)) ∧
      ∀ s ∈ p.symbols, ∀ t ∈ p.symbols, ∀ i < s.2.size, ∀ j < t.2.size,
        (f s.2.address + i = f t.2.address + j ↔ s.2.address + i = t.2.address + j) := by
  obtain ⟨f, hf, hpacking⟩ := packing_reordering (proper_optimize 2 hp)
  have hsymbols : (p.optimize 2).1.symbols = p.symbols := rfl
  have hlevel := optimize_of_le hl p
  rw [hf] at hlevel
  refine ⟨f, hpacking, hlevel, ?_, ?_, fun s hs t ht i hi j hj => ?_⟩
  · obtain ⟨n, hn⟩ := hpacking.mentions
    refine ⟨n, fun c => ?_⟩
    rw [hlevel, mentions_sharing, Program.Mentions, extents_inlineNotes]
    exact hn c
  · rw [hlevel, ← hsymbols, ← Program.symbols_mapAddress]
    exact (symbols_sharing _).trans (symbols_inlineNotes _)
  · have hin : ∀ s ∈ p.symbols, Program.extentOf s ∈ (p.optimize 2).1.extents := fun s hs =>
      List.mem_append_left _ (List.mem_map_of_mem hs)
    exact hpacking.add_eq_add_iff (hin s hs) (hin t ht) (by simpa [Extent.size, Program.extentOf])
      (by simpa [Extent.size, Program.extentOf])

/-- A pair, and behind a gap a cell that is used more often. -/
def gapped : Program where
  bindings := [("hot", ⟨5, 1, .block⟩), ("pair", ⟨1, 2, .block⟩)]
  shadowed := []
  functions := []
  instructions := [.print [.cells 1 2], .copyValue 5 2, .print [.cell 5], .print [.cell 5]]

/-- The cell that is used more often comes first, and the pair stays one. -/
theorem optimize_packs_gapped : (∀ i ∈ gapped.instructions, i.Proper) ∧ 3 ≤ 4 ∧
    ∃ f, (gapped.optimize 4).1.symbols = gapped.symbols.map (fun s => (s.1, s.2.mapAddress f)) ∧
      (∃ n, ∀ c, (gapped.optimize 4).1.Mentions c ↔ c < n) ∧ f 5 < f 1 ∧ f 2 = f 1 + 1 := by
  have hp : ∀ i ∈ gapped.instructions, i.Proper := by
    simp [gapped, Instruction.Proper, Instruction.operands, Operand.Proper, Operand.cell]
  obtain ⟨f, hpacking, -, hdense, hsymbols, -⟩ := optimize_packs hp (by decide : 3 ≤ 4)
  have hextents : (gapped.optimize 2).1.extents =
      [(5, 6), (1, 3), (1, 3), (5, 6), (2, 3), (5, 6), (5, 6)] := rfl
  have hslots : (gapped.optimize 2).1.slots = [(1, 3), (5, 6)] := by
    rw [Program.slots, hextents]
    simp [List.mergeSort, Extent.before, joinOverlaps, joinOverlaps.go]
  have hpair : ((1, 3) : Extent) ∈ (gapped.optimize 2).1.slots := by simp [hslots]
  have hhot : ((5, 6) : Extent) ∈ (gapped.optimize 2).1.slots := by simp [hslots]
  refine ⟨hp, by decide, f, hsymbols, hdense, hpacking.ordered 5 1 ?_ ?_ ?_ (Or.inl ?_),
    hpacking.whole (1, 3) (by decide) 2 (by decide)⟩
  · exact Program.exists_slot_iff.mp ⟨_, hhot, by decide⟩
  · exact Program.exists_slot_iff.mp ⟨_, hpair, by decide⟩
  · rw [Program.linked_iff_of_slot hhot (by decide)]
    decide
  · rw [Program.groupUses_of_slot hpair (by decide), Program.groupUses_of_slot hhot (by decide)]
    decide

end TapeCompiler
