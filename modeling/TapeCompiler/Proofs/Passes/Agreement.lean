import TapeCompiler.Proofs.Passes.Faithful
import TapeCompiler.Proofs.Passes.Meaning
import TapeCompiler.Proofs.Passes.Packing

/-! # The passes of a level agree with the program

A program written from a tree, whose cells lie below a limit and whose operators on known values are
on numbers of the width, becomes another such program that prints the same (`Improves`): each pass
keeps that, and so do the passes of every level (`improves_optimize`). -/

namespace TapeCompiler

/-- A program whose **cells lie below a limit**: those of its instructions, of its symbols and of
the parameters of its functions. -/
structure Program.Within (limit : Nat) (p : Program) : Prop where
  code : ∀ i ∈ p.instructions, i.Below limit
  symbols : ∀ v ∈ p.bindings ++ p.shadowed, v.2.address + v.2.size ≤ limit
  locals : ∀ f ∈ p.functions, ∀ v ∈ f.2.locals, v.2.address + v.2.size ≤ limit

/-- **Operators on known values** are on numbers of the width. -/
def Program.Ranged (w : CellWidth) (p : Program) : Prop :=
  ∀ target o a b, .binary target o (.value a) (.value b) ∈ p.instructions →
    a.InWidth w ∧ b.InWidth w

/-- Two trees **print the same** on every input. -/
def CodeTree.SamePrint (w : CellWidth) (l : Library) (t u : CodeTree) : Prop :=
  ∀ (input : List UInt8) (o : List Nat),
    (∃ τ : Store w, t.Runs l (Store.start input) τ ∧ τ.output = o) ↔
      ∃ τ : Store w, u.Runs l (Store.start input) τ ∧ τ.output = o

variable {w : CellWidth} {l : Library} {limit : Nat} {p q : Program} {t u : CodeTree}

theorem Program.Within.maxAddress_le (h : p.Within limit) : p.maxAddress ≤ limit := by
  refine foldl_max_le _ (foldl_max_le _ (Nat.zero_le _) fun i hi => (h.code i hi).maxAddress_le)
    fun v hv => ?_
  rw [← List.map_append] at hv
  obtain ⟨x, hx, rfl⟩ := List.mem_map.mp hv
  exact h.symbols x hx

theorem Program.within_max (hp : ∀ i ∈ p.instructions, i.Proper)
    (hl : ∀ f ∈ p.functions, ∀ v ∈ f.2.locals, v.2.address + v.2.size ≤ limit) :
    p.Within (max p.maxAddress limit) where
  code i hi := Instruction.below_of_le (hp i hi)
    (Nat.le_trans (Program.maxAddress_le hi) (Nat.le_max_left _ _))
  symbols v hv := by
    refine Nat.le_trans ?_ (Nat.le_max_left p.maxAddress limit)
    refine le_foldl_max_of_mem (fun v : VariableInfo => v.address + v.size) ?_ _
    rw [← List.map_append]
    exact List.mem_map.mpr ⟨v, hv, rfl⟩
  locals f hf v hv := Nat.le_trans (hl f hf v hv) (Nat.le_max_right _ _)

theorem CodeTree.SamePrint.trans {v : CodeTree} (h : t.SamePrint w l u) (h' : u.SamePrint w l v) :
    t.SamePrint w l v := fun input o => (h input o).trans (h' input o)

theorem CodeTree.samePrint_of_matches {S : Store w → Store w → Prop} (h : Matches l S t u)
    (hstart : ∀ input, S (Store.start input) (Store.start input))
    (hout : ∀ σ τ, S σ τ → τ.output = σ.output) : t.SamePrint w l u := by
  intro input o
  constructor
  · rintro ⟨τ, hτ, rfl⟩
    obtain ⟨τ', hτ', hs⟩ := h.simulation (hstart input) hτ
    exact ⟨τ', hτ', hout _ _ hs⟩
  · rintro ⟨τ, hτ, rfl⟩
    obtain ⟨τ', hτ', hs⟩ := h.symm.simulation (hstart input) hτ
    exact ⟨τ', hτ', (hout _ _ hs).symm⟩

theorem CodeTree.samePrint_map {P : Instruction → Prop}
    {g : List Instruction → List Instruction} (ht : t.All P)
    (hg : ∀ seg, (∀ i ∈ seg, P i) → ∀ σ : Store w, runAll l (g seg) σ = runAll l seg σ) :
    t.SamePrint w l (t.map g id) := by
  refine samePrint_of_matches (S := Eq) (matches_map ht (fun seg hseg σ τ hs => ?_)
    fun c _ _ σ τ hs => by rw [hs]; rfl) (fun _ => rfl) fun σ τ hs => by rw [hs]
  rw [hs, hg seg hseg]

/-- What sharing leaves lies below a limit, if **the cells of the memo** do. -/
theorem below_shareResults {memo : List Known} {seg : List Instruction}
    (hseg : ∀ i ∈ seg, i.Below limit) (hm : ∀ k ∈ memo, k.cell < limit) :
    ∀ i ∈ (shareResults memo seg).1, i.Below limit := by
  induction seg generalizing memo with
  | nil => exact hseg
  | cons i seg ih =>
    have hi := hseg i (by simp)
    rw [shareResults_cons]
    refine List.forall_mem_cons.mpr ⟨?_, ih (fun j hj => hseg j (by simp [hj])) fun k hk => ?_⟩
    · rcases shareOne_eq memo i with heq | ⟨target, o, x, y, cell, rfl, hknown, heq⟩
      · rwa [heq]
      · rw [heq]
        have ht : target < limit := hi.writes target (by simp [Instruction.writes])
        have hcell := hm _ (mem_of_known? hknown)
        exact ⟨by simp [Instruction.operands], by simpa [Instruction.readsBeside] using hcell,
          by simpa [Instruction.writes] using ht⟩
    · rcases mem_memo_shareOne hk with ⟨hk, -⟩ | ⟨rfl, -⟩
      · exact hm k hk
      · exact hi.writes k.cell (by simp [Instruction.writes])

/-! ### Improving a program -/

/-- A program written from a tree **became another** that prints the same, lies below the same limit
and nests as deep. -/
structure Improves (w : CellWidth) (l : Library) (limit : Nat) (t : CodeTree) (q : Program)
    (u : CodeTree) : Prop where
  tree : q.IsTree u
  within : q.Within limit
  ranged : q.Ranged w
  nesting : u.nesting = t.nesting
  same : t.SamePrint w l u

section Passes
variable (h : Improves w l limit t q u)
include h

theorem improves_of_code {q' : Program} {u' : CodeTree} (htree : q'.IsTree u')
    (hsymbols : q'.bindings ++ q'.shadowed = q.bindings ++ q.shadowed)
    (hlocals : ∀ f ∈ q'.functions, ∃ g ∈ q.functions, f.2.locals = g.2.locals)
    (hcode : ∀ i ∈ q'.instructions, i ∈ q.instructions ∨ (i.Below limit ∧
      ∀ target o a b, i ≠ .binary target o (.value a) (.value b)))
    (hn : u'.nesting = u.nesting) (hs : u.SamePrint w l u') : Improves w l limit t q' u' where
  tree := htree
  within := by
    refine ⟨fun i hi => (hcode i hi).elim (h.within.code i) And.left,
      hsymbols ▸ h.within.symbols, fun f hf => ?_⟩
    obtain ⟨g, hg, heq⟩ := hlocals f hf
    exact heq ▸ h.within.locals g hg
  ranged target o a b hi := by
    rcases hcode _ hi with hi | ⟨-, hi⟩
    · exact h.ranged target o a b hi
    · exact absurd rfl (hi target o a b)
  nesting := hn.trans h.nesting
  same := h.same.trans hs

theorem improves_folding : ∃ u', Improves w l limit t (folding q).1 u' := by
  have hall : u.All fun i => i ∈ q.instructions := fun i hi => h.tree.code ▸ hi
  have hfold : ∀ i ∈ q.instructions, ∀ j, i.folded? = some j →
      (j.Below limit ∧ ∀ target o a b, j ≠ .binary target o (.value a) (.value b)) ∧
        ∀ σ : Store w, j.effect l σ = i.effect l σ := by
    intro i hi j hj
    unfold Instruction.folded? at hj
    split at hj
    · next target o a b =>
      obtain ⟨v, hv, rfl⟩ := Option.map_eq_some_iff.mp hj
      obtain ⟨ha, hb⟩ := h.ranged target o a b hi
      obtain ⟨hsize, hcell⟩ := literal_fold ha hb hv
      obtain ⟨n, hn⟩ : ∃ n, v.cells = [n] := List.length_eq_one_iff.mp hsize
      have hbelow := h.within.code _ hi
      refine ⟨⟨⟨by simp [Instruction.operands], by simp [Instruction.readsBeside], fun c hc => ?_⟩,
        by simp⟩, fun σ => ?_⟩
      · refine hbelow.writes c ?_
        rw [Instruction.writes, hsize] at hc
        simpa [Instruction.writes] using hc
      · have : v.firstCell = n := by rw [Value.firstCell, hn]; rfl
        rw [this] at hcell
        simp only [Instruction.effect, hn, List.map_cons, List.map_nil, Store.setAll, Store.first,
          hcell]
    · cases hj
  refine ⟨_, improves_of_code h (isTree_folding h.tree) rfl (fun f hf => ⟨f, hf, rfl⟩)
    (fun i hi => ?_) (CodeTree.nesting_map u) (CodeTree.samePrint_map hall fun seg hseg σ => ?_)⟩
  · obtain ⟨j, hj, rfl⟩ := List.mem_map.mp hi
    cases hf : j.folded? with
    | none => exact Or.inl hj
    | some k => exact Or.inr (hfold j hj k hf).1
  · induction seg generalizing σ with
    | nil => rfl
    | cons i seg ih =>
      rw [List.map_cons, runAll_cons, runAll_cons, ih fun j hj => hseg j (by simp [hj])]
      cases hf : i.folded? with
      | none => rfl
      | some k => rw [← (hfold i (hseg i (by simp)) k hf).2]; rfl

theorem improves_deadStores : ∃ u', Improves w l limit t (deadStores q).1 u' := by
  refine ⟨_, improves_of_code h (isTree_deadStores h.tree) rfl (fun f hf => ⟨f, hf, rfl⟩)
    (fun i hi => Or.inl (List.mem_filter.mp hi).1) (CodeTree.nesting_map u) ?_⟩
  have hall : u.All fun i => i ∈ q.instructions ∧ i.Proper := fun i hi =>
    ⟨h.tree.code ▸ hi, h.tree.proper i hi⟩
  refine CodeTree.samePrint_of_matches
    (CodeTree.matches_map hall (fun seg hseg => keeps_deadStores hseg) fun c name hc σ τ hs => ?_)
    (fun _ => ⟨fun _ _ => rfl, rfl, rfl⟩) fun σ τ hs => hs.output
  have hm : c.Mapped id (· ∈ readCells q.instructions) := by
    rcases hc with ⟨hi, hp⟩ | ⟨hi, hp⟩
    · exact (mapped_readCells hi hp).operands c (by simp [Instruction.operands])
    · exact (mapped_readCells hi hp).operands c (by simp [Instruction.operands])
  have := hs.holds hm
  rw [show c.mapAddress id = c by cases c <;> rfl] at this
  exact this.symm

theorem improves_updatePairs : ∃ u', Improves w l limit t (updatePairs q).1 u' := by
  refine ⟨_, improves_of_code h (isTree_updatePairs h.tree) rfl
    (fun f hf => ⟨f, hf, rfl⟩) (fun i hi => ?_) (CodeTree.nesting_map u)
    (CodeTree.samePrint_map (P := fun _ => True) (fun _ _ => trivial)
      fun seg _ => runAll_mergeUpdates seg)⟩
  rcases mem_mergeUpdates hi with hi | ⟨j, hj, k, hm⟩
  · exact Or.inl hi
  · obtain ⟨a, c, c', rfl, -, rfl, -⟩ := merged_eq hm
    have := h.within.code _ hj
    exact Or.inr ⟨⟨by simp [Instruction.operands], this.beside, this.writes⟩, by simp⟩

theorem improves_loopNotes : ∃ u', Improves w l limit t (loopNotes q).1 u' := by
  refine ⟨_, improves_of_code h (isTree_loopNotes h.tree) rfl
    (fun f hf => ⟨f, hf, rfl⟩) (fun i hi => ?_) (CodeTree.nesting_noted u)
    (CodeTree.samePrint_of_matches (CodeTree.matches_noted u) (fun _ => rfl)
      fun σ τ hs => by rw [hs])⟩
  rcases mem_noteBounds hi with hi | ⟨text, rfl⟩
  · exact Or.inl hi
  · exact Or.inr ⟨Instruction.below_comment text, by simp⟩

theorem improves_inlineNotes : ∃ u', Improves w l limit t (inlineNotes q).1 u' := by
  obtain ⟨candidates, hcode, htree⟩ := isTree_inlineNotes h.tree
  refine ⟨_, improves_of_code h htree rfl (fun f hf => ?_) (fun i hi => ?_)
    (CodeTree.nesting_map u) (CodeTree.samePrint_map (P := fun _ => True) (fun _ _ => trivial)
      fun seg _ => runAll_noteCall candidates seg)⟩
  · obtain ⟨g, hg, rfl⟩ := List.mem_map.mp hf
    exact ⟨g, hg, rfl⟩
  · rw [hcode] at hi
    obtain ⟨j, hj, hi⟩ := List.mem_flatMap.mp hi
    rcases mem_noteCall hi with rfl | ⟨text, rfl⟩
    · exact Or.inl hj
    · exact Or.inr ⟨Instruction.below_comment text, by simp⟩

theorem improves_sharing : ∃ u', Improves w l limit t (sharing q).1 u' := by
  refine ⟨_, improves_of_code h (isTree_sharing h.tree) rfl (fun f hf => ⟨f, hf, rfl⟩)
    (fun i hi => ?_) (CodeTree.nesting_map u) (CodeTree.samePrint_map h.tree.proper
      fun seg hseg σ => runAll_shareResults hseg fun k hk => by simp at hk)⟩
  refine (mem_shareResults hi).imp id ?_
  rintro ⟨target, cell, rfl⟩
  exact ⟨below_shareResults h.within.code (fun k hk => by simp at hk) _ hi, by simp⟩

/-! #### Reordering -/

omit h in
theorem Program.Within.extents (hq : q.Within limit) :
    ∀ e ∈ q.extents, e.1 ≤ e.2 ∧ e.2 ≤ limit := by
  intro e he
  rcases List.mem_append.mp he with he | he
  · obtain ⟨v, hv, rfl⟩ := List.mem_map.mp he
    refine ⟨Nat.le_add_right _ _, ?_⟩
    rcases List.mem_append.mp hv with hv | hv
    · exact hq.symbols v hv
    · obtain ⟨f, hf, hv⟩ := List.mem_flatMap.mp hv
      exact hq.locals f hf v hv
  · obtain ⟨i, hi, he⟩ := List.mem_flatMap.mp he
    exact (hq.code i hi).blocks e he

theorem improves_reordering : ∃ u', Improves w l limit t (reordering q).1 u' := by
  obtain ⟨hslots, hcover⟩ := slots_join h.within.extents
  have hpacks := packs_packed hslots (q.instructions.flatMap Instruction.uses)
  rw [← Program.slots] at hpacks hcover
  unfold reordering
  simp only
  generalize hf : relocate (packed q.slots (q.instructions.flatMap Instruction.uses)) = f at hpacks ⊢
  split_ifs
  · exact ⟨u, h⟩
  have hwhole : ∀ b ∈ q.extents, Instruction.MapsWhole f (fun c => ∃ e ∈ q.slots, e.Holds c) b :=
    fun b hb => hpacks.mapsWhole (hcover b hb)
  have hmapped : ∀ i ∈ q.instructions, i.Mapped f (fun c => ∃ e ∈ q.slots, e.Holds c) ∧
      ∀ c ∈ i.writes, ∃ e ∈ q.slots, e.Holds c := fun i hi =>
    Instruction.mapped_of_blocks (h.tree.mem hi)
      (fun b hb => hwhole b (List.mem_append_right _ (List.mem_flatMap.mpr ⟨i, hi, hb⟩))) hpacks.inj
  have hsymbol : ∀ v : VariableInfo, (v.address, v.address + v.size) ∈ q.extents →
      f v.address + v.size ≤ limit := by
    intro v hv
    have hw := hwhole _ hv
    rcases Nat.eq_zero_or_pos v.size with hz | hpos
    · by_cases hin : ∃ e ∈ q.slots, e.Holds v.address
      · have := hpacks.below _ hin
        omega
      · have := (h.within.extents _ hv).2
        rw [hpacks.outside _ hin]
        exact this
    · obtain ⟨hin, heq⟩ := hw (v.address + (v.size - 1)) (by simp) (by simp only; omega)
      have := hpacks.below _ hin
      simp only at heq
      omega
  refine ⟨u.mapAddress f, isTree_mapAddress h.tree f, ⟨?_, ?_, ?_⟩, ?_, ?_, ?_⟩
  · intro i hi
    obtain ⟨j, hj, rfl⟩ := List.mem_map.mp hi
    exact (hmapped j hj).1.below (hmapped j hj).2 hpacks.below
  · intro v hv
    obtain ⟨x, hx, rfl⟩ : ∃ x ∈ q.bindings ++ q.shadowed, (x.1, x.2.mapAddress f) = v := by
      simpa [Program.mapAddress, Program.mapSymbols, Names.mapValues, or_and_right, exists_or]
        using hv
    refine hsymbol x.2 (List.mem_append_left _ (List.mem_map.mpr ⟨x, ?_, rfl⟩))
    exact List.mem_append_left _ hx
  · intro g hg v hv
    obtain ⟨g', hg', rfl⟩ := List.mem_map.mp hg
    obtain ⟨x, hx, rfl⟩ := List.mem_map.mp hv
    refine hsymbol x.2 (List.mem_append_left _ (List.mem_map.mpr ⟨x, ?_, rfl⟩))
    exact List.mem_append_right _ (List.mem_flatMap.mpr ⟨g', hg', hx⟩)
  · intro target o a b hi
    obtain ⟨j, hj, hji⟩ := List.mem_map.mp hi
    cases j with
    | binary target' o' x y =>
      cases x <;> cases y <;> cases hji
      exact h.ranged target' o _ _ hj
    | _ => cases hji
  · exact (CodeTree.nesting_map u).trans h.nesting
  · refine h.same.trans (CodeTree.samePrint_of_matches (CodeTree.matches_mapAddress
      (P := fun c => ∃ e ∈ q.slots, e.Holds c) fun i hi => (hmapped i (h.tree.code ▸ hi)).1)
      (fun _ => ⟨fun _ _ => rfl, rfl, rfl⟩) fun σ τ hs => hs.output)

end Passes

/-- **The passes of every level** improve a program. -/
theorem improves_optimize (level : Nat) (h : Improves w l limit t q u) :
    ∃ u', Improves w l limit t (q.optimize level).1 u' := by
  refine optimize_induction (P := fun p => ∃ u, Improves w l limit t p u) ?_ ?_ ?_ ?_ ?_ ?_ ?_ level
    ⟨u, h⟩
  · exact fun p ⟨u, h⟩ => improves_folding h
  · exact fun p ⟨u, h⟩ => improves_deadStores h
  · exact fun p ⟨u, h⟩ => improves_updatePairs h
  · exact fun p ⟨u, h⟩ => improves_loopNotes h
  · exact fun p ⟨u, h⟩ => improves_reordering h
  · exact fun p ⟨u, h⟩ => improves_inlineNotes h
  · exact fun p ⟨u, h⟩ => improves_sharing h

end TapeCompiler
