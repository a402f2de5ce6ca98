import TapeCompiler.Proofs.Memory.Compaction

/-! # The planner is sound

`Planner.Sound` is what every planner keeps: where its blocks lie (`Laid`), that the stacks of names
list the active ones (`Indexed`), that it counts them, and that the moves it has made end below the
high-water mark. A new planner is sound (`sound_new`) and each request keeps it so, **whether it
succeeds or fails and whether or not a collection is due**. -/

namespace TapeCompiler

namespace Planner

variable {p q : Planner} {name : String} {b : Block}

/-- **What a planner keeps.** -/
structure Sound (p : Planner) : Prop where
  laid : p.Laid
  indexed : p.Indexed
  activeCount : p.activeCount = p.blocks.countP Block.active
  activeCells : p.activeCells = Block.total p.blocks
  moves : ∀ m ∈ p.moves, m.target + m.size ≤ p.highWater

theorem Sound.recount (h : p.Sound) (n k : Nat) {moves : List Relocation}
    (hm : ∀ m ∈ moves, m.target + m.size ≤ p.highWater) :
    ({ p with collections := n, moves := moves, rootExits := k } : Planner).Sound where
  laid := ⟨h.laid.roomy, h.laid.sized, h.laid.fits, h.laid.high, h.laid.apart, h.laid.borders,
    h.laid.region, h.laid.rewinds⟩
  indexed := ⟨h.indexed.numbered, h.indexed.created, h.indexed.nodup, h.indexed.mem,
    h.indexed.opened, h.indexed.nested, h.indexed.scopes, h.indexed.tags⟩
  activeCount := h.activeCount
  activeCells := h.activeCells
  moves := hm

theorem total_append (l l' : List Block) :
    Block.total (l ++ l') = Block.total l + Block.total l' := by
  induction l with
  | nil => simp [Block.total]
  | cons b l ih => simp [Block.total, ih, Nat.add_assoc]

theorem total_reverse (l : List Block) : Block.total l.reverse = Block.total l := by
  induction l with
  | nil => rfl
  | cons b l ih => simp [Block.total, total_append, ih, Nat.add_comm]

theorem total_filter (l : List Block) (f : Block → Bool) :
    Block.total (l.filter f) + Block.total (l.filter fun b => !f b) = Block.total l := by
  induction l with
  | nil => rfl
  | cons b l ih =>
    cases hf : f b <;> simp only [List.filter_cons, hf, Bool.not_false, Bool.not_true, if_true,
      if_false, Block.total, Bool.false_eq_true] <;> omega

theorem total_map (l : List Block) {f : Block → Block} (hf : ∀ b ∈ l, (f b).size = b.size) :
    Block.total (l.map f) = Block.total l := by
  induction l with
  | nil => rfl
  | cons b l ih =>
    simp only [List.map_cons, Block.total, hf b List.mem_cons_self,
      ih fun c hc => hf c (List.mem_cons_of_mem _ hc)]

/-! ### Collections -/

theorem live_active (h : b.live = true) : b.active = true := (Bool.and_eq_true_iff.mp h).1

theorem active_sweep (p : Planner) : ∀ b ∈ p.sweep.2.blocks, b.active = true := fun _ hb =>
  live_active (List.mem_filter.mp hb).2

theorem releases_sweep (h : p.Indexed) : p.Releases p.sweep.2 ∧ p.sweep.2.Indexed := by
  have hl : ∀ b ∈ p.sweep.1, b ∈ p.blocks := fun b hb => by
    simpa [allocations] using (List.mem_filter.mp hb).1
  have hself : ∀ b : Block, b.Becomes b := fun b => ⟨rfl, rfl, rfl, rfl, id⟩
  have hblocks : ∀ b ∈ p.sweep.2.blocks, b ∈ p.blocks := fun b hb => (List.mem_filter.mp hb).1
  obtain ⟨hq, hi⟩ := h.giveUp (q := p.sweep.2) hl rfl rfl rfl rfl (List.filter_sublist.map _)
    (fun b hb => ⟨b, hblocks b hb, hself b⟩) rfl fun a ha hact => by
      have hswept : a ∈ p.sweep.1 ↔ a.live = false := by
        simp [sweep, allocations, ha]
      rw [hswept, Bool.not_eq_false]
      refine ⟨fun hlive => ⟨a, List.mem_filter.mpr ⟨ha, hlive⟩, rfl, hact⟩, ?_⟩
      rintro ⟨c, hc, hid, -⟩
      rw [← h.eq_of_id (hblocks c hc) ha hid]
      exact (List.mem_filter.mp hc).2
  exact ⟨⟨hq, fun b hb => ⟨b, hblocks b hb, hself b, rfl⟩, rfl, fun r => by cases r <;> rfl⟩, hi⟩

theorem Sound.sweep (h : p.Sound) : p.sweep.2.Sound := by
  obtain ⟨hq, hi⟩ := releases_sweep h.indexed
  refine ⟨h.laid.release hq, hi, ?_, ?_, h.moves⟩
  · show p.activeCount - (p.allocations.filter fun b => !b.live).countP Block.active =
      (p.blocks.filter Block.live).countP Block.active
    rw [h.activeCount, allocations, List.filter_reverse, List.countP_reverse]
    have := List.countP_eq_countP_filter_add p.blocks Block.active Block.live
    omega
  · show p.activeCells - Block.total (p.allocations.filter fun b => !b.live) =
      Block.total (p.blocks.filter Block.live)
    rw [h.activeCells, allocations, List.filter_reverse, total_reverse]
    have := total_filter p.blocks Block.live
    omega

theorem Sound.compact (h : p.Sound) (hact : ∀ b ∈ p.blocks, b.active = true)
    (hm : p.settings.model.compacts = true) : p.compact.2.Sound := by
  have hq := shrinks_compact h.laid h.indexed hact
  have hids := ids_compact p
  have hall : ∀ c ∈ p.compact.2.blocks, c.active = true := fun c hc => by
    obtain ⟨b, hb, rfl⟩ := List.mem_map.mp hc
    exact (packed_put h.laid h.indexed hact hb).2.activity.trans (hact b hb)
  have hlen : p.compact.2.blocks.length = p.blocks.length := by
    simpa using congrArg List.length hids
  refine ⟨h.laid.compact h.indexed hact hm, h.indexed.shrink hq fun name id hid => ?_, ?_, ?_, ?_⟩
  · obtain ⟨a, ha, rfl, -⟩ := (h.indexed.mem name id).mp hid
    have hmem : a.id ∈ p.compact.2.blocks.map Block.id := hids ▸ List.mem_map_of_mem ha
    obtain ⟨c, hc, hcid⟩ := List.mem_map.mp hmem
    exact ⟨fun _ => ⟨c, hc, hcid, hall c hc⟩, fun _ => hid⟩
  · show p.activeCount = _
    rw [h.activeCount, List.countP_eq_length.mpr hact, List.countP_eq_length.mpr hall, hlen]
  · show p.activeCells = _
    rw [h.activeCells, blocks_compact,
      total_map _ fun b hb => (packed_put h.laid h.indexed hact hb).2.size]
  · intro m hm
    rcases moves_compact h.laid h.indexed hact hm with hm | hm
    · exact h.moves m hm
    · exact hm

theorem Sound.collect (h : p.Sound) (forced : Bool) :
    (p.collect forced).2.Sound ∧ p.Shrinks (p.collect forced).2 := by
  have hsweep := h.sweep
  have hq := (releases_sweep h.indexed).1.toShrinks
  have hact := p.active_sweep
  unfold Planner.collect
  simp only
  split
  · next hm =>
    have hc := hsweep.compact hact hm
    have hpc := hq.trans (shrinks_compact hsweep.laid hsweep.indexed hact)
    exact ⟨hc.recount _ _ hc.moves, ⟨hpc.settings, hpc.created, hpc.opened, hpc.frames,
      hpc.numbers, hpc.blocks, hpc.bound⟩⟩
  · exact ⟨hsweep.recount _ _ hsweep.moves, ⟨hq.settings, hq.created, hq.opened, hq.frames,
      hq.numbers, hq.blocks, hq.bound⟩⟩

/-! ### Giving up a block -/

theorem countP_release {l : List Block} (hn : (l.map Block.id).Nodup) (hb : b ∈ l)
    (hact : b.active = true) :
    (l.map fun c => if c.id = b.id then c.release else c).countP Block.active =
      l.countP Block.active - 1 := by
  induction l with
  | nil => cases hb
  | cons a l ih =>
    obtain ⟨ha, hn⟩ := List.nodup_cons.mp hn
    rw [List.map_cons, List.countP_cons, List.countP_cons]
    rcases List.mem_cons.mp hb with rfl | hb
    · have hrest : (l.map fun c => if c.id = b.id then c.release else c) = l := by
        refine (List.map_congr_left fun c hc => ?_).trans (List.map_id l)
        exact if_neg fun hid : c.id = b.id => ha (hid ▸ List.mem_map_of_mem hc)
      rw [hrest]
      simp [Block.release, hact]
    · have hne : a.id ≠ b.id := fun hid => ha (hid ▸ List.mem_map_of_mem hb)
      have hpos : 0 < l.countP Block.active := List.countP_pos_iff.mpr ⟨b, hb, hact⟩
      rw [ih hn hb, if_neg hne]
      omega

theorem ids_map {l : List Block} {f : Block → Block} (hf : ∀ b : Block, b.Becomes (f b)) :
    (l.map f).map Block.id = l.map Block.id := by
  rw [List.map_map]
  exact List.map_congr_left fun b _ => (hf b).id

theorem Sound.drop (h : p.Sound) (hv : p.visible? name = some b) :
    (p.drop name b.id).Sound ∧ p.Releases (p.drop name b.id) := by
  have hb := h.indexed.visible?_mem hv
  obtain ⟨hact, hname⟩ := h.indexed.visible?_active hv
  let f (c : Block) : Block := if c.id = b.id then c.release else c
  have hf : ∀ c, c.Becomes (f c) ∧ (f c).address = c.address := fun c => by
    by_cases hc : c.id = b.id
    · rw [show f c = c.release from if_pos hc]
      exact ⟨⟨rfl, rfl, rfl, rfl, nofun⟩, rfl⟩
    · rw [show f c = c from if_neg hc]
      exact ⟨⟨rfl, rfl, rfl, rfl, id⟩, rfl⟩
  have hblocks : ∀ c ∈ (p.drop name b.id).blocks, ∃ a ∈ p.blocks,
      a.Becomes c ∧ c.address = a.address := fun c hc => by
    obtain ⟨a, ha, rfl⟩ := List.mem_map.mp hc
    exact ⟨a, ha, hf a⟩
  have hids : (p.drop name b.id).blocks.map Block.id = p.blocks.map Block.id :=
    ids_map fun c => (hf c).1
  obtain ⟨hq, hi⟩ := h.indexed.giveUp (q := p.drop name b.id) (l := [b])
    (fun c hc => List.mem_singleton.mp hc ▸ hb) rfl rfl rfl rfl
    (hids ▸ .refl _) (fun c hc => (hblocks c hc).imp fun a ha => ⟨ha.1, ha.2.1⟩)
    (by rw [← hname]; rfl)
    fun a ha hact' => by
      rw [List.mem_singleton]
      constructor
      · intro hne
        have hid : a.id ≠ b.id := fun hid => hne (h.indexed.eq_of_id ha hb hid)
        exact ⟨a, List.mem_map.mpr ⟨a, ha, if_neg hid⟩, rfl, hact'⟩
      · rintro ⟨c, hc, hid, hcact⟩ rfl
        obtain ⟨d, -, rfl⟩ := List.mem_map.mp hc
        change (f d).active = true at hcact
        rw [show f d = d.release from if_pos ((hf d).1.id.symm.trans hid)] at hcact
        cases hcact
  have hrel : p.Releases (p.drop name b.id) :=
    ⟨hq, hblocks, rfl, fun r => by cases r <;> rfl⟩
  refine ⟨⟨h.laid.release hrel, hi, ?_, ?_, h.moves⟩, hrel⟩
  · show p.activeCount - 1 = _
    rw [h.activeCount]
    exact (countP_release h.indexed.numbered hb hact).symm
  · show p.activeCells = Block.total (p.blocks.map f)
    rw [h.activeCells, total_map _ fun c _ => (hf c).1.size]

theorem Indexed.bound_drop (h : p.Indexed) (hv : p.visible? name = some b) (other : String) :
    (p.drop name b.id).bound other =
      if other = name then (p.bound name).dropLast else p.bound other := by
  obtain ⟨hl, hnot⟩ := h.bound_eq_concat hv
  have herase : (p.bound name).erase b.id = (p.bound name).dropLast := by
    rw [hl, List.erase_append_right _ hnot, List.dropLast_concat]
    simp
  rw [← herase]
  exact Stacks.of_without p.bindings name other b.id

theorem Sound.deallocate (h : p.Sound) (name : String) : (p.deallocate name).2.Sound := by
  unfold Planner.deallocate
  split
  · exact h
  · next id hid =>
    obtain ⟨b, hb, rfl, hact, -⟩ := (h.indexed.mem name id).mp (List.mem_of_getLast? hid)
    have hv : p.visible? name = some b := h.indexed.visible?_iff.mpr ⟨hb, hid⟩
    have hnum : (p.unbind name b.id).2.numbered? b.id = some b := h.indexed.numbered?_eq hb
    simp only [hnum, Option.filter, hact, if_true, Option.isSome_some]
    exact (h.drop hv).1

/-! ### References -/

theorem Sound.refer (h : p.Sound) (name : String) (f : Nat → Nat) :
    (p.refer name f).2.Sound ∧ p.Releases (p.refer name f).2 := by
  unfold Planner.refer
  split
  · exact ⟨h, Shrinks.refl p, fun b hb => ⟨b, hb, ⟨rfl, rfl, rfl, rfl, id⟩, rfl⟩, rfl, fun _ => rfl⟩
  · next b _ =>
    let g (c : Block) : Block := if c.id = b.id then { c with references := f c.references } else c
    have hg : ∀ c, c.Becomes (g c) ∧ (g c).address = c.address ∧ (g c).active = c.active :=
      fun c => by
        by_cases hc : c.id = b.id
        · rw [show g c = { c with references := f c.references } from if_pos hc]
          exact ⟨⟨rfl, rfl, rfl, rfl, id⟩, rfl, rfl⟩
        · rw [show g c = c from if_neg hc]
          exact ⟨⟨rfl, rfl, rfl, rfl, id⟩, rfl, rfl⟩
    have hids : (p.blocks.map g).map Block.id = p.blocks.map Block.id := ids_map fun c => (hg c).1
    have hq : p.Shrinks { p with blocks := p.blocks.map g } :=
      ⟨rfl, rfl, rfl, rfl, hids ▸ .refl _, fun c hc => by
        obtain ⟨a, ha, rfl⟩ := List.mem_map.mp hc
        exact ⟨a, ha, (hg a).1⟩, fun _ => .refl _⟩
    have hrel : p.Releases { p with blocks := p.blocks.map g } := by
      refine ⟨hq, fun c hc => ?_, rfl, fun r => by cases r <;> rfl⟩
      obtain ⟨a, ha, rfl⟩ := List.mem_map.mp hc
      exact ⟨a, ha, (hg a).1, (hg a).2.1⟩
    refine ⟨⟨h.laid.release hrel, h.indexed.shrink hq fun name id hid => ?_, ?_, ?_, h.moves⟩, hrel⟩
    · obtain ⟨a, ha, rfl, hact, -⟩ := (h.indexed.mem name id).mp hid
      exact ⟨fun _ => ⟨g a, List.mem_map_of_mem ha, (hg a).1.id, (hg a).2.2.trans hact⟩,
        fun _ => hid⟩
    · show p.activeCount = (p.blocks.map g).countP Block.active
      rw [h.activeCount, List.countP_map]
      exact List.countP_congr fun c _ => by simp [(hg c).2.2]
    · show p.activeCells = Block.total (p.blocks.map g)
      rw [h.activeCells, total_map _ fun c _ => (hg c).1.size]

/-! ### Scopes -/

theorem Sound.enter (h : p.Sound) (name : String) : (p.enter name).2.Sound :=
  ⟨h.laid.enter name, h.indexed.enter name, h.activeCount, h.activeCells, h.moves⟩

/-- The planner after the blocks of a scope were given up. -/
def close (p : Planner) (tag : String) : Planner :=
  let closed := p.allocations.filter (Block.activeIn tag)
  let outside : Planner := { p with
    blocks := p.blocks.map fun b => if b.activeIn tag then { b with active := false } else b
    activeCount := p.activeCount - closed.length }
  outside.unbindAll closed

theorem Sound.close (h : p.Sound) (tag : String) : (p.close tag).Sound ∧
    p.Releases (p.close tag) ∧ ∀ b ∈ (p.close tag).blocks, b.active = true → b.scope ≠ tag := by
  let f (c : Block) : Block := if c.activeIn tag then { c with active := false } else c
  have hf : ∀ c, c.Becomes (f c) ∧ (f c).address = c.address ∧
      ((f c).active = true ↔ c.active = true ∧ c.scope ≠ tag) := fun c => by
    by_cases hc : c.activeIn tag = true
    · rw [show f c = { c with active := false } from if_pos hc]
      refine ⟨⟨rfl, rfl, rfl, rfl, nofun⟩, rfl, nofun, fun ⟨_, hs⟩ => ?_⟩
      simp [Block.activeIn, hs] at hc
    · rw [show f c = c from if_neg hc]
      refine ⟨⟨rfl, rfl, rfl, rfl, id⟩, rfl, fun hact => ⟨hact, fun hs => ?_⟩, And.left⟩
      simp [Block.activeIn, hact, hs] at hc
  have hblocks : ∀ c ∈ (p.close tag).blocks, ∃ a ∈ p.blocks,
      a.Becomes c ∧ c.address = a.address := fun c hc => by
    obtain ⟨a, ha, rfl⟩ := List.mem_map.mp hc
    exact ⟨a, ha, (hf a).1, (hf a).2.1⟩
  have hclosed : ∀ c, c ∈ p.allocations.filter (Block.activeIn tag) ↔
      c ∈ p.blocks ∧ c.active = true ∧ c.scope = tag := fun c => by
    simp [allocations, Block.activeIn]
  have hids : (p.close tag).blocks.map Block.id = p.blocks.map Block.id :=
    ids_map fun c => (hf c).1
  obtain ⟨hq, hi⟩ := h.indexed.giveUp (q := p.close tag)
    (l := p.allocations.filter (Block.activeIn tag)) (fun c hc => ((hclosed c).mp hc).1)
    rfl rfl rfl rfl (hids ▸ .refl _)
    (fun c hc => (hblocks c hc).imp fun a ha => ⟨ha.1, ha.2.1⟩) rfl fun a ha hact => by
      rw [hclosed]
      constructor
      · intro hne
        exact ⟨f a, List.mem_map_of_mem ha, (hf a).1.id,
          (hf a).2.2.mpr ⟨hact, fun hs => hne ⟨ha, hact, hs⟩⟩⟩
      · rintro ⟨c, hc, hid, hcact⟩ ⟨-, -, hs⟩
        obtain ⟨d, hd, rfl⟩ := List.mem_map.mp hc
        obtain rfl := h.indexed.eq_of_id hd ha ((hf d).1.id.symm.trans hid)
        exact ((hf d).2.2.mp hcact).2 hs
  have hrel : p.Releases (p.close tag) := ⟨hq, hblocks, rfl, fun r => by cases r <;> rfl⟩
  refine ⟨⟨h.laid.release hrel, hi, ?_, ?_, h.moves⟩, hrel, fun c hc hact => ?_⟩
  · show p.activeCount - (p.allocations.filter (Block.activeIn tag)).length =
      (p.blocks.map f).countP Block.active
    have hsplit := List.countP_eq_countP_filter_add p.blocks Block.active (Block.activeIn tag)
    have hin : (p.blocks.filter (Block.activeIn tag)).countP Block.active =
        (p.allocations.filter (Block.activeIn tag)).length := by
      rw [allocations, List.filter_reverse, List.length_reverse]
      refine List.countP_eq_length.mpr fun c hc => ?_
      exact (Bool.and_eq_true_iff.mp (List.mem_filter.mp hc).2).1
    have hout : (p.blocks.map f).countP Block.active =
        (p.blocks.filter fun c => !c.activeIn tag).countP Block.active := by
      rw [List.countP_map, List.countP_filter]
      refine List.countP_congr fun c _ => ?_
      rw [Function.comp, (hf c).2.2]
      cases hact : c.active <;> simp [Block.activeIn, hact]
    rw [h.activeCount]
    omega
  · show p.activeCells = Block.total (p.blocks.map f)
    rw [h.activeCells, total_map _ fun c _ => (hf c).1.size]
  · obtain ⟨a, -, rfl⟩ := List.mem_map.mp hc
    exact fun hs => ((hf a).2.2.mp hact).2 ((hf a).1.scope.symm.trans hs)

theorem Sound.leave (h : p.Sound) : p.leave.2.Sound := by
  unfold Planner.leave
  split
  · exact h.recount _ _ h.moves
  · next f rest hf =>
    obtain ⟨hc, hrel, hown⟩ := h.close f.tag
    exact ⟨hc.laid.pop hc.indexed hf hown,
      hc.indexed.pop hf ⟨rfl, rfl, rfl, rfl, rfl⟩ hown, hc.activeCount, hc.activeCells, hc.moves⟩

/-! ### New blocks -/

/-- The blocks of a name belong to scopes **around an open one**. -/
structure Shadows (p : Planner) (name scope : String) : Prop where
  opened : scope ∈ p.openScopes
  around : ∀ b ∈ p.blocks, b.id ∈ p.bound name → p.Encloses b.scope scope

theorem Shadows.shrink {scope : String} (h : p.Shadows name scope) (hq : p.Shrinks q) :
    q.Shadows name scope where
  opened := by
    unfold openScopes
    rw [hq.frames]
    exact h.opened
  around b hb hid := by
    obtain ⟨a, ha, hab⟩ := hq.blocks b hb
    rw [hq.encloses, hab.scope]
    exact h.around a ha (hab.id ▸ (hq.bound name).subset hid)

/-- A name without a block in the innermost scope **may get one**. -/
theorem Indexed.shadows (h : p.Indexed)
    (hn : ((p.visible? name).filter fun b => b.scope = p.scope) = none) :
    p.Shadows name p.scope where
  opened := List.mem_of_getLast? p.scope_eq_getLast
  around a ha hid := by
    cases hv : p.visible? name with
    | none =>
      rw [h.visible?_eq_none.mp hv] at hid
      cases hid
    | some b =>
      have hb := h.visible?_mem hv
      obtain ⟨c, hc, hcid, hact, -⟩ := (h.mem name a.id).mp hid
      obtain rfl := h.eq_of_id hc ha hcid
      refine encloses_scope (h.opened c ha hact) fun hs => ?_
      by_cases hcb : c.id = b.id
      · obtain rfl := h.eq_of_id ha hb hcb
        simp [hv, Option.filter, hs] at hn
      · exact not_encloses_scope h.scopes (hs ▸ h.encloses_visible hv hid hcb ha rfl)

theorem Indexed.shadows_drop (h : p.Sound) (hv : p.visible? name = some b) :
    (p.drop name b.id).Shadows name b.scope ∧
      ∀ k ∈ (p.unbind name b.id).1, ((p.drop name b.id).bound name).length ≤ k := by
  obtain ⟨hl, hnot⟩ := h.indexed.bound_eq_concat hv
  have hbound := h.indexed.bound_drop hv name
  rw [if_pos rfl] at hbound
  rw [hbound]
  obtain ⟨-, hrel⟩ := h.drop hv
  refine ⟨⟨?_, fun a ha hid => ?_⟩, fun k hk => ?_⟩
  · exact h.indexed.opened b (h.indexed.visible?_mem hv) (h.indexed.visible?_active hv).1
  · obtain ⟨c, hc, hca⟩ := hrel.blocks a ha
    rw [hrel.encloses, hca.scope]
    rw [hbound] at hid
    exact h.indexed.encloses_visible hv (List.dropLast_subset _ hid) (fun he => hnot (he ▸ hid))
      hc hca.id.symm
  · have hk : (p.bound name).idxOf? b.id = some k := hk
    rw [hl] at hk
    obtain ⟨hlen, hget, -⟩ := List.idxOf?_eq_some_iff.mp hk
    by_contra hlt
    rw [Nat.not_le] at hlt
    rw [List.getElem_append_left hlt] at hget
    exact hnot (hget ▸ List.getElem_mem hlt)

theorem Sound.add (h : p.Sound) {size a : Nat} {r : Region} (hq : p.Takes size a q r)
    (hs : 0 < size) {place : Option Nat} {scope : String} {references : Nat}
    (hscope : r = .stack → scope = p.scope) (hshadows : p.Shadows name scope)
    (hplace : ∀ k ∈ place, (p.bound name).length ≤ k) :
    (q.add place name a size scope references).Sound := by
  obtain ⟨-, hblocks, hbindings, hcount, hcells, hcreated, hframes, hopened, hhigh, hmoves⟩ :=
    setNext_fields p r (a + size)
  rw [← hq.planner] at hblocks hbindings hcount hcells hcreated hframes hopened hhigh hmoves
  have hbound : ∀ other, q.bound other = p.bound other := fun other => by
    unfold bound
    rw [hbindings]
  have hopen : q.openScopes = p.openScopes := by
    unfold openScopes
    rw [hframes]
  have hi : q.Indexed := by
    have hencloses : ∀ s t, q.Encloses s t ↔ p.Encloses s t := fun s t => by
      unfold Encloses
      rw [hopen]
    refine ⟨?_, ?_, ?_, ?_, ?_, ?_, ?_, ?_⟩ <;>
      simp only [hblocks, hbound, hcreated, hopen, hframes, hopened, hencloses]
    exacts [h.indexed.numbered, h.indexed.created, h.indexed.nodup, h.indexed.mem,
      h.indexed.opened, h.indexed.nested, h.indexed.scopes, h.indexed.tags]
  refine ⟨h.laid.add h.indexed hq hs hscope, hi.add ?_ ?_ ?_, ?_, ?_, ?_⟩
  · simpa only [hbound] using hplace
  · rw [hopen]
    exact hshadows.opened
  · intro b hb hid
    unfold Encloses
    rw [hopen]
    exact hshadows.around b (hblocks ▸ hb) (hbound name ▸ hid)
  · show q.activeCount + 1 = (_ :: q.blocks).countP Block.active
    rw [hcount, hblocks, h.activeCount, List.countP_cons_of_pos rfl]
  · show q.activeCells + size = size + Block.total q.blocks
    rw [hcells, hblocks, h.activeCells, Nat.add_comm]
  · intro m hm
    have hm' : m ∈ p.moves := hmoves ▸ hm
    have := h.moves m hm'
    show m.target + m.size ≤ max q.highWater _
    rw [hhigh]
    exact Nat.le_trans this (Nat.le_max_left _ _)

/-! ### Requests for blocks -/

theorem Sound.reserve (h : p.Sound) (name : String) (size : Nat) (idle : Int) :
    (∃ r a q, (r.Sound ∧ p.Shrinks r) ∧ r.place size = some (a, q) ∧
        p.reserve name size idle = (.ok a, q)) ∨
      ∃ r f, (r.Sound ∧ p.Shrinks r) ∧ p.reserve name size idle = (.error f, r) :=
  reserve_cases (P := fun r => r.Sound ∧ p.Shrinks r)
    (fun _ forced ⟨hr, hpr⟩ => ⟨(hr.collect forced).1, hpr.trans (hr.collect forced).2⟩)
    ⟨h, Shrinks.refl p⟩ name size idle

theorem scope_of_shrinks (hq : p.Shrinks q) : q.scope = p.scope := by
  unfold scope
  rw [hq.frames]

theorem Sound.allocate (h : p.Sound) (name : String) (size : Nat) (idle : Int) :
    (p.allocate name size idle).2.Sound := by
  rcases allocate_cases p name size idle with ⟨b, -, -, heq⟩ | ⟨hn, hres⟩
  · rw [heq]
    exact h
  · have hsize : 0 < max size 1 := Nat.lt_of_lt_of_le Nat.one_pos (Nat.le_max_right _ _)
    have hshadows := h.indexed.shadows hn
    rcases h.reserve name (max size 1) idle with
      ⟨r, a, q, ⟨hr, hpr⟩, hplace, hok⟩ | ⟨r, f, ⟨hr, -⟩, hf⟩
    · rcases hres with ⟨a', r', hr', heq⟩ | ⟨f, r', hr', -⟩ <;> rw [hok] at hr' <;> cases hr'
      rw [heq]
      obtain ⟨region, htakes⟩ := place_eq_some hplace
      exact hr.add htakes hsize (fun _ => (scope_of_shrinks hpr).symm) (hshadows.shrink hpr)
        (by simp)
    · rcases hres with ⟨a', r', hr', -⟩ | ⟨f', r', hr', heq⟩ <;> rw [hf] at hr' <;> cases hr'
      rw [heq]
      exact hr

theorem Sound.resize (h : p.Sound) (name : String) (size : Nat) (idle : Int) :
    (p.resize name size idle).2.Sound := by
  rcases resize_cases p name size idle with ⟨-, heq⟩ | ⟨old, hv, hsize, hres⟩
  · rw [heq]
    exact h
  · have hpos : 0 < size := Nat.lt_of_le_of_lt (Nat.zero_le _) hsize
    obtain ⟨hd, -⟩ := h.drop hv
    obtain ⟨hshadows, hplace⟩ := Indexed.shadows_drop h hv
    -- room is found somewhere, after some collections, or there is none
    have hroom : (∃ r region a q,
        r.Sound ∧ (p.drop name old.id).Shrinks r ∧ r.Takes size a q region ∧
          (region = .stack → old.scope = r.scope) ∧
          (p.drop name old.id).reserveIn old.scope name size idle = (.ok a, q)) ∨
        ∃ r f, r.Sound ∧
          (p.drop name old.id).reserveIn old.scope name size idle = (.error f, r) := by
      unfold reserveIn
      split
      · next hseg =>
        cases hheap : (p.drop name old.id).placeInHeap size with
        | none => exact Or.inr ⟨_, _, hd, rfl⟩
        | some x =>
          have htakes := takes_of_placeInHeap (by simp [hseg.1, MemoryModel.hasHeap]) hheap
          exact Or.inl ⟨_, _, _, _, hd, Shrinks.refl _, htakes, by simp, rfl⟩
      · next hseg =>
        rcases hd.reserve name size idle with
          ⟨r, a, q, ⟨hr, hdr⟩, hfound, hok⟩ | ⟨r, f, ⟨hr, -⟩, hf⟩
        · obtain ⟨region, htakes⟩ := place_eq_some hfound
          refine Or.inl ⟨r, region, a, q, hr, hdr, htakes, fun hstack => ?_, hok⟩
          have hmodel : (p.drop name old.id).settings.model = .segmented := by
            have hregion := htakes.region
            rw [hstack, hdr.settings] at hregion
            cases hm : (p.drop name old.id).settings.model <;>
              simp_all [MemoryModel.regions]
          rw [scope_of_shrinks hdr]
          by_contra hne
          exact hseg ⟨hmodel, hne⟩
        · exact Or.inr ⟨r, f, hr, hf⟩
    rcases hroom with ⟨r, region, a, q, hr, hdr, htakes, hscope, hok⟩ | ⟨r, f, hr, hf⟩
    · rcases hres with ⟨a', r', hr', heq⟩ | ⟨f, r', hr', -⟩ <;> rw [hok] at hr' <;> cases hr'
      rw [heq]
      exact hr.add htakes hpos hscope (hshadows.shrink hdr) fun k hk =>
        Nat.le_trans (hdr.bound name).length_le (hplace k hk)
    · rcases hres with ⟨a', r', hr', -⟩ | ⟨f', r', hr', heq⟩ <;> rw [hf] at hr' <;> cases hr'
      rw [heq]
      exact hr

/-! ### New planners -/

theorem sound_new {c : PlannerSettings} (h : Planner.new c = .ok p) : p.Sound := by
  unfold Planner.new at h
  cases hc : c.check with
  | error f => rw [hc] at h; cases h
  | ok u =>
    rw [hc] at h
    obtain rfl := Except.ok.inj h
    have hroomy : c.model.hasHeap = true → heapBase < c.memorySize := fun hm => by
      unfold PlannerSettings.check at hc
      split_ifs at hc with _ hs
      exact Nat.lt_of_not_le fun hle => hs ⟨hm, hle⟩
    refine ⟨?_, ?_, rfl, rfl, by simp⟩
    · refine ⟨hroomy, by simp, by simp, by simp, by simp, fun r hr => ?_, by simp,
        fun _ => trivial⟩
      cases r
      case heap =>
        refine ⟨Nat.le_refl _, Nat.le_of_lt (hroomy ?_)⟩
        revert hr
        cases c.model <;> decide
      all_goals simp [Planner.next, Region.first, Region.stop, globalsBase, heapBase]
    · refine ⟨List.nodup_nil, by simp, fun _ => List.nodup_nil, fun name id => ?_, by simp,
        fun _ => List.Pairwise.nil, List.nodup_singleton _, by simp⟩
      simp [bound, Stacks.of, Names.find?]

end Planner

end TapeCompiler
