import TapeCompiler.Proofs.Memory.Sound

/-! # References keep blocks

A planner whose active blocks are all referred to gives none of them up in a collection, so every
name that has a block keeps one (`Held.collect`). Nothing but dropping a reference or a block
ends that, and leaving a scope does so only for the names it binds. -/

namespace TapeCompiler

namespace Planner

variable {p q : Planner} {name : String} {size a : Nat} {idle : Int}

/-- **No active block would be swept.** -/
structure Held (p : Planner) : Prop where
  sound : p.Sound
  referred : ∀ b ∈ p.blocks, b.active = true → b.references ≠ 0

theorem held_new {c : PlannerSettings} (h : Planner.new c = .ok p) : p.Held := by
  refine ⟨sound_new h, fun b hb => ?_⟩
  unfold Planner.new at h
  cases hc : c.check with
  | error f => rw [hc] at h; cases h
  | ok u =>
    rw [hc] at h
    obtain rfl := Except.ok.inj h
    cases hb

theorem Sound.exists_visible_iff (h : p.Sound) :
    (∃ b, p.visible? name = some b) ↔ p.bound name ≠ [] := by
  rw [← Option.ne_none_iff_exists', ne_eq, h.indexed.visible?_eq_none]

/-! ### Collections -/

theorem Held.bound_sweep (h : p.Held) (name : String) : p.sweep.2.bound name = p.bound name := by
  unfold sweep bound unbindAll
  simp only
  rw [Stacks.of_foldl_without _ _ _ (h.sound.indexed.nodup name), List.filter_eq_self]
  intro id hid
  rw [decide_eq_true_iff]
  rintro b hb - rfl
  obtain ⟨hb, hlive⟩ := List.mem_filter.mp hb
  have hb : b ∈ p.blocks := by simpa [allocations] using hb
  obtain ⟨c, hc, hcid, hact, -⟩ := (h.sound.indexed.mem name b.id).mp hid
  obtain rfl := h.sound.indexed.eq_of_id hc hb hcid
  simp [Block.live, hact, h.referred c hc hact] at hlive

theorem Held.collect (h : p.Held) (forced : Bool) :
    (p.collect forced).2.Held ∧ ∀ name, (p.collect forced).2.bound name = p.bound name := by
  have hsweep := h.sound.sweep
  have hlive : ∀ b ∈ p.sweep.2.blocks, b.active = true ∧ b.references ≠ 0 := fun b hb => by
    simpa [Block.live] using (List.mem_filter.mp hb).2
  refine ⟨⟨(h.sound.collect forced).1, ?_⟩, ?_⟩
  · unfold Planner.collect
    simp only
    split
    · intro c hc _
      obtain ⟨b, hb, rfl⟩ := List.mem_map.mp hc
      have hput := packed_put hsweep.laid hsweep.indexed (fun b hb => (hlive b hb).1) hb
      exact fun h0 => (hlive b hb).2 (hput.2.references.symm.trans h0)
    · exact fun b hb _ => (hlive b hb).2
  · intro name
    unfold Planner.collect
    simp only
    split <;> exact h.bound_sweep name

theorem Held.reserve (h : p.Held) (hq : p.reserve name size idle = (.ok a, q)) :
    (∀ b ∈ q.blocks, b.active = true → b.references ≠ 0) ∧
      ∀ other, q.bound other = p.bound other := by
  obtain ⟨r, ⟨hr, hbound⟩, hplace⟩ := reserve_eq_ok
    (P := fun r => r.Held ∧ ∀ other, r.bound other = p.bound other)
    (fun r forced ⟨hr, hb⟩ => ⟨(hr.collect forced).1, fun other =>
      ((hr.collect forced).2 other).trans (hb other)⟩) ⟨h, fun _ => rfl⟩ hq
  obtain ⟨region, htakes⟩ := place_eq_some hplace
  obtain ⟨-, hblocks, hbindings, -⟩ := setNext_fields r region (a + size)
  rw [← htakes.planner] at hblocks hbindings
  refine ⟨hblocks ▸ hr.referred, fun other =>
    (?_ : q.bound other = r.bound other).trans (hbound other)⟩
  unfold bound
  rw [hbindings]

theorem Held.reserveIn (h : p.Held) {scope : String}
    (hq : p.reserveIn scope name size idle = (.ok a, q)) :
    (∀ b ∈ q.blocks, b.active = true → b.references ≠ 0) ∧
      ∀ other, q.bound other = p.bound other := by
  unfold Planner.reserveIn at hq
  split at hq
  · split at hq
    · next hheap =>
      obtain ⟨n, -, he⟩ := Option.map_eq_some_iff.mp hheap
      cases he
      cases hq
      exact ⟨h.referred, fun _ => rfl⟩
    · cases hq
  · exact h.reserve hq

/-! ### Requests -/

theorem visible?_add {scope : String} {references : Nat}
    (h : (p.add none name a size scope references).Sound) :
    (p.add none name a size scope references).visible? name =
      some ⟨p.created, name, a, size, true, scope, references⟩ := by
  refine h.indexed.visible?_iff.mpr ⟨List.mem_cons_self, ?_⟩
  rw [bound_add (by simp), if_pos rfl, List.getLast?_append_of_ne_nil _ (by simp)]
  rfl

theorem Held.allocate (h : p.Held) (hq : p.allocate name size idle = (.ok a, q)) :
    q.Held ∧ (∀ other, p.bound other ≠ [] → q.bound other ≠ []) ∧
      ∃ b, q.visible? name = some b ∧ b.address = a := by
  have hsound : q.Sound := by
    have := h.sound.allocate name size idle
    rwa [hq] at this
  rcases allocate_eq_ok hq with ⟨b, hv, -, rfl, rfl⟩ | ⟨-, r, hr, rfl⟩
  · exact ⟨h, fun _ => id, b, hv, rfl⟩
  · obtain ⟨hreferred, hbound⟩ := h.reserve hr
    refine ⟨⟨hsound, fun b hb hact => ?_⟩, fun other hother => ?_, _, visible?_add hsound, rfl⟩
    · rcases List.mem_cons.mp hb with rfl | hb
      · exact Nat.one_ne_zero
      · exact hreferred b hb hact
    · rw [bound_add (by simp)]
      split_ifs
      · simp
      · rwa [hbound]

theorem Held.drop (h : p.Held) {b : Block} (hv : p.visible? name = some b) :
    (p.drop name b.id).Held := by
  refine ⟨(h.sound.drop hv).1, fun c hc hact => ?_⟩
  obtain ⟨a, ha, rfl⟩ := List.mem_map.mp hc
  split_ifs at hact ⊢
  · cases hact
  · exact h.referred a ha hact

theorem Held.resize (h : p.Held) {moved : Relocation}
    (hq : p.resize name size idle = (.ok (some moved), q)) :
    q.Held ∧ ∀ other, p.bound other ≠ [] → q.bound other ≠ [] := by
  have hsound : q.Sound := by
    have := h.sound.resize name size idle
    rwa [hq] at this
  obtain ⟨old, r, hv, -, -, hr, rfl⟩ := resize_eq_ok hq
  obtain ⟨hreferred, hbound⟩ := (h.drop hv).reserveIn hr
  refine ⟨⟨hsound, fun b hb hact => ?_⟩, fun other hother => ?_⟩
  · rcases List.mem_cons.mp hb with rfl | hb
    · exact Nat.ne_of_gt (Nat.le_max_right _ _)
    · exact hreferred b hb hact
  · have hplace := (Indexed.shadows_drop h.sound hv).2
    rw [bound_add fun k hk => by rw [hbound]; exact hplace k hk]
    split_ifs with hn
    · simp
    · rwa [hbound, h.sound.indexed.bound_drop hv, if_neg hn]

theorem Held.addReference (h : p.Held) (name : String) : (p.addReference name).2.Held ∧
    ∀ other, (p.addReference name).2.bound other = p.bound other := by
  refine ⟨⟨(h.sound.refer name _).1, ?_⟩, ?_⟩
  · unfold Planner.addReference refer
    split
    · exact h.referred
    · intro b hb hact
      obtain ⟨a, ha, rfl⟩ := List.mem_map.mp hb
      split_ifs at hact ⊢
      · exact Nat.succ_ne_zero _
      · exact h.referred a ha hact
  · intro other
    unfold Planner.addReference refer
    split <;> rfl

theorem Held.enter (h : p.Held) (name : String) : (p.enter name).2.Held :=
  ⟨h.sound.enter name, h.referred⟩

theorem Held.leave (h : p.Held) : p.leave.2.Held := by
  refine ⟨h.sound.leave, ?_⟩
  unfold Planner.leave
  split
  · exact h.referred
  · intro b hb hact
    obtain ⟨a, ha, rfl⟩ := List.mem_map.mp hb
    split at hact
    · cases hact
    · next hc =>
      rw [if_neg hc]
      exact h.referred a ha hact

theorem Held.takeMoves (h : p.Held) : p.takeMoves.2.Held :=
  ⟨h.sound.recount _ _ (by simp), h.referred⟩

/-! ### Failing requests -/

theorem reserve_eq_error {f : Fault} (h : p.reserve name size idle = (.error f, q)) :
    f = q.outOfMemory name size := by
  unfold Planner.reserve at h
  simp only at h
  split at h
  · cases h
  · split at h
    · cases h
    · cases h
      rfl

theorem allocate_eq_error {f : Fault} (h : p.allocate name size idle = (.error f, q)) :
    f = q.outOfMemory name (max size 1) := by
  rcases allocate_cases p name size idle with
    ⟨b, -, -, heq⟩ | ⟨-, ⟨a, r, -, heq⟩ | ⟨f', r, hr, heq⟩⟩ <;> rw [h] at heq <;> cases heq
  exact reserve_eq_error hr

theorem resize_eq_error {f : Fault} (h : p.resize name size idle = (.error f, q)) :
    f = q.outOfMemory name size := by
  rcases resize_cases p name size idle with
    ⟨-, heq⟩ | ⟨old, -, -, ⟨a, r, -, heq⟩ | ⟨f', r, hr, heq⟩⟩ <;> rw [h] at heq <;> cases heq
  unfold Planner.reserveIn at hr
  split at hr
  · split at hr
    · cases hr
    · cases hr
      rfl
  · exact reserve_eq_error hr

end Planner

end TapeCompiler
