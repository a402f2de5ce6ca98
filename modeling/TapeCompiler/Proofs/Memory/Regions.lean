import TapeCompiler.Proofs.Memory.Stacks

/-! # Where blocks lie

`Planner.Laid` says that active blocks share no cell, that every block is a part of memory, and what
keeps it so: each active block lies in a region of the model **in front of its next free cell**, and
the stack region can be wound back to the mark of each open scope (`Rewinds`). Room that was found
is free (`Laid.free`), so a new block keeps it (`Laid.add`). -/

namespace TapeCompiler

/-- Two blocks **share no cell**. -/
def Block.Apart (a b : Block) : Prop := a.stop ≤ b.address ∨ b.stop ≤ a.address

instance : Std.Symm Block.Apart := ⟨fun _ _ => Or.symm⟩

/-- **The stack can be wound back**: the mark of a scope lies behind the blocks on the stack that
the scopes around it own. -/
def Rewinds (blocks : List Block) : List Frame → Prop
  | [] => True
  | f :: rest => f.mark ≤ globalsBase ∧
      (∀ b ∈ blocks, b.active = true → b.stop ≤ globalsBase →
        b.scope ∈ rootScope :: rest.map Frame.tag → b.stop ≤ f.mark) ∧ Rewinds blocks rest

theorem Rewinds.mono {blocks blocks' : List Block} {frames : List Frame}
    (h : Rewinds blocks frames) (hb : ∀ b ∈ blocks', b.active = true →
      ∃ a ∈ blocks, a.active = true ∧ a.stop = b.stop ∧ a.scope = b.scope) :
    Rewinds blocks' frames := by
  induction frames with
  | nil => trivial
  | cons f rest ih =>
    obtain ⟨hmark, hf, hrest⟩ := h
    refine ⟨hmark, fun b hb' hact hstop hscope => ?_, ih hrest⟩
    obtain ⟨a, ha, haact, has, hasc⟩ := hb b hb' hact
    rw [← has] at hstop ⊢
    exact hf a ha haact hstop (hasc ▸ hscope)

/-- A block of the innermost scope, or off the stack, **may be added**. -/
theorem Rewinds.cons {blocks : List Block} {frames : List Frame} (h : Rewinds blocks frames)
    {b : Block} (hb : b.stop ≤ globalsBase → ∀ f rest, f :: rest <:+ frames →
      b.scope ∉ rootScope :: rest.map Frame.tag) : Rewinds (b :: blocks) frames := by
  induction frames with
  | nil => trivial
  | cons f rest ih =>
    obtain ⟨hmark, hf, hrest⟩ := h
    refine ⟨hmark, fun c hc hact hstop hscope => ?_, ih hrest fun hs f' rest' hsuf =>
      hb hs f' rest' (hsuf.trans (List.suffix_cons _ _))⟩
    rcases List.mem_cons.mp hc with rfl | hc
    · exact absurd hscope (hb hstop f rest (List.suffix_refl _))
    · exact hf c hc hact hstop hscope

namespace Planner

variable {p q : Planner} {b : Block} {r : Region} {a size : Nat}

/-- **Where the blocks lie.** -/
structure Laid (p : Planner) : Prop where
  roomy : p.settings.model.hasHeap = true → heapBase < p.settings.memorySize
  sized : ∀ b ∈ p.blocks, 0 < b.size
  fits : ∀ b ∈ p.blocks, b.stop ≤ p.settings.memorySize
  high : ∀ b ∈ p.blocks, b.stop ≤ p.highWater
  apart : ∀ a ∈ p.blocks, ∀ b ∈ p.blocks, a.id ≠ b.id → a.active = true → b.active = true →
    a.Apart b
  borders : ∀ r ∈ p.settings.model.regions, r.first ≤ p.next r ∧ p.next r ≤ r.stop p.settings
  region : ∀ b ∈ p.blocks, b.active = true →
    ∃ r ∈ p.settings.model.regions, r.first ≤ b.address ∧ b.stop ≤ p.next r
  rewinds : p.settings.model = .segmented → Rewinds p.blocks p.frames

/-- **Blocks were given up** and nothing else changed. -/
structure Releases (p q : Planner) : Prop extends p.Shrinks q where
  addresses : ∀ b ∈ q.blocks, ∃ a ∈ p.blocks, a.Becomes b ∧ b.address = a.address
  highWater : q.highWater = p.highWater
  next : ∀ r, q.next r = p.next r

namespace Laid

theorem release (h : p.Laid) (hq : p.Releases q) : q.Laid := by
  have hstop : ∀ b ∈ q.blocks, ∃ a ∈ p.blocks, a.Becomes b ∧ b.address = a.address ∧
      b.stop = a.stop := fun b hb => by
    obtain ⟨a, ha, hab, haddr⟩ := hq.addresses b hb
    exact ⟨a, ha, hab, haddr, by rw [Block.stop, haddr, hab.size, ← Block.stop]⟩
  constructor
  case roomy => rw [hq.settings]; exact h.roomy
  case sized =>
    intro b hb
    obtain ⟨a, ha, hab, -⟩ := hstop b hb
    rw [hab.size]
    exact h.sized a ha
  case fits =>
    intro b hb
    obtain ⟨a, ha, -, -, hs⟩ := hstop b hb
    rw [hs, hq.settings]
    exact h.fits a ha
  case high =>
    intro b hb
    obtain ⟨a, ha, -, -, hs⟩ := hstop b hb
    rw [hs, hq.highWater]
    exact h.high a ha
  case apart =>
    intro b hb c hc hne hbact hcact
    obtain ⟨a, ha, hab, haddr, hs⟩ := hstop b hb
    obtain ⟨a', ha', hac, haddr', hs'⟩ := hstop c hc
    unfold Block.Apart
    rw [hs, hs', haddr, haddr']
    exact h.apart a ha a' ha' (by rwa [← hab.id, ← hac.id]) (hab.active hbact) (hac.active hcact)
  case borders =>
    rw [hq.settings]
    intro r hr
    rw [hq.next]
    exact h.borders r hr
  case region =>
    rw [hq.settings]
    intro b hb hact
    obtain ⟨a, ha, hab, haddr, hs⟩ := hstop b hb
    obtain ⟨r, hr, hfirst, hnext⟩ := h.region a ha (hab.active hact)
    exact ⟨r, hr, haddr ▸ hfirst, by rw [hs, hq.next]; exact hnext⟩
  case rewinds =>
    rw [hq.settings, hq.frames]
    intro hm
    refine (h.rewinds hm).mono fun b hb hact => ?_
    obtain ⟨a, ha, hab, -, hs⟩ := hstop b hb
    exact ⟨a, ha, hab.active hact, hs.symm, hab.scope.symm⟩

/-! ### New blocks -/

/-- **Room that was found is free**, and in memory. -/
theorem free (h : p.Laid) (hq : p.Takes size a q r) :
    a + size ≤ p.settings.memorySize ∧ r.first ≤ a ∧
      ∀ b ∈ p.blocks, b.active = true → b.stop ≤ a ∨ a + size ≤ b.address := by
  have hborder := h.borders r hq.region
  rw [← hq.address] at hborder
  refine ⟨Nat.le_trans hq.room (Region.stop_le h.roomy hq.region), hborder.1, fun b hb hact => ?_⟩
  obtain ⟨s, hs, hfirst, hnext⟩ := h.region b hb hact
  by_cases hrs : r = s
  · subst hrs
    exact Or.inl (hq.address ▸ hnext)
  · have hs' := (h.borders s hs).2
    have hroom := hq.room
    rcases Region.apart hq.region hs hrs with hapart | hapart <;> omega

theorem take (h : p.Laid) (hq : p.Takes size a q r) : q.Laid := by
  have ha := (h.free hq).2.1
  have hnext : ∀ s, p.next s ≤ q.next s := fun s => by
    rw [hq.planner, next_setNext]
    split_ifs with hs
    · rw [hs, ← hq.address]
      omega
    · exact Nat.le_refl _
  obtain ⟨hset, hblocks, -, -, -, -, hframes, -, hhigh, -⟩ := setNext_fields p r (a + size)
  rw [← hq.planner] at hset hblocks hframes hhigh
  constructor
  case roomy => rw [hset]; exact h.roomy
  case sized => rw [hblocks]; exact h.sized
  case fits => rw [hblocks, hset]; exact h.fits
  case high => rw [hblocks, hhigh]; exact h.high
  case apart => rw [hblocks]; exact h.apart
  case borders =>
    rw [hset]
    intro s hs
    refine ⟨Nat.le_trans (h.borders s hs).1 (hnext s), ?_⟩
    rw [hq.planner, next_setNext]
    split_ifs with hrs
    · exact hrs ▸ hq.room
    · exact (h.borders s hs).2
  case region =>
    rw [hset, hblocks]
    intro b hb hact
    obtain ⟨s, hs, hfirst, hstop⟩ := h.region b hb hact
    exact ⟨s, hs, hfirst, Nat.le_trans hstop (hnext s)⟩
  case rewinds => rw [hset, hblocks, hframes]; exact h.rewinds

/-- **A new block where room was found.** A block on the stack belongs to the innermost scope. -/
theorem add (h : p.Laid) (hi : p.Indexed) (hq : p.Takes size a q r) (hs : 0 < size)
    {place : Option Nat} {name scope : String} {references : Nat}
    (hscope : r = .stack → scope = p.scope) :
    (q.add place name a size scope references).Laid := by
  have ht := h.take hq
  obtain ⟨hfits, hfirst, hfree⟩ := h.free hq
  obtain ⟨hset, hblocks, -, -, -, -, hframes, -, -, -⟩ := setNext_fields p r (a + size)
  rw [← hq.planner] at hset hblocks hframes
  have hnew : (⟨q.created, name, a, size, true, scope, references⟩ : Block).stop = a + size := rfl
  constructor
  case roomy => exact ht.roomy
  case sized =>
    intro b hb
    rcases List.mem_cons.mp hb with rfl | hb
    · exact hs
    · exact ht.sized b hb
  case fits =>
    intro b hb
    rcases List.mem_cons.mp hb with rfl | hb
    · rw [hnew]
      exact hset ▸ hfits
    · exact ht.fits b hb
  case high =>
    intro b hb
    rcases List.mem_cons.mp hb with rfl | hb
    · exact Nat.le_max_right _ _
    · exact Nat.le_trans (ht.high b hb) (Nat.le_max_left _ _)
  case apart =>
    intro b hb c hc hne hbact hcact
    rcases List.mem_cons.mp hb with rfl | hb <;> rcases List.mem_cons.mp hc with rfl | hc
    · exact absurd rfl hne
    · exact Or.symm (hfree c (hblocks ▸ hc) hcact)
    · exact hfree b (hblocks ▸ hb) hbact
    · exact ht.apart b hb c hc hne hbact hcact
  case borders => exact ht.borders
  case region =>
    intro b hb hact
    rcases List.mem_cons.mp hb with rfl | hb
    · refine ⟨r, ?_, hfirst, ?_⟩
      · rw [show (q.add place name a size scope references).settings = q.settings from rfl, hset]
        exact hq.region
      · have hnext : q.next r = a + size := by rw [hq.planner, next_setNext, if_pos rfl]
        exact Nat.le_of_eq hnext.symm
    · exact ht.region b hb hact
  case rewinds =>
    intro hm
    refine (ht.rewinds hm).cons fun hstop f rest hsuf hmem => ?_
    rw [hnew] at hstop
    have hr := hq.region
    rw [show p.settings.model = .segmented from hset ▸ hm] at hr
    have hstack : r = .stack := Region.eq_stack hr (by omega)
    rw [hscope hstack] at hmem
    rw [hframes] at hsuf
    exact scope_notMem_around hi.scopes hsuf hmem

/-! ### Scopes -/

theorem enter (h : p.Laid) (name : String) : (p.enter name).2.Laid := by
  refine ⟨h.roomy, h.sized, h.fits, h.high, h.apart, fun r hr => h.borders r hr,
    fun b hb hact => h.region b hb hact, fun hm => ⟨?_, fun b hb hact hstop _ => ?_, h.rewinds hm⟩⟩
  · exact (h.borders .stack (by
      rw [show p.settings.model = .segmented from hm]; decide)).2
  · obtain ⟨r, hr, hfirst, hnext⟩ := h.region b hb hact
    have hsize := h.sized b hb
    have : globalsBase ≤ heapBase := by decide
    rw [show p.settings.model = .segmented from hm] at hr
    simp only [MemoryModel.regions, List.mem_cons, List.not_mem_nil, or_false] at hr
    unfold Block.stop at hstop
    rcases hr with rfl | rfl | rfl
    · exact hnext
    all_goals
      simp only [Region.first] at hfirst
      omega

/-- **Closing a scope** that owns no active block winds the stack back. -/
theorem pop (h : p.Laid) (hi : p.Indexed) {f : Frame} {rest : List Frame}
    (hf : p.frames = f :: rest) (hown : ∀ b ∈ p.blocks, b.active = true → b.scope ≠ f.tag) :
    ({ p with
        frames := rest
        stack := if p.settings.model = .segmented then f.mark else p.stack } : Planner).Laid := by
  have hr : p.settings.model = .segmented → _ := fun hm => hf ▸ h.rewinds hm
  have hnext : ∀ r ∈ p.settings.model.regions,
      (r = .stack ∧ p.settings.model = .segmented) ∨ r ≠ .stack := fun r hr => by
    by_cases hs : r = .stack
    · subst hs
      cases hm : p.settings.model <;> simp_all [MemoryModel.regions]
    · exact Or.inr hs
  constructor
  case roomy => exact h.roomy
  case sized => exact h.sized
  case fits => exact h.fits
  case high => exact h.high
  case apart => exact h.apart
  case borders =>
    intro r hr'
    rcases hnext r hr' with ⟨rfl, hm⟩ | hs
    · simp only [next, hm, if_true]
      exact ⟨Nat.zero_le _, (hr hm).1⟩
    · have := h.borders r hr'
      cases r <;> first | exact this | exact absurd rfl hs
  case region =>
    intro b hb hact
    obtain ⟨r, hr', hfirst, hstop⟩ := h.region b hb hact
    refine ⟨r, hr', hfirst, ?_⟩
    rcases hnext r hr' with ⟨rfl, hm⟩ | hs
    · simp only [next, hm, if_true]
      refine (hr hm).2.1 b hb hact (Nat.le_trans hstop (h.borders _ hr').2) ?_
      have hopen := hi.opened b hb hact
      unfold openScopes at hopen
      rw [hf] at hopen
      simp only [List.map_cons, List.reverse_cons, List.mem_cons, List.mem_append,
        List.mem_reverse, List.not_mem_nil, or_false] at hopen ⊢
      rcases hopen with hs | hs | hs
      · exact Or.inl hs
      · exact Or.inr hs
      · exact absurd hs (hown b hb hact)
    · cases r <;> first | exact hstop | exact absurd rfl hs
  case rewinds => exact fun hm => (hr hm).2.2

end Laid

end Planner

end TapeCompiler
