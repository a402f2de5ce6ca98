import TapeCompiler.Proofs.Memory.Referred
import TapeCompiler.Proofs.Memory.Relocating
import Mathlib.Data.List.Forall2

/-! # The blocks of a name

`Planner.layers` lists the blocks of a name, the innermost last. Here is what each request does to
the list of every name: a collection moves the blocks, a new block goes to the end, a move to a
larger block changes the last one, and leaving a scope takes its blocks out. Nothing but the last
**loses a block**: each is carried along (`Block.Carried`). -/

namespace TapeCompiler

/-- A block was **taken along** by a map of addresses and lost neither cells nor references. -/
structure Block.Carried (f : Nat → Nat) (b c : Block) : Prop where
  name : c.name = b.name
  scope : c.scope = b.scope
  address : c.address = f b.address
  size : b.size ≤ c.size
  references : b.references ≤ c.references

theorem Block.carried_follow (moves : List Relocation) (b : Block) :
    b.Carried (relocate moves) (b.follow moves) :=
  ⟨rfl, rfl, rfl, Nat.le_refl _, Nat.le_refl _⟩

theorem Block.Carried.trans {f g : Nat → Nat} {a b c : Block} (h : a.Carried f b)
    (h' : b.Carried g c) : a.Carried (g ∘ f) c where
  name := h'.name.trans h.name
  scope := h'.scope.trans h.scope
  address := by rw [h'.address, h.address, Function.comp]
  size := Nat.le_trans h.size h'.size
  references := Nat.le_trans h.references h'.references

theorem Block.forall₂_carried_trans {f g : Nat → Nat} {l m n : List Block}
    (h : List.Forall₂ (Carried f) l m) (h' : List.Forall₂ (Carried g) m n) :
    List.Forall₂ (Carried (g ∘ f)) l n := by
  induction h generalizing n with
  | nil =>
    cases h'
    exact .nil
  | cons hab _ ih =>
    cases h' with
    | cons hbc hrest => exact .cons (hab.trans hbc) (ih hrest)

theorem Block.exists_of_carried {f : Nat → Nat} {l m : List Block} {c : Block}
    (h : List.Forall₂ (Carried f) l m) (hc : c ∈ m) : ∃ b ∈ l, b.Carried f c := by
  induction h with
  | nil => cases hc
  | cons hab _ ih =>
    rcases List.mem_cons.mp hc with rfl | hc
    · exact ⟨_, List.mem_cons_self, hab⟩
    · obtain ⟨b, hb, hbc⟩ := ih hc
      exact ⟨b, List.mem_cons_of_mem _ hb, hbc⟩

namespace Planner

variable {p q : Planner} {name : String} {size a : Nat} {idle : Int} {b : Block}
  {keep : Block → Bool} {moves : List Relocation}

/-! ### Moves and new blocks -/

/-- **Blocks that are all referred to** follow the moves that were noted. -/
theorem Held.layers_spared (h : p.Held) (hs : p.Spares q keep moves)
    (hb : q.bound name = p.bound name) :
    q.layers name = (p.layers name).map (Block.follow moves) := by
  unfold layers
  rw [List.map_filterMap, hb]
  refine List.filterMap_congr fun id hid => ?_
  obtain ⟨b, hb, rfl, hact, -⟩ := (h.sound.indexed.mem name id).mp hid
  have hlive : b.live = true := by simp [Block.live, hact, h.referred b hb hact]
  rw [hs.numbered?_eq h.sound.indexed hb (hs.live b hb hlive), h.sound.indexed.numbered?_eq hb]
  rfl

theorem layers_add {place : Option Nat} {scope : String} {references : Nat}
    (h : (p.add place name a size scope references).Indexed)
    (hplace : ∀ k ∈ place, (p.bound name).length ≤ k) (other : String) :
    (p.add place name a size scope references).layers other = p.layers other ++
      if other = name then [⟨p.created, name, a, size, true, scope, references⟩] else [] := by
  have hbound := bound_add hplace a size scope references
  let new : Block := ⟨p.created, name, a, size, true, scope, references⟩
  have hnew : new ∈ (p.add place name a size scope references).blocks := List.mem_cons_self
  -- the number of the new block was on no stack
  have hfresh : ∀ other, p.created ∉ p.bound other := fun other hm => by
    have hmem : p.created ∈ (p.add place name a size scope references).bound other := by
      rw [hbound]
      split_ifs with hn
      · exact List.mem_append_right _ (by simp)
      · exact hm
    obtain ⟨c, hc, hid, -, hname⟩ := (h.mem other p.created).mp hmem
    obtain rfl := h.eq_of_id hc hnew hid
    obtain rfl : name = other := hname
    have hnodup := h.nodup name
    rw [hbound, if_pos rfl] at hnodup
    exact (List.nodup_append.mp hnodup).2.2 _ hm _ (List.mem_singleton_self _) rfl
  have hold : ∀ other, (p.bound other).filterMap
      (p.add place name a size scope references).numbered? = p.layers other := fun other =>
    List.filterMap_congr fun id hid => by
      have hne : ¬ p.created = id := fun he => hfresh other (he ▸ hid)
      unfold numbered?
      rw [show (p.add place name a size scope references).blocks = new :: p.blocks from rfl,
        List.find?_cons_of_neg (by simpa [new] using hne)]
  rw [layers, hbound]
  split_ifs with hn
  · subst hn
    rw [List.filterMap_append, hold, List.filterMap_cons_some (h.numbered?_eq hnew)]
    rfl
  · rw [hold, List.append_nil]

/-! ### Changes of single blocks -/

theorem numbered?_map {g : Block → Block} (hq : q.blocks = p.blocks.map g)
    (hg : ∀ b, (g b).id = b.id) (id : Nat) : q.numbered? id = (p.numbered? id).map g := by
  unfold numbered?
  have hid : ((fun b : Block => decide (b.id = id)) ∘ g) = fun b => decide (b.id = id) :=
    funext fun b => by simp [hg b]
  rw [hq, List.find?_map, hid]

/-- **A block that was given up** was the last one of its name. -/
theorem Sound.layers_drop (h : p.Sound) (hv : p.visible? name = some b) (other : String) :
    (p.drop name b.id).layers other =
      if other = name then (p.layers name).dropLast else p.layers other := by
  have hb := h.indexed.visible?_mem hv
  have hname := (h.indexed.visible?_active hv).2
  obtain ⟨hl, hnot⟩ := h.indexed.bound_eq_concat hv
  -- the blocks with the other numbers are as before
  have hat : ∀ id, id ≠ b.id → (p.drop name b.id).numbered? id = p.numbered? id := fun id hid => by
    rw [numbered?_map (p := p) (g := fun c => if c.id = b.id then c.release else c) rfl fun c => by
      split_ifs <;> rfl]
    cases hf : p.numbered? id with
    | none => rfl
    | some c =>
      have hc : c.id = id := by simpa using List.find?_some (show List.find? _ p.blocks = _ from hf)
      rw [Option.map_some, if_neg (hc ▸ hid)]
  unfold layers
  rw [h.indexed.bound_drop hv]
  split_ifs with hn
  · conv_rhs => rw [hl, List.filterMap_append,
      List.filterMap_cons_some (h.indexed.numbered?_eq hb), List.filterMap_nil,
      List.dropLast_concat]
    exact List.filterMap_congr fun id hid => hat id fun he => hnot (he ▸ hid)
  · refine List.filterMap_congr fun id hid => hat id fun he => ?_
    obtain ⟨c, hc, hcid, -, hcname⟩ := (h.indexed.mem other id).mp hid
    obtain rfl := h.indexed.eq_of_id hc hb (hcid.trans he)
    exact hn (hcname.symm.trans hname)

theorem Sound.layers_leave (h : p.Sound) {f : Frame} {rest : List Frame}
    (hf : p.frames = f :: rest) (other : String) :
    p.leave.2.layers other = (p.layers other).filter fun b => b.scope ≠ f.tag := by
  have hat : ∀ id, p.leave.2.numbered? id = (p.numbered? id).map fun c =>
      if c.activeIn f.tag then { c with active := false } else c := by
    refine numbered?_map ?_ fun c => by split_ifs <;> rfl
    unfold Planner.leave
    rw [hf]
    rfl
  have hbound : p.leave.2.bound other = (p.bound other).filter fun i =>
      ∀ b ∈ p.allocations.filter (Block.activeIn f.tag), b.name = other → b.id ≠ i := by
    unfold Planner.leave
    rw [hf]
    exact Stacks.of_foldl_without _ _ _ (h.indexed.nodup other)
  unfold layers
  rw [hbound, List.filterMap_filter, List.filter_filterMap]
  refine List.filterMap_congr fun id hid => ?_
  obtain ⟨b, hb, rfl, hact, hname⟩ := (h.indexed.mem other id).mp hid
  rw [hat, h.indexed.numbered?_eq hb]
  have hiff : (∀ c ∈ p.allocations.filter (Block.activeIn f.tag), c.name = other → c.id ≠ b.id) ↔
      b.scope ≠ f.tag := by
    constructor
    · intro hall hs
      exact hall b (by simp [allocations, Block.activeIn, hb, hact, hs]) hname rfl
    · intro hs c hc _ hid
      simp only [allocations, Block.activeIn, List.mem_filter, List.mem_reverse, Bool.and_eq_true,
        decide_eq_true_eq] at hc
      exact hs (h.indexed.eq_of_id hc.1 hb hid ▸ hc.2.2)
  simp only [hiff]
  by_cases hs : b.scope = f.tag <;> simp [hs, Option.filter, Block.activeIn]

/-! ### Requests -/

/-- **A request for a block** changes nothing if the innermost scope has one of the name; else the
new block goes behind the others of its name. -/
theorem Held.layers_allocate (h : p.Held) (hq : p.allocate name size idle = (.ok a, q)) :
    (∃ b, p.visible? name = some b ∧ b.scope = p.scope ∧ a = b.address ∧ q = p) ∨
    ((∀ b, p.visible? name = some b → b.scope ≠ p.scope) ∧ q.frames = p.frames ∧ ∃ moves new,
      q.moves = p.moves ++ moves ∧ new.scope = p.scope ∧ new.address = a ∧ ∀ other,
        q.layers other = (p.layers other).map (Block.follow moves) ++
          if other = name then [new] else []) := by
  have hsound : q.Sound := (h.allocate hq).1.sound
  rcases allocate_eq_ok hq with hown | ⟨hnone, r, hr, rfl⟩
  · exact Or.inl hown
  · obtain ⟨⟨keep, moves, hspares⟩, hshrinks⟩ := h.sound.spares_reserve name (max size 1) idle
    rw [hr] at hspares hshrinks
    refine Or.inr ⟨fun b hb hs => ?_, hshrinks.frames, moves,
      ⟨r.created, name, a, max size 1, true, p.scope, 1⟩, hspares.noted, rfl, rfl, fun other => ?_⟩
    · simp [hb, hs] at hnone
    · rw [layers_add hsound.indexed (by simp),
        h.layers_spared hspares ((h.reserve hr).2 other)]

theorem Sound.newAddress?_of_ne (h : p.Sound) {old : Block} (hold : old ∈ p.blocks)
    (hactive : old.active = true) (hb : b ∈ p.blocks) (hact : b.active = true)
    (hid : b.id ≠ old.id) (target : Nat) :
    Relocation.newAddress? ⟨old.address, target, old.size⟩ b.address = none := by
  have hsize := h.laid.sized b hb
  refine if_neg ?_
  rcases h.laid.apart old hold b hb (Ne.symm hid) hactive hact with hap | hap <;>
    unfold Block.stop at hap <;> simp only <;> omega

/-- **A move to a larger block** carries all blocks along: the old one goes to the new one and the
others where the moves take them. -/
theorem Held.layers_resize (h : p.Held) {moved : Relocation}
    (hq : p.resize name size idle = (.ok (some moved), q)) :
    q.frames = p.frames ∧ ∃ moves, q.moves = p.moves ++ moves ∧ ∀ other,
      List.Forall₂ (Block.Carried fun c => (moved.newAddress? c).getD (relocate moves c))
        (p.layers other) (q.layers other) := by
  have hsound : q.Sound := (h.resize hq).1.sound
  obtain ⟨old, r, hv, hlt, hmoved, hr, rfl⟩ := resize_eq_ok hq
  obtain ⟨hold, -⟩ := h.sound.indexed.visible?_iff.mp hv
  obtain ⟨hactive, hname⟩ := h.sound.indexed.visible?_active hv
  have hsize := h.sound.laid.sized old hold
  have hd := h.drop hv
  obtain ⟨⟨keep, moves, hspares⟩, hshrinks⟩ := hd.sound.spares_reserveIn old.scope name size idle
  rw [hr] at hspares hshrinks
  have hbound := (hd.reserveIn hr).2
  have hplace := (Indexed.shadows_drop h.sound hv).2
  refine ⟨hshrinks.frames, moves, hspares.noted, fun other => ?_⟩
  have hself : moved.newAddress? old.address = some moved.target := by
    rw [hmoved, Relocation.newAddress?, if_pos ⟨Nat.le_refl _, Nat.lt_add_of_pos_right hsize⟩,
      Nat.sub_self, Nat.add_zero]
  -- the blocks that are left are not in the way of the old one
  have hothers : List.Forall₂
      (Block.Carried fun c => (moved.newAddress? c).getD (relocate moves c))
      ((p.drop name old.id).layers other) (r.layers other) := by
    rw [hd.layers_spared hspares (hbound other), List.forall₂_map_right_iff, List.forall₂_same]
    intro c hc
    obtain ⟨hc, hact, -⟩ := hd.sound.indexed.mem_layers.mp hc
    obtain ⟨d, hd', rfl⟩ := List.mem_map.mp hc
    split_ifs at hact ⊢ with hid
    · cases hact
    · obtain ⟨hcn, hcs, hca, hcz, hcr⟩ := d.carried_follow moves
      refine ⟨hcn, hcs, ?_, hcz, hcr⟩
      rw [hmoved, h.sound.newAddress?_of_ne hold hactive hd' hact hid, Option.getD_none]
      exact hca
  rw [layers_add hsound.indexed fun k hk => by rw [hbound]; exact hplace k hk]
  rw [h.sound.layers_drop hv] at hothers
  split_ifs at hothers ⊢ with hn
  · subst hn
    rw [h.sound.indexed.layers_eq_concat hv]
    refine List.rel_append hothers (List.Forall₂.cons ?_ List.Forall₂.nil)
    refine ⟨hname.symm, rfl, ?_, Nat.le_of_lt hlt, Nat.le_max_left _ _⟩
    rw [hself, Option.getD_some]
  · rwa [List.append_nil]

theorem Held.layers_collect (h : p.Held) (forced : Bool) :
    (p.collect forced).2.frames = p.frames ∧ ∃ moves,
      (p.collect forced).2.moves = p.moves ++ moves ∧ ∀ other,
        (p.collect forced).2.layers other = (p.layers other).map (Block.follow moves) := by
  obtain ⟨⟨moves, hspares, -⟩, -⟩ := h.sound.spares_collect forced
  exact ⟨(h.sound.collect forced).2.frames, moves, hspares.noted, fun other =>
    h.layers_spared hspares ((h.collect forced).2 other)⟩

/-- Another reference to a name changes **a count of references** and nothing else. -/
theorem Held.exists_layers_addReference (h : p.Held) (name other : String) :
    ∃ f : Block → Block, (∀ c, f c = c ∨ f c = { c with references := c.references + 1 }) ∧
      (p.addReference name).2.layers other = (p.layers other).map f := by
  have hbound := (h.addReference name).2 other
  cases hv : p.visible? name with
  | none =>
    refine ⟨id, fun c => Or.inl rfl, ?_⟩
    rw [List.map_id, Planner.addReference, refer, hv]
  | some b =>
    refine ⟨fun c => if c.id = b.id then { c with references := c.references + 1 } else c,
      fun c => ?_, ?_⟩
    · dsimp only
      split_ifs
      · exact Or.inr rfl
      · exact Or.inl rfl
    · unfold layers
      rw [hbound, List.map_filterMap]
      refine List.filterMap_congr fun id _ => numbered?_map (p := p) ?_ (fun c => ?_) id
      · rw [Planner.addReference, refer, hv]
        rfl
      · split_ifs <;> rfl

theorem Held.layers_addReference (h : p.Held) (name other : String) :
    List.Forall₂ (Block.Carried id) (p.layers other) ((p.addReference name).2.layers other) := by
  obtain ⟨f, hf, hlayers⟩ := h.exists_layers_addReference name other
  rw [hlayers, List.forall₂_map_right_iff, List.forall₂_same]
  intro c _
  rcases hf c with hc | hc <;> rw [hc]
  · exact ⟨rfl, rfl, rfl, Nat.le_refl _, Nat.le_refl _⟩
  · exact ⟨rfl, rfl, rfl, Nat.le_refl _, Nat.le_succ _⟩

end Planner

end TapeCompiler
