import TapeCompiler.Proofs.Memory.Owned

/-! # Where the blocks of a name lie

`Planner.spots` lists the blocks of a name by their place alone, **innermost first**; its head is
the block the name stands for. No cell of that block is in another spot (`Sound.apart_spots`).

A planner is calm while nothing was compacted (`Planner.Calm`). A request for a block that leaves it
calm moves no block: the name has one in the innermost scope already, or a new one comes to the
front of its spots (`Held.spots_allocate`). -/

namespace TapeCompiler

/-- Where a block lies, and the tag of the scope that owns it. -/
structure Spot where
  scope : String
  address : Nat
  size : Nat
  deriving DecidableEq, Repr

/-- A cell lies **in a spot**. -/
def Spot.Holds (z : Spot) (c : Nat) : Prop := z.address ≤ c ∧ c < z.address + z.size

/-- The spot of a block. -/
def Block.spot (b : Block) : Spot := ⟨b.scope, b.address, b.size⟩

namespace Planner

variable {p q : Planner} {x y name : String} {size a c : Nat} {idle : Int} {b : Block} {z z' : Spot}

/-- The spots of a name, **innermost first**. -/
def spots (p : Planner) (name : String) : List Spot := ((p.layers name).map Block.spot).reverse

/-- The spots of one name **besides the innermost spot of another**, which may be the same name. -/
def beside (p : Planner) (x y : String) : List Spot :=
  if y = x then (p.spots x).tail else p.spots y

/-- **A cell is taken** by a block of some name. -/
def Claims (p : Planner) (c : Nat) : Prop := ∃ name, ∃ z ∈ p.spots name, z.Holds c

/-- The spot of the block a name stands for is its innermost one. -/
theorem Indexed.head?_spots (h : p.Indexed) (name : String) :
    (p.spots name).head? = (p.visible? name).map Block.spot := by
  rw [spots, List.head?_reverse, List.getLast?_map, h.getLast?_layers]

theorem mem_spots : z ∈ p.spots name ↔ ∃ b ∈ p.layers name, b.spot = z := by
  rw [spots, List.mem_reverse, List.mem_map]

theorem mem_spots_of_mem_beside (h : z ∈ p.beside x y) : z ∈ p.spots y := by
  unfold beside at h
  split_ifs at h with hy
  · exact hy ▸ List.mem_of_mem_tail h
  · exact h

theorem Sound.size_pos (h : p.Sound) (hz : z ∈ p.spots name) : 0 < z.size := by
  obtain ⟨b, hb, rfl⟩ := mem_spots.mp hz
  exact h.laid.sized b (h.indexed.mem_layers.mp hb).1

/-- **The innermost spot of a name** shares no cell with another spot. -/
theorem Sound.apart_spots (h : p.Sound) (hz : (p.spots x).head? = some z)
    (hz' : z' ∈ p.beside x y) (hc : z.Holds c) : ¬ z'.Holds c := by
  rw [h.indexed.head?_spots] at hz
  obtain ⟨b, hb, rfl⟩ := Option.map_eq_some_iff.mp hz
  obtain ⟨hmem, hact⟩ : b ∈ p.blocks ∧ b.active = true :=
    ⟨h.indexed.visible?_mem hb, (h.indexed.visible?_active hb).1⟩
  have hother : ∃ b' ∈ p.layers y, b'.spot = z' ∧ b.id ≠ b'.id := by
    unfold beside at hz'
    split_ifs at hz' with hy
    · subst hy
      have hids := h.indexed.nodup y
      rw [← h.indexed.ids_layers, h.indexed.layers_eq_concat hb, List.map_append] at hids
      rw [spots, h.indexed.layers_eq_concat hb, List.map_append, List.reverse_append] at hz'
      obtain ⟨b', hb', rfl⟩ := List.mem_map.mp (List.mem_reverse.mp hz')
      exact ⟨b', List.dropLast_subset _ hb', rfl, fun hid => (List.nodup_append.mp hids).2.2 _
        (List.mem_map_of_mem hb') _ (List.mem_singleton_self _) hid.symm⟩
    · obtain ⟨b', hb', rfl⟩ := mem_spots.mp hz'
      refine ⟨b', hb', rfl, fun hid => hy ?_⟩
      obtain ⟨hmem', -, hname⟩ := h.indexed.mem_layers.mp hb'
      rw [← hname, ← h.indexed.eq_of_id hmem hmem' hid, (h.indexed.visible?_active hb).2]
  obtain ⟨b', hb', rfl, hid⟩ := hother
  obtain ⟨hmem', hact', -⟩ := h.indexed.mem_layers.mp hb'
  have hap := h.laid.apart b hmem b' hmem' hid hact hact'
  unfold Block.Apart Block.stop at hap
  unfold Spot.Holds Block.spot at *
  simp only at *
  omega

/-! ### Scopes and references -/

@[simp] theorem spots_enter (p : Planner) (scope : String) : (p.enter scope).2.spots = p.spots :=
  rfl

theorem Indexed.scope_mem (h : p.Indexed) (hz : z ∈ p.spots name) : z.scope ∈ p.openScopes := by
  obtain ⟨b, hb, rfl⟩ := mem_spots.mp hz
  obtain ⟨hmem, hact, -⟩ := h.mem_layers.mp hb
  exact h.opened b hmem hact

theorem openScopes_leave {outer : List String} {tag : String} (ho : outer ≠ [])
    (h : p.openScopes = outer ++ [tag]) :
    ∃ f rest, p.frames = f :: rest ∧ f.tag = tag ∧ p.leave.2.openScopes = outer := by
  cases hf : p.frames with
  | nil =>
    have hroot : outer ++ [tag] = [] ++ [rootScope] := by
      rw [← h, openScopes, hf]
      rfl
    exact absurd (List.append_inj' hroot rfl).1 ho
  | cons f rest =>
    have hopen : p.openScopes = (rootScope :: (rest.map Frame.tag).reverse) ++ [f.tag] := by
      simp [openScopes, hf]
    obtain ⟨houter, htag⟩ := List.append_inj' (h.symm.trans hopen) rfl
    refine ⟨f, rest, rfl, (List.cons.inj htag).1.symm, ?_⟩
    unfold leave openScopes
    rw [hf]
    exact houter.symm

theorem Sound.spots_leave (h : p.Sound) {f : Frame} {rest : List Frame}
    (hf : p.frames = f :: rest) (name : String) :
    p.leave.2.spots name = (p.spots name).filter fun z => z.scope ≠ f.tag := by
  rw [spots, spots, h.layers_leave hf, List.filter_reverse, List.filter_map]
  rfl

theorem Held.spots_addReference (h : p.Held) (x : String) :
    (p.addReference x).2.spots = p.spots := by
  funext name
  obtain ⟨f, hf, hlayers⟩ := h.exists_layers_addReference x name
  rw [spots, spots, hlayers, List.map_map]
  refine congrArg List.reverse (List.map_congr_left fun c _ => ?_)
  rcases hf c with hc | hc
  · rw [Function.comp, hc]
  · rw [Function.comp, hc]
    rfl

/-! ### Calm planners -/

/-- **Nothing was compacted**: the model does not compact, or nothing was collected yet. -/
def Calm (p : Planner) : Prop := p.settings.model.compacts = true → p.collections = 0

instance (p : Planner) : Decidable p.Calm :=
  inferInstanceAs (Decidable (p.settings.model.compacts = true → p.collections = 0))

/-- What came after a planner: the settings are the same, and collections **are not undone**. -/
structure Precedes (p q : Planner) : Prop where
  settings : q.settings = p.settings
  collections : p.collections ≤ q.collections

theorem Precedes.refl (p : Planner) : p.Precedes p := ⟨rfl, Nat.le_refl _⟩

theorem Precedes.trans {r : Planner} (h : p.Precedes q) (h' : q.Precedes r) : p.Precedes r :=
  ⟨h'.settings.trans h.settings, Nat.le_trans h.collections h'.collections⟩

theorem Precedes.calm (h : p.Precedes q) (hq : q.Calm) : p.Calm := fun hm =>
  Nat.le_zero.mp (hq (h.settings ▸ hm) ▸ h.collections)

/-- A step from a planner to a later one, which **notes no move** if it stays calm. -/
structure Settles (p q : Planner) : Prop extends p.Precedes q where
  moves : q.Calm → q.moves = p.moves

theorem settles_collect (h : p.Settles q) (forced : Bool) : p.Settles (q.collect forced).2 := by
  unfold Planner.collect
  simp only
  split
  · next hm =>
    exact ⟨⟨h.settings, Nat.le_succ_of_le h.collections⟩, fun hc => nomatch hc hm⟩
  · next hm =>
    exact ⟨⟨h.settings, Nat.le_succ_of_le h.collections⟩, fun _ =>
      h.moves fun hm' => absurd hm' hm⟩

theorem settles_setNext (p : Planner) (r : Region) (n : Nat) : p.Settles (p.setNext r n) := by
  cases r <;> exact ⟨⟨rfl, Nat.le_refl _⟩, fun _ => rfl⟩

theorem settles_reserve (hq : p.reserve name size idle = (.ok a, q)) : p.Settles q := by
  obtain ⟨r, hr, hplace⟩ := reserve_eq_ok (P := p.Settles)
    (fun _ forced h => settles_collect h forced) ⟨.refl p, fun _ => rfl⟩ hq
  obtain ⟨region, htakes⟩ := place_eq_some hplace
  have hset := settles_setNext r region (a + size)
  rw [← htakes.planner] at hset
  exact ⟨hr.toPrecedes.trans hset.toPrecedes, fun hc =>
    (hset.moves hc).trans (hr.moves (hset.toPrecedes.calm hc))⟩

theorem precedes_allocate (hq : p.allocate name size idle = (.ok a, q)) : p.Precedes q := by
  rcases allocate_eq_ok hq with ⟨-, -, -, -, rfl⟩ | ⟨-, r, hr, rfl⟩
  · exact .refl _
  · exact ⟨(settles_reserve hr).settings, (settles_reserve hr).collections⟩

theorem precedes_resize {moved : Relocation}
    (hq : p.resize name size idle = (.ok (some moved), q)) : p.Precedes q := by
  obtain ⟨old, r, -, -, -, hr, rfl⟩ := resize_eq_ok hq
  suffices h : (p.drop name old.id).Precedes r from ⟨h.settings, h.collections⟩
  unfold Planner.reserveIn at hr
  split at hr
  · split at hr
    · next hheap =>
      obtain ⟨n, -, he⟩ := Option.map_eq_some_iff.mp hheap
      obtain ⟨-, rfl⟩ := Prod.mk.inj he
      obtain ⟨-, rfl⟩ := Prod.mk.inj hr
      exact ⟨rfl, Nat.le_refl _⟩
    · cases hr
  · exact (settles_reserve hr).toPrecedes

/-! ### Requests -/

/-- **A request for a block that leaves the planner calm** moves nothing: the name has a block in
the innermost scope, or a new one comes to the front of its spots. -/
theorem Held.spots_allocate (h : p.Held) (hq : p.allocate name size idle = (.ok a, q))
    (hc : q.Calm) : q.moves = p.moves ∧ q.frames = p.frames ∧
    ((∃ z, (p.spots name).head? = some z ∧ z.scope = p.scope ∧ z.address = a ∧
        q.spots = p.spots) ∨
      ((∀ z ∈ (p.spots name).head?, z.scope ≠ p.scope) ∧
        q.spots name = ⟨p.scope, a, max size 1⟩ :: p.spots name ∧
        ∀ other, other ≠ name → q.spots other = p.spots other)) := by
  rcases allocate_eq_ok hq with ⟨b, hb, hs, rfl, rfl⟩ | ⟨hnone, r, hr, hqr⟩
  · refine ⟨rfl, rfl, Or.inl ⟨b.spot, ?_, hs, rfl, rfl⟩⟩
    rw [h.sound.indexed.head?_spots, hb, Option.map_some]
  · have hsound : q.Sound := (h.allocate hq).1.sound
    subst hqr
    obtain ⟨⟨keep, moves, hspares⟩, hshrinks⟩ := h.sound.spares_reserve name (max size 1) idle
    rw [hr] at hspares hshrinks
    have hmoves : r.moves = p.moves := (settles_reserve hr).moves hc
    obtain rfl : moves = [] := by
      have hnoted := hspares.noted
      rw [hmoves] at hnoted
      exact List.self_eq_append_right.mp hnoted
    have hold : ∀ other, r.layers other = p.layers other := fun other => by
      rw [h.layers_spared hspares ((h.reserve hr).2 other)]
      exact List.map_id _
    have hnew := layers_add hsound.indexed (by simp)
    refine ⟨hmoves, hshrinks.frames, Or.inr ⟨fun z hz hs => ?_, ?_, fun other hne => ?_⟩⟩
    · rw [h.sound.indexed.head?_spots] at hz
      obtain ⟨b, hb, rfl⟩ := Option.map_eq_some_iff.mp hz
      have : b.scope = p.scope := hs
      simp [hb, this] at hnone
    · rw [spots, hnew, hold, if_pos rfl, List.map_append, List.reverse_append]
      rfl
    · rw [spots, hnew, hold, if_neg hne, List.append_nil]
      rfl

end Planner

end TapeCompiler
