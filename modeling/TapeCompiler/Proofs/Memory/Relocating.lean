import TapeCompiler.Proofs.Memory.Sound

/-! # Where collections move blocks

The moves of a compaction take every cell of a block to where the block is put
(`relocate_movesOf`). A collection spares exactly the live blocks and changes nothing but their
addresses (`Sound.spares_collect`). Packed blocks stay where they are (`Cursor.pack_pack`), so **a
collection right after another moves nothing** (`Compacted.collect`). Looking for room may collect
twice, and the moves it makes are therefore those of one collection (`Sound.spares_reserve`). -/

namespace TapeCompiler

/-- The block **where moves take** its first cell. -/
def Block.follow (moves : List Relocation) (b : Block) : Block :=
  { b with address := relocate moves b.address }

theorem relocate_cons (m : Relocation) (moves : List Relocation) (a : Nat) :
    relocate (m :: moves) a = (m.newAddress? a).getD (relocate moves a) := by
  unfold relocate
  rw [List.findSome?_cons]
  cases m.newAddress? a <;> rfl

namespace Planner

/-! ### The moves of a packing -/

theorem movesOf_cons (b c : Block) (l m : List Block) :
    movesOf (b :: l) (c :: m) = if b.address = c.address then movesOf l m
      else ⟨b.address, c.address, b.size⟩ :: movesOf l m := by
  unfold movesOf
  rw [List.zip_cons_cons, List.filterMap_cons]
  simp only
  split_ifs <;> rfl

/-- A cell outside the blocks is not moved. -/
theorem relocate_movesOf_outside {l m : List Block} {a : Nat}
    (h : ∀ b ∈ l, ¬ (b.address ≤ a ∧ a < b.stop)) : relocate (movesOf l m) a = a := by
  induction l generalizing m with
  | nil => rfl
  | cons b l ih =>
    cases m with
    | nil => rfl
    | cons c m =>
      have hl := ih (m := m) fun b hb => h b (by simp [hb])
      rw [movesOf_cons]
      split_ifs
      · exact hl
      · have hb : ¬ (b.address ≤ a ∧ a < b.address + b.size) := h b (by simp)
        rw [relocate_cons, Relocation.newAddress?, if_neg hb]
        exact hl

/-- **Every cell of a block** is moved to where the block is put. -/
theorem relocate_movesOf {l m : List Block} (h : l.Pairwise fun a b => a.stop ≤ b.address)
    {b c : Block} (hz : (b, c) ∈ l.zip m) {a : Nat} (ha : b.address ≤ a) (ha' : a < b.stop) :
    relocate (movesOf l m) a = c.address + (a - b.address) := by
  induction l generalizing m with
  | nil => simp at hz
  | cons b' l ih =>
    cases m with
    | nil => simp at hz
    | cons c' m =>
      obtain ⟨hfirst, hrest⟩ := List.pairwise_cons.mp h
      rw [movesOf_cons]
      rcases List.mem_cons.mp hz with hz | hz
      · cases hz
        split_ifs with heq
        · have hout : relocate (movesOf l m) a = a := relocate_movesOf_outside fun d hd hda => by
            have := hfirst d hd
            omega
          rw [hout]
          omega
        · rw [relocate_cons, Relocation.newAddress?, if_pos ⟨ha, ha'⟩]
          rfl
      · have hout : ¬ (b'.address ≤ a ∧ a < b'.address + b'.size) := fun hin => by
          have := hfirst b (List.of_mem_zip hz).1
          unfold Block.stop at this
          omega
        split_ifs
        · exact ih hrest hz
        · rw [relocate_cons, Relocation.newAddress?, if_neg hout]
          exact ih hrest hz

theorem Cursor.pack_pack {model : MemoryModel} {k : Cursor} {l : List Block}
    (h : Fits model k l) : k.pack model (k.pack model l) = k.pack model l := by
  induction l generalizing k with
  | nil => rfl
  | cons a l ih =>
    -- a block does not change its region
    have hheap : ({ a with address := k.target model a } : Block).inHeap model =
        a.inHeap model := by
      rw [Bool.eq_iff_iff, inHeap_iff, inHeap_iff]
      refine and_congr_right fun hm => ⟨fun hle => Nat.le_trans hle (h.ahead a (by simp)),
        fun hle => ?_⟩
      rw [target, if_pos (inHeap_iff.mpr ⟨hm, hle⟩)]
      exact h.heap
    have htarget : k.target model { a with address := k.target model a } = k.target model a := by
      rw [target, hheap, ← target]
    have hnext : k.next model { a with address := k.target model a } = k.next model a := by
      rw [next, hheap, ← next]
    rw [pack, pack, htarget, hnext, ih h.tail]

variable {p q : Planner} {b : Block}

theorem packed_eq_map (h : p.Laid) (hi : p.Indexed) (hact : ∀ b ∈ p.blocks, b.active = true) :
    p.packed = p.sorted.map p.put := by
  have hids : p.packed.map Block.id = p.sorted.map Block.id := Cursor.ids_pack
  have hnodup : (p.packed.map Block.id).Nodup := hids ▸ nodup_sorted hi
  have hlen : p.packed.length = p.sorted.length := by simpa using congrArg List.length hids
  refine List.ext_getElem (by rw [hlen, List.length_map]) fun n h₁ h₂ => ?_
  rw [List.length_map] at h₂
  have hput := packed_put h hi hact (mem_sorted.mp (List.getElem_mem h₂))
  rw [List.getElem_map]
  refine List.inj_on_of_nodup_map hnodup (List.getElem_mem h₁) hput.1 ?_
  rw [hput.2.id]
  have := congrArg (fun l : List Nat => l[n]?) hids
  simpa [h₁, h₂] using this

theorem perm_sorted (p : Planner) : p.sorted.Perm p.blocks :=
  (List.mergeSort_perm _ _).trans (List.reverse_perm _)

theorem sorted_compact (h : p.Sound) (hact : ∀ b ∈ p.blocks, b.active = true)
    (hm : p.settings.model.compacts = true) : p.compact.2.sorted = p.packed := by
  have hc := h.compact hact hm
  have hall : ∀ c ∈ p.compact.2.blocks, c.active = true := fun c hc => by
    obtain ⟨b, hb, rfl⟩ := List.mem_map.mp hc
    exact (packed_put h.laid h.indexed hact hb).2.activity.trans (hact b hb)
  refine List.Perm.eq_of_pairwise (fun a b ha _ hab hba => ?_)
    (fits_sorted hc.laid hc.indexed hall).sorted
    (Cursor.packs (fits_sorted h.laid h.indexed hact)).1 ?_
  · have := hc.laid.sized a (mem_sorted.mp ha)
    unfold Block.stop at hab hba
    omega
  · rw [packed_eq_map h.laid h.indexed hact]
    exact (perm_sorted _).trans ((perm_sorted p).symm.map _)

/-- **Every cell of a block** is taken to where a compaction puts the block. -/
theorem whole_put (h : p.Laid) (hi : p.Indexed) (hact : ∀ b ∈ p.blocks, b.active = true)
    (hb : b ∈ p.blocks) {k : Nat} (hk : k < b.size) :
    relocate (movesOf p.sorted p.packed) (b.address + k) = (p.put b).address + k := by
  have hz : (b, p.put b) ∈ p.sorted.zip p.packed := by
    rw [packed_eq_map h hi hact, List.zip_map_right]
    refine List.mem_map.mpr ⟨(b, b), ?_, rfl⟩
    obtain ⟨n, hn, rfl⟩ := List.getElem_of_mem (mem_sorted.mpr hb)
    exact List.mem_iff_getElem.mpr ⟨n, by simpa using hn, by simp⟩
  rw [relocate_movesOf (fits_sorted h hi hact).sorted hz (Nat.le_add_right _ _)
    (by unfold Block.stop; omega), Nat.add_sub_cancel_left]

theorem put_eq_follow (h : p.Laid) (hi : p.Indexed) (hact : ∀ b ∈ p.blocks, b.active = true)
    (hb : b ∈ p.blocks) : p.put b = b.follow (movesOf p.sorted p.packed) := by
  have hput := (packed_put h hi hact hb).2
  have haddress := whole_put h hi hact hb (h.sized b hb)
  obtain ⟨⟨hid, hname, hsize, hscope, -⟩, hactive, hreferences, -, -, -⟩ := hput
  cases hc : p.put b with
  | mk id name address size active scope references =>
    rw [hc] at hid hname hsize hscope hactive hreferences haddress
    simp only [Nat.add_zero] at *
    subst hid hname hsize hscope hactive hreferences
    rw [Block.follow, haddress]

/-! ### Collections -/

/-- **Nothing to collect**: no block would be swept or moved. -/
structure Compacted (p : Planner) : Prop where
  live : ∀ b ∈ p.blocks, b.live = true
  packed : p.settings.model.compacts = true → p.packed = p.sorted

/-- **A collection with nothing to collect** reports nothing and keeps the blocks, the stacks and
the moves. -/
theorem Compacted.collect (h : p.Compacted) (hi : p.Indexed) (forced : Bool) :
    (p.collect forced).1 = ⟨0, 0, 0, forced⟩ ∧ (p.collect forced).2.blocks = p.blocks ∧
      (p.collect forced).2.bindings = p.bindings ∧ (p.collect forced).2.moves = p.moves := by
  have hswept : p.sweep.1 = [] := by
    refine List.filter_eq_nil_iff.mpr fun b hb => ?_
    simp [h.live b (by simpa [allocations] using hb)]
  have hblocks : p.sweep.2.blocks = p.blocks := List.filter_eq_self.mpr h.live
  have hbindings : p.sweep.2.bindings = p.bindings := by
    show (p.sweep.1).foldl _ _ = _
    rw [hswept]
    rfl
  have hsettings : p.sweep.2.settings = p.settings := rfl
  unfold Planner.collect
  simp only
  rw [hswept]
  split
  · next hm =>
    have hsorted : p.sweep.2.sorted = p.sorted := by
      unfold sorted allocations
      rw [hblocks]
    have hpacked : p.sweep.2.packed = p.sorted := by
      rw [← h.packed hm]
      unfold Planner.packed
      rw [hsorted, hsettings]
    have hmoves : movesOf p.sweep.2.sorted p.sweep.2.packed = [] := by
      rw [hsorted, hpacked]
      generalize p.sorted = l
      induction l with
      | nil => rfl
      | cons b l ih => rw [movesOf_cons, if_pos rfl, ih]
    refine ⟨?_, ?_, hbindings, ?_⟩
    · show (⟨_, _, (movesOf p.sweep.2.sorted p.sweep.2.packed).length, forced⟩ : Sweep) = _
      rw [hmoves]
      rfl
    · show p.sweep.2.blocks.map p.sweep.2.put = p.blocks
      rw [hblocks]
      refine (List.map_congr_left fun b hb => ?_).trans (List.map_id _)
      unfold put
      rw [hpacked]
      cases hf : p.sorted.find? fun c => c.id = b.id with
      | none => rfl
      | some c =>
        exact hi.eq_of_id (mem_sorted.mp (List.mem_of_find?_eq_some hf)) hb
          (by simpa using List.find?_some hf)
    · show p.sweep.2.moves ++ movesOf p.sweep.2.sorted p.sweep.2.packed = p.moves
      rw [hmoves, List.append_nil]
      rfl
  · exact ⟨rfl, hblocks, hbindings, rfl⟩

/-- **A compaction** of live blocks leaves nothing to collect. -/
theorem Sound.compacted_compact (h : p.Sound) (hlive : ∀ b ∈ p.blocks, b.live = true)
    (hm : p.settings.model.compacts = true) : p.compact.2.Compacted := by
  have hact : ∀ b ∈ p.blocks, b.active = true := fun b hb => live_active (hlive b hb)
  refine ⟨fun c hc => ?_, fun _ => ?_⟩
  · rw [blocks_compact] at hc
    obtain ⟨b, hb, rfl⟩ := List.mem_map.mp hc
    rw [put_eq_follow h.laid h.indexed hact hb]
    exact hlive b hb
  · rw [packed, sorted_compact h hact hm]
    exact Cursor.pack_pack (fits_sorted h.laid h.indexed hact)

/-! ### Blocks that are spared -/

variable {keep : Block → Bool} {moves : List Relocation}

/-- **Some blocks were spared**, all live ones among them: they are where the moves that were noted
take every cell of theirs. The others are gone. -/
structure Spares (p q : Planner) (keep : Block → Bool) (moves : List Relocation) : Prop where
  noted : q.moves = p.moves ++ moves
  live : ∀ b ∈ p.blocks, b.live = true → keep b = true
  blocks : q.blocks = (p.blocks.filter keep).map (Block.follow moves)
  whole : ∀ b ∈ p.blocks, keep b = true → ∀ k < b.size,
    relocate moves (b.address + k) = relocate moves b.address + k

theorem Spares.refl (p : Planner) : p.Spares p (fun _ => true) [] where
  noted := (List.append_nil _).symm
  live _ _ _ := rfl
  blocks := by
    rw [List.filter_eq_self.mpr fun _ _ => rfl]
    exact (List.map_id _).symm
  whole _ _ _ _ _ := rfl

theorem Spares.congr {r : Planner} (h : p.Spares q keep moves) (hb : r.blocks = q.blocks)
    (hm : r.moves = q.moves) : p.Spares r keep moves :=
  ⟨hm.trans h.noted, h.live, hb.trans h.blocks, h.whole⟩

theorem Spares.numbered?_eq (h : p.Spares q keep moves) (hi : p.Indexed) (hb : b ∈ p.blocks)
    (hk : keep b = true) : q.numbered? b.id = some (b.follow moves) := by
  unfold numbered?
  rw [h.blocks, List.find?_map, Option.map_eq_some_iff]
  refine ⟨b, ?_, rfl⟩
  cases hf : (p.blocks.filter keep).find? ((fun c : Block => decide (c.id = b.id)) ∘
      Block.follow moves) with
  | none =>
    exact absurd (List.find?_eq_none.mp hf b (List.mem_filter.mpr ⟨hb, hk⟩))
      (by simp [Block.follow])
  | some c =>
    have hid := List.find?_some hf
    have hid : c.id = b.id := of_decide_eq_true (p := (c.follow moves).id = b.id) hid
    have hc := (List.mem_filter.mp (List.mem_of_find?_eq_some hf)).1
    rw [hi.eq_of_id hc hb hid]

/-- **A collection spares exactly the live blocks**, and leaves nothing to collect. -/
theorem Sound.spares_collect (h : p.Sound) (forced : Bool) :
    (∃ moves, p.Spares (p.collect forced).2 Block.live moves ∧
      (p.settings.model.compacts = false → moves = [])) ∧ (p.collect forced).2.Compacted := by
  have hsweep := h.sweep
  have hlive : ∀ b ∈ p.sweep.2.blocks, b.live = true := fun b hb => (List.mem_filter.mp hb).2
  have hact := p.active_sweep
  unfold Planner.collect
  simp only
  split
  · next hm =>
    have hcompacted := hsweep.compacted_compact hlive hm
    have hput : ∀ b ∈ p.sweep.2.blocks, p.sweep.2.put b = _ := fun b hb =>
      put_eq_follow hsweep.laid hsweep.indexed hact hb
    refine ⟨⟨movesOf p.sweep.2.sorted p.sweep.2.packed,
      ⟨rfl, fun _ _ => id, List.map_congr_left hput, fun b hb hb' k hk => ?_⟩,
      fun hm' => absurd (show p.settings.model.compacts = true from hm) (by simp [hm'])⟩,
      hcompacted.live, hcompacted.packed⟩
    have hb : b ∈ p.sweep.2.blocks := List.mem_filter.mpr ⟨hb, hb'⟩
    rw [whole_put hsweep.laid hsweep.indexed hact hb hk, hput b hb]
    rfl
  · next hm =>
    exact ⟨⟨[], ⟨(List.append_nil _).symm, fun _ _ => id, (List.map_id _).symm,
      fun _ _ _ _ _ => rfl⟩, fun _ => rfl⟩, hlive, fun hm' => absurd hm' hm⟩

/-! ### Looking for room -/

theorem shrinks_setNext (p : Planner) (r : Region) (n : Nat) : p.Shrinks (p.setNext r n) := by
  obtain ⟨hsettings, hblocks, hbindings, -, -, hcreated, hframes, hopened, -, -⟩ :=
    setNext_fields p r n
  refine ⟨hsettings, hcreated, hopened, hframes, by rw [hblocks], fun b hb => ?_, fun name => ?_⟩
  · exact ⟨b, hblocks ▸ hb, rfl, rfl, rfl, rfl, id⟩
  · rw [bound, hbindings, ← bound]

/-- **Looking for room** spares the live blocks: a second collection finds nothing to collect. -/
theorem Sound.spares_reserve (h : p.Sound) (name : String) (size : Nat) (idle : Int) :
    (∃ keep moves, p.Spares (p.reserve name size idle).2 keep moves) ∧
      p.Shrinks (p.reserve name size idle).2 := by
  have hcollect : ∀ (r : Planner) (forced : Bool),
      (r.Sound ∧ p.Shrinks r ∧ ∃ keep moves, p.Spares r keep moves ∧ (r = p ∨ r.Compacted)) →
      let s := (r.collect forced).2
      s.Sound ∧ p.Shrinks s ∧ ∃ keep moves, p.Spares s keep moves ∧ (s = p ∨ s.Compacted) := by
    rintro r forced ⟨hr, hpr, keep, moves, hspares, hcase⟩
    obtain ⟨⟨moves', hspares', -⟩, hcompacted⟩ := hr.spares_collect forced
    refine ⟨(hr.collect forced).1, hpr.trans (hr.collect forced).2, ?_⟩
    rcases hcase with rfl | hc
    · exact ⟨_, moves', hspares', Or.inr hcompacted⟩
    · obtain ⟨-, hblocks, -, hmoves⟩ := hc.collect hr.indexed forced
      exact ⟨keep, moves, hspares.congr hblocks hmoves, Or.inr hcompacted⟩
  rcases reserve_cases hcollect ⟨h, Shrinks.refl p, _, _, Spares.refl p, Or.inl rfl⟩ name size idle
    with ⟨r, a, q, ⟨-, hpr, keep, moves, hspares, -⟩, hplace, heq⟩ |
      ⟨r, f, ⟨-, hpr, keep, moves, hspares, -⟩, heq⟩
  · obtain ⟨region, htakes⟩ := place_eq_some hplace
    obtain ⟨-, hblocks, -, -, -, -, -, -, -, hmoves⟩ := setNext_fields r region (a + size)
    rw [heq, htakes.planner]
    exact ⟨⟨keep, moves, hspares.congr hblocks hmoves⟩, hpr.trans (shrinks_setNext r _ _)⟩
  · rw [heq]
    exact ⟨⟨keep, moves, hspares⟩, hpr⟩

theorem Sound.spares_reserveIn (h : p.Sound) (scope name : String) (size : Nat) (idle : Int) :
    (∃ keep moves, p.Spares (p.reserveIn scope name size idle).2 keep moves) ∧
      p.Shrinks (p.reserveIn scope name size idle).2 := by
  unfold Planner.reserveIn
  split
  · next hm =>
    split
    · next hheap =>
      have htakes := takes_of_placeInHeap (by rw [hm.1]; rfl) hheap
      obtain ⟨-, hblocks, -, -, -, -, -, -, -, hmoves⟩ := setNext_fields p .heap _
      rw [htakes.planner]
      exact ⟨⟨_, _, (Spares.refl p).congr hblocks hmoves⟩, shrinks_setNext p .heap _⟩
    · exact ⟨⟨_, _, Spares.refl p⟩, Shrinks.refl p⟩
  · exact h.spares_reserve name size idle

end Planner

end TapeCompiler
