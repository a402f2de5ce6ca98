import TapeCompiler.Proofs.Memory.Relocating
import TapeCompiler.Proofs.Memory.Runs
import Mathlib.Algebra.BigOperators.Group.List.Basic

/-! # What survives a collection

Packed blocks tile the cells from the start of their region on, in the order in which they lay
(`Cursor.tiles_pack`). A collection therefore keeps exactly the live blocks, closes the gaps between
them and tells where each of their cells went (`Sound.collects`). A request for a block may collect
twice and be refused; `Planner.Retains` is what it leaves of the blocks there were **in any case**
(`Sound.retains_allocate`, `Sound.retains_resize`). -/

namespace TapeCompiler

/-- Blocks **tile** the cells from one to another: each starts where the one before ends. -/
def Block.Tiles (first : Nat) : List Block → Nat → Prop
  | [], last => last = first
  | b :: rest, last => b.address = first ∧ Tiles b.stop rest last

/-- Moves close the gaps between blocks: these **tile the cells from one on**, in the order in which
they lay. -/
def Block.Fills (moves : List Relocation) (first : Nat) (l : List Block) : Prop :=
  ∃ ordered : List Block, ordered.Perm l ∧ ordered.Pairwise (fun a b => a.address < b.address) ∧
    Block.Tiles first (ordered.map (Block.follow moves)) (first + Block.total l)

namespace Planner

variable {p q r : Planner} {name : String} {size a : Nat} {idle : Int} {b : Block}
  {keep : Block → Bool} {moves : List Relocation}

theorem total_perm {l l' : List Block} (h : l.Perm l') : Block.total l = Block.total l' := by
  rw [total_eq_sum, total_eq_sum]
  exact (h.map Block.size).sum_eq

/-! ### Tiles -/

namespace Cursor

variable {model : MemoryModel} {k : Cursor} {l : List Block}

/-- The next free cell in front of the heap, or in it. -/
def place (k : Cursor) (heap : Bool) : Nat := if heap then k.heap else k.low

theorem target_eq_place (k : Cursor) (b : Block) :
    k.target model b = k.place (b.inHeap model) := rfl

theorem place_next (k : Cursor) (b : Block) (heap : Bool) : (k.next model b).place heap =
    k.place heap + if b.inHeap model = heap then b.size else 0 := by
  unfold next place
  cases heap <;> cases b.inHeap model <;> rfl

/-- **The next free cell behind blocks** counts the cells of those in its region. -/
theorem place_foldl_next (k : Cursor) (l : List Block) (heap : Bool) :
    (l.foldl (Cursor.next model) k).place heap =
      k.place heap + Block.total (l.filter fun b => b.inHeap model = heap) := by
  induction l generalizing k with
  | nil => rfl
  | cons a l ih =>
    rw [List.foldl_cons, ih, place_next]
    by_cases ha : a.inHeap model = heap
    · rw [if_pos ha, List.filter_cons_of_pos (by simpa using ha), Block.total, Nat.add_assoc]
    · rw [if_neg ha, List.filter_cons_of_neg (by simpa using ha), Nat.add_zero]

/-- **Packed blocks tile** each region from its next free cell on. -/
theorem tiles_pack {g : Block → Block} (hg : k.pack model l = l.map g) (heap : Bool) :
    Block.Tiles (k.place heap) ((l.filter fun b => b.inHeap model = heap).map g)
      (k.place heap + Block.total (l.filter fun b => b.inHeap model = heap)) := by
  induction l generalizing k with
  | nil => rfl
  | cons a l ih =>
    obtain ⟨ha, hl⟩ := List.cons.inj (show _ :: _ = g a :: l.map g from hg)
    have hrest := ih hl
    rw [place_next] at hrest
    by_cases hheap : a.inHeap model = heap
    · rw [if_pos hheap] at hrest
      rw [List.filter_cons_of_pos (by simpa using hheap), List.map_cons, Block.total,
        ← Nat.add_assoc]
      refine ⟨by rw [← ha, target_eq_place, hheap], ?_⟩
      rwa [← ha, Block.stop, target_eq_place, hheap]
    · rw [if_neg hheap, Nat.add_zero] at hrest
      rwa [List.filter_cons_of_neg (by simpa using hheap)]

end Cursor

theorem pairwise_address_sorted (h : p.Laid) (hi : p.Indexed)
    (hact : ∀ b ∈ p.blocks, b.active = true) :
    p.sorted.Pairwise fun a b => a.address < b.address := by
  refine (fits_sorted h hi hact).sorted.imp_of_mem fun {a b} ha _ hab => ?_
  have := h.sized a (mem_sorted.mp ha)
  unfold Block.stop at hab
  omega

theorem perm_sorted_sweep (p : Planner) (heap : Bool) :
    (p.sweep.2.sorted.filter fun b => b.inHeap p.settings.model = heap).Perm
      (p.blocks.filter fun b => b.live && b.inHeap p.settings.model = heap) := by
  refine ((perm_sorted p.sweep.2).filter _).trans (.of_eq ?_)
  rw [show p.sweep.2.blocks = p.blocks.filter Block.live from rfl, List.filter_filter]
  simp only [Bool.and_comm]

theorem blocks_collect (hm : p.settings.model.compacts = true) (forced : Bool) :
    (p.collect forced).2.blocks = p.sweep.2.blocks.map p.sweep.2.put := by
  unfold Planner.collect
  simp only
  rw [if_pos (show p.sweep.2.settings.model.compacts = true from hm)]
  rfl

/-- **A collection of a model that compacts closes the gaps** between the live blocks of a
region. -/
theorem Sound.fills_collect (h : p.Sound) (hm : p.settings.model.compacts = true) {forced : Bool}
    (hs : p.Spares (p.collect forced).2 Block.live moves) (heap : Bool) :
    Block.Fills moves (if heap then heapBase else 0)
      (p.blocks.filter fun b => b.live && b.inHeap p.settings.model = heap) := by
  have hsweep := h.sweep
  have hact := p.active_sweep
  have hfollow : ∀ b ∈ p.sweep.2.sorted, p.sweep.2.put b = b.follow moves := fun b hb => by
    have hblocks := hs.blocks
    rw [blocks_collect hm] at hblocks
    exact List.map_inj_left.mp hblocks b (mem_sorted.mp hb)
  have hperm := perm_sorted_sweep p heap
  refine ⟨_, hperm, (pairwise_address_sorted hsweep.laid hsweep.indexed hact).filter _, ?_⟩
  rw [← total_perm hperm]
  refine Cursor.tiles_pack (k := ⟨0, heapBase⟩) ?_ heap
  exact (packed_eq_map hsweep.laid hsweep.indexed hact).trans (List.map_congr_left hfollow)

/-! ### Collections -/

/-- **What a collection does**, if the moves made before it were handed over. -/
structure Collects (p q : Planner) (s : Sweep) : Prop where
  /-- Exactly the live blocks are kept, and nothing but their addresses changes. -/
  blocks : q.blocks = (p.blocks.filter Block.live).map (Block.follow q.takeMoves.1)
  /-- The moves take every cell of a live block along. -/
  whole : ∀ b ∈ p.blocks, b.live = true → ∀ k < b.size,
    relocate q.takeMoves.1 (b.address + k) = (b.follow q.takeMoves.1).address + k
  collected : s.collected = p.blocks.countP fun b => !b.live
  freed : q.activeCells + s.freedCells = p.activeCells
  dynamic : p.settings.model = .dynamic →
    Block.Fills q.takeMoves.1 0 (p.blocks.filter Block.live)
  hybrid : p.settings.model = .hybrid →
    Block.Fills q.takeMoves.1 0 (p.blocks.filter fun b => b.live && b.address < heapBase) ∧
    Block.Fills q.takeMoves.1 heapBase (p.blocks.filter fun b => b.live && heapBase ≤ b.address)
  still : p.settings.model = .static ∨ p.settings.model = .segmented →
    q.takeMoves.1 = [] ∧ q.blocks = p.blocks.filter Block.live
  /-- Another collection finds nothing to collect or to move. -/
  again : ∀ forced, (q.collect forced).1 = ⟨0, 0, 0, forced⟩ ∧
    (q.collect forced).2.blocks = q.blocks ∧ (q.collect forced).2.takeMoves.1 = q.takeMoves.1

theorem Sound.collects (h : p.Sound) (hm : p.moves = []) :
    p.Collects (p.collect false).2 (p.collect false).1 := by
  have hsound := (h.collect false).1
  obtain ⟨⟨moves, hspares, hstill⟩, hcompacted⟩ := h.spares_collect false
  have hmoves : (p.collect false).2.takeMoves.1 = moves := by
    rw [takeMoves, hspares.noted, hm, List.nil_append]
  constructor
  case blocks => rw [hmoves]; exact hspares.blocks
  case whole => rw [hmoves]; exact hspares.whole
  case collected =>
    show (p.allocations.filter fun b => !b.live).length = _
    rw [allocations, ← List.countP_eq_length_filter, List.countP_reverse]
  case freed =>
    have hcells : (p.collect false).2.activeCells = p.sweep.2.activeCells := by
      unfold Planner.collect
      simp only
      split <;> rfl
    rw [hcells, h.sweep.activeCells]
    show _ + Block.total (p.allocations.filter fun b => !b.live) = _
    rw [h.activeCells, allocations, List.filter_reverse, total_reverse]
    exact total_filter p.blocks Block.live
  case dynamic =>
    intro hmodel
    have hfills := h.fills_collect (by rw [hmodel]; rfl) hspares false
    simpa [Block.inHeap, hmodel, hmoves] using hfills
  case hybrid =>
    intro hmodel
    have hfills := h.fills_collect (by rw [hmodel]; rfl) hspares
    have hlow := hfills false
    have hheap := hfills true
    simp only [Block.inHeap, hmodel, decide_true, Bool.true_and, decide_eq_false_iff_not,
      decide_eq_true_eq, Nat.not_le, if_true, Bool.false_eq_true, if_false] at hlow hheap
    rw [hmoves]
    exact ⟨hlow, hheap⟩
  case still =>
    intro hmodel
    have hnone := hstill (by rcases hmodel with hmodel | hmodel <;> rw [hmodel] <;> rfl)
    rw [hmoves, hspares.blocks, hnone]
    exact ⟨rfl, List.map_id _⟩
  case again =>
    intro forced
    obtain ⟨hsweep, hblocks, -, hmoves⟩ := hcompacted.collect hsound.indexed forced
    exact ⟨hsweep, hblocks, hmoves⟩

/-! ### Requests for blocks -/

/-- **What a request leaves** of the blocks there were, if it makes some moves: the live ones that
it does not give up keep their place on the stack of their name, and every cell of each block still
there is where the moves take it. -/
structure Retains (p q : Planner) (lost : Option Block) (moves : List Relocation) : Prop where
  noted : q.moves = p.moves ++ moves
  kept : ∀ b ∈ p.blocks, b.live = true → lost ≠ some b →
    b.follow moves ∈ q.blocks ∧ b.id ∈ q.bound b.name
  whole : ∀ b ∈ p.blocks, ∀ c ∈ q.blocks, c.id = b.id → ∀ k < b.size,
    relocate moves (b.address + k) = c.address + k

/-- Blocks that are spared are **retained beside new ones**. -/
theorem Spares.retains (h : p.Spares r keep moves) (hp : p.Indexed) (hq : q.Indexed)
    (hm : q.moves = r.moves) (hold : ∀ c ∈ r.blocks, c ∈ q.blocks)
    (hnew : ∀ c ∈ q.blocks, c ∈ r.blocks ∨ p.created ≤ c.id) : p.Retains q none moves where
  noted := hm.trans h.noted
  kept b hb hlive _ := by
    have hmem : b.follow moves ∈ q.blocks := by
      refine hold _ ?_
      rw [h.blocks]
      exact List.mem_map_of_mem (List.mem_filter.mpr ⟨hb, h.live b hb hlive⟩)
    exact ⟨hmem, (hq.mem b.name b.id).mpr ⟨_, hmem, rfl, live_active hlive, rfl⟩⟩
  whole b hb c hc hid k hk := by
    rcases hnew c hc with hc | hc
    · rw [h.blocks] at hc
      obtain ⟨d, hd, rfl⟩ := List.mem_map.mp hc
      obtain ⟨hd, hkeep⟩ := List.mem_filter.mp hd
      obtain rfl := hp.eq_of_id hd hb hid
      exact h.whole d hd hkeep k hk
    · have := hp.created b hb
      omega

/-- **A request for a block** retains the live ones, whether or not it succeeds. -/
theorem Sound.retains_allocate (h : p.Sound) (name : String) (size : Nat) (idle : Int) :
    ∃ moves, p.Retains (p.allocate name size idle).2 none moves := by
  have hsound := h.allocate name size idle
  obtain ⟨⟨keep, moves, hspares⟩, hshrinks⟩ := h.spares_reserve name (max size 1) idle
  rcases allocate_cases p name size idle with
    ⟨b, -, -, heq⟩ | ⟨-, ⟨a, r, hr, heq⟩ | ⟨f, r, hr, heq⟩⟩
  · rw [heq]
    exact ⟨[], (Spares.refl p).retains h.indexed h.indexed rfl (fun _ => id) fun _ => Or.inl⟩
  · rw [hr] at hspares hshrinks
    rw [heq] at hsound ⊢
    refine ⟨moves, hspares.retains h.indexed hsound.indexed rfl
      (fun _ => List.mem_cons_of_mem _) fun c hc => ?_⟩
    rcases List.mem_cons.mp hc with rfl | hc
    · exact Or.inr (Nat.le_of_eq hshrinks.created.symm)
    · exact Or.inl hc
  · rw [hr] at hspares
    rw [heq] at hsound ⊢
    exact ⟨moves, hspares.retains h.indexed hsound.indexed rfl (fun _ => id) fun _ => Or.inl⟩

theorem Retains.of_drop (h : p.Sound) (hv : p.visible? name = some b)
    (hr : (p.drop name b.id).Retains q none moves) : p.Retains q (some b) moves where
  noted := hr.noted
  kept c hc hlive hne := by
    have hid : c.id ≠ b.id := fun hid =>
      hne (congrArg some (h.indexed.eq_of_id (h.indexed.visible?_mem hv) hc hid.symm))
    exact hr.kept c (List.mem_map.mpr ⟨c, hc, if_neg hid⟩) hlive nofun
  whole c hc d hd hid k hk := by
    have hmem : (if c.id = b.id then c.release else c) ∈ (p.drop name b.id).blocks :=
      List.mem_map_of_mem hc
    split_ifs at hmem
    · exact hr.whole c.release hmem d hd hid k hk
    · exact hr.whole c hmem d hd hid k hk

/-- **A request for a larger block** retains the live ones but the one it gives up, whether or not
it succeeds. -/
theorem Sound.retains_resize (h : p.Sound) (name : String) (size : Nat) (idle : Int) :
    ∃ moves, p.Retains (p.resize name size idle).2 (p.visible? name) moves := by
  have hsound := h.resize name size idle
  rcases resize_cases p name size idle with ⟨-, heq⟩ | ⟨old, hv, -, hres⟩
  · rw [heq]
    have hrefl := (Spares.refl p).retains h.indexed h.indexed rfl (fun _ => id) fun _ => Or.inl
    exact ⟨[], hrefl.noted, fun b hb hlive _ => hrefl.kept b hb hlive nofun, hrefl.whole⟩
  · have hd := (h.drop hv).1
    obtain ⟨⟨keep, moves, hspares⟩, hshrinks⟩ := hd.spares_reserveIn old.scope name size idle
    rw [hv]
    rcases hres with ⟨a, r, hr, heq⟩ | ⟨f, r, hr, heq⟩ <;> rw [hr] at hspares hshrinks <;>
      rw [heq] at hsound ⊢
    · refine ⟨moves, .of_drop h hv (hspares.retains hd.indexed hsound.indexed rfl
        (fun _ => List.mem_cons_of_mem _) fun c hc => ?_)⟩
      rcases List.mem_cons.mp hc with rfl | hc
      · exact Or.inr (Nat.le_of_eq hshrinks.created.symm)
      · exact Or.inl hc
    · exact ⟨moves, .of_drop h hv (hspares.retains hd.indexed hsound.indexed rfl (fun _ => id)
        fun _ => Or.inl)⟩

/-! ### Runs -/

/-- **Collections keep exactly the live blocks**, without gaps and in order, and their moves are
faithful; so are those of every single request for a block, whichever requests came before, whether
or not they succeeded and whenever collections were due. -/
theorem collection_keeps_live {c : PlannerSettings} (h : Planner.new c = .ok p)
    (requests : List (Int × Request)) (hm : (p.run requests).moves = []) :
    let r := p.run requests
    r.Collects (r.collect false).2 (r.collect false).1 ∧
      ∀ name size idle,
        r.Retains (r.allocate name size idle).2 none (r.allocate name size idle).2.takeMoves.1 ∧
        r.Retains (r.resize name size idle).2 (r.visible? name)
          (r.resize name size idle).2.takeMoves.1 := by
  intro r
  have hsound : r.Sound := (sound_new h).run requests
  have hmoves : ∀ {q : Planner} {lost moves}, r.Retains q lost moves → q.takeMoves.1 = moves :=
    fun hq => hq.noted.trans (by rw [hm, List.nil_append])
  refine ⟨hsound.collects hm, fun name size idle => ?_⟩
  obtain ⟨moves, hallocate⟩ := hsound.retains_allocate name size idle
  obtain ⟨moves', hresize⟩ := hsound.retains_resize name size idle
  rw [hmoves hallocate, hmoves hresize]
  exact ⟨hallocate, hresize⟩

/-- One block of either region of hybrid memory is not live; the blocks behind them move. -/
theorem collection_keeps_live_of_hybrid :
    let c : PlannerSettings := { model := .hybrid, memorySize := 2000 }
    let p : Planner := ⟨c, [], [], 0, 0, 0, [], 0, 0, heapBase, globalsBase, 0, 0, 0, [], 0⟩
    let requests : List (Int × Request) :=
      [(0, .allocate "a" 2), (0, .allocate "b" 1), (0, .allocate "s" 5), (0, .allocate "t" 3),
        (0, .deallocate "a"), (0, .removeReference "s")]
    let r := p.run requests
    Planner.new c = .ok p ∧ r.moves = [] ∧
      r.blocks.map (fun b => (b.address, b.size, b.live)) =
        [(1029, 3, true), (1024, 5, false), (2, 1, true), (0, 2, false)] ∧
      r.Collects (r.collect false).2 (r.collect false).1 ∧
      ∀ name size idle,
        r.Retains (r.allocate name size idle).2 none (r.allocate name size idle).2.takeMoves.1 ∧
        r.Retains (r.resize name size idle).2 (r.visible? name)
          (r.resize name size idle).2.takeMoves.1 := by
  intro c p requests r
  have hp : Planner.new c = .ok p := by decide +kernel
  have hm : r.moves = [] := by decide +kernel
  exact ⟨hp, hm, by decide +kernel, collection_keeps_live hp requests hm⟩

end Planner

end TapeCompiler
