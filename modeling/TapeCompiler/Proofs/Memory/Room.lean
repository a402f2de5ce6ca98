import TapeCompiler.Proofs.Memory.Referred
import TapeCompiler.Proofs.Memory.Survivors

/-! # When memory is full

In a model that compacts, `Planner.tight` gives the next free cells once nothing but the live blocks
is left, without gaps. They never lie behind the next free cells of the planner (`Sound.tight_le`),
a collection brings the planner to them (`next_collect`), and another one finds the same
(`Sound.tight_collect`). A request for a block is therefore refused **if and only if the live blocks
leave no room for it** (`Sound.allocate_refused_iff`), however the blocks lie and whether or not a
collection was due. -/

namespace TapeCompiler

namespace Planner

variable {p q : Planner} {name : String} {size : Nat} {idle : Int} {b : Block}

/-! ### Next free cells -/

/-- **No room** for cells behind the next free ones, in a model that compacts. -/
def Cursor.Full (c : PlannerSettings) (k : Cursor) (size : Nat) : Prop :=
  if c.model = .hybrid then
    c.memorySize < k.heap + size ∧ (size ≤ 2 → heapBase < k.low + size)
  else c.memorySize < k.low + size

theorem Cursor.Full.mono {c : PlannerSettings} {k k' : Cursor} (h : k.Full c size)
    (hlow : k.low ≤ k'.low) (hheap : c.model = .hybrid → k.heap ≤ k'.heap) : k'.Full c size := by
  unfold Full at h ⊢
  split_ifs at h ⊢ with hm
  · have := hheap hm
    exact ⟨by omega, fun hsize => Nat.lt_of_lt_of_le (h.2 hsize) (Nat.add_le_add_right hlow _)⟩
  · omega

theorem bump_eq_none_iff {next limit : Nat} :
    bump next size limit = none ↔ limit < next + size := by
  unfold bump
  split_ifs with h
  · simpa using h
  · simpa using h

theorem place_eq_none_iff (hm : p.settings.model.compacts = true) :
    p.place size = none ↔ Cursor.Full p.settings ⟨p.low, p.heap⟩ size := by
  unfold place placeLow placeInHeap Cursor.Full
  cases hmodel : p.settings.model <;> rw [hmodel] at hm
  case static | segmented => cases hm
  case dynamic => simp [bump_eq_none_iff]
  case hybrid =>
    rw [if_pos rfl]
    split_ifs with hsize <;> simp [bump_eq_none_iff, hsize, and_comm]

/-! ### Live blocks without gaps -/

/-- The next free cells **behind the live blocks**, once there are no gaps between them. -/
def tight (p : Planner) : Cursor :=
  ⟨Block.total (p.blocks.filter fun b => b.live && b.inHeap p.settings.model = false),
    heapBase + Block.total (p.blocks.filter fun b => b.live && b.inHeap p.settings.model = true)⟩

/-- The live blocks are packed **up to there**. -/
theorem foldl_sorted_sweep (p : Planner) :
    p.sweep.2.sorted.foldl (Cursor.next p.settings.model) ⟨0, heapBase⟩ = p.tight := by
  have hplace : ∀ heap,
      (p.sweep.2.sorted.foldl (Cursor.next p.settings.model) ⟨0, heapBase⟩).place heap =
        p.tight.place heap := fun heap => by
    rw [Cursor.place_foldl_next, total_perm (perm_sorted_sweep p heap)]
    cases heap
    · exact Nat.zero_add _
    · rfl
  exact congrArg₂ Cursor.mk (hplace false) (hplace true)

/-- **The live blocks fit** in front of the next free cells. -/
theorem Sound.tight_le (h : p.Sound) (hm : p.settings.model.compacts = true) :
    p.tight.low ≤ p.low ∧ (p.settings.model = .hybrid → p.tight.heap ≤ p.heap) := by
  have hsweep := h.sweep
  have hact := p.active_sweep
  have hfits := fits_sorted hsweep.laid hsweep.indexed hact
  -- each block lies in front of the next free cell of its region
  have hregion : ∀ b ∈ p.sweep.2.sorted,
      (b.inHeap p.settings.model = false → b.stop ≤ p.low) ∧
        (b.inHeap p.settings.model = true → b.stop ≤ p.heap) := fun b hb => by
    have hb := mem_sorted.mp hb
    have hsize := hsweep.laid.sized b hb
    obtain ⟨r, hr, hfirst, hstop⟩ := hsweep.laid.region b hb (hact b hb)
    have hborder := (hsweep.laid.borders r hr).2
    rcases (MemoryModel.mem_regions_of_compacts (show p.sweep.2.settings.model.compacts = true
      from hm)).mp hr with rfl | ⟨hmodel, rfl⟩
    · refine ⟨fun _ => hstop, fun hheap => ?_⟩
      obtain ⟨hmodel, hle⟩ := Cursor.inHeap_iff.mp hheap
      rw [Region.stop, if_pos (show p.sweep.2.settings.model = .hybrid from hmodel)] at hborder
      unfold Block.stop at hstop
      omega
    · refine ⟨fun hlow => ?_, fun _ => hstop⟩
      have hheap : b.inHeap p.settings.model = true := Cursor.inHeap_iff.mpr ⟨hmodel, hfirst⟩
      rw [hheap] at hlow
      cases hlow
  obtain ⟨hlow, hheap⟩ := Cursor.foldl_next_le hfits p.low (max heapBase p.heap) (Nat.zero_le _)
    (fun b hb => (hregion b hb).1) (Nat.le_max_left _ _)
    fun b hb hin => Nat.le_trans ((hregion b hb).2 hin) (Nat.le_max_right _ _)
  rw [show p.sweep.2.settings = p.settings from rfl, foldl_sorted_sweep] at hlow hheap
  refine ⟨hlow, fun hmodel => Nat.le_trans hheap (Nat.max_le.mpr ⟨?_, Nat.le_refl _⟩)⟩
  exact (h.laid.borders .heap ((MemoryModel.mem_regions_of_compacts hm).mpr
    (Or.inr ⟨hmodel, rfl⟩))).1

/-- **A collection leaves no gaps.** -/
theorem next_collect (hm : p.settings.model.compacts = true) (forced : Bool) :
    (p.collect forced).2.low = p.tight.low ∧
      (p.settings.model = .hybrid → (p.collect forced).2.heap = p.tight.heap) := by
  rw [← foldl_sorted_sweep]
  unfold Planner.collect
  simp only
  rw [if_pos (show p.sweep.2.settings.model.compacts = true from hm)]
  exact ⟨rfl, fun hmodel => if_pos hmodel⟩

theorem inHeap_put (h : p.Laid) (hi : p.Indexed) (hact : ∀ b ∈ p.blocks, b.active = true)
    (hb : b ∈ p.blocks) : (p.put b).inHeap p.settings.model = b.inHeap p.settings.model := by
  obtain ⟨-, -, -, hle, hfirst, -⟩ := (packed_put h hi hact hb).2
  rw [Bool.eq_iff_iff, Cursor.inHeap_iff, Cursor.inHeap_iff]
  refine and_congr_right fun hm => ⟨fun hc => Nat.le_trans hc hle, fun hc => ?_⟩
  rwa [Cursor.target, if_pos (Cursor.inHeap_iff.mpr ⟨hm, hc⟩)] at hfirst

theorem Sound.tight_collect (h : p.Sound) (hm : p.settings.model.compacts = true) (forced : Bool) :
    (p.collect forced).2.tight = p.tight := by
  have hsweep := h.sweep
  have hact := p.active_sweep
  have htotal : ∀ heap : Bool,
      Block.total ((p.collect forced).2.blocks.filter fun b =>
          b.live && b.inHeap p.settings.model = heap) =
        Block.total (p.blocks.filter fun b => b.live && b.inHeap p.settings.model = heap) :=
    fun heap => by
    have hput : ∀ b ∈ p.sweep.2.blocks, (p.sweep.2.put b).live = b.live ∧
        (p.sweep.2.put b).inHeap p.settings.model = b.inHeap p.settings.model := fun b hb => by
      refine ⟨?_, inHeap_put hsweep.laid hsweep.indexed hact hb⟩
      rw [put_eq_follow hsweep.laid hsweep.indexed hact hb]
      rfl
    rw [blocks_collect hm, List.filter_map, total_map _ fun b hb =>
        (packed_put hsweep.laid hsweep.indexed hact (List.mem_filter.mp hb).1).2.size,
      List.filter_congr (q := fun b => b.inHeap p.settings.model = heap) fun b hb => ?_]
    · rw [show p.sweep.2.blocks = p.blocks.filter Block.live from rfl, List.filter_filter]
      simp only [Bool.and_comm]
    · obtain ⟨hlive, hheap⟩ := hput b hb
      simp [hlive, hheap, (List.mem_filter.mp hb).2]
  unfold tight
  rw [settings_collect, htotal, htotal]

/-! ### Requests that are refused -/

/-- **Room is refused** if and only if the live blocks leave none. -/
theorem Sound.reserve_refused_iff (h : p.Sound) (hm : p.settings.model.compacts = true)
    (name : String) (size : Nat) (idle : Int) :
    (∃ f q, p.reserve name size idle = (.error f, q)) ↔ p.tight.Full p.settings size := by
  unfold Planner.reserve
  simp only
  have hdue : ∀ r, r = (if p.collectionDue idle then (p.collect false).2 else p) →
      r.Sound ∧ r.settings = p.settings ∧ r.tight = p.tight := fun r hr => by
    subst hr
    split
    · exact ⟨(h.collect false).1, settings_collect p false, h.tight_collect hm false⟩
    · exact ⟨h, rfl, rfl⟩
  generalize (if p.collectionDue idle then (p.collect false).2 else p) = r at hdue ⊢
  obtain ⟨hr, hsettings, htight⟩ := hdue r rfl
  rw [← hsettings] at hm ⊢
  rw [← htight]
  cases hplace : r.place size with
  | some x =>
    refine ⟨by simp, fun hfull => ?_⟩
    obtain ⟨hlow, hheap⟩ := hr.tight_le hm
    rw [(place_eq_none_iff hm).mpr (hfull.mono hlow hheap)] at hplace
    cases hplace
  | none =>
    have hs := settings_collect r true
    obtain ⟨hlow, hheap⟩ := next_collect hm true
    simp only
    generalize (r.collect true).2 = t at hs hlow hheap ⊢
    have hforced : t.place size = none ↔ r.tight.Full r.settings size := by
      rw [place_eq_none_iff (hs ▸ hm), hs]
      exact ⟨fun hf => hf.mono (Nat.le_of_eq hlow) fun hy => Nat.le_of_eq (hheap hy),
        fun hf => hf.mono (Nat.le_of_eq hlow.symm) fun hy => Nat.le_of_eq (hheap hy).symm⟩
    rw [← hforced]
    cases t.place size with
    | some x => simp
    | none => simp

/-- **A request for a block is refused** if and only if the live blocks leave no room for it. -/
theorem Sound.allocate_refused_iff (h : p.Sound) (hm : p.settings.model.compacts = true)
    (size : Nat) (idle : Int) (hn : ∀ b, p.visible? name = some b → b.scope ≠ p.scope) :
    (p.allocate name size idle).1 =
        .error (.outOfMemory name (max size 1) p.settings.memorySize) ↔
      p.tight.Full p.settings (max size 1) := by
  rw [← h.reserve_refused_iff hm name _ idle]
  have hsettings := settings_reserve p name (max size 1) idle
  rcases allocate_cases p name size idle with
    ⟨b, hv, hs, -⟩ | ⟨-, ⟨a, r, hr, heq⟩ | ⟨f, r, hr, heq⟩⟩
  · exact absurd hs (hn b hv)
  · simp [heq, hr]
  · rw [hr] at hsettings
    obtain rfl := reserve_eq_error hr
    rw [heq, outOfMemory, hsettings]
    exact ⟨fun _ => ⟨_, _, hr⟩, fun _ => rfl⟩

theorem Sound.bound_allocate_refused (h : p.Sound) {f : Fault}
    (hq : p.allocate name size idle = (.error f, q)) (other : String) :
    (q.bound other).Sublist (p.bound other) := by
  have hshrinks := (h.spares_reserve name (max size 1) idle).2
  rcases allocate_cases p name size idle with
    ⟨b, -, -, heq⟩ | ⟨-, ⟨a, r, -, heq⟩ | ⟨f, r, hr, heq⟩⟩ <;> rw [hq] at heq <;> cases heq
  rw [hr] at hshrinks
  exact hshrinks.bound other

/-- **A request for a larger block that is refused** has given up the block it was to move, and
that one only. -/
theorem Sound.resize_refused (h : p.Sound) {f : Fault}
    (hq : p.resize name size idle = (.error f, q)) :
    f = .outOfMemory name size p.settings.memorySize ∧
      ∃ old moves, p.visible? name = some old ∧ p.Retains q (some old) moves ∧
        old.id ∉ q.bound name ∧ ∀ other, (q.bound other).Sublist (p.bound other) := by
  have hsettings := settings_resize p name size idle
  obtain ⟨moves, hretains⟩ := h.retains_resize name size idle
  rw [hq] at hsettings hretains
  refine ⟨by rw [resize_eq_error hq, outOfMemory, hsettings], ?_⟩
  rcases resize_cases p name size idle with
    ⟨-, heq⟩ | ⟨old, hv, -, ⟨a, r, -, heq⟩ | ⟨f, r, hr, heq⟩⟩ <;> rw [hq] at heq <;> cases heq
  obtain ⟨hd, hreleases⟩ := h.drop hv
  have hshrinks := (hd.spares_reserveIn old.scope name size idle).2
  rw [hr] at hshrinks
  refine ⟨old, moves, hv, hv ▸ hretains, fun hid => ?_, fun other =>
    (hshrinks.bound other).trans (hreleases.bound other)⟩
  have hdrop := (hshrinks.bound name).subset hid
  rw [h.indexed.bound_drop hv, if_pos rfl] at hdrop
  exact (h.indexed.bound_eq_concat hv).2 hdrop

/-- In segmented memory the block of an outer scope is given up, though no collection follows. -/
theorem Sound.resize_refused_of_outer :
    let c : PlannerSettings := { model := .segmented, memorySize := 2000 }
    let p : Planner := ⟨c, [], [], 0, 0, 0, [], 0, 0, heapBase, globalsBase, 0, 0, 0, [], 0⟩
    let r := p.run [(0, .allocate "a" 1), (0, .allocate "b" 1), (0, .enter "f")]
    let q := (r.resize "a" 5000 0).2
    Planner.new c = .ok p ∧ r.resize "a" 5000 0 = (.error (.outOfMemory "a" 5000 2000), q) ∧
      q.collections = 0 ∧ q.visible? "a" = none ∧ q.bound "b" = r.bound "b" ∧
      ∃ old moves, r.visible? "a" = some old ∧ r.Retains q (some old) moves ∧
        old.id ∉ q.bound "a" := by
  intro c p r q
  have hp : Planner.new c = .ok p := by decide +kernel
  have hrefused : (r.resize "a" 5000 0).1 = .error (.outOfMemory "a" 5000 2000) := by
    decide +kernel
  have hq : r.resize "a" 5000 0 = (.error (.outOfMemory "a" 5000 2000), q) :=
    Prod.ext hrefused rfl
  obtain ⟨-, old, moves, hold, hretains, hid, -⟩ := ((sound_new hp).run _).resize_refused hq
  exact ⟨hp, hq, by decide +kernel, by decide +kernel, by decide +kernel, old, moves, hold,
    hretains, hid⟩

/-! ### Runs -/

/-- **Memory is full only if the live data does not fit**, whichever requests came before, whether
or not they succeeded and whenever collections were due: in a model that compacts, a request for a
block that its name does not have yet in the innermost scope is refused if and only if the live
blocks leave no room for it. Then the live blocks keep their places on the stacks and follow the
moves, and no stack gets a new one. -/
theorem memory_full_iff {c : PlannerSettings} (h : Planner.new c = .ok p)
    (requests : List (Int × Request)) (name : String) (size : Nat) (idle : Int)
    (hn : ∀ b, (p.run requests).visible? name = some b → b.scope ≠ (p.run requests).scope) :
    let r := p.run requests
    let q := r.allocate name size idle
    let s := max size 1
    let refused := q.1 = .error (.outOfMemory name s c.memorySize)
    (c.model = .dynamic →
      (refused ↔ c.memorySize < Block.total (r.blocks.filter Block.live) + s)) ∧
    (c.model = .hybrid → (refused ↔
      c.memorySize < heapBase +
          Block.total (r.blocks.filter fun b => b.live && heapBase ≤ b.address) + s ∧
        (s ≤ 2 → heapBase <
          Block.total (r.blocks.filter fun b => b.live && b.address < heapBase) + s))) ∧
    ∀ f, q.1 = .error f → refused ∧ (∃ moves, r.Retains q.2 none moves) ∧
      ∀ other, (q.2.bound other).Sublist (r.bound other) := by
  intro r q s refused
  have hr : r.Sound := (sound_new h).run requests
  have hsettings : r.settings = c := (represents_run h requests).1
  have hfull : r.settings.model.compacts = true → (refused ↔ r.tight.Full c s) := fun hm => by
    have := hr.allocate_refused_iff hm size idle hn
    rwa [hsettings] at this
  refine ⟨fun hm => ?_, fun hm => ?_, fun f hf => ?_⟩
  · rw [hfull (by rw [hsettings, hm]; rfl)]
    simp [Cursor.Full, tight, Block.inHeap, hsettings, hm]
  · rw [hfull (by rw [hsettings, hm]; rfl)]
    simp [Cursor.Full, tight, Block.inHeap, hsettings, hm]
  · have hq : r.allocate name size idle = (.error f, q.2) := Prod.ext hf rfl
    refine ⟨?_, hr.retains_allocate name size idle, hr.bound_allocate_refused hq⟩
    have hsame := settings_allocate r name size idle
    rw [hq, hsettings] at hsame
    show q.1 = _
    rw [hf, allocate_eq_error hq, outOfMemory, hsame]

/-- A block of four cells was given up in front of one of three: six cells are refused, five are
not. -/
theorem memory_full_iff_of_gap :
    let c : PlannerSettings := { model := .dynamic, memorySize := 8 }
    let p : Planner := ⟨c, [], [], 0, 0, 0, [], 0, 0, heapBase, globalsBase, 0, 0, 0, [], 0⟩
    let requests : List (Int × Request) :=
      [(0, .allocate "a" 4), (0, .allocate "b" 3), (0, .deallocate "a")]
    let r := p.run requests
    Planner.new c = .ok p ∧ r.visible? "c" = none ∧
      Block.total (r.blocks.filter Block.live) = 3 ∧
      (r.allocate "c" 6 0).1 = .error (.outOfMemory "c" 6 8) ∧
      (r.allocate "c" 5 0).1 ≠ .error (.outOfMemory "c" 5 8) := by
  intro c p requests r
  have hp : Planner.new c = .ok p := by decide +kernel
  have hv : r.visible? "c" = none := by decide +kernel
  have hlive : Block.total (r.blocks.filter Block.live) = 3 := by decide +kernel
  have hn : ∀ b, r.visible? "c" = some b → b.scope ≠ r.scope := by simp [hv]
  obtain ⟨hsix, -⟩ := memory_full_iff hp requests "c" 6 0 hn
  obtain ⟨hfive, -⟩ := memory_full_iff hp requests "c" 5 0 hn
  refine ⟨hp, hv, hlive, (hsix rfl).mpr ?_, fun hrefused => ?_⟩
  · rw [hlive]
    decide
  · have hlt := (hfive rfl).mp hrefused
    rw [hlive] at hlt
    exact absurd hlt (by decide)

end Planner

end TapeCompiler
