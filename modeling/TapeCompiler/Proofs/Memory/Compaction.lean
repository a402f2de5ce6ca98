import TapeCompiler.Proofs.Memory.Regions
import Mathlib.Data.List.Pairwise

/-! # Compaction

Blocks that are put one behind the other share no cell and **move towards the start of their
region** (`packs`). A compaction therefore keeps where blocks lie (`Laid.compact`), and it only
moves cells below those that were handed out before (`moves_compact`). -/

namespace TapeCompiler

namespace Planner

/-! ### Packing -/

namespace Cursor

variable {model : MemoryModel} {k : Cursor} {a b : Block} {l : List Block}

theorem target_next_of_eq (h : b.inHeap model = a.inHeap model) :
    (k.next model a).target model b = k.target model a + a.size := by
  unfold target next
  rw [h]
  split_ifs <;> rfl

theorem target_next_of_ne (h : b.inHeap model ≠ a.inHeap model) :
    (k.next model a).target model b = k.target model b := by
  unfold target next
  cases ha : a.inHeap model <;> cases hb : b.inHeap model <;> simp_all

theorem low_le_next : k.low ≤ (k.next model a).low := by
  unfold next
  split_ifs
  · exact Nat.le_refl _
  · exact Nat.le_add_right _ _

theorem heap_le_next : k.heap ≤ (k.next model a).heap := by
  unfold next
  split_ifs
  · exact Nat.le_add_right _ _
  · exact Nat.le_refl _

theorem le_foldl_next : k.low ≤ (l.foldl (Cursor.next model) k).low ∧
    k.heap ≤ (l.foldl (Cursor.next model) k).heap := by
  induction l generalizing k with
  | nil => exact ⟨Nat.le_refl _, Nat.le_refl _⟩
  | cons a l ih =>
    exact ⟨Nat.le_trans low_le_next ih.1, Nat.le_trans heap_le_next ih.2⟩

/-- **Blocks that can be packed**: apart and sorted, in front of neither the cursor nor, below the
heap, its first cell. -/
structure Fits (model : MemoryModel) (k : Cursor) (l : List Block) : Prop where
  sorted : l.Pairwise fun a b => a.stop ≤ b.address
  ahead : ∀ b ∈ l, k.target model b ≤ b.address
  heap : heapBase ≤ k.heap
  below : model = .hybrid → ∀ b ∈ l, b.address < heapBase → b.stop ≤ heapBase

theorem inHeap_iff : b.inHeap model = true ↔ model = .hybrid ∧ heapBase ≤ b.address := by
  simp [Block.inHeap]

theorem Fits.tail (h : Fits model k (a :: l)) : Fits model (k.next model a) l := by
  obtain ⟨hfirst, hsorted⟩ := List.pairwise_cons.mp h.sorted
  refine ⟨hsorted, fun b hb => ?_, Nat.le_trans h.heap heap_le_next,
    fun hm b hb => h.below hm b (List.mem_cons_of_mem _ hb)⟩
  by_cases hab : b.inHeap model = a.inHeap model
  · rw [target_next_of_eq hab]
    have := h.ahead a List.mem_cons_self
    have := hfirst b hb
    unfold Block.stop at this
    omega
  · rw [target_next_of_ne hab]
    exact h.ahead b (List.mem_cons_of_mem _ hb)

/-- The cursor stays below any bound of the blocks of each region. -/
theorem foldl_next_le (h : Fits model k l) (low heap : Nat) (hk : k.low ≤ low)
    (hlow : ∀ b ∈ l, b.inHeap model = false → b.stop ≤ low) (hk' : k.heap ≤ heap)
    (hheap : ∀ b ∈ l, b.inHeap model = true → b.stop ≤ heap) :
    (l.foldl (Cursor.next model) k).low ≤ low ∧ (l.foldl (Cursor.next model) k).heap ≤ heap := by
  induction l generalizing k with
  | nil => exact ⟨hk, hk'⟩
  | cons a l ih =>
    have hahead := h.ahead a List.mem_cons_self
    refine ih h.tail ?_ (fun b hb => hlow b (List.mem_cons_of_mem _ hb)) ?_
      fun b hb => hheap b (List.mem_cons_of_mem _ hb)
    all_goals
      unfold target at hahead
      unfold next
      split_ifs at hahead ⊢ with ha
    · exact hk
    · have := hlow a List.mem_cons_self (by simpa using ha)
      unfold Block.stop at this
      show k.low + a.size ≤ low
      omega
    · have := hheap a List.mem_cons_self ha
      unfold Block.stop at this
      show k.heap + a.size ≤ heap
      omega
    · exact hk'

/-- What became of a block in a packing. -/
structure Packed (model : MemoryModel) (k k' : Cursor) (b c : Block) : Prop
    extends b.Becomes c where
  activity : c.active = b.active
  references : c.references = b.references
  le : c.address ≤ b.address
  first : k.target model b ≤ c.address
  stop : c.stop ≤ k'.target model b

/-- **Packed blocks** lie one behind the other, between the cursor in front and the one behind. -/
theorem packs (h : Fits model k l) : (k.pack model l).Pairwise (fun a b => a.stop ≤ b.address) ∧
    ∀ c ∈ k.pack model l, ∃ b ∈ l, Packed model k (l.foldl (Cursor.next model) k) b c := by
  induction l generalizing k with
  | nil => exact ⟨List.Pairwise.nil, by simp [pack]⟩
  | cons a l ih =>
    obtain ⟨hapart, hfrom⟩ := ih h.tail
    have hahead := h.ahead a List.mem_cons_self
    have hfirst := (List.pairwise_cons.mp h.sorted).1
    refine ⟨List.pairwise_cons.mpr ⟨fun c hc => ?_, hapart⟩, fun c hc => ?_⟩
    · obtain ⟨b, hb, hp⟩ := hfrom c hc
      have hab := hfirst b hb
      have hc := hp.first
      show k.target model a + a.size ≤ c.address
      by_cases heq : b.inHeap model = a.inHeap model
      · rwa [target_next_of_eq heq] at hc
      · rw [target_next_of_ne heq] at hc
        -- sorted blocks can only change from the low region to the heap
        have ha : a.inHeap model = false := by
          by_contra ha
          rw [Bool.not_eq_false] at ha
          refine heq (ha ▸ inHeap_iff.mpr ⟨(inHeap_iff.mp ha).1, ?_⟩)
          have := (inHeap_iff.mp ha).2
          unfold Block.stop at hab
          omega
        have hb' : b.inHeap model = true := by simpa [ha] using heq
        have hlow := h.below (inHeap_iff.mp hb').1 a List.mem_cons_self (by
          by_contra hge
          rw [inHeap_iff.mpr ⟨(inHeap_iff.mp hb').1, Nat.le_of_not_lt hge⟩] at ha
          cases ha)
        have hheap := h.heap
        rw [target, if_pos hb'] at hc
        unfold Block.stop at hlow
        omega
    · rcases List.mem_cons.mp hc with rfl | hc
      · refine ⟨a, List.mem_cons_self, ⟨rfl, rfl, rfl, rfl, id⟩, rfl, rfl, hahead, Nat.le_refl _,
          ?_⟩
        show k.target model a + a.size ≤ _
        rw [← target_next_of_eq (k := k) (a := a) (b := a) rfl, List.foldl_cons]
        unfold target
        split_ifs
        · exact le_foldl_next.2
        · exact le_foldl_next.1
      · obtain ⟨b, hb, hp⟩ := hfrom c hc
        refine ⟨b, List.mem_cons_of_mem _ hb, hp.toBecomes, hp.activity, hp.references, hp.le, ?_,
          hp.stop⟩
        refine Nat.le_trans ?_ hp.first
        unfold target
        split_ifs
        · exact heap_le_next
        · exact low_le_next

theorem ids_pack : (k.pack model l).map Block.id = l.map Block.id := by
  induction l generalizing k with
  | nil => rfl
  | cons a l ih => simp [pack, ih]

theorem mem_movesOf (h : Fits model k l) {m : Relocation} (hm : m ∈ movesOf l (k.pack model l)) :
    ∃ b ∈ l, m.source = b.address ∧ m.size = b.size ∧ m.target ≤ b.address := by
  obtain ⟨⟨b, c⟩, hz, hm⟩ := List.mem_filterMap.mp hm
  simp only at hm
  split at hm
  · cases hm
  · cases hm
    have hzip : ∀ {k : Cursor} {l : List Block}, Fits model k l → (b, c) ∈ l.zip (k.pack model l) →
        b ∈ l ∧ c.address ≤ b.address := by
      intro k l h hz
      induction l generalizing k with
      | nil => simp at hz
      | cons a l ih =>
        rcases List.mem_cons.mp hz with hz | hz
        · cases hz
          exact ⟨List.mem_cons_self, h.ahead b List.mem_cons_self⟩
        · exact ⟨List.mem_cons_of_mem _ (ih h.tail hz).1, (ih h.tail hz).2⟩
    obtain ⟨hb, hle⟩ := hzip h hz
    exact ⟨b, hb, rfl, rfl, hle⟩

end Cursor

/-! ### Compaction of a planner -/

variable {p q : Planner}

/-- The blocks of a planner, lowest address first. -/
def sorted (p : Planner) : List Block := p.allocations.mergeSort fun a b => a.address ≤ b.address

theorem mem_sorted {p : Planner} {b : Block} : b ∈ p.sorted ↔ b ∈ p.blocks := by
  simp [sorted, allocations]

theorem nodup_sorted (h : p.Indexed) : (p.sorted.map Block.id).Nodup := by
  have hp : p.sorted.Perm p.blocks := (List.mergeSort_perm _ _).trans (List.reverse_perm _)
  exact (hp.map Block.id).nodup_iff.mpr h.numbered

/-- The blocks of a planner, packed. -/
def packed (p : Planner) : List Block := Cursor.pack p.settings.model ⟨0, heapBase⟩ p.sorted

/-- A block where a compaction puts it. -/
def put (p : Planner) (b : Block) : Block := (p.packed.find? fun c => c.id = b.id).getD b

theorem blocks_compact (p : Planner) : p.compact.2.blocks = p.blocks.map p.put := rfl

theorem ids_compact (p : Planner) :
    p.compact.2.blocks.map Block.id = p.blocks.map Block.id := by
  rw [blocks_compact, List.map_map]
  refine List.map_congr_left fun b _ => ?_
  simp only [Function.comp, put]
  cases hf : p.packed.find? fun c => c.id = b.id with
  | none => rfl
  | some c => simpa using List.find?_some hf

section Compact
variable (h : p.Laid) (hi : p.Indexed) (hact : ∀ b ∈ p.blocks, b.active = true)
  (hm : p.settings.model.compacts = true)
include h hi hact hm

omit hm in
/-- Active blocks can be packed. -/
theorem fits_sorted : Cursor.Fits p.settings.model ⟨0, heapBase⟩ p.sorted := by
  constructor
  case sorted =>
    have hle : p.sorted.Pairwise fun a b => a.address ≤ b.address :=
      (List.pairwise_mergeSort (fun a b c hab hbc => by
        simp only [decide_eq_true_eq] at *
        omega) (fun a b => by
        simp only [Bool.or_eq_true, decide_eq_true_eq]
        omega) _).imp fun h => by simpa using h
    have hne : p.sorted.Pairwise fun a b => a.id ≠ b.id :=
      List.pairwise_map.mp (nodup_sorted hi)
    refine (hle.and hne).imp_of_mem fun {a b} ha hb hab => ?_
    rw [mem_sorted] at ha hb
    have hsize := h.sized b hb
    rcases h.apart a ha b hb hab.2 (hact a ha) (hact b hb) with h' | h'
    · exact h'
    · have := hab.1
      unfold Block.stop at h'
      omega
  case ahead =>
    intro b hb
    unfold Cursor.target
    split_ifs with hheap
    · exact (Cursor.inHeap_iff.mp hheap).2
    · exact Nat.zero_le _
  case heap => exact Nat.le_refl _
  case below =>
    intro hm' b hb hlt
    obtain ⟨r, hr, hfirst, hstop⟩ := h.region b (mem_sorted.mp hb) (hact b (mem_sorted.mp hb))
    have hr' := hr
    rw [hm'] at hr'
    simp only [MemoryModel.regions, List.mem_cons, List.not_mem_nil, or_false] at hr'
    have hborder := (h.borders r hr).2
    rcases hr' with rfl | rfl
    · simp only [Region.stop, hm', if_true] at hborder
      omega
    · simp only [Region.first] at hfirst
      omega

omit hm in
/-- **What becomes of each block** in a compaction. -/
theorem packed_put {b : Block} (hb : b ∈ p.blocks) : p.put b ∈ p.packed ∧
    Cursor.Packed p.settings.model ⟨0, heapBase⟩
      (p.sorted.foldl (Cursor.next p.settings.model) ⟨0, heapBase⟩) b (p.put b) := by
  have hmem : b.id ∈ p.packed.map Block.id := by
    rw [packed, Cursor.ids_pack]
    exact List.mem_map_of_mem (mem_sorted.mpr hb)
  unfold put
  cases hf : p.packed.find? fun c => c.id = b.id with
  | none =>
    obtain ⟨d, hd, hid⟩ := List.mem_map.mp hmem
    exact absurd (List.find?_eq_none.mp hf d hd) (by simp [hid])
  | some d =>
    have hd := List.mem_of_find?_eq_some hf
    have hid : d.id = b.id := by simpa using List.find?_some hf
    obtain ⟨b', hb', hp⟩ := (Cursor.packs (fits_sorted h hi hact)).2 d hd
    obtain rfl := hi.eq_of_id (mem_sorted.mp hb') hb (hp.id.symm.trans hid)
    exact ⟨hd, hp⟩

omit hm in
/-- A compaction changes **nothing but addresses**. -/
theorem shrinks_compact : p.Shrinks p.compact.2 where
  settings := rfl
  created := rfl
  opened := rfl
  frames := rfl
  numbers := by rw [ids_compact]
  blocks c hc := by
    obtain ⟨b, hb, rfl⟩ := List.mem_map.mp hc
    exact ⟨b, hb, (packed_put h hi hact hb).2.toBecomes⟩
  bound _ := .refl _

theorem borders_compact (r : Region) (hr : r ∈ p.settings.model.regions) :
    r.first ≤ p.compact.2.next r ∧ p.compact.2.next r ≤ r.stop p.settings := by
  have hfits := fits_sorted h hi hact
  have hlow : ∀ b ∈ p.sorted, b.inHeap p.settings.model = false →
      b.stop ≤ Region.low.stop p.settings := fun b hb hheap => by
    unfold Region.stop
    split_ifs with hm'
    · refine hfits.below hm' b hb (Nat.lt_of_not_le fun hle => ?_)
      rw [Cursor.inHeap_iff.mpr ⟨hm', hle⟩] at hheap
      cases hheap
    · exact h.fits b (mem_sorted.mp hb)
  have hnext := Cursor.foldl_next_le hfits _ (max heapBase p.settings.memorySize)
    (Nat.zero_le _) hlow (Nat.le_max_left _ _) fun b hb _ =>
      Nat.le_trans (h.fits b (mem_sorted.mp hb)) (Nat.le_max_right _ _)
  rcases (MemoryModel.mem_regions_of_compacts hm).mp hr with rfl | ⟨hm', rfl⟩
  · exact ⟨Nat.zero_le _, hnext.1⟩
  · have hroom := h.roomy (by simp [hm', MemoryModel.hasHeap])
    have hle : heapBase ≤ (p.sorted.foldl (Cursor.next p.settings.model) ⟨0, heapBase⟩).heap :=
      (Cursor.le_foldl_next (k := ⟨0, heapBase⟩)).2
    rw [show p.compact.2.next .heap =
      (p.sorted.foldl (Cursor.next p.settings.model) ⟨0, heapBase⟩).heap from if_pos hm']
    refine ⟨hle, Nat.le_trans hnext.2 ?_⟩
    show max heapBase p.settings.memorySize ≤ p.settings.memorySize
    omega

theorem Laid.compact : p.compact.2.Laid := by
  have hpack : p.packed.Pairwise Block.Apart :=
    (Cursor.packs (fits_sorted h hi hact)).1.imp Or.inl
  have hput : ∀ b ∈ p.blocks, _ := fun b hb => packed_put h hi hact (b := b) hb
  have hstop : ∀ c ∈ p.compact.2.blocks, ∃ b ∈ p.blocks, c.size = b.size ∧ c.stop ≤ b.stop :=
    fun c hc => by
      obtain ⟨b, hb, rfl⟩ := List.mem_map.mp hc
      have hp := (hput b hb).2
      have hsize := hp.size
      have hle := hp.le
      refine ⟨b, hb, hsize, ?_⟩
      show (p.put b).stop ≤ b.stop
      unfold Block.stop
      omega
  have hseg : p.settings.model ≠ .segmented := by
    intro hs
    rw [hs] at hm
    cases hm
  constructor
  case roomy => exact h.roomy
  case sized =>
    intro c hc
    obtain ⟨b, hb, hsize, -⟩ := hstop c hc
    exact hsize ▸ h.sized b hb
  case fits =>
    intro c hc
    obtain ⟨b, hb, -, hle⟩ := hstop c hc
    exact Nat.le_trans hle (h.fits b hb)
  case high =>
    intro c hc
    obtain ⟨b, hb, -, hle⟩ := hstop c hc
    exact Nat.le_trans hle (h.high b hb)
  case apart =>
    intro c hc d hd hne _ _
    obtain ⟨b, hb, rfl⟩ := List.mem_map.mp hc
    obtain ⟨b', hb', rfl⟩ := List.mem_map.mp hd
    exact hpack.forall (hput b hb).1 (hput b' hb').1 fun he => hne (congrArg Block.id he)
  case borders => exact borders_compact h hi hact hm
  case region =>
    intro c hc _
    obtain ⟨b, hb, rfl⟩ := List.mem_map.mp hc
    have hfirst := (hput b hb).2.first
    have hstop' := (hput b hb).2.stop
    unfold Cursor.target at hfirst hstop'
    have hregion : ∀ r, r ∈ p.compact.2.settings.model.regions ↔ _ :=
      fun r => MemoryModel.mem_regions_of_compacts hm
    split_ifs at hfirst hstop' with hheap
    · have hm' := (Cursor.inHeap_iff.mp hheap).1
      refine ⟨.heap, (hregion _).mpr (Or.inr ⟨hm', rfl⟩), hfirst, ?_⟩
      have hnext : p.compact.2.next .heap =
          (p.sorted.foldl (Cursor.next p.settings.model) ⟨0, heapBase⟩).heap := if_pos hm'
      rwa [hnext]
    · exact ⟨.low, (hregion _).mpr (Or.inl rfl), Nat.zero_le _, hstop'⟩
  case rewinds => exact fun hs => absurd hs hseg

omit hm in
/-- Compaction moves cells **below those handed out before**. -/
theorem moves_compact {m : Relocation} (hm : m ∈ p.compact.2.moves) :
    m ∈ p.moves ∨ m.target + m.size ≤ p.highWater := by
  rcases List.mem_append.mp hm with hm | hm
  · exact Or.inl hm
  · obtain ⟨b, hb, -, hsize, hle⟩ := Cursor.mem_movesOf (fits_sorted h hi hact) hm
    have := h.high b (mem_sorted.mp hb)
    unfold Block.stop at this
    exact Or.inr (by omega)

end Compact

end Planner

end TapeCompiler
