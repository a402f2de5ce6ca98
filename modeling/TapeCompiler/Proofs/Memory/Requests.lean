import TapeCompiler.Memory.Planner
import Mathlib.Tactic.Common

/-! # Requests to the planner

What a request does, step by step. A property that collections keep still holds when room is looked
for (`reserve_cases`), and room is found in a region of the model, at its next free cell
(`place_eq_some`). `allocate_cases` and `resize_cases` list what can become of a request,
`allocate_eq_ok` and `resize_eq_ok` what one that succeeds does. -/

namespace TapeCompiler

/-! ### Regions -/

/-- The regions that memory models are made of. -/
inductive Region
  | low
  | heap
  | globals
  | stack
  deriving DecidableEq, Repr

namespace Region

/-- The first cell. -/
def first : Region → Nat
  | low | stack => 0
  | heap => heapBase
  | globals => globalsBase

/-- One past the last cell. -/
def stop (c : PlannerSettings) : Region → Nat
  | low => if c.model = .hybrid then heapBase else c.memorySize
  | heap => c.memorySize
  | globals => heapBase
  | stack => globalsBase

end Region

/-- The regions of a model. -/
def MemoryModel.regions : MemoryModel → List Region
  | static | dynamic => [.low]
  | hybrid => [.low, .heap]
  | segmented => [.stack, .globals, .heap]

/-- **Different regions of a model are apart.** -/
theorem Region.apart {c : PlannerSettings} {r s : Region} (hr : r ∈ c.model.regions)
    (hs : s ∈ c.model.regions) (hne : r ≠ s) : r.stop c ≤ s.first ∨ s.stop c ≤ r.first := by
  cases hm : c.model <;> simp only [hm, MemoryModel.regions, List.mem_cons, List.not_mem_nil,
    or_false] at hr hs
  case static | dynamic => exact absurd (hr.trans hs.symm) hne
  case hybrid =>
    rcases hr with rfl | rfl <;> rcases hs with rfl | rfl <;> simp [stop, first, hm] at hne ⊢
  case segmented =>
    rcases hr with rfl | rfl | rfl <;> rcases hs with rfl | rfl | rfl <;>
      simp [stop, first, heapBase, globalsBase] at hne ⊢

theorem Region.eq_stack {r : Region} (hr : r ∈ MemoryModel.segmented.regions)
    (h : r.first < globalsBase) : r = .stack := by
  simp only [MemoryModel.regions, List.mem_cons, List.not_mem_nil, or_false] at hr
  rcases hr with rfl | rfl | rfl
  · rfl
  · exact absurd h (by decide)
  · exact absurd h (by decide)

theorem MemoryModel.mem_regions_of_compacts {model : MemoryModel} (h : model.compacts = true)
    {r : Region} : r ∈ model.regions ↔ r = .low ∨ model = .hybrid ∧ r = .heap := by
  cases model <;> simp [MemoryModel.regions, MemoryModel.compacts] at h ⊢

theorem Region.stop_le {c : PlannerSettings}
    (hroom : c.model.hasHeap = true → heapBase < c.memorySize) {r : Region}
    (hr : r ∈ c.model.regions) : r.stop c ≤ c.memorySize := by
  cases hm : c.model <;> simp only [hm, MemoryModel.regions, List.mem_cons, List.not_mem_nil,
    or_false] at hr
  case static | dynamic => simp [hr, stop, hm]
  case hybrid =>
    have := hroom (by simp [hm, MemoryModel.hasHeap])
    rcases hr with rfl | rfl
    · simp only [stop, hm, if_true]
      omega
    · exact Nat.le_refl _
  case segmented =>
    have := hroom (by simp [hm, MemoryModel.hasHeap])
    have : globalsBase ≤ heapBase := by decide
    rcases hr with rfl | rfl | rfl <;> simp only [stop] <;> omega

namespace Planner

variable {p q : Planner} {name : String} {size a : Nat} {idle : Int}

/-- The next free cell of a region. -/
def next (p : Planner) : Region → Nat
  | .low => p.low
  | .heap => p.heap
  | .globals => p.globals
  | .stack => p.stack

/-- The planner with another next free cell of a region. -/
def setNext (p : Planner) (r : Region) (n : Nat) : Planner :=
  match r with
  | .low => { p with low := n }
  | .heap => { p with heap := n }
  | .globals => { p with globals := n }
  | .stack => { p with stack := n }

theorem next_setNext (p : Planner) (r s : Region) (n : Nat) :
    (p.setNext r n).next s = if s = r then n else p.next s := by
  cases r <;> cases s <;> rfl

/-- Changing the next free cell of a region changes **nothing else**. -/
theorem setNext_fields (p : Planner) (r : Region) (n : Nat) :
    (p.setNext r n).settings = p.settings ∧ (p.setNext r n).blocks = p.blocks ∧
      (p.setNext r n).bindings = p.bindings ∧ (p.setNext r n).activeCount = p.activeCount ∧
      (p.setNext r n).activeCells = p.activeCells ∧ (p.setNext r n).created = p.created ∧
      (p.setNext r n).frames = p.frames ∧ (p.setNext r n).opened = p.opened ∧
      (p.setNext r n).highWater = p.highWater ∧ (p.setNext r n).moves = p.moves := by
  cases r <;> exact ⟨rfl, rfl, rfl, rfl, rfl, rfl, rfl, rfl, rfl, rfl⟩

/-! ### Finding room -/

theorem bump_eq_some {next size limit n : Nat} (h : bump next size limit = some n) :
    n = next + size ∧ next + size ≤ limit := by
  unfold bump at h
  split at h
  · cases h
    exact ⟨rfl, by assumption⟩
  · cases h

/-- Cells were **taken from a region** of the model. -/
structure Takes (p : Planner) (size a : Nat) (q : Planner) (r : Region) : Prop where
  region : r ∈ p.settings.model.regions
  address : a = p.next r
  room : a + size ≤ r.stop p.settings
  planner : q = p.setNext r (a + size)
  nested : r = .stack → p.frames ≠ []

theorem takes_of_placeInHeap (hm : p.settings.model.hasHeap = true)
    (h : p.placeInHeap size = some (a, q)) : p.Takes size a q .heap := by
  obtain ⟨n, hn, he⟩ := Option.map_eq_some_iff.mp h
  obtain ⟨rfl, hle⟩ := bump_eq_some hn
  cases he
  refine ⟨?_, rfl, hle, rfl, by simp⟩
  cases hm' : p.settings.model <;> simp_all [MemoryModel.hasHeap, MemoryModel.regions]

theorem takes_of_placeLow {limit : Nat} (hm : .low ∈ p.settings.model.regions)
    (hl : limit = Region.low.stop p.settings) (h : p.placeLow size limit = some (a, q)) :
    p.Takes size a q .low := by
  obtain ⟨n, hn, he⟩ := Option.map_eq_some_iff.mp h
  obtain ⟨rfl, hle⟩ := bump_eq_some hn
  cases he
  exact ⟨hm, rfl, hl ▸ hle, rfl, by simp⟩

theorem takes_of_placeByScope (hm : p.settings.model = .segmented)
    (h : p.placeByScope size = some (a, q)) : ∃ r, p.Takes size a q r := by
  unfold placeByScope at h
  split at h
  · obtain ⟨n, hn, he⟩ := Option.map_eq_some_iff.mp h
    obtain ⟨rfl, hle⟩ := bump_eq_some hn
    cases he
    exact ⟨.globals, by simp [hm, MemoryModel.regions], rfl, hle, rfl, by simp⟩
  · next hf =>
    obtain ⟨n, hn, he⟩ := Option.map_eq_some_iff.mp h
    obtain ⟨rfl, hle⟩ := bump_eq_some hn
    cases he
    exact ⟨.stack, by simp [hm, MemoryModel.regions], rfl, hle, rfl, fun _ => by simpa using hf⟩

/-- **Room is found in a region** of the model. -/
theorem place_eq_some (h : p.place size = some (a, q)) : ∃ r, p.Takes size a q r := by
  unfold place at h
  split at h
  · next hm =>
    exact ⟨_, takes_of_placeLow (by simp [hm, MemoryModel.regions]) (by simp [Region.stop, hm]) h⟩
  · next hm =>
    exact ⟨_, takes_of_placeLow (by simp [hm, MemoryModel.regions]) (by simp [Region.stop, hm]) h⟩
  · next hm =>
    rcases Option.or_eq_some_iff.mp h with h | ⟨-, h⟩
    · split at h
      · exact ⟨_, takes_of_placeLow (by simp [hm, MemoryModel.regions])
          (by simp [Region.stop, hm]) h⟩
      · cases h
    · exact ⟨_, takes_of_placeInHeap (by simp [hm, MemoryModel.hasHeap]) h⟩
  · next hm =>
    rcases Option.or_eq_some_iff.mp h with h | ⟨-, h⟩
    · exact takes_of_placeByScope hm h
    · exact ⟨_, takes_of_placeInHeap (by simp [hm, MemoryModel.hasHeap]) h⟩

/-- **Room is looked for** after some collections, and found or not. -/
theorem reserve_cases {P : Planner → Prop} (hc : ∀ p forced, P p → P (p.collect forced).2)
    (hp : P p) (name : String) (size : Nat) (idle : Int) :
    (∃ r a q, P r ∧ r.place size = some (a, q) ∧ p.reserve name size idle = (.ok a, q)) ∨
      ∃ r f, P r ∧ p.reserve name size idle = (.error f, r) := by
  unfold reserve
  have hdue : P (if p.collectionDue idle then (p.collect false).2 else p) := by
    split
    · exact hc _ _ hp
    · exact hp
  simp only
  generalize (if p.collectionDue idle then (p.collect false).2 else p) = r at hdue ⊢
  cases hr : r.place size with
  | some x => exact Or.inl ⟨r, x.1, x.2, hdue, hr, rfl⟩
  | none =>
    have hforced := hc _ true hdue
    cases hr' : (r.collect true).2.place size with
    | some x => exact Or.inl ⟨_, x.1, x.2, hforced, hr', rfl⟩
    | none => exact Or.inr ⟨_, _, hforced, rfl⟩

theorem reserve_eq_ok {P : Planner → Prop} (hc : ∀ p forced, P p → P (p.collect forced).2)
    (hp : P p) (h : p.reserve name size idle = (.ok a, q)) :
    ∃ r, P r ∧ r.place size = some (a, q) := by
  rcases reserve_cases hc hp name size idle with ⟨r, a', q', hr, hplace, heq⟩ | ⟨r, f, -, heq⟩
  · rw [h] at heq
    cases heq
    exact ⟨r, hr, hplace⟩
  · rw [h] at heq
    cases heq

/-! ### Blocks for names -/

/-- **A request for a block**: the name has one in the innermost scope, or gets one, or there is no
room. -/
theorem allocate_cases (p : Planner) (name : String) (size : Nat) (idle : Int) :
    (∃ b, p.visible? name = some b ∧ b.scope = p.scope ∧
      p.allocate name size idle = (.ok b.address, p)) ∨
    (((p.visible? name).filter fun b => b.scope = p.scope) = none ∧
      ((∃ a r, p.reserve name (max size 1) idle = (.ok a, r) ∧
          p.allocate name size idle = (.ok a, r.add none name a (max size 1) p.scope 1)) ∨
        ∃ f r, p.reserve name (max size 1) idle = (.error f, r) ∧
          p.allocate name size idle = (.error f, r))) := by
  unfold allocate
  simp only
  cases hb : (p.visible? name).filter fun b => b.scope = p.scope with
  | some b =>
    obtain ⟨hv, hs⟩ := Option.filter_eq_some_iff.mp hb
    exact Or.inl ⟨b, hv, by simpa using hs, rfl⟩
  | none =>
    refine Or.inr ⟨rfl, ?_⟩
    rcases hr : p.reserve name (max size 1) idle with ⟨x, r⟩
    cases x with
    | ok a => exact Or.inl ⟨a, r, rfl, rfl⟩
    | error f => exact Or.inr ⟨f, r, rfl, rfl⟩

theorem allocate_eq_ok (h : p.allocate name size idle = (.ok a, q)) :
    (∃ b, p.visible? name = some b ∧ b.scope = p.scope ∧ a = b.address ∧ q = p) ∨
    (((p.visible? name).filter fun b => b.scope = p.scope) = none ∧
      ∃ r, p.reserve name (max size 1) idle = (.ok a, r) ∧
        q = r.add none name a (max size 1) p.scope 1) := by
  rcases allocate_cases p name size idle with
    ⟨b, hb, hs, heq⟩ | ⟨hn, ⟨a', r, hr, heq⟩ | ⟨f, r, -, heq⟩⟩ <;> rw [h] at heq <;> cases heq
  · exact Or.inl ⟨b, hb, hs, rfl, rfl⟩
  · exact Or.inr ⟨hn, r, hr, rfl⟩

/-- The planner after the block with a number was **given up** by a name. -/
def drop (p : Planner) (name : String) (id : Nat) : Planner := (p.unbind name id).2.release id

/-- **A request for a larger block**: the name has no block, or one that is large enough, or it
moves to a new one after the old was given up, or there is no room. -/
theorem resize_cases (p : Planner) (name : String) (size : Nat) (idle : Int) :
    ((∀ b, p.visible? name = some b → size ≤ b.size) ∧ p.resize name size idle = (.ok none, p)) ∨
    ∃ old, p.visible? name = some old ∧ old.size < size ∧
      ((∃ a r, (p.drop name old.id).reserveIn old.scope name size idle = (.ok a, r) ∧
          p.resize name size idle = (.ok (some ⟨old.address, a, old.size⟩),
            r.add (p.unbind name old.id).1 name a size old.scope (max old.references 1))) ∨
        ∃ f r, (p.drop name old.id).reserveIn old.scope name size idle = (.error f, r) ∧
          p.resize name size idle = (.error f, r)) := by
  unfold resize drop
  cases hv : p.visible? name with
  | none => exact Or.inl ⟨by simp, rfl⟩
  | some old =>
    simp only
    split
    · next hsize => exact Or.inl ⟨fun b hb => Option.some.inj hb ▸ hsize, rfl⟩
    · next hsize =>
      refine Or.inr ⟨old, rfl, Nat.lt_of_not_le hsize, ?_⟩
      rcases hr : ((p.unbind name old.id).2.release old.id).reserveIn old.scope name size idle
        with ⟨x, r⟩
      cases x with
      | ok a => exact Or.inl ⟨a, r, rfl, rfl⟩
      | error f => exact Or.inr ⟨f, r, rfl, rfl⟩

theorem resize_eq_ok {moved : Relocation} (h : p.resize name size idle = (.ok (some moved), q)) :
    ∃ old r, p.visible? name = some old ∧ old.size < size ∧
      moved = ⟨old.address, moved.target, old.size⟩ ∧
      (p.drop name old.id).reserveIn old.scope name size idle = (.ok moved.target, r) ∧
      q = r.add (p.unbind name old.id).1 name moved.target size old.scope
        (max old.references 1) := by
  rcases resize_cases p name size idle with
    ⟨-, heq⟩ | ⟨old, hv, hsize, ⟨a, r, hr, heq⟩ | ⟨f, r, -, heq⟩⟩ <;> rw [h] at heq <;> cases heq
  exact ⟨old, r, hv, hsize, rfl, hr, rfl⟩

end Planner

end TapeCompiler
