import TapeCompiler.Proofs.Memory.Sound
import Mathlib.Algebra.GroupWithZero.Nat

/-! # Runs of requests

A run makes requests one after another, each some seconds after the last collection, and goes on
after one that fails. `Planner.Represents` says in one place what then holds of the planner: its
blocks, its counters and its stacks agree (`represents_run`). -/

namespace TapeCompiler

namespace Planner

variable {p q : Planner}

/-- The requests a planner handles. -/
inductive Request
  | allocate (name : String) (size : Nat)
  | resize (name : String) (size : Nat)
  | deallocate (name : String)
  | addReference (name : String)
  | removeReference (name : String)
  | enter (name : String)
  | leave
  | collect
  | takeMoves
  deriving DecidableEq, Repr

/-- The planner after a request made some seconds after the last collection. -/
def handle (p : Planner) (idle : Int) : Request → Planner
  | .allocate name size => (p.allocate name size idle).2
  | .resize name size => (p.resize name size idle).2
  | .deallocate name => (p.deallocate name).2
  | .addReference name => (p.addReference name).2
  | .removeReference name => (p.removeReference name).2
  | .enter name => (p.enter name).2
  | .leave => p.leave.2
  | .collect => (p.collect false).2
  | .takeMoves => p.takeMoves.2

/-- The planner after requests, each with the seconds since the last collection. -/
def run (p : Planner) (requests : List (Int × Request)) : Planner :=
  requests.foldl (fun p r => p.handle r.1 r.2) p

/-! ### Settings -/

theorem settings_collect (p : Planner) (forced : Bool) :
    (p.collect forced).2.settings = p.settings := by
  unfold collect
  simp only
  split <;> rfl

theorem settings_reserve (p : Planner) (name : String) (size : Nat) (idle : Int) :
    (p.reserve name size idle).2.settings = p.settings := by
  rcases reserve_cases (P := fun q => q.settings = p.settings)
    (fun q forced hq => (settings_collect q forced).trans hq) rfl name size idle with
    ⟨r, a, q, hr, hq, heq⟩ | ⟨r, f, hr, heq⟩
  · obtain ⟨s, hs⟩ := place_eq_some hq
    rw [heq, hs.planner]
    exact (setNext_fields r s _).1.trans hr
  · rw [heq]
    exact hr

theorem settings_reserveIn (p : Planner) (scope name : String) (size : Nat) (idle : Int) :
    (p.reserveIn scope name size idle).2.settings = p.settings := by
  unfold reserveIn
  split
  · next hm =>
    split
    · next hq =>
      have hs := takes_of_placeInHeap (by rw [hm.1]; rfl) hq
      rw [hs.planner]
      exact (setNext_fields p .heap _).1
    · rfl
  · exact settings_reserve p name size idle

theorem settings_allocate (p : Planner) (name : String) (size : Nat) (idle : Int) :
    (p.allocate name size idle).2.settings = p.settings := by
  have hreserve := settings_reserve p name (max size 1) idle
  rcases allocate_cases p name size idle with
    ⟨b, -, -, heq⟩ | ⟨-, ⟨a, r, hr, heq⟩ | ⟨f, r, hr, heq⟩⟩
  · rw [heq]
  · rw [heq]
    rwa [hr] at hreserve
  · rw [heq]
    rwa [hr] at hreserve

theorem settings_resize (p : Planner) (name : String) (size : Nat) (idle : Int) :
    (p.resize name size idle).2.settings = p.settings := by
  rcases resize_cases p name size idle with ⟨-, heq⟩ | ⟨old, -, -, hres⟩
  · rw [heq]
  · have hreserve := settings_reserveIn (p.drop name old.id) old.scope name size idle
    rcases hres with ⟨a, r, hr, heq⟩ | ⟨f, r, hr, heq⟩
    · rw [heq]
      rwa [hr] at hreserve
    · rw [heq]
      rwa [hr] at hreserve

theorem settings_deallocate (p : Planner) (name : String) :
    (p.deallocate name).2.settings = p.settings := by
  unfold deallocate
  split
  · rfl
  · simp only
    split <;> rfl

theorem settings_refer (p : Planner) (name : String) (f : Nat → Nat) :
    (p.refer name f).2.settings = p.settings := by
  unfold refer
  split <;> rfl

theorem settings_leave (p : Planner) : p.leave.2.settings = p.settings := by
  unfold leave
  split <;> rfl

theorem settings_handle (p : Planner) (idle : Int) (r : Request) :
    (p.handle idle r).settings = p.settings := by
  cases r with
  | allocate name size => exact settings_allocate p name size idle
  | resize name size => exact settings_resize p name size idle
  | deallocate name => exact settings_deallocate p name
  | addReference name => exact settings_refer p name _
  | removeReference name => exact settings_refer p name _
  | enter name => rfl
  | leave => exact settings_leave p
  | collect => exact settings_collect p false
  | takeMoves => rfl

theorem settings_run (p : Planner) (requests : List (Int × Request)) :
    (p.run requests).settings = p.settings := by
  induction requests generalizing p with
  | nil => rfl
  | cons r requests ih => exact (ih _).trans (settings_handle p r.1 r.2)

/-! ### Soundness -/

theorem Sound.handle (h : p.Sound) (idle : Int) (r : Request) : (p.handle idle r).Sound := by
  cases r with
  | allocate name size => exact h.allocate name size idle
  | resize name size => exact h.resize name size idle
  | deallocate name => exact h.deallocate name
  | addReference name => exact (h.refer name _).1
  | removeReference name => exact (h.refer name _).1
  | enter name => exact h.enter name
  | leave => exact h.leave
  | collect => exact (h.collect false).1
  | takeMoves => exact h.recount _ _ (by simp)

theorem Sound.run (h : p.Sound) (requests : List (Int × Request)) : (p.run requests).Sound := by
  induction requests generalizing p with
  | nil => exact h
  | cons r requests ih => exact ih (h.handle r.1 r.2)

/-! ### What a planner represents -/

/-- **The stack of a name** lists its active blocks, each once, and each belongs to a scope strictly
inside that of the one before. -/
def Lists (p : Planner) (name : String) (stack : List Block) : Prop :=
  p.bound name = stack.map Block.id ∧ stack.Nodup ∧
    (∀ b, b ∈ stack ↔ b ∈ p.blocks ∧ b.active = true ∧ b.name = name) ∧
    stack.Pairwise fun outer inner => p.Encloses outer.scope inner.scope

/-- **Blocks, counters and stacks agree.** -/
structure Represents (p : Planner) : Prop where
  /-- Numbers tell blocks apart. -/
  numbered : (p.blocks.map Block.id).Nodup
  /-- Active blocks share no cell. -/
  apart : p.blocks.Pairwise fun a b => a.active = true → b.active = true → a.overlaps b = false
  sized : ∀ b ∈ p.blocks, 1 ≤ b.size
  fits : ∀ b ∈ p.blocks, b.stop ≤ p.settings.memorySize
  high : ∀ b ∈ p.blocks, b.stop ≤ p.highWater
  activeCount : p.activeCount = p.blocks.countP Block.active
  activeCells : p.activeCells = (p.blocks.map Block.size).sum
  /-- Open scopes have different tags. -/
  scopes : p.openScopes.Nodup
  listed : ∀ name, ∃ stack, p.Lists name stack

theorem total_eq_sum (l : List Block) : Block.total l = (l.map Block.size).sum := by
  induction l with
  | nil => rfl
  | cons b l ih => simp [Block.total, ih]

theorem overlaps_eq_false {a b : Block} (h : a.Apart b) : a.overlaps b = false := by
  rw [Block.overlaps, Bool.and_eq_false_iff, decide_eq_false_iff_not, decide_eq_false_iff_not]
  rcases h with h | h <;> omega

/-- **The layers of a name** are listed by its stack. -/
theorem Indexed.lists (h : p.Indexed) (name : String) : p.Lists name (p.layers name) := by
  have hids := h.ids_layers name
  refine ⟨hids.symm, List.Nodup.of_map Block.id (hids.symm ▸ h.nodup name),
    fun _ => h.mem_layers, ?_⟩
  have hn := h.nested name
  rw [← hids, List.pairwise_map] at hn
  exact hn.imp_of_mem fun ha hb hab =>
    hab _ (h.mem_layers.mp ha).1 _ (h.mem_layers.mp hb).1 rfl rfl

theorem Sound.represents (h : p.Sound) : p.Represents where
  numbered := h.indexed.numbered
  apart := (List.pairwise_map.mp h.indexed.numbered).imp_of_mem fun ha hb hne hact hact' =>
    overlaps_eq_false (h.laid.apart _ ha _ hb hne hact hact')
  sized := h.laid.sized
  fits := h.laid.fits
  high := h.laid.high
  activeCount := h.activeCount
  activeCells := h.activeCells.trans (total_eq_sum p.blocks)
  scopes := h.indexed.scopes
  listed name := ⟨_, h.indexed.lists name⟩

/-- **Every run of requests leaves blocks, counters and stacks in agreement**, for all settings a
planner accepts, whichever requests fail and whenever collections are due. -/
theorem represents_run {c : PlannerSettings} (h : Planner.new c = .ok p)
    (requests : List (Int × Request)) :
    (p.run requests).settings = c ∧ (p.run requests).Represents := by
  refine ⟨(settings_run p requests).trans ?_, ((sound_new h).run requests).represents⟩
  unfold Planner.new at h
  cases hc : c.check with
  | error f => rw [hc] at h; cases h
  | ok u =>
    rw [hc] at h
    obtain rfl := Except.ok.inj h
    rfl

/-- The inner of two bindings of a name grows while a collection is due, and a request for more than
all memory fails. -/
theorem represents_run_of_shadowed :
    let c : PlannerSettings := { model := .segmented, memorySize := 2000 }
    let p : Planner := ⟨c, [], [], 0, 0, 0, [], 0, 0, heapBase, globalsBase, 0, 0, 0, [], 0⟩
    let requests : List (Int × Request) :=
      [(0, .allocate "a" 1), (0, .enter "body"), (1, .allocate "a" 2), (11, .resize "a" 3),
        (12, .allocate "b" 5000), (0, .collect), (0, .addReference "a")]
    Planner.new c = .ok p ∧ (p.run requests).bound "a" = [0, 2] ∧
      (p.run requests).settings = c ∧ (p.run requests).Represents := by
  intro c p requests
  have hp : Planner.new c = .ok p := by decide +kernel
  exact ⟨hp, by decide +kernel, represents_run hp requests⟩

end Planner

end TapeCompiler
