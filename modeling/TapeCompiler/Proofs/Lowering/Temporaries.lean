import TapeCompiler.Proofs.Lowering.Gives
import TapeCompiler.Proofs.Memory.Referred

/-! # The blocks of temporaries

A temporary is requested **by its name**, as a variable is. It gets a block of its own, with room
for its value and apart from all others, if the innermost scope has no block of that name; earlier
temporaries have other names (`temporaryName_inj`). A variable that the program declares by such a
name is another matter: the temporary is its block, whatever its size (`temporary_block`). -/

namespace TapeCompiler

namespace Planner

variable {p q : Planner} {name : String} {size a : Nat} {idle : Int}

/-- A name **without a block in the innermost scope** gets a new one, apart from all others. -/
theorem Sound.apart_of_allocate (h : p.Sound)
    (hn : ∀ b ∈ p.visible? name, b.scope ≠ p.scope)
    (hq : p.allocate name size idle = (.ok a, q)) :
    ∃ b, q.visible? name = some b ∧ b.address = a ∧ size ≤ b.size ∧ b.scope = p.scope ∧
      ∀ c ∈ q.blocks, c.active = true → c ≠ b → c.Apart b := by
  have hsound : q.Sound := by
    have := h.allocate name size idle
    rwa [hq] at this
  rcases allocate_eq_ok hq with ⟨b, hb, hs, -, -⟩ | ⟨-, r, -, rfl⟩
  · exact absurd hs (hn b hb)
  · have hb := visible?_add hsound
    refine ⟨_, hb, rfl, Nat.le_max_left _ _, rfl, fun c hc hact hne => ?_⟩
    have hmem := hsound.indexed.visible?_mem hb
    have hid : c.id ≠ r.created := fun hid => hne (hsound.indexed.eq_of_id hc hmem hid)
    exact hsound.laid.apart c hc _ hmem hid hact rfl

/-- A name **with a block in the innermost scope** keeps it, and nothing changes. -/
theorem allocate_again {b : Block} (hb : p.visible? name = some b) (hs : b.scope = p.scope)
    (hq : p.allocate name size idle = (.ok a, q)) : a = b.address ∧ q = p := by
  rcases allocate_eq_ok hq with ⟨b', hb', -, rfl, rfl⟩ | ⟨hnone, -⟩
  · rw [hb] at hb'
    cases hb'
    exact ⟨rfl, rfl⟩
  · simp [hb, hs] at hnone

end Planner

namespace Lowering

variable {s t : Session} {size : Nat} {tmp : String}

/-- The name of a temporary. -/
def temporaryName (n : Nat) : String := s!"__tmp_{n}"

theorem temporaryName_inj {m n : Nat} (h : temporaryName m = temporaryName n) : m = n := by
  refine Nat.repr_injective ?_
  simpa [temporaryName] using h

/-- **The block of a temporary.** If the innermost scope has a block of its name, the temporary is
that block, whatever the size of either, and nothing else changes; if not, it gets a block of its
own, with room for its value and apart from all others. -/
theorem temporary_block (hs : s.planner.Sound) (h : Gives (temporary size) s tmp t) :
    tmp = temporaryName s.temporaries ∧ ∃ b, t.planner.visible? tmp = some b ∧
      ((s.planner.visible? tmp = some b ∧ b.scope = s.planner.scope ∧
          t.planner.blocks = s.planner.blocks) ∨
        ((∀ c ∈ s.planner.visible? tmp, c.scope ≠ s.planner.scope) ∧ size ≤ b.size ∧
          ∀ c ∈ t.planner.blocks, c.active = true → c ≠ b → c.Apart b)) := by
  obtain ⟨rfl, a, ha⟩ := gives_temporary.mp h
  obtain ⟨p, hp, rfl⟩ := gives_allocate.mp ha
  refine ⟨rfl, ?_⟩
  by_cases hn : ∀ c ∈ s.planner.visible? (temporaryName s.temporaries), c.scope ≠ s.planner.scope
  · obtain ⟨b, hb, -, hsize, -, hapart⟩ := hs.apart_of_allocate hn hp
    exact ⟨b, hb, .inr ⟨hn, hsize, hapart⟩⟩
  · push Not at hn
    obtain ⟨b, hb, hscope⟩ := hn
    obtain ⟨-, rfl⟩ := Planner.allocate_again hb hscope hp
    exact ⟨b, hb, .inl ⟨hb, hscope, rfl⟩⟩

/-- A temporary of three cells, beside a variable of one that has its name. -/
theorem temporary_block_of_declared :
    let p : Planner := ⟨{}, [], [], 0, 0, 0, [], 0, 0, heapBase, globalsBase, 0, 0, 0, [], 0⟩
    let s := start (p.allocate "__tmp_0" 1 0).2 fun _ => 0
    Planner.new {} = .ok p ∧ ∃ t b, Gives (temporary 3) s "__tmp_0" t ∧
      t.planner.visible? "__tmp_0" = some b ∧ t.planner.blocks = s.planner.blocks := by
  intro p s
  have hp : Planner.new {} = .ok p := by decide +kernel
  have hs : s.planner.Sound := (Planner.sound_new hp).allocate _ _ _
  have hok : ((temporary 3).run.run s).1 = .ok "__tmp_0" := by decide +kernel
  have hgives : Gives (temporary 3) s "__tmp_0" ((temporary 3).run.run s).2 := Prod.ext hok rfl
  refine ⟨hp, ?_⟩
  obtain ⟨-, b, hb, ⟨-, -, hblocks⟩ | ⟨hn, -⟩⟩ := temporary_block hs hgives
  · exact ⟨_, b, hgives, hb, hblocks⟩
  · exact absurd hn (by decide +kernel)

end Lowering

end TapeCompiler
