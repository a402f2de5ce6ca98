import TapeCompiler.Proofs.Lowering.Traversal

/-! # Where parameters lie

The functions of a lowered program keep the cells of their parameters, which no instruction need
name. They lie below the high-water mark of the planner (`parameters_of_lower`): a parameter is
entered with the block it just got, and the moves of blocks end below the mark. -/

namespace TapeCompiler

/-! ### The high-water mark -/

namespace Planner

variable {p q : Planner} {name : String} {size a : Nat} {idle : Int}

theorem highWater_collect (p : Planner) (forced : Bool) :
    (p.collect forced).2.highWater = p.highWater := by
  unfold collect
  simp only
  split <;> rfl

theorem highWater_reserve (h : p.reserve name size idle = (.ok a, q)) :
    q.highWater = p.highWater := by
  obtain ⟨r, hr, hplace⟩ := reserve_eq_ok (P := fun r => r.highWater = p.highWater)
    (fun r forced hr => (highWater_collect r forced).trans hr) rfl h
  obtain ⟨region, htakes⟩ := place_eq_some hplace
  obtain ⟨-, -, -, -, -, -, -, -, hhigh, -⟩ := setNext_fields r region (a + size)
  rw [htakes.planner, hhigh, hr]

theorem highWater_reserveIn {scope : String} (h : p.reserveIn scope name size idle = (.ok a, q)) :
    q.highWater = p.highWater := by
  unfold reserveIn at h
  split at h
  · split at h
    · next hheap =>
      obtain ⟨n, -, he⟩ := Option.map_eq_some_iff.mp hheap
      cases he
      cases h
      rfl
    · cases h
  · exact highWater_reserve h

theorem highWater_allocate (h : p.allocate name size idle = (.ok a, q)) :
    p.highWater ≤ q.highWater := by
  rcases allocate_eq_ok h with ⟨b, -, -, -, rfl⟩ | ⟨-, r, hr, rfl⟩
  · exact Nat.le_refl _
  · rw [← highWater_reserve hr]
    exact Nat.le_max_left _ _

theorem highWater_resize {moved : Relocation}
    (h : p.resize name size idle = (.ok (some moved), q)) :
    p.highWater ≤ q.highWater ∧ moved.target + moved.size ≤ q.highWater := by
  obtain ⟨old, r, -, hsize, hmoved, hr, rfl⟩ := resize_eq_ok h
  have hr : r.highWater = (p.drop name old.id).highWater := highWater_reserveIn hr
  have hold : moved.size = old.size := by rw [hmoved]
  have htop : moved.target + size ≤ max r.highWater (moved.target + size) := Nat.le_max_right _ _
  constructor
  · exact Nat.le_trans hr.ge (Nat.le_max_left _ _)
  · show moved.target + moved.size ≤ max r.highWater (moved.target + size)
    omega

end Planner

/-! ### Moved cells -/

/-- A cell that moves goes where **its whole block ends**. -/
theorem Relocation.newAddress?_lt {m : Relocation} {a b limit : Nat}
    (hm : m.target + m.size ≤ limit) (h : m.newAddress? a = some b) : b < limit := by
  unfold newAddress? at h
  split_ifs at h with hin
  cases h
  omega

theorem relocate_lt {moves : List Relocation} {a limit : Nat}
    (hm : ∀ m ∈ moves, m.target + m.size ≤ limit) (ha : a < limit) : relocate moves a < limit := by
  unfold relocate
  cases hf : moves.findSome? fun r => r.newAddress? a with
  | none => exact ha
  | some b =>
    obtain ⟨m, hmem, hb⟩ := List.exists_of_findSome?_eq_some hf
    exact Relocation.newAddress?_lt (hm m hmem) hb

/-! ### Parameters -/

/-- The parameters of functions are single **cells below a limit**. -/
def Program.ParametersBelow (limit : Nat) (p : Program) : Prop :=
  ∀ f ∈ p.functions, ∀ v ∈ f.2.locals, v.2.size = 1 ∧ v.2.address < limit

namespace Program.ParametersBelow

variable {limit limit' : Nat} {p : Program}

theorem mono (h : p.ParametersBelow limit) (hl : limit ≤ limit') : p.ParametersBelow limit' :=
  fun f hf v hv => ⟨(h f hf v hv).1, Nat.lt_of_lt_of_le (h f hf v hv).2 hl⟩

theorem mapAddress (h : p.ParametersBelow limit) {g : Nat → Nat} (hl : ∀ a < limit, g a < limit') :
    (p.mapAddress g).ParametersBelow limit' := by
  intro f hf v hv
  obtain ⟨f', hf', rfl⟩ := List.mem_map.mp hf
  obtain ⟨v', hv', rfl⟩ := List.mem_map.mp hv
  exact ⟨(h f' hf' v' hv').1, hl _ (h f' hf' v' hv').2⟩

theorem relocate (h : p.ParametersBelow limit) {moves : List Relocation}
    (hm : ∀ m ∈ moves, m.target + m.size ≤ limit) : (p.relocate moves).ParametersBelow limit := by
  unfold Program.relocate
  split_ifs
  · exact h
  · exact h.mapAddress fun a ha => relocate_lt hm ha

theorem grow (h : p.ParametersBelow limit) {moved : Relocation} {size : Nat}
    {moves : List Relocation} (hmoved : moved.target + moved.size ≤ limit)
    (hm : ∀ m ∈ moves, m.target + m.size ≤ limit) :
    (p.grow moved size moves).ParametersBelow limit := by
  refine ParametersBelow.mapAddress h fun a ha => ?_
  cases hn : moved.newAddress? a with
  | none => exact relocate_lt hm ha
  | some b => exact Relocation.newAddress?_lt hmoved hn

end Program.ParametersBelow

theorem Names.mem_insert {α : Type} {m : Names α} {name : String} {a : α} {x : String × α}
    (h : x ∈ m.insert name a) : x = (name, a) ∨ x ∈ m := by
  induction m with
  | nil => exact Or.inl (List.mem_singleton.mp h)
  | cons p rest ih =>
    obtain ⟨k, b⟩ := p
    unfold insert at h
    split_ifs at h
    · exact (List.mem_cons.mp h).imp id (List.mem_cons_of_mem _)
    · exact List.mem_cons.mp h
    · rcases List.mem_cons.mp h with rfl | h
      · exact Or.inr List.mem_cons_self
      · exact (ih h).imp id (List.mem_cons_of_mem _)

/-- The parameters of a session lie below the mark of its planner. -/
def Session.Settled (s : Session) : Prop := s.program.ParametersBelow s.planner.highWater

/-- **Lowering leaves parameters below the mark.** -/
theorem stable_settled : Lowering.Stable (fun s t => s.Settled → t.Settled)
    fun s t => s.Settled → t.Settled where
  refl _ := id
  trans₀ h h' := h' ∘ h
  trans h h' := h' ∘ h
  straight := id
  notes _ _ _ _ := id
  asked _ := id
  warned _ _ _ := id
  symbols _ _ _ := id
  declared s name id params body h := by
    intro f hf v hv
    rcases Names.mem_insert hf with rfl | hf
    · cases hv
    · exact h f hf v hv
  parameter s function param b hs hb h := by
    have hmem := hs.indexed.visible?_mem hb
    have hstop : b.address + b.size ≤ s.planner.highWater := hs.laid.high b hmem
    have hsize := hs.laid.sized b hmem
    intro f hf v hv
    obtain ⟨⟨k, g⟩, hg, rfl⟩ := List.mem_map.mp hf
    simp only at hv
    split_ifs at hv
    · rcases Names.mem_insert hv with rfl | hv
      · exact ⟨rfl, by simp only; omega⟩
      · exact h _ hg v hv
    · exact h _ hg v hv
  referenced s name h := by
    have : (s.planner.addReference name).2.highWater = s.planner.highWater := by
      unfold Planner.addReference Planner.refer
      split <;> rfl
    exact h.mono this.ge
  entered _ _ := id
  left s h := by
    have : s.planner.leave.2.highWater = s.planner.highWater := by
      unfold Planner.leave
      split <;> rfl
    exact h.mono this.ge
  allocated {s name size a p} hs hp h := by
    have hsound : p.Sound := by
      have := hs.allocate name size (s.schedule 0)
      rwa [hp] at this
    exact (h.mono (Planner.highWater_allocate hp)).relocate hsound.moves
  grown {s name size moved p} hs hp h := by
    have hsound : p.Sound := by
      have := hs.resize name size (s.schedule 0)
      rwa [hp] at this
    obtain ⟨hhigh, hmoved⟩ := Planner.highWater_resize hp
    exact (h.mono hhigh).grow hmoved hsound.moves
  emitted _ _ _ _ := id
  branch ht _ hu hv h := hv (hu (ht h))
  loop ht _ hu hv h := hv (hu (ht h))

/-- **The parameters of a lowered program** lie below the high-water mark of its planner. -/
theorem parameters_of_lower {script : Script} {p : Planner} {schedule : Schedule} {s : Session}
    (h : script.lower p schedule = (.ok (), s)) (hp : p.Held) :
    s.program.ParametersBelow s.planner.highWater := by
  have hstart : (Lowering.start p schedule).planner.Held := hp
  refine ((Lowering.keeps_statements stable_settled script.body hstart (by simp)).2 h).1 ?_
  intro f hf
  cases hf

end TapeCompiler
