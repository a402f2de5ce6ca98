import TapeCompiler.Proofs.Lowering.Scopes
import TapeCompiler.Proofs.Lowering.Traversal
import TapeCompiler.Proofs.Memory.Spots

/-! # Sessions that move no block

While nothing is compacted, what was lowered stays where it is. `stable_precedes` carries calm
planners backwards: what came before a calm session was calm. From a steady session
(`Session.Steady`), in which no temporary to come has a block, the steps on which expressions are
built lead to a later one (`Session.Later`), in which every name but the temporaries between them
has the same spots; a new temporary lies apart from all cells that were taken (`Steady.temporary`).
-/

namespace TapeCompiler

open Lowering

theorem stable_precedes : Stable (fun s t => s.planner.Precedes t.planner)
    fun s t => s.planner.Precedes t.planner where
  refl _ := .refl _
  trans₀ := .trans
  trans := .trans
  straight := id
  notes _ _ _ _ := .refl _
  asked _ := .refl _
  warned _ _ _ := .refl _
  symbols _ _ _ := .refl _
  declared _ _ _ _ _ := .refl _
  parameter _ _ _ _ _ _ := .refl _
  referenced s name := by
    show s.planner.Precedes (s.planner.addReference name).2
    unfold Planner.addReference Planner.refer
    split <;> exact ⟨rfl, Nat.le_refl _⟩
  entered _ _ := ⟨rfl, Nat.le_refl _⟩
  left s := by
    show s.planner.Precedes s.planner.leave.2
    unfold Planner.leave
    split <;> exact ⟨rfl, Nat.le_refl _⟩
  allocated _ hp :=
    have h := Planner.precedes_allocate hp
    ⟨h.settings, h.collections⟩
  grown _ hp :=
    have h := Planner.precedes_resize hp
    ⟨h.settings, h.collections⟩
  emitted _ _ _ _ := .refl _
  branch ht _ hu hv := Planner.Precedes.trans ht (.trans hu hv)
  loop ht _ hu hv := Planner.Precedes.trans ht (.trans hu hv)

theorem Lowering.Respects.calm {α : Type} {R : Session → Session → Prop} {m : Lowering α}
    {Q : α → Prop} {seen : α → List String} {known : List String} (hm : Respects R known m Q seen)
    (hR : ∀ {s t}, R s t → s.planner.Precedes t.planner) {s t : Session} {a : α}
    (hs : s.planner.Held) (hk : ∀ n ∈ known, s.Sees n) (hg : Gives m s a t)
    (hc : t.planner.Calm) : s.planner.Calm :=
  (hR ((hm hs hk).2 hg).1).calm hc

namespace Session

theorem sees_nil (s : Session) : ∀ n ∈ ([] : List String), s.Sees n := by simp

variable {s t u : Session} {x tmp : String} {size n a c : Nat} {v : Unit} {z : Spot}

/-- A name that **no temporary to come** has. -/
def Knows (s : Session) (x : String) : Prop := ∀ k, s.temporaries ≤ k → x ≠ temporaryName k

theorem knows_of_ordinary (hx : Ordinary x) : s.Knows x := fun k _ => hx k

/-- A session whose planner holds on to its blocks, with no moves pending and **no block for a
temporary to come**. -/
structure Steady (s : Session) : Prop where
  held : s.planner.Held
  settled : s.planner.moves = []
  fresh : ∀ k, s.temporaries ≤ k → s.planner.spots (temporaryName k) = []

/-- What came to a session is about **temporaries** at most. -/
structure Later (s t : Session) : Prop where
  scopes : t.planner.openScopes = s.planner.openScopes
  kinds : t.kinds = s.kinds
  temporaries : s.temporaries ≤ t.temporaries
  spots : ∀ x, s.Knows x → t.planner.spots x = s.planner.spots x

namespace Later

theorem refl (s : Session) : s.Later s := ⟨rfl, rfl, Nat.le_refl _, fun _ _ => rfl⟩

theorem knows (h : s.Later t) (hx : s.Knows x) : t.Knows x := fun k hk =>
  hx k (Nat.le_trans h.temporaries hk)

theorem trans (h : s.Later t) (h' : t.Later u) : s.Later u where
  scopes := h'.scopes.trans h.scopes
  kinds := h'.kinds.trans h.kinds
  temporaries := Nat.le_trans h.temporaries h'.temporaries
  spots x hx := (h'.spots x (h.knows hx)).trans (h.spots x hx)

end Later

namespace Steady

/-- Only names that are known **have spots**. -/
theorem knows (h : s.Steady) (hz : z ∈ s.planner.spots x) : s.Knows x := fun k hk he => by
  rw [he, h.fresh k hk] at hz
  cases hz

theorem claims (h : s.Steady) (hl : s.Later t) (hc : s.planner.Claims c) : t.planner.Claims c := by
  obtain ⟨x, z, hz, hin⟩ := hc
  exact ⟨x, z, by rwa [hl.spots x (h.knows hz)], hin⟩

theorem head?_spots (h : s.Steady) (x : String) :
    (s.planner.spots x).head? = (s.planner.visible? x).map Block.spot :=
  h.held.sound.indexed.head?_spots x

theorem address (h : s.Steady) (hg : Gives (address x) s a t) :
    (∃ z, (s.planner.spots x).head? = some z ∧ a = z.address) ∧ s = t := by
  obtain ⟨⟨b, hb, rfl⟩, rfl⟩ := gives_address.mp hg
  exact ⟨⟨b.spot, by rw [h.head?_spots, hb, Option.map_some], rfl⟩, rfl⟩

theorem address_eq (h : s.Steady) (hz : (s.planner.spots x).head? = some z)
    (hg : Gives (Lowering.address x) s a t) : a = z.address ∧ s = t := by
  obtain ⟨⟨z', hz', rfl⟩, rfl⟩ := h.address hg
  rw [hz] at hz'
  cases hz'
  exact ⟨rfl, rfl⟩

theorem head (h : s.Steady) (hl : s.Later t) (hz : (s.planner.spots x).head? = some z) :
    (t.planner.spots x).head? = some z := by
  rwa [hl.spots x (h.knows (List.mem_of_head? hz))]

theorem readVariable (h : s.Steady) (hg : Gives (readVariable x) s n t) :
    (∃ z, (s.planner.spots x).head? = some z ∧ n = z.size) ∧ t.Steady ∧ s.Later t ∧
      t.program = s.program := by
  obtain ⟨⟨b, hb, rfl⟩, rfl⟩ := gives_readVariable.mp hg
  have hspots := h.held.spots_addReference x
  refine ⟨⟨b.spot, by rw [h.head?_spots, hb, Option.map_some], rfl⟩,
    ⟨(h.held.addReference x).1, ?_, fun k hk => ?_⟩, ⟨?_, rfl, Nat.le_refl _, fun y _ => ?_⟩, rfl⟩
  · refine Eq.trans ?_ h.settled
    show (s.planner.addReference x).2.moves = _
    unfold Planner.addReference Planner.refer
    split <;> rfl
  · exact (congrFun hspots _).trans (h.fresh k hk)
  · show (s.planner.addReference x).2.openScopes = _
    unfold Planner.addReference Planner.refer
    split <;> rfl
  · exact congrFun hspots y

/-- **A request for a block** that leaves the session calm: the name has one in the innermost scope,
or gets one, apart from all cells that were taken. -/
theorem allocate (h : s.Steady) (hg : Gives (allocate x size) s a t) (hc : t.planner.Calm) :
    t.planner.Held ∧ t.planner.moves = [] ∧ t.program = s.program ∧ t.kinds = s.kinds ∧
      t.temporaries = s.temporaries ∧ t.planner.openScopes = s.planner.openScopes ∧
    ((∃ z, (s.planner.spots x).head? = some z ∧ z.scope = s.planner.scope ∧ z.address = a ∧
        t.planner.spots = s.planner.spots) ∨
      ((∀ z ∈ (s.planner.spots x).head?, z.scope ≠ s.planner.scope) ∧ ∃ z : Spot,
        z.scope = s.planner.scope ∧ z.address = a ∧ z.size = max size 1 ∧
        t.planner.spots x = z :: s.planner.spots x ∧
        (∀ y, y ≠ x → t.planner.spots y = s.planner.spots y) ∧
        ∀ c, s.planner.Claims c → ¬ z.Holds c)) := by
  obtain ⟨p, hp, rfl⟩ := gives_allocate.mp hg
  have hheld : (s.relocated p).planner.Held := (h.held.allocate hp).1.takeMoves
  obtain ⟨hmoves, hframes, hcase⟩ := h.held.spots_allocate hp hc
  rw [h.settled] at hmoves
  have hprogram : (s.relocated p).program = s.program := by
    show s.program.relocate p.moves = _
    rw [hmoves]
    rfl
  refine ⟨hheld, rfl, hprogram, rfl, rfl, ?_, ?_⟩
  · show p.takeMoves.2.openScopes = _
    unfold Planner.openScopes
    rw [← hframes]
    rfl
  rcases hcase with hown | ⟨hnot, hnew, hother⟩
  · exact Or.inl hown
  · refine Or.inr ⟨hnot, _, rfl, rfl, rfl, hnew, hother, fun c hc hin => ?_⟩
    obtain ⟨y, z', hz', hin'⟩ := hc
    refine hheld.sound.apart_spots (x := x) (y := y) ?_ ?_ hin hin'
    · rw [show (s.relocated p).planner.spots = p.spots from rfl, hnew]
      rfl
    · unfold Planner.beside
      rw [show (s.relocated p).planner.spots = p.spots from rfl]
      split_ifs with hy
      · rw [hnew, List.tail_cons]
        exact hy ▸ hz'
      · rwa [hother y hy]

/-- **A temporary** has one spot, of the room asked for, apart from all cells that were taken. -/
theorem temporary (h : s.Steady) (hg : Gives (temporary size) s tmp t) (hc : t.planner.Calm) :
    t.Steady ∧ s.Later t ∧ t.program = s.program ∧ t.Knows tmp ∧ ∃ z : Spot,
      t.planner.spots tmp = [z] ∧ z.size = max size 1 ∧ ∀ c, s.planner.Claims c → ¬ z.Holds c := by
  obtain ⟨rfl, a, hg⟩ := gives_temporary.mp hg
  let named : Session := { s with temporaries := s.temporaries + 1 }
  have hnamed : named.Steady := ⟨h.held, h.settled, fun k hk => h.fresh k (by
    have : s.temporaries + 1 ≤ k := hk
    omega)⟩
  have hfresh := h.fresh s.temporaries (Nat.le_refl _)
  obtain ⟨hheld, hmoves, hprogram, hkinds, htemps, hscopes, hcase⟩ := hnamed.allocate hg hc
  have hlt : s.temporaries < t.temporaries := htemps ▸ Nat.lt_succ_self _
  rcases hcase with ⟨z, hz, -⟩ | ⟨-, z, -, -, hsize, hnew, hother, hapart⟩
  · rw [show named.planner.spots = s.planner.spots from rfl] at hz
    rw [show s!"__tmp_{s.temporaries}" = temporaryName s.temporaries from rfl, hfresh] at hz
    cases hz
  · have hne : ∀ k, s.temporaries < k → temporaryName k ≠ temporaryName s.temporaries :=
      fun k hk he => by
        have := temporaryName_inj he
        omega
    refine ⟨⟨hheld, hmoves, fun k hk => ?_⟩, ⟨hscopes, hkinds, hlt.le, fun y hy => ?_⟩, hprogram,
      fun k hk => (hne k (by omega)).symm, z, ?_, hsize, hapart⟩
    · exact (hother _ (hne k (by omega))).trans (h.fresh k (by omega))
    · exact hother y (hy _ (Nat.le_refl _))
    · exact hnew.trans (congrArg _ hfresh)

end Steady

end Session

end TapeCompiler
