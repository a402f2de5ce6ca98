import TapeCompiler.Proofs.Lowering.Steady
import TapeCompiler.Proofs.Passes.Agreement
import TapeCompiler.Proofs.Script.Evaluation

/-! # Pieces of straight code

What an expression is lowered to is a piece of straight instructions (`Session.Adds`). A piece
prints nothing and changes, of the cells that were taken before it, those it is meant to change
(`Changes`); temporaries lie outside of them. The numbers of a value are shown by the cells of a
spot (`Spot.Shows`), and a planner and a store together give the values of names (`Planner.Reads`).
-/

namespace TapeCompiler

open Lowering

variable {w : CellWidth} {l : Library}

/-- An operator on two known values is **on numbers of the width**. -/
def Instruction.Ranged (w : CellWidth) (i : Instruction) : Prop :=
  ∀ target o a b, i = .binary target o (.value a) (.value b) → a.InWidth w ∧ b.InWidth w

/-! ### What is added -/

/-- **Straight instructions came to a session**, and blocks for temporaries at most. -/
structure Session.Adds (w : CellWidth) (s t : Session) (seg : List Instruction) : Prop
    extends s.Later t where
  steady : t.Steady
  code : t.program.instructions = s.program.instructions ++ seg
  straight : Straight seg
  ranged : ∀ i ∈ seg, i.Ranged w

namespace Session

variable {s t u : Session} {seg seg' : List Instruction} {i : Instruction}

/-- The session with **instructions appended**. -/
def addAll (s : Session) (seg : List Instruction) : Session :=
  { s with program := { s.program with instructions := s.program.instructions ++ seg } }

/-- Nothing is added by a step that leaves the program as it is. -/
theorem Later.adds (h : s.Later t) (ht : t.Steady) (hp : t.program = s.program) :
    s.Adds w t [] where
  toLater := h
  steady := ht
  code := by rw [hp, List.append_nil]
  straight := by simp [Straight]
  ranged := by simp

namespace Adds

theorem refl (hs : s.Steady) : s.Adds w s [] := (Later.refl s).adds hs rfl

theorem trans (h : s.Adds w t seg) (h' : t.Adds w u seg') : s.Adds w u (seg ++ seg') where
  toLater := h.toLater.trans h'.toLater
  steady := h'.steady
  code := by rw [h'.code, h.code, List.append_assoc]
  straight := straight_append.mpr ⟨h.straight, h'.straight⟩
  ranged := List.forall_mem_append.mpr ⟨h.ranged, h'.ranged⟩

theorem add (h : s.Adds w t seg) (hi : i.isFlow = false) (hr : i.Ranged w) :
    s.Adds w (t.add i) (seg ++ [i]) where
  toLater := ⟨h.scopes, h.kinds, h.temporaries, h.spots⟩
  steady := ⟨h.steady.held, h.steady.settled, h.steady.fresh⟩
  code := by rw [← List.append_assoc, ← h.code]; rfl
  straight := straight_append.mpr ⟨h.straight, by simpa [Straight] using hi⟩
  ranged := List.forall_mem_append.mpr ⟨h.ranged, by simpa using hr⟩

end Adds

end Session

/-! ### What a piece changes -/

/-- A piece **prints nothing** and changes, of the cells that are taken, those of `F` at most. -/
structure Changes (w : CellWidth) (l : Library) (p : Planner) (F : Nat → Prop)
    (seg : List Instruction) : Prop where
  output : ∀ σ : Store w, (runAll l seg σ).output = σ.output
  cells : ∀ (σ : Store w) c, p.Claims c → ¬ F c → (runAll l seg σ).cells c = σ.cells c

/-- An instruction that neither prints nor calls. -/
def Instruction.Silent : Instruction → Prop
  | .setValue .. | .copyValue .. | .binary .. | .update .. => True
  | _ => False

namespace Instruction

variable {i : Instruction}

theorem Silent.isFlow (h : i.Silent) : i.isFlow = false := by
  cases i <;> first | rfl | exact h.elim

theorem Silent.output_effect (h : i.Silent) (σ : Store w) : (i.effect l σ).output = σ.output := by
  cases i with
  | setValue => exact Store.output_setAll _ _ _
  | copyValue | binary | update => rfl
  | _ => exact h.elim

end Instruction

namespace Changes

variable {p q : Planner} {F G : Nat → Prop} {seg seg' : List Instruction}

theorem nil : Changes w l p F [] := ⟨fun _ => rfl, fun _ _ _ _ => rfl⟩

/-- **Two pieces**, the second made where more cells are taken. -/
theorem append (h : Changes w l p F seg) (h' : Changes w l q G seg')
    (hclaims : ∀ c, p.Claims c → q.Claims c) (hG : ∀ c, p.Claims c → G c → F c) :
    Changes w l p F (seg ++ seg') where
  output σ := by rw [runAll_append, h'.output, h.output]
  cells σ c hc hF := by
    rw [runAll_append, h'.cells _ c (hclaims c hc) fun hg => hF (hG c hc hg), h.cells σ c hc hF]

theorem of_silent {i : Instruction} (hi : i.Silent) (hw : ∀ c ∈ i.writes, p.Claims c → F c) :
    Changes w l p F [i] where
  output σ := hi.output_effect σ
  cells σ c hc hF := i.cells_effect l σ fun hm => hF (hw c hm hc)

theorem of_all_silent (hi : ∀ i ∈ seg, i.Silent)
    (hw : ∀ i ∈ seg, ∀ c ∈ i.writes, p.Claims c → F c) : Changes w l p F seg := by
  induction seg with
  | nil => exact nil
  | cons i seg ih =>
    rw [List.forall_mem_cons] at hi hw
    exact (of_silent hi.1 hw.1).append (ih hi.2 hw.2) (fun _ => id) fun _ _ => id

theorem mono (h : Changes w l p F seg) (hF : ∀ c, p.Claims c → F c → G c) :
    Changes w l p G seg where
  output := h.output
  cells σ c hc hG := h.cells σ c hc fun hf => hG (hF c hc hf)

end Changes

/-! ### Values in spots -/

/-- **Cells contain a value**: its numbers, and zeros behind them. -/
def Store.Contains (σ : Store w) (a len : Nat) (vs : List Nat) : Prop :=
  vs.length ≤ len ∧ ∀ k < len, (σ.cells (a + k)).val = vs.getD k 0

/-- The cells of a spot contain a value. -/
def Spot.Shows (z : Spot) (σ : Store w) (vs : List Nat) : Prop := σ.Contains z.address z.size vs

/-- **The values of names** are shown where the planner has their blocks. -/
def Planner.Reads (p : Planner) (σ : Store w) (read : String → Option (List Nat)) : Prop :=
  ∀ x vs z, Ordinary x → read x = some vs → (p.spots x).head? = some z → z.Shows σ vs

section Shows
variable {σ τ : Store w} {z : Spot} {a len : Nat} {vs : List Nat} {p : Planner}
  {read : String → Option (List Nat)}

theorem Store.Contains.head (h : σ.Contains a len vs) (hlen : 0 < len) :
    (σ.cells a).val = vs.headD 0 := by
  have := h.2 0 hlen
  cases vs <;> simpa using this

theorem Store.Contains.tail (h : σ.Contains a len vs) :
    σ.Contains (a + 1) (len - 1) vs.tail := by
  refine ⟨?_, fun k hk => ?_⟩
  · rw [List.length_tail]
    exact Nat.sub_le_sub_right h.1 1
  · rw [Nat.add_assoc, Nat.add_comm 1, h.2 _ (by omega)]
    cases vs <;> rfl

/-- **The numbers of the cells** are those of the value, with zeros behind. -/
theorem Store.Contains.values (h : σ.Contains a len vs) :
    ((List.range' a len).map fun c => (σ.cells c).val) =
      vs ++ List.replicate (len - vs.length) 0 := by
  have hlen := h.1
  refine List.ext_getElem (by simp; omega) fun k hk hk' => ?_
  have hk : k < len := by simpa using hk
  simp only [List.getElem_map, List.getElem_range', Nat.one_mul, h.2 k hk]
  rw [List.getD_eq_getElem?_getD, List.getElem_append]
  split_ifs with hin
  · rw [List.getElem?_eq_getElem hin, Option.getD_some]
  · rw [List.getElem?_eq_none (by omega), Option.getD_none, List.getElem_replicate]

theorem Store.Contains.congr (h : σ.Contains a len vs)
    (hc : ∀ k < len, τ.cells (a + k) = σ.cells (a + k)) : τ.Contains a len vs :=
  ⟨h.1, fun k hk => by rw [hc k hk, h.2 k hk]⟩

theorem Spot.holds_add {k : Nat} (hk : k < z.size) : z.Holds (z.address + k) :=
  ⟨Nat.le_add_right _ _, Nat.add_lt_add_left hk _⟩

theorem Spot.Shows.congr (h : z.Shows σ vs) (hc : ∀ c, z.Holds c → τ.cells c = σ.cells c) :
    z.Shows τ vs :=
  Store.Contains.congr h fun _ hk => hc _ (Spot.holds_add hk)

/-- **Values are kept** where no cell that is taken changes. -/
theorem Planner.Reads.later {s t : Session} (h : s.planner.Reads σ read) (hl : s.Later t)
    (hc : ∀ c, s.planner.Claims c → τ.cells c = σ.cells c) : t.planner.Reads τ read := by
  intro x vs z hx hv hz
  rw [hl.spots x (Session.knows_of_ordinary hx)] at hz
  exact (h x vs z hx hv hz).congr fun c hin => hc c ⟨x, z, List.mem_of_head? hz, hin⟩

end Shows

end TapeCompiler
