import TapeCompiler.Proofs.Tape.Counting
import TapeCompiler.Proofs.Tape.Mirror

/-! # Stripped code

Stripping a text spells its negations out and drops what is not executed. On the side of code this
is `Code.expanded`: a negated cell is moved to its right neighbour, downwards, and back. That
negates the cell **if the neighbour is zero** (`runs_spelled`), and it is if no code names it
(`runs_expanded_iff`). So the run of a text and that of the stripped text end in the same way
(`ends_strip`). -/

namespace TapeCompiler

/-- The base symbols of a symbol. -/
def Op.spelled : Op → List Op
  | .negate => opsOf (String.ofList negation)
  | o => [o]

theorem opsOf_strip (text : String) : opsOf (strip text) = (opsOf text).flatMap Op.spelled := by
  unfold opsOf strip
  rw [String.toList_ofList]
  induction text.toList with
  | nil => rfl
  | cons c l ih =>
    rw [List.flatMap_cons, List.filterMap_append, ih, List.filterMap_cons]
    unfold stripChar
    cases h : Op.ofChar? c with
    | none => simp
    | some o => cases o <;> simp [h, Op.spelled, opsOf]

namespace Code

/-- Code with **its negations spelled out**. -/
def expanded : Code → Code
  | on a .negate => moveSub a (a + 1) ++ moveAdd (a + 1) a ++ move a
  | loop a body => loop a body.expanded
  | seq first second => seq first.expanded second.expanded
  | c => c

variable {P N : Nat → Prop} {c : Code}

theorem last_expanded (c : Code) (p : Nat) : c.expanded.last p = c.last p := by
  induction c generalizing p with
  | on a o => cases o <;> rfl
  | seq first second ih₁ ih₂ => simp only [expanded, last, ih₁, ih₂]
  | _ => rfl

theorem flatMap_spelled {l : List Op} (h : ∀ o ∈ l, o ≠ .negate) : l.flatMap Op.spelled = l := by
  induction l with
  | nil => rfl
  | cons o l ih =>
    rw [List.flatMap_cons, ih fun q hq => h q (by simp [hq])]
    have := h o (by simp)
    cases o <;> first | rfl | exact absurd rfl this

theorem flatMap_moves (p q : Nat) : (moves p q).flatMap Op.spelled = moves p q :=
  flatMap_spelled fun o h => by rcases mem_moves h with rfl | rfl <;> simp

theorem flatMap_replicate {o : Op} (h : o ≠ .negate) (n : Nat) :
    (List.replicate n o).flatMap Op.spelled = List.replicate n o :=
  flatMap_spelled fun q hq => by rwa [List.eq_of_mem_replicate hq]

theorem spelled_negate : Op.spelled .negate =
    [.enter, .dec, .right, .dec, .left, .leave, .right, .enter, .dec, .left, .inc, .right, .leave,
      .left] := by
  decide

/-- **The text of spelled out code** is the stripped text. -/
theorem ops_expanded (c : Code) (p : Nat) :
    (c.expanded.flow p).ops = (c.flow p).ops.flatMap Op.spelled := by
  induction c generalizing p with
  | skip | text | opening | closing => rfl
  | move a => simp [expanded, flow, flatMap_moves]
  | add a n | sub a n => simp [expanded, flow, flatMap_moves, flatMap_replicate]
  | on a o =>
    cases o with
    | negate =>
      have hself : moves a a = [] := by simp [moves]
      have hright : moves a (a + 1) = [.right] := by simp [moves]
      have hleft : moves (a + 1) a = [.left] := by simp [moves]
      have hself' : moves (a + 1) (a + 1) = [] := by simp [moves]
      simp [expanded, moveSub, moveAdd, flow, last, flatMap_moves, spelled_negate, Flow.ops, hself,
        hself', hright, hleft]
    | _ => simp [expanded, flow, flatMap_moves, Op.spelled]
  | loop a body ih =>
    simp [expanded, flow, Flow.ops, flatMap_moves, ih, last_expanded, Op.spelled]
  | seq first second ih₁ ih₂ => simp [expanded, flow, ih₁, ih₂, last_expanded]

theorem opsOf_strip_textFrom {text : String} (h : opsOf text = (c.flow 0).ops) :
    opsOf (strip text) = (c.expanded.flow 0).ops := by
  rw [opsOf_strip, h, ops_expanded]

theorem within_expanded {P' : Nat → Prop} (hP : ∀ a, P a → P' a) (hN : ∀ a, N a → P' (a + 1))
    (hc : c.Within P N) : c.expanded.Within P' N := by
  induction c with
  | skip => trivial
  | move | add | sub => exact hP _ hc
  | on a o =>
    obtain ⟨ha, rfl | rfl | ⟨rfl, hn⟩⟩ := hc
    · exact ⟨hP a ha, Or.inl rfl⟩
    · exact ⟨hP a ha, Or.inr (Or.inl rfl)⟩
    · have h₀ := hP a ha
      have h₁ := hN a hn
      exact ⟨⟨⟨h₀, h₀, h₁⟩, h₁, h₁, h₀⟩, h₀⟩
  | text => exact hc
  | loop a body ih => exact ⟨hP a hc.1, ih hc.2⟩
  | opening | closing => exact hc.elim
  | seq first second ih₁ ih₂ => exact ⟨ih₁ hc.1, ih₂ hc.2⟩

/-! ### Meaning -/

variable {w : CellWidth} {σ τ : Store w}

/-- **A negation spelled out** negates, if the cell to the right is zero. -/
theorem runs_spelled {a : Nat} (h : σ.cells (a + 1) = 0) :
    (expanded (on a .negate)).Runs σ (σ.set a (-σ.cells a)) := by
  refine Runs.seq (ρ := σ.set a (-σ.cells a)) (Runs.seq (runs_moveSub (by omega))
    ((runs_moveAdd (by omega)).to (Store.ext (fun i => ?_) rfl rfl))) rfl
  simp only [Store.cells_set]
  grind

/-- **Spelled out code does the same**, as long as a negation finds its neighbour zero. -/
theorem runs_expanded_iff {g : Nat} (hc : c.Within P N) (hP : ∀ a, P a → a ≠ g)
    (hN : ∀ a, N a → a + 1 = g) : ∀ {σ τ : Store w}, σ.cells g = 0 →
      (c.Runs σ τ ↔ c.expanded.Runs σ τ) := by
  induction c with
  | skip | move | add | sub | text => exact fun _ => Iff.rfl
  | on a o =>
    intro σ τ hg
    obtain ⟨ha, rfl | rfl | ⟨rfl, hn⟩⟩ := hc
    · exact Iff.rfl
    · exact Iff.rfl
    · have := runs_spelled (σ := σ) (a := a) (by rw [hN a hn, hg])
      exact ⟨fun h => h ▸ this, fun h => h.unique this⟩
  | loop a body ih =>
    intro σ τ hg
    have hkeep : ∀ ρ ρ' : Store w, ρ.cells g = 0 → body.Runs ρ ρ' → ρ'.cells g = 0 :=
      fun ρ ρ' hρ h => (h.frame hc.2 fun hp => hP g hp rfl).trans hρ
    constructor
    · intro h
      obtain ⟨τ', h', rfl, -⟩ := While.simulation (S := fun ρ ρ' => ρ = ρ' ∧ ρ.cells g = 0)
        (q := fun ρ => ρ.cells a ≠ 0) (Q := body.expanded.Runs) (fun ρ ρ' h => by rw [h.1])
        (fun ρ ρ' υ hρ _ hr => ⟨υ, by rw [← hρ.1]; exact (ih hc.2 hρ.2).mp hr, rfl,
          hkeep ρ υ hρ.2 hr⟩) h σ ⟨rfl, hg⟩
      exact h'
    · intro h
      obtain ⟨τ', h', rfl, -⟩ := While.simulation (S := fun ρ ρ' => ρ = ρ' ∧ ρ.cells g = 0)
        (q := fun ρ => ρ.cells a ≠ 0) (Q := body.Runs) (fun ρ ρ' h => by rw [h.1])
        (fun ρ ρ' υ hρ _ hr => by
          have hr' := (ih hc.2 hρ.2).mpr hr
          exact ⟨υ, by rw [← hρ.1]; exact hr', rfl, hkeep ρ υ hρ.2 hr'⟩) h σ ⟨rfl, hg⟩
      exact h'
  | opening | closing => exact hc.elim
  | seq first second ih₁ ih₂ =>
    intro σ τ hg
    have hkeep : ∀ ρ : Store w, first.Runs σ ρ → ρ.cells g = 0 :=
      fun ρ h => (h.frame hc.1 fun hp => hP g hp rfl).trans hg
    constructor
    · rintro ⟨ρ, h₁, h₂⟩
      exact ⟨ρ, (ih₁ hc.1 hg).mp h₁, (ih₂ hc.2 (hkeep ρ h₁)).mp h₂⟩
    · rintro ⟨ρ, h₁, h₂⟩
      have h₁' := (ih₁ hc.1 hg).mpr h₁
      exact ⟨ρ, h₁', (ih₂ hc.2 (hkeep ρ h₁')).mpr h₂⟩

end Code

/-! ### Runs -/

section Runs
variable {w : CellWidth} {size : Nat} {mode : PointerMode} {input : List UInt8} {c : Code} {g : Nat}
  {N : Nat → Prop} {text : String}

/-- **A text and the stripped text** end in the same way, if no code names the guard cell and every
negated cell is left of it. -/
theorem ends_strip (hc : c.Within (fun a => a < size ∧ a ≠ g) N) (hN : ∀ a, N a → a + 1 = g)
    (hg : g < size) (htext : opsOf text = (c.flow 0).ops) {o : List Nat} {t : Array Nat} {p : Nat} :
    Ends size w mode text input o t p ↔ Ends size w mode (strip text) input o t p := by
  have hs : 0 < size := by omega
  have hc₁ : c.Within (· < size) N := hc.mono (fun a h => h.1) fun a h => h
  have hc₂ : c.expanded.Within (· < size) N :=
    Code.within_expanded (fun a h => h.1) (fun a h => by rw [hN a h]; exact hg) hc
  rw [Code.ends_iff hc₁ hs htext, Code.ends_iff hc₂ hs (Code.opsOf_strip_textFrom htext)]
  have hiff : ∀ τ : Store w, c.Runs (Store.start input) τ ↔ c.expanded.Runs (Store.start input) τ :=
    fun τ => Code.runs_expanded_iff hc (fun a h => h.2) hN rfl
  simp only [hiff, Code.last_expanded]

end Runs

end TapeCompiler
