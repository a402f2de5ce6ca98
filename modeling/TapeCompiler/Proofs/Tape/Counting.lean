import TapeCompiler.Proofs.Tape.Meaning

/-! # Counting loops

Most loops of tape code count a cell down to zero. Such a loop is described by the family of stores
it goes through, one for each number still left in the cell (`runs_countdown`); moving a cell to
another, copying it and building a constant follow. Each law says what the code does to the *whole*
store. -/

namespace TapeCompiler

namespace Code

variable {w : CellWidth} {σ ρ τ : Store w}

theorem Runs.seq {c d : Code} (hc : c.Runs σ ρ) (hd : d.Runs ρ τ) : (c ++ d).Runs σ τ :=
  ⟨ρ, hc, hd⟩

theorem Runs.to {c : Code} (hc : c.Runs σ ρ) (h : ρ = τ) : c.Runs σ τ := h ▸ hc

theorem runs_add (a n : Nat) : (add a n).Runs σ (σ.set a (σ.cells a + w.cell n)) := rfl

theorem runs_sub (a n : Nat) : (sub a n).Runs σ (σ.set a (σ.cells a - w.cell n)) := rfl

theorem runs_loop_zero {a : Nat} {body : Code} (h : σ.cells a = 0) : (loop a body).Runs σ σ :=
  .stop (not_not.mpr h)

theorem runs_loop_once {a : Nat} {body : Code} (h : σ.cells a ≠ 0) (hb : body.Runs σ τ)
    (hz : τ.cells a = 0) : (loop a body).Runs σ τ :=
  .step h hb (runs_loop_zero hz)

/-- **A loop that counts down**: `F k` is the store when `k` is left in the cell. -/
theorem runs_countdown {a : Nat} {body : Code} (F : Nat → Store w) {n : Nat} (hn : n < w.modulus)
    (ha : ∀ k ≤ n, (F k).cells a = w.cell k) (hb : ∀ k < n, body.Runs (F (k + 1)) (F k)) :
    (loop a body).Runs (F n) (F 0) := by
  induction n with
  | zero => exact runs_loop_zero (ha 0 (Nat.le_refl 0))
  | succ n ih =>
    refine .step ?_ (hb n (by omega)) (ih (by omega) (fun k hk => ha k (by omega))
      fun k hk => hb k (by omega))
    rw [ha _ (Nat.le_refl _)]
    exact CellWidth.cell_ne_zero (by omega) hn

theorem runs_countdown_cells {a : Nat} {body : Code} (F : Nat → Store w)
    (hσ : F (σ.cells a).val = σ) (hτ : F 0 = τ) (ha : ∀ k, (F k).cells a = w.cell k)
    (hb : ∀ k < (σ.cells a).val, body.Runs (F (k + 1)) (F k)) : (loop a body).Runs σ τ := by
  have := runs_countdown F (σ.cells a).isLt (fun k _ => ha k) hb
  rwa [hσ, hτ] at this

/-! ### Clearing, moving and copying -/

theorem runs_clear (a : Nat) : (clear a).Runs σ (σ.set a 0) := by
  refine runs_countdown_cells (fun k => σ.set a (w.cell k)) (by simp) (by simp) (fun k => by simp)
    fun k _ => ?_
  have := runs_sub (σ := σ.set a (w.cell (k + 1))) a 1
  simpa [CellWidth.cell_succ_sub] using this

/-- The store of a move **when `k` is left** to be moved. -/
def moving (σ : Store w) (source target k : Nat) : Store w :=
  (σ.set source (w.cell k)).set target (σ.cells target + (σ.cells source - w.cell k))

theorem moving_start (σ : Store w) {source target : Nat} :
    moving σ source target (σ.cells source).val = σ := by
  simp [moving]

theorem cells_moving_source {source target : Nat} (h : source ≠ target) (k : Nat) :
    (moving σ source target k).cells source = w.cell k := by
  simp [moving, Store.cells_set_of_ne _ _ h]

theorem runs_moving {source target : Nat} (h : source ≠ target) (k : Nat) :
    (sub source 1 ++ add target 1).Runs (moving σ source target (k + 1))
      (moving σ source target k) := by
  refine Runs.seq (runs_sub _ _) (Store.ext (fun x => ?_) rfl rfl)
  simp only [moving, Store.cells_set, CellWidth.cell_succ k]
  grind

theorem runs_moveAdd {source target : Nat} (h : source ≠ target) :
    (moveAdd source target).Runs σ
      ((σ.set source 0).set target (σ.cells target + σ.cells source)) :=
  runs_countdown_cells (moving σ source target) (moving_start σ) (by simp [moving])
    (cells_moving_source h) fun k _ => runs_moving h k

theorem runs_moveSub {source target : Nat} (h : source ≠ target) :
    (moveSub source target).Runs σ
      ((σ.set source 0).set target (σ.cells target - σ.cells source)) := by
  refine runs_countdown_cells (fun k =>
    (σ.set source (w.cell k)).set target (σ.cells target - (σ.cells source - w.cell k)))
    (by simp [Store.set_eq_self]) (by simp) (fun k => by simp [Store.cells_set_of_ne _ _ h])
    fun k _ => Runs.seq (runs_sub _ _) (Store.ext (fun x => ?_) rfl rfl)
  simp only [Store.cells_set, CellWidth.cell_succ k]
  grind

theorem runs_copyAdd {source target way : Nat} (hst : source ≠ target) (hsw : source ≠ way)
    (htw : target ≠ way) (hw : σ.cells way = 0) :
    (copyAdd source target way).Runs σ (σ.set target (σ.cells target + σ.cells source)) := by
  refine Runs.seq (ρ := ((σ.set source 0).set target (σ.cells target + σ.cells source)).set way
    (σ.cells source)) ?_ ?_
  · refine runs_countdown_cells (fun k => ((σ.set source (w.cell k)).set target
      (σ.cells target + (σ.cells source - w.cell k))).set way (σ.cells source - w.cell k))
      ?_ (by simp) (fun k => ?_) fun k _ =>
        Runs.seq (Runs.seq (runs_sub _ _) (runs_add _ _)) (Store.ext (fun x => ?_) rfl rfl)
    · refine Store.ext (fun x => ?_) rfl rfl
      simp only [Store.cells_set, CellWidth.cell_val]
      grind
    · simp [Store.cells_set, hst, hsw]
    · simp only [Store.cells_set, CellWidth.cell_succ k]
      grind
  · refine (runs_moveAdd (Ne.symm hsw)).to (Store.ext (fun x => ?_) rfl rfl)
    simp only [Store.cells_set]
    grind

end Code

end TapeCompiler
