import TapeCompiler.Proofs.Emission.Depth
import TapeCompiler.Proofs.Emission.Refinement
import TapeCompiler.Proofs.Lowering.Parameters
import TapeCompiler.Proofs.Passes.Agreement

/-! # Optimized programs print the same

A program lowered from a script, if no operator in it has two known values, and the program the
passes of a level make of it are emitted alike: where there is room for the first there is room for
the second, and their texts complete on the same inputs with the same output
(`optimize_preserves_output`). Folding of known values is left out here, for it is done on unbounded
integers. -/

namespace TapeCompiler

/-- Whether an instruction is an operator on two known values. -/
def Instruction.onValues : Instruction → Bool
  | .binary _ _ (.value _) (.value _) => true
  | _ => false

/-- No operator of a program has **two known values**. -/
def Program.Unfoldable (p : Program) : Prop := ∀ i ∈ p.instructions, i.onValues = false

instance (p : Program) : Decidable p.Unfoldable :=
  inferInstanceAs (Decidable (∀ i ∈ p.instructions, i.onValues = false))

/-- A lowered program whose operators on known values are **on numbers of the width** lies below its
highest cell and the high-water mark. -/
theorem improves_of_ranged {script : Script} {settings : PlannerSettings} {planner : Planner}
    {schedule : Schedule} {s : Session} (hp : Planner.new settings = .ok planner)
    (hs : script.lower planner schedule = (.ok (), s)) {w : CellWidth} (hr : s.program.Ranged w)
    {t : CodeTree} (ht : s.program.IsTree t) (library : Library) :
    Improves w library (max s.program.maxAddress s.planner.highWater) t s.program t where
  tree := ht
  within := by
    refine Program.within_max (fun i hi => ht.mem hi) fun f hf v hv => ?_
    have := parameters_of_lower hs (Planner.held_new hp) f hf v hv
    omega
  ranged := hr
  nesting := rfl
  same _ _ := Iff.rfl

theorem improves_of_lower {script : Script} {settings : PlannerSettings} {planner : Planner}
    {schedule : Schedule} {s : Session} (hp : Planner.new settings = .ok planner)
    (hs : script.lower planner schedule = (.ok (), s)) (hu : s.program.Unfoldable) {t : CodeTree}
    (ht : s.program.IsTree t) (w : CellWidth) (library : Library) :
    Improves w library (max s.program.maxAddress s.planner.highWater) t s.program t :=
  improves_of_ranged hp hs (fun _ _ _ _ hi => by cases hu _ hi) ht library

/-- **The passes of every level preserve output.** When a lowered program is emitted, so is what the
passes make of it, with the same planner; the one text completes under some operation limit if and
only if the other does, and then both give the same output. -/
theorem optimize_preserves_output {script : Script} {settings : PlannerSettings}
    {planner : Planner} {schedule : Schedule} {s : Session}
    (hp : Planner.new settings = .ok planner)
    (hs : script.lower planner schedule = (.ok (), s)) (hu : s.program.Unfoldable) (level : Nat)
    {library : Library} (hl : library = .standard ∨ library = .empty) {w : CellWidth} {size : Nat}
    {text : String} {ws : List String}
    (h : s.program.emit library w size s.planner.highWater = (.ok text, ws)) :
    ∃ text' ws', (s.program.optimize level).1.emit library w size s.planner.highWater =
        (.ok text', ws') ∧
      ∀ (mode : PointerMode) (input : List UInt8),
        ((∃ e m, Completes size w mode text input e m) ↔
          ∃ e m, Completes size w mode text' input e m) ∧
        ∀ e m e' m', Completes size w mode text input e m →
          Completes size w mode text' input e' m' → e.outputCells = e'.outputCells := by
  obtain ⟨t, ht⟩ := exists_isTree_of_lower hp hs
  obtain ⟨u, hu⟩ := improves_optimize level (improves_of_lower hp hs hu ht w library)
  have hknown := Library.known_of_eq hl
  -- no pass takes more cells or nests deeper
  have hroom : max (s.program.optimize level).1.maxAddress s.planner.highWater + scratchCells +
      2 * u.nesting ≤ size := by
    have hbefore := Program.room_of_emit ht h
    have hcells := hu.within.maxAddress_le
    have hnesting := hu.nesting
    omega
  obtain ⟨text', ws', h'⟩ := Program.emit_of_room hu.tree hknown w hroom
  refine ⟨text', ws', h', fun mode input => ?_⟩
  obtain ⟨pointer, hends⟩ := Program.ends_iff_runs ht hknown h mode input
  obtain ⟨pointer', hends'⟩ := Program.ends_iff_runs hu.tree hknown h' mode input
  have hgo : ∀ e m, Completes size w mode text input e m →
      ∃ e' m', Completes size w mode text' input e' m' ∧ e'.outputCells = e.outputCells := by
    intro e m hem
    obtain ⟨τ, hτ, ho, -⟩ := (hends _ _ _).mp ⟨e, m, hem, rfl, rfl, rfl⟩
    obtain ⟨υ, hυ, ho'⟩ := (hu.same input e.outputCells).mp ⟨τ, hτ, ho⟩
    obtain ⟨e', m', hem', heq, -⟩ := (hends' _ _ _).mpr ⟨υ, hυ, ho', rfl, rfl⟩
    exact ⟨e', m', hem', heq⟩
  have hback : ∀ e' m', Completes size w mode text' input e' m' →
      ∃ e m, Completes size w mode text input e m := by
    intro e' m' hem'
    obtain ⟨τ, hτ, ho, -⟩ := (hends' _ _ _).mp ⟨e', m', hem', rfl, rfl, rfl⟩
    obtain ⟨υ, hυ, ho'⟩ := (hu.same input e'.outputCells).mpr ⟨τ, hτ, ho⟩
    obtain ⟨e, m, hem, -⟩ := (hends _ _ _).mpr ⟨υ, hυ, ho', rfl, rfl⟩
    exact ⟨e, m, hem⟩
  refine ⟨⟨fun ⟨e, m, hem⟩ => ?_, fun ⟨e', m', hem'⟩ => hback e' m' hem'⟩,
    fun e m e' m' hem hem' => ?_⟩
  · obtain ⟨e', m', hem', -⟩ := hgo e m hem
    exact ⟨e', m', hem'⟩
  · obtain ⟨e'', m'', hem'', heq⟩ := hgo e m hem
    -- the second text has one ending only
    obtain ⟨τ, hτ, ho, -⟩ := (hends' _ _ _).mp ⟨e', m', hem', rfl, rfl, rfl⟩
    obtain ⟨υ, hυ, ho', -⟩ := (hends' _ _ _).mp ⟨e'', m'', hem'', rfl, rfl, rfl⟩
    obtain rfl := hτ.unique hυ
    rw [← heq, ← ho', ho]

/-- The countdown is emitted at the highest level when it is emitted at the lowest. -/
theorem optimize_preserves_output_of_countdown :
    Planner.new countdownSettings = .ok countdownPlanner ∧
      ∃ s, countdown.lower countdownPlanner late = (.ok (), s) ∧ s.program.Unfoldable ∧ ∃ text ws,
        s.program.emit .standard .bits8 20 s.planner.highWater = (.ok text, ws) ∧ ∃ text' ws',
          (s.program.optimize 4).1.emit .standard .bits8 20 s.planner.highWater = (.ok text', ws') ∧
            ((∃ e m, Completes 20 .bits8 .strict text [] e m) ↔
              ∃ e m, Completes 20 .bits8 .strict text' [] e m) := by
  have hp : Planner.new countdownSettings = .ok countdownPlanner := by decide +kernel
  have hok : (countdown.lower countdownPlanner late).1.isOk &&
      decide (countdown.lower countdownPlanner late).2.program.Unfoldable &&
      ((countdown.lower countdownPlanner late).2.program.emit .standard .bits8 20
        (countdown.lower countdownPlanner late).2.planner.highWater).1.isOk := by decide +kernel
  refine ⟨hp, ?_⟩
  generalize hs : countdown.lower countdownPlanner late = x at hok ⊢
  obtain ⟨r, s⟩ := x
  simp only [Bool.and_eq_true, decide_eq_true_eq] at hok
  obtain ⟨⟨hr, hu⟩, he⟩ := hok
  generalize hy : s.program.emit .standard .bits8 20 s.planner.highWater = y at he
  obtain ⟨r', ws⟩ := y
  cases r with
  | error f => cases hr
  | ok u =>
    cases r' with
    | error f => cases he
    | ok text =>
      obtain ⟨text', ws', h', hsame⟩ := optimize_preserves_output hp hs hu 4 (Or.inl rfl) hy
      exact ⟨s, rfl, hu, text, ws, hy, text', ws', h', (hsame .strict []).1⟩

end TapeCompiler
