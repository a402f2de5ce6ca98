import TapeCompiler.Proofs.Cells.Running
import TapeCompiler.Proofs.Emission.TreeCode
import TapeCompiler.Proofs.Lowering.Trees
import TapeCompiler.Proofs.Passes.Trees
import TapeCompiler.Proofs.Tape.Mirror

/-! # Brackets do what jumps do

The text emitted for a lowered program, before or after the passes of any level, does what its
instructions do as jumps (`emission_refines_jumps`): a lowered program is written from a tree, the
passes keep that, and emission writes code that does what the tree does. -/

namespace TapeCompiler

/-- **How the text of a tree ends** is what the tree does. -/
theorem Program.ends_iff_runs {p : Program} {t : CodeTree} (ht : p.IsTree t) {library : Library}
    (hl : library.Known) {w : CellWidth} {size reserved : Nat} {text : String} {ws : List String}
    (h : p.emit library w size reserved = (.ok text, ws)) (mode : PointerMode)
    (input : List UInt8) : ∃ pointer, ∀ o tape p', Ends size w mode text input o tape p' ↔
      ∃ τ : Store w, t.Runs library (Store.start input) τ ∧ τ.output = o ∧ τ.tape size = tape ∧
        pointer = p' := by
  obtain ⟨c, hc, rfl, hruns⟩ :=
    Program.exists_treeCode (fun _ hi => ht.mem hi) ht.code ht.straight ht.nodup hl h
  have hsize : 0 < size := (Nat.zero_le _).trans_lt (Program.guard_lt_of_emit h)
  refine ⟨c.last 0, fun o tape p' => ?_⟩
  rw [Code.ends_iff (hc.mono (fun a ha => ha.1) fun a ha => ha) hsize (Code.opsOf_textFrom hc)]
  simp only [hruns]

theorem exists_isTree_of_lower {script : Script} {settings : PlannerSettings} {planner : Planner}
    {schedule : Schedule} {s : Session} (hp : Planner.new settings = .ok planner)
    (hs : script.lower planner schedule = (.ok (), s)) : ∃ t, s.program.IsTree t := by
  obtain ⟨t, hcode, hstraight, hproper, hnodup⟩ :=
    exists_tree_of_lower hs (Planner.held_new hp)
  exact ⟨t, hcode, hstraight, hproper, hnodup⟩

/-- **Emitted brackets refine jumps.** Of a program lowered from any script, whenever collections
were due, with the passes of any level, the instructions run to their end with an output if and only
if the emitted text completes under some operation limit with that output, and then the tape holds
the cells of the program. -/
theorem emission_refines_jumps {script : Script} {settings : PlannerSettings} {planner : Planner}
    {schedule : Schedule} {s : Session} (hp : Planner.new settings = .ok planner)
    (hs : script.lower planner schedule = (.ok (), s)) (level : Nat) {library : Library}
    (hl : library = .standard ∨ library = .empty) {w : CellWidth} {size reserved : Nat}
    {text : String} {ws : List String}
    (h : (s.program.optimize level).1.emit library w size reserved = (.ok text, ws))
    (mode : PointerMode) (input : List UInt8) :
    (∀ o, (∃ τ : Store w, Halts library (s.program.optimize level).1.instructions
        (Store.start input) τ ∧ τ.output = o) ↔
      ∃ e m, Completes size w mode text input e m ∧ e.outputCells = o) ∧
    ∀ (τ : Store w) e m, Halts library (s.program.optimize level).1.instructions
        (Store.start input) τ → Completes size w mode text input e m →
      e.outputCells = τ.output ∧ ∀ a < size, m.tape.getD a 0 = (τ.cells a).val := by
  obtain ⟨t, ht⟩ := exists_isTree_of_lower hp hs
  obtain ⟨t, ht⟩ := exists_isTree_optimize level ht
  obtain ⟨pointer, hends⟩ := Program.ends_iff_runs ht (Library.known_of_eq hl) h mode input
  have hhalts : ∀ τ : Store w, Halts library (s.program.optimize level).1.instructions
      (Store.start input) τ ↔ t.Runs library (Store.start input) τ := fun τ => by
    rw [ht.code]
    exact CodeTree.halts_flatten ht.straight ht.nodup
  simp only [hhalts]
  constructor
  · intro o
    constructor
    · rintro ⟨τ, hτ, rfl⟩
      obtain ⟨e, m, hem, ho, -⟩ := (hends _ _ _).mpr ⟨τ, hτ, rfl, rfl, rfl⟩
      exact ⟨e, m, hem, ho⟩
    · rintro ⟨e, m, hem, rfl⟩
      obtain ⟨τ, hτ, ho, -⟩ := (hends _ _ _).mp ⟨e, m, hem, rfl, rfl, rfl⟩
      exact ⟨τ, hτ, ho⟩
  · intro τ e m hτ hem
    obtain ⟨υ, hυ, ho, htape, -⟩ := (hends _ _ _).mp ⟨e, m, hem, rfl, rfl, rfl⟩
    obtain rfl := hτ.unique hυ
    refine ⟨ho.symm, fun a ha => ?_⟩
    rw [← htape, Store.tape]
    simp [ha]

/-- A script that prints 2 and 1 in a loop. -/
def countdown : Script :=
  ⟨[.declare .block "x" (some (.literal (.int 2))),
    .loop none (some (.name "x")) none [
      .effect (.call (.member (.name "console") "log") [.name "x"]),
      .effect (.update .decrement "x" false)]], []⟩

/-- The settings and the planner of the countdown. -/
def countdownSettings : PlannerSettings := { memorySize := 20 }

/-- The planner of the countdown, before anything is handed out. -/
def countdownPlanner : Planner :=
  ⟨countdownSettings, [], [], 0, 0, 0, [], 0, 0, heapBase, globalsBase, 0, 0, 0, [], 0⟩

/-- Times at which **every request** finds a collection due. -/
def late : Schedule := fun _ => 11

theorem emission_refines_jumps_of_countdown :
    Planner.new countdownSettings = .ok countdownPlanner ∧
      ∃ s, countdown.lower countdownPlanner late = (.ok (), s) ∧ ∃ text ws,
        (s.program.optimize 2).1.emit .standard .bits8 20 2 = (.ok text, ws) ∧
          ((∃ τ : Store .bits8, Halts .standard (s.program.optimize 2).1.instructions
              (Store.start []) τ ∧ τ.output = [2, 1]) ↔
            ∃ e m, Completes 20 .bits8 .strict text [] e m ∧ e.outputCells = [2, 1]) := by
  have hp : Planner.new countdownSettings = .ok countdownPlanner := by decide +kernel
  have hok : (countdown.lower countdownPlanner late).1.isOk &&
      (((countdown.lower countdownPlanner late).2.program.optimize 2).1.emit .standard .bits8 20
        2).1.isOk := by decide +kernel
  refine ⟨hp, ?_⟩
  generalize hs : countdown.lower countdownPlanner late = x at hok ⊢
  obtain ⟨r, s⟩ := x
  simp only [Bool.and_eq_true] at hok
  obtain ⟨hr, he⟩ := hok
  generalize hy : (s.program.optimize 2).1.emit .standard .bits8 20 2 = y at he
  obtain ⟨r', ws⟩ := y
  cases r with
  | error f => cases hr
  | ok u =>
    cases r' with
    | error f => cases he
    | ok text =>
      exact ⟨s, rfl, text, ws, hy,
        (emission_refines_jumps hp hs 2 (Or.inl rfl) hy .strict []).1 [2, 1]⟩

end TapeCompiler
