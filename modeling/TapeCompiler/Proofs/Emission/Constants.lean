import TapeCompiler.Proofs.Emission.Improvement
import TapeCompiler.Proofs.Passes.Faithful
import TapeCompiler.Script.Expression

/-! # Literal expressions, computed and folded

The code of an operator on two literals works on their first cells, folding on their values. Without
passes a literal expression prints first what the code computes, with the passes of any level from
one on the first cell of the folded value (`printsFirst_printing`): the lowered script is an
operator and a print (`lower_printing`), and the passes make of it what they make of the folded
store (`optimize_printingCells`). The two agree for faithful operands (`folding_agrees`), and not
for all (`order_of_negative_disagrees`). -/

namespace TapeCompiler

/-! ### Lowering -/

/-- The literal that writes a value. -/
def Value.literal : Value → Literal
  | int n => .int n
  | str s => .str s
  | bool b => .bool b
  | null => .null

/-- A script that **prints an operator on two literals**. -/
def printing (o : Operator) (l r : Value) : Script :=
  ⟨[.effect (.call (.member (.name "console") "log")
    [Source.operation o (.literal l.literal) (.literal r.literal)])], []⟩

/-- A program of one instruction, without names, that then **prints some cells**. -/
def printingCells (i : Instruction) (a n : Nat) : Program :=
  { Program.empty with instructions := [i, .print [.cells a n]] }

theorem constant?_literal (v : Value) : (Expr.literal v.literal).constant? = some v := by
  cases v <;> rfl

theorem constant?_operation (o : Operator) (l r : Value) :
    (Source.operation o (.literal l.literal) (.literal r.literal)).constant? =
      Value.fold o l r := by
  unfold Source.operation
  split_ifs <;> simp only [Expr.constant?, constant?_literal]

namespace Lowering

theorem operandVia_literal (v : Value) (f : String → Lowering Unit) :
    operandVia (.literal v.literal) f = pure (.value v) := by
  cases v <;> rfl

/-- An operator on two literals goes by way of a temporary as long as the folded value. -/
theorem operandVia_operation {o : Operator} {l r v : Value} (hv : Value.fold o l r = some v)
    (f : String → Lowering Unit) :
    operandVia (Source.operation o (.literal l.literal) (.literal r.literal)) f = do
      let name ← temporary v.size
      f name
      return .named name v.size := by
  have hsize : ((Source.operation o (.literal l.literal) (.literal r.literal)).constant?.map
      Value.size).getD 1 = v.size := by
    rw [constant?_operation, hv]
    rfl
  rw [← hsize]
  unfold Source.operation
  split_ifs <;> rfl

theorem into_operation (o : Operator) (l r : Value) (target : String) :
    into (Source.operation o (.literal l.literal) (.literal r.literal)) target =
      operator o (pure (.value l)) (pure (.value r)) target := by
  unfold Source.operation
  split_ifs <;> rw [into, operandVia_literal, operandVia_literal]

theorem gives_operation {o : Operator} {l r v : Value} (hv : Value.fold o l r = some v)
    {s t : Session} {slot : Slot} (h : Gives
      (operandOf (Source.operation o (.literal l.literal) (.literal r.literal))) s slot t) :
    ∃ name p b, slot = .named name v.size ∧ t.planner.visible? name = some b ∧
      t.program = { s.program.relocate p with instructions :=
        (s.program.relocate p).instructions ++ [.binary b.address o (.value l) (.value r)] } := by
  rw [operandOf, operandVia_operation hv] at h
  simp only [into_operation, operator, resolve, gives_bind, gives_temporary, gives_allocate,
    gives_pure, gives_address, gives_emit] at h
  obtain ⟨name, t₁, ⟨-, n, q, -, rfl⟩, _, t₂, hfill, rfl, rfl⟩ := h
  obtain ⟨_, _, ⟨rfl, rfl⟩, _, _, ⟨rfl, rfl⟩, _, _, ⟨rfl, rfl⟩, _, _, ⟨rfl, rfl⟩, a, _,
    ⟨⟨b, hb, rfl⟩, rfl⟩, rfl⟩ := hfill
  exact ⟨name, q.moves, b, rfl, hb, rfl⟩

end Lowering

/-- **The lowered script**: the operator into a temporary as long as the folded value, and the
temporary printed. -/
theorem lower_printing {o : Operator} {l r v : Value} {p : Planner} {schedule : Schedule}
    {s : Session}
    (hv : Value.fold o l r = some v) (h : (printing o l r).lower p schedule = (.ok (), s)) :
    ∃ a, s.program = printingCells (.binary a o (.value l) (.value r)) a v.size := by
  open Lowering in
  have hg : Gives (statements (printing o l r).body) (start p schedule) () s := h
  have hname : (Expr.member (.name "console") "log").qualifiedName? = some printCallee := rfl
  unfold printing at hg
  simp only [statements, statement, Lowering.effect, gives_bind, gives_pure] at hg
  obtain ⟨_, t, hg, -, rfl⟩ := hg
  unfold call at hg
  simp only [hname, if_true, slotsOf, gives_bind, gives_pure] at hg
  obtain ⟨slots, t₁, ⟨slot, _, hslot, _, _, ⟨rfl, rfl⟩, rfl, rfl⟩, args, t₂, hargs, _, _, hemit, -,
    rfl⟩ := hg
  obtain ⟨name, moves, b, rfl, hb, hprogram⟩ := gives_operation hv hslot
  simp only [List.mapM_cons, List.mapM_nil, resolve, gives_bind, gives_pure, gives_address] at hargs
  obtain ⟨x, _, ⟨n, _, ⟨⟨b', hb', rfl⟩, rfl⟩, rfl, rfl⟩, _, _, ⟨rfl, rfl⟩, rfl, rfl⟩ := hargs
  obtain rfl : b = b' := Option.some.inj (hb.symm.trans hb')
  obtain rfl := gives_emit.mp hemit
  refine ⟨b.address, ?_⟩
  have hstart : (start p schedule).program.relocate moves = Program.empty := by
    unfold Program.relocate
    split_ifs <;> rfl
  rw [hstart] at hprogram
  rw [Session.add, hprogram]
  rfl

/-! ### What is printed first -/

/-- A text completes, and what it prints **first is a number**. -/
def PrintsFirst (size : Nat) (w : CellWidth) (mode : PointerMode) (text : String)
    (input : List UInt8) (x : w.Cell) : Prop :=
  (∃ e m, Completes size w mode text input e m) ∧
    ∀ e m, Completes size w mode text input e m → e.outputCells.head? = some x.val

section Printing
variable {w : CellWidth} {library : Library} {i : Instruction} {a n : Nat}

/-- **What the tree of a program prints first**, its text does. -/
theorem printsFirst_of_runs {p : Program} {t : CodeTree} (ht : p.IsTree t) (hl : library.Known)
    {size reserved : Nat} {text : String} {ws : List String}
    (h : p.emit library w size reserved = (.ok text, ws)) (mode : PointerMode) {input : List UInt8}
    {τ : Store w} (hτ : t.Runs library (Store.start input) τ) {x : w.Cell}
    (hx : τ.output.head? = some x.val) : PrintsFirst size w mode text input x := by
  obtain ⟨pointer, hends⟩ := Program.ends_iff_runs ht hl h mode input
  obtain ⟨e, m, hem, -⟩ := (hends _ _ _).mpr ⟨τ, hτ, rfl, rfl, rfl⟩
  refine ⟨⟨e, m, hem⟩, fun e m hem => ?_⟩
  obtain ⟨υ, hυ, ho, -⟩ := (hends _ _ _).mp ⟨e, m, hem, rfl, rfl, rfl⟩
  obtain rfl := hτ.unique hυ
  rw [← ho, hx]

theorem isTree_printingCells (hf : i.isFlow = false) (hp : i.Proper) (hn : 0 < n) :
    (printingCells i a n).IsTree (.done (printingCells i a n).instructions) where
  code := rfl
  straight := by
    refine straight_cons.mpr ⟨hf, straight_cons.mpr ⟨rfl, ?_⟩⟩
    exact fun j hj => absurd hj List.not_mem_nil
  proper j hj := by
    rcases List.mem_cons.mp hj with rfl | hj
    · exact hp
    · obtain rfl := List.mem_singleton.mp hj
      simpa [Instruction.Proper, Instruction.operands, Operand.Proper] using hn
  nodup := List.nodup_nil

theorem head?_printingCells (σ : Store w) (ho : (i.effect library σ).output = []) :
    (runAll library (printingCells i a n).instructions σ).output.head? =
      some ((i.effect library σ).cells a).val := by
  rw [printingCells, runAll_cons, runAll_cons, runAll_nil]
  generalize i.effect library σ = ρ at ho ⊢
  simp [Instruction.effect, Store.print, Store.write, Store.shown, ho]

theorem cells_setValue (σ : Store w) (v : Value) :
    ((Instruction.setValue a v).effect library σ).cells a = w.literal v.firstCell := by
  obtain ⟨x, rest, hv⟩ := List.exists_cons_of_ne_nil v.cells_ne_nil
  rw [Instruction.effect, Value.firstCell, hv, List.map_cons, Store.cells_setAll_cons]
  rfl

/-! ### Levels -/

theorem below_print_cells {limit : Nat} (h : a + n ≤ limit) (hn : 0 < n) :
    (Instruction.print [.cells a n]).Below limit where
  operands o ho := by
    obtain rfl := List.mem_singleton.mp ho
    exact ⟨hn, h⟩
  beside := by simp [Instruction.readsBeside]
  writes := by simp [Instruction.writes]

/-- Storing a value and printing it lies below the end of its cells and has no operator. -/
theorem improves_printingCells (v : Value) :
    Improves w library (a + v.size) (.done (printingCells (.setValue a v) a v.size).instructions)
      (printingCells (.setValue a v) a v.size)
      (.done (printingCells (.setValue a v) a v.size).instructions) where
  tree := isTree_printingCells rfl (by simp [Instruction.Proper, Instruction.operands]) v.size_pos
  within := by
    refine ⟨fun i hi => ?_, by simp [printingCells, Program.empty], by
      simp [printingCells, Program.empty]⟩
    rcases List.mem_cons.mp hi with rfl | hi
    · exact ⟨by simp [Instruction.operands], by simp [Instruction.readsBeside], by
        simp [Instruction.writes, List.mem_range'_1]⟩
    · obtain rfl := List.mem_singleton.mp hi
      exact below_print_cells le_rfl v.size_pos
  ranged target o x y hi := by
    rcases List.mem_cons.mp hi with hi | hi
    · cases hi
    · cases List.mem_singleton.mp hi
  nesting := rfl
  same _ _ := Iff.rfl

/-- **From level one on** the passes start with folding. -/
theorem exists_optimize_folding {level : Nat} (h : 1 ≤ level) :
    ∃ rest : Pass, ∀ p : Program, (p.optimize level).1 = (rest (folding p).1).1 := by
  refine ⟨Pass.all (deadStores :: (passes level).drop 2), fun p => ?_⟩
  have hp : passes level = folding :: deadStores :: (passes level).drop 2 := by
    simp [passes, h]
  rw [Program.optimize, hp]
  rfl

/-- **An operator on known values is optimized as its folded value is.** -/
theorem optimize_printingCells {o : Operator} {l r v : Value} (hv : Value.fold o l r = some v)
    {level : Nat} (h : 1 ≤ level) :
    ((printingCells (.binary a o (.value l) (.value r)) a n).optimize level).1 =
      ((printingCells (.setValue a v) a n).optimize level).1 := by
  obtain ⟨rest, hrest⟩ := exists_optimize_folding h
  have hfold : (folding (printingCells (.binary a o (.value l) (.value r)) a n)).1 =
      (folding (printingCells (.setValue a v) a n)).1 := by
    simp [folding, Pass.onInstructions, printingCells, Instruction.folded?, hv]
  rw [hrest, hrest, hfold]

/-- The folded value at a level: there is room for its text, and the text prints its first cell. -/
theorem printsFirst_folded (hl : library.Known) (v : Value) {size reserved : Nat}
    (hroom : max (a + v.size) reserved + scratchCells ≤ size) (level : Nat) :
    ∃ text ws, ((printingCells (.setValue a v) a v.size).optimize level).1.emit library w size
        reserved = (.ok text, ws) ∧
      ∀ mode input, PrintsFirst size w mode text input (w.literal v.firstCell) := by
  have hstart : Improves w library (a + v.size) _ _ _ := improves_printingCells v
  obtain ⟨u, hu⟩ := improves_optimize level hstart
  have hnesting : u.nesting = 0 := hu.nesting
  have hcells := hu.within.maxAddress_le
  have hsize : max ((printingCells (.setValue a v) a v.size).optimize level).1.maxAddress reserved +
      scratchCells + 2 * u.nesting ≤ size := by omega
  obtain ⟨text, ws, h⟩ := Program.emit_of_room hu.tree hl w hsize
  refine ⟨text, ws, h, fun mode input => ?_⟩
  obtain ⟨τ, hτ, ho⟩ := (hu.same input _).mp ⟨_, rfl, rfl⟩
  refine printsFirst_of_runs hu.tree hl h mode hτ ?_
  have hstored : ((Instruction.setValue a v).effect library (Store.start input : Store w)).output =
      [] := Store.output_setAll _ _ _
  rw [ho, head?_printingCells _ hstored, cells_setValue]

/-- **A literal expression prints first what its code computes**, and from level one on what folding
does; where the two are the same, all levels print the same first. -/
theorem printsFirst_printing {o : Operator} {l r v : Value} {p : Planner} {schedule : Schedule}
    {s : Session}
    (hv : Value.fold o l r = some v) (hs : (printing o l r).lower p schedule = (.ok (), s))
    (hl : library.Known) {size reserved : Nat} {text : String} {ws : List String}
    (h : s.program.emit library w size reserved = (.ok text, ws)) (level : Nat) :
    ∃ text' ws', (s.program.optimize level).1.emit library w size reserved = (.ok text', ws') ∧
      ∀ mode input, PrintsFirst size w mode text' input
        (if level = 0 then o.onCells (w.literal l.firstCell) (w.literal r.firstCell)
          else w.literal v.firstCell) := by
  obtain ⟨a, hprogram⟩ := lower_printing hv hs
  rw [hprogram] at h ⊢
  have ht : (printingCells (.binary a o (.value l) (.value r)) a v.size).IsTree _ :=
    isTree_printingCells rfl (by simp [Instruction.Proper, Instruction.operands, Operand.Proper])
      v.size_pos
  split_ifs with h0
  · subst h0
    refine ⟨text, ws, h, fun mode input => printsFirst_of_runs ht hl h mode rfl ?_⟩
    rw [head?_printingCells _ rfl, Instruction.effect, Store.cells_set_self]
    rfl
  · have hroom := Program.room_of_emit ht h
    have hlocals : ∀ f ∈ (printingCells (.binary a o (.value l) (.value r)) a v.size).functions,
        ∀ x ∈ f.2.locals, x.2.address + x.2.size ≤ 0 := by simp [printingCells, Program.empty]
    have hprint := (Program.within_max (fun _ hi => ht.mem hi) hlocals).code
      (.print [.cells a v.size]) (by simp [printingCells])
    have hcells := (hprint.operands _ (List.mem_singleton.mpr rfl)).2
    rw [optimize_printingCells hv (Nat.pos_of_ne_zero h0)]
    exact printsFirst_folded hl v (by omega) level

end Printing

/-! ### Folding and code -/

/-- **The code of an operator on two values**, from any state whose scratch cells are zero, leaves
the operator of the first cells in the target and all else as it was. -/
theorem runs_binary_values {w : CellWidth} (o : Operator) (l r : Value) {s : Scratch} {σ : Store w}
    {target : Nat} (hs : s.Clean σ) (ht : target < s.base) :
    (Code.binary w s o (.value l) (.value r) target).Runs σ
      (σ.set target (o.onCells (w.literal l.firstCell) (w.literal r.firstCell))) :=
  Code.runs_binary hs (by simp [Operand.address?]) (by simp [Operand.address?]) (Or.inl ht)

/-- **Where folding agrees with the code it replaces.** When an operator on two literals folds, its
code leaves the operator of the first cells, modulo the width, in the target and changes nothing
else, on the machine too; this is what a literal expression prints first without passes, while with
the passes of any level from one on it prints the first cell of the folded value. For faithful
operands the two are the same. -/
theorem folding_agrees (w : CellWidth) {o : Operator} {l r v : Value}
    (hv : Value.fold o l r = some v) :
    (∀ (s : Scratch) (σ : Store w) (target : Nat), s.Clean σ → target < s.base →
      let code := Code.binary w s o (.value l) (.value r) target
      let τ := σ.set target (o.onCells (w.literal l.firstCell) (w.literal r.firstCell))
      code.Runs σ τ ∧ ∀ (size p : Nat) (mode : PointerMode) (t : Snapshot),
        s.base + scratchCells ≤ size → p < size → Mirrors size p σ t →
          ∃ u, (code.flow p).Reaches w mode t u ∧ Mirrors size (code.last p) τ u) ∧
    (∀ (planner : Planner) (schedule : Schedule) (s : Session) (library : Library)
        (size reserved : Nat) (text : String) (ws : List String),
      (printing o l r).lower planner schedule = (.ok (), s) →
      library = .standard ∨ library = .empty →
      s.program.emit library w size reserved = (.ok text, ws) →
      ∀ level, ∃ text' ws',
        (s.program.optimize level).1.emit library w size reserved = (.ok text', ws') ∧
          ∀ mode input, PrintsFirst size w mode text' input
            (if level = 0 then o.onCells (w.literal l.firstCell) (w.literal r.firstCell)
              else w.literal v.firstCell)) ∧
    (Faithful w o l r →
      o.onCells (w.literal l.firstCell) (w.literal r.firstCell) = w.literal v.firstCell) := by
  refine ⟨fun s σ target hs ht => ?_, fun _ _ s library size reserved text ws hlower hl h =>
    printsFirst_printing hv hlower (Library.known_of_eq hl) h,
    fun h => (literal_fold_of_faithful h hv).symm⟩
  have hruns := runs_binary_values o l r hs ht
  refine ⟨hruns, fun size p mode t hsize hp hm => ?_⟩
  have hallowed : s.Allowed (· < size) := fun k hk _ => by
    show s.base + k < size
    omega
  have hwithin : (Code.binary w s o (.value l) (.value r) target).Within (· < size) fun _ => True :=
    Code.within_binary hallowed trivial (by simp [Operand.address?]) (by simp [Operand.address?])
      (show target < size by omega) o
  exact Code.reaches_of_runs mode hwithin hp hruns hm

/-- Minus three times five: the code leaves 241 in its target, and at level four the text prints 241
first. -/
theorem folding_agrees_of_negative :
    Value.fold .mul (.int (-3)) (.int 5) = some (.int (-15)) ∧
      Faithful .bits8 .mul (.int (-3)) (.int 5) ∧
      (Code.binary .bits8 ⟨1⟩ .mul (.value (.int (-3))) (.value (.int 5)) 0).Runs
        (Store.start [] : Store .bits8) ((Store.start []).set 0 (CellWidth.bits8.literal (-15))) ∧
      ∃ s, (printing .mul (.int (-3)) (.int 5)).lower countdownPlanner late = (.ok (), s) ∧
        ∃ text ws, (s.program.optimize 4).1.emit .standard .bits8 20 1 = (.ok text, ws) ∧
          PrintsFirst 20 .bits8 .strict text [] (CellWidth.bits8.literal (-15)) := by
  have hv : Value.fold .mul (.int (-3)) (.int 5) = some (.int (-15)) := by decide
  have hf : Faithful .bits8 .mul (.int (-3)) (.int 5) :=
    .linear (Or.inr rfl) ⟨rfl, rfl⟩ ⟨rfl, rfl⟩
  obtain ⟨hcode, hlevels, hsame⟩ := folding_agrees .bits8 hv
  have hclean : Scratch.Clean ⟨1⟩ (Store.start [] : Store .bits8) := fun _ _ => rfl
  refine ⟨hv, hf, hsame hf ▸ (hcode _ _ 0 hclean Nat.zero_lt_one).1, ?_⟩
  have hok : ((printing .mul (.int (-3)) (.int 5)).lower countdownPlanner late).1.isOk &&
      (((printing .mul (.int (-3)) (.int 5)).lower countdownPlanner late).2.program.emit .standard
        .bits8 20 1).1.isOk := by decide +kernel
  generalize hs : (printing .mul (.int (-3)) (.int 5)).lower countdownPlanner late = x at hok ⊢
  obtain ⟨_ | _, s⟩ := x
  · cases hok
  generalize hy : s.program.emit .standard .bits8 20 1 = y at hok
  obtain ⟨_ | text, ws⟩ := y
  · cases hok
  obtain ⟨text', ws', h', hprints⟩ :=
    hlevels countdownPlanner late s .standard 20 1 text ws hs (Or.inl rfl) hy 4
  exact ⟨s, rfl, text', ws', h', hprints .strict []⟩

/-- **Orders are folded with signs and computed without.** Minus one is less than one, and the code
says it is not. -/
theorem order_of_negative_disagrees :
    Value.fold .lt (.int (-1)) (.int 1) = some (.bool true) ∧
      Scratch.Clean ⟨1⟩ (Store.start [] : Store .bits8) ∧
      ∃ τ : Store .bits8, (Code.binary .bits8 ⟨1⟩ .lt (.value (.int (-1))) (.value (.int 1)) 0).Runs
        (Store.start []) τ ∧ τ.cells 0 ≠ CellWidth.bits8.literal (Value.bool true).firstCell := by
  have hclean : Scratch.Clean ⟨1⟩ (Store.start [] : Store .bits8) := fun _ _ => rfl
  refine ⟨by decide, hclean, _, runs_binary_values .lt _ _ hclean Nat.zero_lt_one, ?_⟩
  rw [Store.cells_set_self]
  decide

end TapeCompiler
