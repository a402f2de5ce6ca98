import TapeCompiler.Proofs.Compiled
import TapeCompiler.Proofs.Emission.Constants
import TapeCompiler.Proofs.Emission.Stripped
import TapeCompiler.Proofs.Script.OutputLine

/-! # Literals printed as they are

A source of one line that prints a literal is lowered to one instruction (`lower_outputStatement`).
No pass changes that (`optimize_printingValue`), it is emitted without a warning, and the code ends
with the cells of the literal written, stripped or not (`Program.completes_of_runs`). Together that
is `literals_printed`. -/

namespace TapeCompiler

/-! ### One instruction -/

/-- A program that **prints a value** and does nothing else. -/
def printingValue (v : Value) : Program :=
  { Program.empty with instructions := [.print [.value v]] }

/-- **The lowered script**: the value is printed, nothing is allocated. -/
theorem lower_outputStatement (v : Value) (p : Planner) (schedule : Schedule) :
    (Script.mk [Source.outputStatement (.literal v.literal)] []).lower p schedule =
      (.ok (), (Lowering.start p schedule).add (.print [.value v])) := by
  cases v <;> rfl

theorem optimize_printingValue (v : Value) (level : Nat) :
    ((printingValue v).optimize level).1 = printingValue v := by
  have hextents : (printingValue v).extents = [] := rfl
  have hreordering : (reordering (printingValue v)).1 = printingValue v := by
    simp [reordering, Program.slots, hextents, joinOverlaps, packed, pack]
  apply optimize_induction (P := fun p => p = printingValue v)
  case h => rfl
  all_goals rintro p rfl
  case horder => exact hreordering
  all_goals rfl

/-! ### Emission -/

theorem isTree_printingValue (v : Value) :
    (printingValue v).IsTree (.done (printingValue v).instructions) where
  code := rfl
  straight := by simp [CodeTree.Straight, printingValue, Straight, Instruction.isFlow]
  proper := by
    simp [CodeTree.All, CodeTree.flatten, printingValue, Instruction.Proper, Instruction.operands,
      Operand.Proper]
  nodup := List.nodup_nil

section Emission
variable {library : Library} {w : CellWidth} {size reserved : Nat}

theorem warnings_print {e : Emitter} (hl : e.library.Known) (p : Nat) (ops : List Operand) :
    (e.plain p (.print ops)).2 = [] := by
  show (e.expandOr p printCallee ops none _).2 = []
  cases h : e.library.find? printCallee with
  | none => rw [Emitter.expandOr_of_none h]
  | some t =>
    obtain ⟨b, hb, rfl⟩ := hl h
    obtain rfl : Builtin.print = b := Option.some.inj hb
    rw [Emitter.expandOr_of_takes h fun _ hm => by cases hm]

theorem emit_printingValue (hl : library.Known) (v : Value) (h : reserved + scratchCells ≤ size) :
    ∃ text, (printingValue v).emit library w size reserved = (.ok text, []) := by
  have hroom : ¬ max (printingValue v).maxAddress reserved + scratchCells +
      2 * (ControlPlan.of (printingValue v).instructions).depth
        (printingValue v).instructions.length > size := by
    have hcells : (printingValue v).maxAddress = 0 := rfl
    have hdepth : (ControlPlan.of (printingValue v).instructions).depth
        (printingValue v).instructions.length = 0 := rfl
    rw [hcells, hdepth]
    omega
  unfold Program.emit Program.emitWith
  dsimp only
  rw [if_neg hroom]
  refine ⟨_, Prod.ext rfl ?_⟩
  exact warnings_print (e := (printingValue v).emitter library w _ _) hl 0 [.value v]

theorem Program.completes_of_runs {p : Program} {t : CodeTree} (ht : p.IsTree t)
    (hl : library.Known) {text : String} {ws : List String}
    (h : p.emit library w size reserved = (.ok text, ws)) (mode : PointerMode) {input : List UInt8}
    {τ : Store w} (hτ : t.Runs library (Store.start input) τ) :
    ∃ least, ∀ limit ≥ least, ∀ code ∈ [text, strip text], ∃ e m,
      CompletesWithin ⟨size, w, limit, mode⟩ code input e m ∧ e.outputCells = τ.output := by
  obtain ⟨c, hc, rfl, hruns⟩ :=
    Program.exists_treeCode (fun _ hi => ht.mem hi) ht.code ht.straight ht.nodup hl h
  have hguard := Program.guard_lt_of_emit h
  have hsize : 0 < size := by omega
  have htext := Code.opsOf_textFrom hc
  have hcode := (hruns input τ).mpr hτ
  have hstripped := (Code.runs_expanded_iff hc (fun a ha => ha.2) (fun a ha => ha) rfl).mp hcode
  have hwithin : c.expanded.Within (· < size) _ :=
    Code.within_expanded (fun a ha => ha.1) (fun a ha => by rw [ha]; exact hguard) hc
  obtain ⟨n, hn⟩ := Code.completes_of_runs mode (hc.mono (fun a ha => ha.1) fun a ha => ha) hsize
    htext hcode
  obtain ⟨n', hn'⟩ := Code.completes_of_runs mode hwithin hsize (Code.opsOf_strip_textFrom htext)
    hstripped
  refine ⟨max n n', fun limit hlimit => ?_⟩
  obtain ⟨e, m, hem, ho, -⟩ := hn limit (by omega)
  obtain ⟨e', m', hem', ho', -⟩ := hn' limit (by omega)
  simp only [List.forall_mem_cons]
  exact ⟨⟨e, m, hem, ho⟩, ⟨e', m', hem', ho'⟩, by simp⟩

end Emission

/-! ### Sources -/

/-- A source **shows cells**: it compiles without a warning, whenever collections are due, and in
either pointer mode and on every input its code completes with these cells as output, under every
limit from some on, stripped or not. -/
def Settings.Shows (settings : Settings) (source : String) (output : List Nat) : Prop :=
  ∀ schedule, ∃ c, compile settings source schedule = .ok c ∧ c.warnings = [] ∧
    ∀ (mode : PointerMode) (input : List UInt8), ∃ least, ∀ limit ≥ least,
      ∀ code ∈ [c.code, strip c.code], ∃ e m,
        CompletesWithin ⟨settings.memory.memorySize, settings.width, limit, mode⟩ code input e m ∧
          e.outputCells = output

theorem Settings.check_memory {settings : Settings} (hc : settings.check = .ok ()) :
    settings.memory.check = .ok () := by
  unfold check at hc
  split_ifs at hc
  exact hc

/-- A new planner handed out nothing, and warns of nothing. -/
theorem Planner.exists_new {c : PlannerSettings} (hc : c.check = .ok ()) :
    ∃ p, Planner.new c = .ok p ∧ p.highWater = 0 ∧ p.warnings = [] := by
  unfold new
  rw [hc]
  exact ⟨_, rfl, rfl, rfl⟩

theorem output_printingValue (library : Library) (v : Value) {w : CellWidth} (σ : Store w)
    (hσ : σ.output = []) :
    (runAll library (printingValue v).instructions σ).output = v.cells.map w.wrap := by
  rw [printingValue, runAll_cons, runAll_nil]
  simp [Instruction.effect, Store.print, Store.write, Store.shown, hσ, CellWidth.literal]

/-- **A line that prints a literal compiles** to what its one instruction is emitted to, without a
warning. -/
theorem exists_compile_outputLine {settings : Settings} (hc : settings.check = .ok ())
    (hm : heapBase < settings.memory.memorySize) {inner : List Char} {v : Value}
    (h : Source.Argument inner (.literal v.literal)) (schedule : Schedule) :
    ∃ c reserved, compile settings (String.ofList (Source.outputLine inner)) schedule = .ok c ∧
      c.warnings = [] ∧ (printingValue v).emit settings.libraryUsed settings.width
        settings.memory.memorySize reserved = (.ok c.code, []) := by
  obtain ⟨p, hnew, hhigh, hwarnings⟩ := Planner.exists_new (Settings.check_memory hc)
  have hroom : p.highWater + scratchCells ≤ settings.memory.memorySize := by
    unfold heapBase at hm
    unfold scratchCells
    omega
  obtain ⟨text, hemit⟩ := emit_printingValue (w := settings.width)
    (Library.known_of_eq settings.libraryUsed_eq) v hroom
  have hprogram : ((Lowering.start p schedule).add (.print [.value v])).program =
    printingValue v := rfl
  have hplanner : ((Lowering.start p schedule).add (.print [.value v])).planner = p := rfl
  unfold compile compileWith
  rw [hc, Source.readScript_outputLine h, hnew]
  simp only [bind, Except.bind, lower_outputStatement, hprogram]
  cases hopt : (printingValue v).optimize settings.level with
  | mk q changes =>
  obtain rfl : q = printingValue v := by rw [← optimize_printingValue v settings.level, hopt]
  simp only [hplanner, hemit]
  refine ⟨_, p.highWater, rfl, ?_, hemit⟩
  simp only [hwarnings]
  rfl

theorem shows_outputLine {settings : Settings} (hc : settings.check = .ok ())
    (hm : heapBase < settings.memory.memorySize) {inner : List Char} {v : Value}
    (h : Source.Argument inner (.literal v.literal)) :
    settings.Shows (String.ofList (Source.outputLine inner))
      (v.cells.map settings.width.wrap) := by
  intro schedule
  obtain ⟨c, reserved, hcompile, hwarn, hemit⟩ := exists_compile_outputLine hc hm h schedule
  refine ⟨c, hcompile, hwarn, fun mode input => ?_⟩
  rw [← output_printingValue settings.libraryUsed v (Store.start input) rfl]
  exact Program.completes_of_runs (isTree_printingValue v)
    (Library.known_of_eq settings.libraryUsed_eq) hemit mode rfl

/-- **Printed literals come out exactly.** At every setting with more than 1024 cells, a line that
prints a text that is not empty, however it is spelled, shows its code points modulo the width, one
cell each and in order; a line that prints an integer shows that integer modulo the width. -/
theorem literals_printed {settings : Settings} (hc : settings.check = .ok ())
    (hm : heapBase < settings.memory.memorySize) :
    (∀ (v : String) (t : List Char), v ≠ "" → Source.Spelling v.toList t →
      settings.Shows (String.ofList (Source.outputLine ('"' :: t ++ ['"'])))
        (v.toList.map fun c => c.toNat % settings.width.modulus)) ∧
    ∀ n : Int64, settings.Shows (String.ofList (Source.outputLine (Literal.int n).text))
      [(n.toInt % settings.width.modulus).toNat] := by
  refine ⟨fun v t hv ht => ?_, fun n => ?_⟩
  · have hargument : Source.Argument ('"' :: t ++ ['"']) (.literal (Value.str v).literal) := by
      simpa [Value.literal] using Source.argument_str ht
    have hcells : (Value.str v).cells.map settings.width.wrap =
        v.toList.map fun c => c.toNat % settings.width.modulus := by
      have hsmall : ∀ c : Char, c.toNat < 2 ^ 63 := fun c =>
        Nat.lt_trans c.val.toNat_lt (by decide)
      rw [Value.cells, if_neg (by simpa using hv), List.map_map]
      exact List.map_congr_left fun c _ => CellWidth.wrap_ofNat (hsmall c)
    exact hcells ▸ shows_outputLine hc hm hargument
  · have hargument : Source.Argument (Literal.int n).text (.literal (Value.int n).literal) :=
      Source.argument_int n
    exact shows_outputLine hc hm hargument

/-- Settings with **one cell more than the heap starts at**, all passes and no library. -/
def tightSettings : Settings where
  level := 4
  memory := { model := .hybrid, memorySize := 1025 }
  width := .bits16
  library := false
  extended := false

/-- A text with both quotes, slashes, a backslash, a newline, a brace and a character beyond 16
bits, and the least integer. -/
theorem literals_printed_thorny :
    tightSettings.check = .ok () ∧ heapBase < tightSettings.memory.memorySize ∧
      tightSettings.Shows "console.log(\"\\\"it's\\\" // \\\\ ; \\n \x7d 😀\")"
        [34, 105, 116, 39, 115, 34, 32, 47, 47, 32, 92, 32, 59, 32, 10, 32, 125, 32, 62976] ∧
      tightSettings.Shows "console.log(-9223372036854775808)" [0] := by
  have hc : tightSettings.check = .ok () := by decide +kernel
  have hm : heapBase < tightSettings.memory.memorySize := by decide
  obtain ⟨htexts, hints⟩ := literals_printed hc hm
  have htext := htexts "\"it's\" // \\ ; \n \x7d 😀" _ (by decide) (Source.spelling_flatMap _)
  have hint := hints Int64.minValue
  have hsource : String.ofList (Source.outputLine ('"' ::
      "\"it's\" // \\ ; \n \x7d 😀".toList.flatMap Source.spell ++ ['"'])) =
      "console.log(\"\\\"it's\\\" // \\\\ ; \\n \x7d 😀\")" := by decide
  have hsource' : String.ofList (Source.outputLine (Literal.int Int64.minValue).text) =
      "console.log(-9223372036854775808)" := by decide
  have hcells : ("\"it's\" // \\ ; \n \x7d 😀".toList.map fun c =>
      c.toNat % tightSettings.width.modulus) =
      [34, 105, 116, 39, 115, 34, 32, 47, 47, 32, 92, 32, 59, 32, 10, 32, 125, 32, 62976] := by
    decide
  have hcell : (Int64.minValue.toInt % tightSettings.width.modulus).toNat = 0 := by decide
  rw [hsource, hcells] at htext
  rw [hsource', hcell] at hint
  exact ⟨hc, hm, htext, hint⟩

end TapeCompiler
