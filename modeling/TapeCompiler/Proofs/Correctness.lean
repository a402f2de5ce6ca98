import TapeCompiler.Proofs.Compiled
import TapeCompiler.Proofs.Emission.Improvement
import TapeCompiler.Proofs.Emission.Stripped
import TapeCompiler.Proofs.Lowering.Preservation
import TapeCompiler.Proofs.Script.RoundTrip

/-! # Programs print what they mean

A plain program in which every value fits its room (`Script.Plain`), compiled without a compaction,
prints what its evaluation prints, with every width, memory model and level of passes, and stripped
or not (`compile_prints`). A program of numbers always fits (`Script.plain_of_numbers`). -/

namespace TapeCompiler

variable {w : CellWidth} {script : Script} {memory : PlannerSettings} {planner : Planner}
  {schedule : Schedule} {s : Session} {o : List Nat} {library : Library} {texts : Bool}

/-- A program of **plain statements**, with names of its own, in which every value fits. -/
structure Script.Plain (w : CellWidth) (texts : Bool) (s : Script) : Prop where
  plain : Statement.plainAll w texts s.body = true
  names : OrdinaryNames s.mentions
  fits : s.Fits

theorem Script.plain_of_numbers (h : Statement.plainAll w false script.body = true)
    (hnames : OrdinaryNames script.mentions) : script.Plain w false :=
  ⟨h, hnames, fits_of_numbers h⟩

/-! ### Lowering -/

theorem Planner.nothing_bound (hp : Planner.new memory = .ok planner) : planner.moves = [] ∧
    planner.openScopes = [rootScope] ∧ planner.settings = memory ∧ ∀ x, planner.spots x = [] := by
  unfold Planner.new at hp
  cases hc : memory.check with
  | error f => rw [hc] at hp; cases hp
  | ok _ =>
    rw [hc] at hp
    obtain rfl := Except.ok.inj hp
    exact ⟨rfl, rfl, rfl, fun _ => rfl⟩

theorem Planner.aligned_new (hp : Planner.new memory = .ok planner) {α : Type}
    (R : Spot → α → Prop) : planner.Aligned R [[]] := by
  obtain ⟨-, hscopes, -, hspots⟩ := Planner.nothing_bound hp
  refine ⟨by rw [hscopes]; rfl, fun x _ => ?_⟩
  rw [hscopes, hspots]
  exact .nil

theorem ready_start (hp : Planner.new memory = .ok planner) :
    (Lowering.start planner schedule).Ready [[]] := by
  obtain ⟨hmoves, -, -, hspots⟩ := Planner.nothing_bound hp
  refine ⟨⟨Planner.held_new hp, hmoves, fun _ _ => hspots _⟩, Planner.aligned_new hp _,
    fun x _ z hz => ?_⟩
  rw [show (Lowering.start planner schedule).planner.spots x = [] from hspots x] at hz
  cases hz

/-- **A plain program is lowered to a tree that prints what the program prints**, if nothing was
compacted. -/
theorem exists_tree_of_plain (hp : Planner.new memory = .ok planner)
    (hs : script.lower planner schedule = (.ok (), s)) (hplain : script.Plain w texts)
    (hc : s.planner.Calm) (library : Library) : ∃ t, s.program.IsTree t ∧ s.program.Ranged w ∧
      ∀ input o, script.Prints w o →
        ∃ τ : Store w, t.Runs library (Store.start input) τ ∧ τ.output = o := by
  obtain ⟨ρ, hρ⟩ := Option.isSome_iff_exists.mp hplain.fits
  obtain ⟨-, -, t, hcode, hstraight, hranged, hrun⟩ := compiles_statements (l := library)
    script.body hplain.plain hplain.names (ready_start hp) hρ hs hc
  have hflat : s.program.instructions = t.flatten := hcode
  obtain ⟨u, hu⟩ := exists_isTree_of_lower hp hs
  -- the labels are those of any tree that the program is written from
  have hlabels : (t.labels.map fun p => p.1.name p.2).Nodup := by
    rw [← CodeTree.labelNames_flatten hstraight, ← hflat, hu.code]
    exact CodeTree.nodup_labelNames hu.straight hu.nodup
  refine ⟨t, ⟨hflat, hstraight, fun i hi => hu.mem (hflat ▸ hi), .of_map _ hlabels⟩,
    fun target o a b hi => hranged _ (hflat ▸ hi) target o a b rfl, fun input o ho => ?_⟩
  obtain ⟨b, hb, rfl⟩ := ho
  have hstart : (Lowering.start planner schedule).planner.Shows (Store.start input : Store w)
      ⟨[[]], []⟩ := ⟨Planner.aligned_new hp _, rfl⟩
  obtain ⟨τ, hτ, hshows⟩ := hrun _ _ b hstart hb
  exact ⟨τ, hτ, hshows.output⟩

/-! ### Texts -/

/-- A text **completes under some operation limit, and with one output** only. -/
def PrintsOnly (size : Nat) (w : CellWidth) (mode : PointerMode) (text : String)
    (input : List UInt8) (o : List Nat) : Prop :=
  (∃ e m, Completes size w mode text input e m) ∧
    ∀ e m, Completes size w mode text input e m → e.outputCells = o

/-- **What the tree of a program prints**, its text prints, stripped or not. -/
theorem printsOnly_of_runs {p : Program} {t : CodeTree} (ht : p.IsTree t) (hl : library.Known)
    {size reserved : Nat} {text : String} {ws : List String}
    (h : p.emit library w size reserved = (.ok text, ws)) (mode : PointerMode) {input : List UInt8}
    {τ : Store w} (hτ : t.Runs library (Store.start input) τ) :
    PrintsOnly size w mode text input τ.output ∧
      PrintsOnly size w mode (strip text) input τ.output := by
  obtain ⟨pointer, hends⟩ := Program.ends_iff_runs ht hl h mode input
  obtain ⟨hcompletes, hsame⟩ := strip_preserves_runs (fun i hi => ht.mem hi) hl.builtIn h mode input
  obtain ⟨e, m, hem, heo, -⟩ := (hends _ _ _).mpr ⟨τ, hτ, rfl, rfl, rfl⟩
  have hone : ∀ e m, Completes size w mode text input e m → e.outputCells = τ.output := by
    intro e m hem
    obtain ⟨υ, hυ, ho, -⟩ := (hends _ _ _).mp ⟨e, m, hem, rfl, rfl, rfl⟩
    rw [hτ.unique hυ, ho]
  exact ⟨⟨⟨e, m, hem⟩, hone⟩, hcompletes.mp ⟨e, m, hem⟩, fun e' m' hem' =>
    (hsame e m e' m' hem hem').1.symm.trans heo⟩

/-- **Passes and emission** of a plain program print what the program prints. -/
theorem prints_of_emit (hp : Planner.new memory = .ok planner)
    (hs : script.lower planner schedule = (.ok (), s)) (hplain : script.Plain w texts)
    (hc : s.planner.Calm) (level : Nat) (hl : library = .standard ∨ library = .empty)
    {size : Nat} {text : String} {ws : List String}
    (h : (s.program.optimize level).1.emit library w size s.planner.highWater = (.ok text, ws))
    (ho : script.Prints w o) (mode : PointerMode) (input : List UInt8) :
    PrintsOnly size w mode text input o ∧ PrintsOnly size w mode (strip text) input o := by
  obtain ⟨t, ht, hr, hrun⟩ := exists_tree_of_plain hp hs hplain hc library
  obtain ⟨u, hu⟩ := improves_optimize level (improves_of_ranged hp hs hr ht library)
  obtain ⟨τ, hτ, rfl⟩ := (hu.same input o).mp (hrun input o ho)
  exact printsOnly_of_runs hu.tree (Library.known_of_eq hl) h mode hτ

theorem plain_countdown : countdown.Plain .bits8 false := by
  refine Script.plain_of_numbers (by decide +kernel) (ordinaryNames_of_heads ?_)
  simp [countdown, Script.mentions, Statement.mentionsOf, Statement.mentions, Expr.mentionsOf?,
    Expr.mentions, Expr.mentionsOf, Statement.mentionsOfInit, Mention.inScope, Mention.name?,
    Expr.qualifiedName?]

theorem prints_countdown : countdown.Prints .bits8 [2, 1] := by
  -- some scopes within that of `x`, the numbers `x` had, the last one first, and what was printed
  let now (scopes : Nat) (xs o : List Nat) : Progress :=
    ⟨List.replicate scopes [] ++ [xs.map fun x => ("x", [x])], o⟩
  refine ⟨now 0 [0, 1, 2] [2, 1], ?_, rfl⟩
  simp only [countdown, Statement.DoesAll, Statement.Does, Statement.DoesInit]
  refine ⟨now 0 [2] [], rfl, _, ⟨now 1 [0, 1, 2] [2, 1], ⟨now 1 [2] [], rfl, ?_, rfl⟩, rfl⟩, rfl⟩
  refine .step (b := now 1 [1, 2] [2]) ⟨2, rfl, by decide⟩
    ⟨_, ⟨now 2 [1, 2] [2], ⟨now 2 [2] [2], rfl, _, rfl, rfl⟩, rfl⟩, rfl⟩ ?_
  refine .step (b := now 1 [0, 1, 2] [2, 1]) ⟨1, rfl, by decide⟩
    ⟨_, ⟨now 2 [0, 1, 2] [2, 1], ⟨now 2 [1, 2] [2, 1], rfl, _, rfl, rfl⟩, rfl⟩, rfl⟩ (.stop ?_)
  rintro ⟨n, hn, hne⟩
  exact hne (Option.some.inj hn).symm

/-! ### Compilations -/

/-- **What a compilation that succeeds gives**, by its stages. -/
theorem compileWith_eq_ok {settings : Settings} {source : String} {c : Compiled}
    (h : compileWith library settings source schedule = .ok c) : ∃ script planner s ws,
    Lowers settings source schedule script planner s ∧ s.emitted library settings = (.ok c.code, ws) ∧
      (c.output = c.code ∨ c.output = strip c.code) ∧
        c.measures.collections = s.planner.collections := by
  unfold compileWith at h
  cases hc : settings.check with
  | error f => rw [hc] at h; cases h
  | ok _ =>
  cases hr : Source.readScript source with
  | error f => rw [hc, hr] at h; cases h
  | ok script =>
  cases hp : Planner.new settings.memory with
  | error f => rw [hc, hr, hp] at h; cases h
  | ok planner =>
  cases hl : script.lower planner schedule with
  | mk result s =>
  simp only [hc, hr, hp, bind, Except.bind, hl] at h
  cases result with
  | error f => cases h
  | ok _ =>
  cases he : s.emitted library settings with
  | mk code ws =>
  unfold Session.emitted at he
  simp only [he] at h
  cases code with
  | error f => cases h
  | ok text =>
    obtain rfl := Except.ok.inj h
    refine ⟨script, planner, s, ws, ⟨hr, hp, hl⟩, he, ?_, rfl⟩
    unfold Compiled.output
    cases settings.extended
    · exact Or.inr rfl
    · exact Or.inl rfl

/-- **Compilations keep what programs mean.** A plain program that was compiled without a compaction
prints what its evaluation prints, by the code and by the output of the compilation, whatever the
settings are. -/
theorem compile_prints {settings : Settings} {source : String} {c : Compiled}
    (h : compile settings source schedule = .ok c) (hread : Source.readScript source = .ok script)
    (hplain : script.Plain settings.width texts)
    (hcalm : settings.memory.model.compacts = true → c.measures.collections = 0)
    (ho : script.Prints settings.width o) (mode : PointerMode) (input : List UInt8) :
    PrintsOnly settings.memory.memorySize settings.width mode c.code input o ∧
      PrintsOnly settings.memory.memorySize settings.width mode c.output input o := by
  obtain ⟨script', planner, s, ws, hs, he, houtput, hcollections⟩ := compileWith_eq_ok h
  obtain rfl := Except.ok.inj (hs.read.symm.trans hread)
  obtain ⟨-, -, hsettings, -⟩ := Planner.nothing_bound hs.planned
  obtain ⟨hprecedes, -⟩ := forth_statements script'.body (Planner.held_new hs.planned) hs.lowered
  have hc : s.planner.Calm := fun hm => by
    rw [show s.planner.settings = settings.memory from hprecedes.settings.trans hsettings] at hm
    rw [← hcollections, hcalm hm]
  obtain ⟨hcode, hstripped⟩ := prints_of_emit hs.planned hs.lowered hplain hc settings.level
    settings.libraryUsed_eq he ho mode input
  exact ⟨hcode, houtput.elim (· ▸ hcode) (· ▸ hstripped)⟩

theorem readScript_countdown :
    ∃ notices, Source.readScript "let x = 2\nfor (; x; ) \x7b\nconsole.log(x)\nx--\n\x7d\n" =
      .ok ⟨countdown.body, notices⟩ := by
  have hlog : (Statement.effect (.call (.member (.name "console") "log") [.name "x"])).Plain :=
    .line (.effect (@Expr.Action.call "console" ["log"] _ (by decide) (by decide)
      (by simpa using .name (by decide))))
  have hstep : (Statement.effect (.update .decrement "x" false)).Plain :=
    .line (.effect (.update _ (by decide) _))
  have hplain : ∀ s ∈ countdown.body, s.Plain := by
    simp only [countdown, List.forall_mem_cons]
    exact ⟨.line (.declare (by decide) (by decide) (by simpa using .int _)),
      .loop (by simp) (by simpa using .name (by decide)) (by simp) (by simpa using ⟨hlog, hstep⟩),
      by simp⟩
  exact (Source.readScript_of_lines hplain (by decide +kernel)).1 (by decide)

/-- In base symbols, the text of the countdown prints what the countdown does. -/
theorem compile_prints_of_countdown :
    let settings : Settings := { extended := false }
    let source := "let x = 2\nfor (; x; ) \x7b\nconsole.log(x)\nx--\n\x7d\n"
    (∀ o, countdown.Prints .bits8 o ↔ o = [2, 1]) ∧
      ∃ c, compile settings source (fun _ => 0) = .ok c ∧
        PrintsOnly settings.memory.memorySize .bits8 .strict c.output [] [2, 1] := by
  intro settings source
  obtain ⟨notices, hread⟩ := readScript_countdown
  have hplain : Script.Plain .bits8 false ⟨countdown.body, notices⟩ :=
    ⟨plain_countdown.plain, plain_countdown.names, plain_countdown.fits⟩
  have hok : (compile settings source fun _ => 0).toOption.any
      (fun c => c.measures.collections = 0) = true := by decide +kernel
  refine ⟨fun o => ⟨fun ho => ho.unique prints_countdown, fun ho => ho ▸ prints_countdown⟩, ?_⟩
  cases hc : compile settings source fun _ => 0 with
  | error f => rw [hc] at hok; cases hok
  | ok c =>
    rw [hc] at hok
    have hcalm : c.measures.collections = 0 := of_decide_eq_true hok
    exact ⟨c, rfl, (compile_prints hc hread hplain (fun _ => hcalm) prints_countdown .strict []).2⟩

end TapeCompiler
