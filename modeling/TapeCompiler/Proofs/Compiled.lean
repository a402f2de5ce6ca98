import TapeCompiler.Compilation
import TapeCompiler.Proofs.Emission.Refinement
import TapeCompiler.Proofs.Emission.Structured
import TapeCompiler.Proofs.Script.Faults

/-! # What a compilation gives

A compilation fails before emission or in it, or gives what was emitted (`compileWith_cases`). It
never fails by a defect (`compileWith_ne_defect`), every program that is emitted is structured, and
no warning says that a jump was left as a marker (`structured_of_compileWith`): the warnings of each
stage open with words of their own. -/

namespace TapeCompiler

/-! ### Warnings -/

/-- A session was warned about **in the words of lowering**. -/
def Session.Warned (s : Session) : Prop := ∀ m ∈ s.warnings, OpensAs Lowering.openings m

/-- **Lowering warns in its own words.** -/
theorem stable_warned : Lowering.Stable (fun s t => s.Warned → t.Warned)
    fun s t => s.Warned → t.Warned where
  refl _ := id
  trans₀ h h' := h' ∘ h
  trans h h' := h' ∘ h
  straight := id
  notes _ _ _ _ := id
  asked _ := id
  warned _ _ hm h := List.forall_mem_append.mpr ⟨h, by simpa using hm⟩
  symbols _ _ _ := id
  declared _ _ _ _ _ := id
  parameter _ _ _ _ _ _ := id
  referenced _ _ := id
  entered _ _ := id
  left _ := id
  allocated _ _ := id
  grown _ _ := id
  emitted _ _ _ _ := id
  branch ht _ hu hv h := hv (hu (ht h))
  loop ht _ hu hv h := hv (hu (ht h))

/-- **Lowering** does not fail by a defect, and warns in its own words. -/
theorem lower_cases {script : Script} {planner : Planner} {schedule : Schedule}
    (hp : planner.Held) {result : Except Fault Unit} {s : Session}
    (h : script.lower planner schedule = (result, s)) :
    (∃ f, result = .error f ∧ ∀ d, f ≠ .defect d) ∨ result = .ok () ∧ s.Warned := by
  have hstart : (Lowering.start planner schedule).planner.Held := hp
  obtain ⟨hflaw, hgives⟩ := Lowering.keeps_statements stable_warned script.body hstart (by simp)
  cases result with
  | error f =>
    refine Or.inl ⟨f, rfl, ?_⟩
    rintro d rfl
    exact hflaw d s h
  | ok a => exact Or.inr ⟨rfl, (hgives h).1 fun m hm => by cases hm⟩

/-! ### Stages -/

theorem PlannerSettings.check_eq_error {c : PlannerSettings} {f : Fault}
    (h : c.check = .error f) : ∃ setting, f = .badSetting setting := by
  unfold check at h
  split_ifs at h <;> cases h <;> exact ⟨_, rfl⟩

theorem Settings.check_eq_error {c : Settings} {f : Fault} (h : c.check = .error f) :
    ∃ setting, f = .badSetting setting := by
  unfold check at h
  split_ifs at h
  · cases h
    exact ⟨_, rfl⟩
  · exact PlannerSettings.check_eq_error h

theorem Planner.new_eq_error {c : PlannerSettings} {f : Fault} (h : Planner.new c = .error f) :
    ∃ setting, f = .badSetting setting := by
  unfold new at h
  cases hc : c.check with
  | ok _ => rw [hc] at h; cases h
  | error g =>
    rw [hc] at h
    cases h
    exact PlannerSettings.check_eq_error hc

theorem Settings.libraryUsed_eq (settings : Settings) :
    settings.libraryUsed = .standard ∨ settings.libraryUsed = .empty := by
  unfold libraryUsed
  split_ifs
  · exact Or.inl rfl
  · exact Or.inr rfl

section Stages
variable {library : Library} {settings : Settings} {source : String} {schedule : Schedule}

/-- A source is **read and lowered** to a session. -/
structure Lowers (settings : Settings) (source : String) (schedule : Schedule) (script : Script)
    (planner : Planner) (s : Session) : Prop where
  read : Source.readScript source = .ok script
  planned : Planner.new settings.memory = .ok planner
  lowered : script.lower planner schedule = (.ok (), s)

/-- The emission of a session's program after the passes. -/
def Session.emitted (s : Session) (library : Library) (settings : Settings) :
    Except Fault String × List String :=
  (s.program.optimize settings.level).1.emit library settings.width settings.memory.memorySize
    s.planner.highWater

/-- **The ways of a compilation**: it fails before emission, its emission fails, or it gives what
was emitted. -/
theorem compileWith_cases (library : Library) (settings : Settings) (source : String)
    (schedule : Schedule) :
    (∃ f, compileWith library settings source schedule = .error f ∧
      (settings.check = .error f ∨ Source.readScript source = .error f ∨
        Planner.new settings.memory = .error f ∨
        ∃ (script : Script) (planner : Planner) (s : Session),
          Planner.new settings.memory = .ok planner ∧
            script.lower planner schedule = (.error f, s))) ∨
    ∃ script planner s, Lowers settings source schedule script planner s ∧
      ((∃ f ws, s.emitted library settings = (.error f, ws) ∧
        compileWith library settings source schedule = .error f) ∨
      ∃ c ws, s.emitted library settings = (.ok c.code, ws) ∧
        compileWith library settings source schedule = .ok c ∧
        c.program = (s.program.optimize settings.level).1 ∧
        c.warnings = script.notices.map (fun n => s!"line {n.line}: {n.message}") ++ s.warnings
          ++ s.planner.warnings ++ ws) := by
  unfold compileWith Session.emitted
  cases hc : settings.check with
  | error f => exact Or.inl ⟨f, rfl, Or.inl rfl⟩
  | ok _ =>
  cases hr : Source.readScript source with
  | error f => exact Or.inl ⟨f, rfl, Or.inr (Or.inl rfl)⟩
  | ok script =>
  cases hp : Planner.new settings.memory with
  | error f => exact Or.inl ⟨f, rfl, Or.inr (Or.inr (Or.inl rfl))⟩
  | ok planner =>
  cases hl : script.lower planner schedule with
  | mk result s =>
  simp only [bind, Except.bind, hl]
  cases result with
  | error f => exact Or.inl ⟨f, rfl, Or.inr (Or.inr (Or.inr ⟨script, planner, s, rfl, hl⟩))⟩
  | ok _ =>
  refine Or.inr ⟨script, planner, s, ⟨hr, hp, hl⟩, ?_⟩
  cases he : (s.program.optimize settings.level).1.emit library settings.width
      settings.memory.memorySize s.planner.highWater with
  | mk code ws =>
  cases code with
  | error f => exact Or.inl ⟨f, ws, rfl, rfl⟩
  | ok text => exact Or.inr ⟨_, ws, rfl, rfl, rfl, rfl⟩

/-! ### Compilations -/

/-- A lowered program is **structured**, and so is what the passes of any level make of it. -/
theorem Lowers.structured {script : Script} {planner : Planner} {s : Session}
    (h : Lowers settings source schedule script planner s) (level : Nat) :
    Structured s.program.instructions ∧ Structured (s.program.optimize level).1.instructions := by
  obtain ⟨t, ht⟩ := exists_isTree_of_lower h.planned h.lowered
  obtain ⟨u, hu⟩ := exists_isTree_optimize level ht
  rw [ht.code, hu.code]
  exact ⟨structured_flatten ht.straight ht.nodup, structured_flatten hu.straight hu.nodup⟩

/-- Emission of a lowered program **fails for lack of room only** and warns of calls only. -/
theorem Lowers.emitted {script : Script} {planner : Planner} {s : Session}
    (h : Lowers settings source schedule script planner s) (library : Library) :
    (∀ f ws, s.emitted library settings = (.error f, ws) → ∃ bound, f = .exceeded bound) ∧
      ∀ m ∈ (s.emitted library settings).2, OpensAs Emitter.openings m := by
  obtain ⟨t, ht⟩ := exists_isTree_of_lower h.planned h.lowered
  obtain ⟨u, hu⟩ := exists_isTree_optimize settings.level ht
  unfold Session.emitted Program.emit Program.emitWith
  rw [hu.code]
  dsimp only
  split_ifs with hn
  · refine ⟨fun f ws h => ?_, by simp⟩
    cases h
    exact ⟨_, rfl⟩
  · obtain ⟨st, hrun, -, hw⟩ := exists_run_flatten hu.straight hu.nodup
      ((s.program.optimize settings.level).1.emitter library settings.width _ _)
    rw [hrun]
    exact ⟨fun f ws h => (by cases h), hw⟩

end Stages

/-- **No compilation fails by a defect** of the compiler. -/
theorem compileWith_ne_defect (library : Library) (settings : Settings) (source : String)
    (schedule : Schedule) (d : Defect) :
    compileWith library settings source schedule ≠ .error (.defect d) := by
  intro hd
  obtain ⟨f, hf, hwhy⟩ | ⟨script, planner, s, hs, ⟨f, ws, he, hf⟩ | ⟨c, ws, -, hc, -⟩⟩ :=
    compileWith_cases library settings source schedule
  · rw [hd] at hf
    cases hf
    obtain h | h | h | ⟨script, planner, s, hp, h⟩ := hwhy
    · obtain ⟨setting, h⟩ := Settings.check_eq_error h
      cases h
    · exact (Source.ofSource_of_readScript h).ne_defect d rfl
    · obtain ⟨setting, h⟩ := Planner.new_eq_error h
      cases h
    · obtain ⟨g, hg, hne⟩ | ⟨hok, -⟩ := lower_cases (Planner.held_new hp) h
      · cases hg
        exact hne d rfl
      · cases hok
  · rw [hd] at hf
    cases hf
    obtain ⟨bound, h⟩ := (hs.emitted library).1 _ ws he
    cases h
  · rw [hd] at hc
    cases hc

/-- **A compilation that succeeds** gives a structured program, and its warnings announce no
marker. -/
theorem structured_of_compileWith {library : Library} {settings : Settings} {source : String}
    {schedule : Schedule} {c : Compiled}
    (h : compileWith library settings source schedule = .ok c) :
    Structured c.program.instructions ∧ ∀ m ∈ c.warnings, ¬ AnnouncesMarker m := by
  obtain ⟨f, hf, -⟩ | ⟨script, planner, s, hs, ⟨f, ws, -, hf⟩ | ⟨c', ws, he, hc, hprog, hwarn⟩⟩ :=
    compileWith_cases library settings source schedule
  · rw [h] at hf
    cases hf
  · rw [h] at hf
    cases hf
  rw [h] at hc
  cases hc
  refine ⟨hprog ▸ (hs.structured settings.level).2, ?_⟩
  have hlower : s.Warned := by
    obtain ⟨g, hg, -⟩ | ⟨-, hm⟩ := lower_cases (Planner.held_new hs.planned) hs.lowered
    · cases hg
    · exact hm
  have hemit := (hs.emitted library).2
  rw [he] at hemit
  rw [hwarn]
  simp only [List.forall_mem_append, List.forall_mem_map]
  refine ⟨⟨⟨fun n _ => ?_, fun m hm => ?_⟩, fun m hm => ?_⟩, fun m hm => ?_⟩
  · rw [String.append_assoc, String.append_assoc]
    exact not_announcesMarker (l := ["line "]) (by decide) (opensAs_append (by decide) _)
  · exact not_announcesMarker (by decide) (hlower m hm)
  · obtain rfl := List.eq_of_mem_replicate hm
    exact not_announcesMarker (l := ["exit_scope called"]) (by decide)
      ⟨_, List.mem_singleton_self _, by decide⟩
  · exact not_announcesMarker (by decide) (hemit m hm)

/-- **Compilations keep to structured control flow**, whenever collections are due. None fails by a
defect of the compiler, and none warns that a jump was left as a marker. The program of a source,
before and after the passes, is structured: its labels are unique and defined, all its jumps are parts
of shapes, no shape is dropped, and emission ends with no frame open. -/
theorem compile_structured (settings : Settings) (source : String) (schedule : Schedule) :
    (∀ d, compile settings source schedule ≠ .error (.defect d)) ∧
    (∀ c, compile settings source schedule = .ok c →
      Structured c.program.instructions ∧ ∀ m ∈ c.warnings, ¬ AnnouncesMarker m) ∧
    ∀ script planner s, Lowers settings source schedule script planner s →
      Structured s.program.instructions ∧
        Structured (s.program.optimize settings.level).1.instructions :=
  ⟨compileWith_ne_defect _ settings source schedule, fun _ h => structured_of_compileWith h,
    fun _ _ _ h => h.structured settings.level⟩

/-- A branch in a loop compiles, with a collection at every request, and its program is
structured. -/
theorem compile_structured_of_nested :
    let source := "for (let i = 0; i < 2; i = i + 1) \x7b\nif (i) \x7b\nconsole.log(i);\n\x7d\n\x7d"
    ∃ c, compile {} source late = .ok c ∧ Structured c.program.instructions ∧
      ∀ m ∈ c.warnings, ¬ AnnouncesMarker m := by
  intro source
  have hok : (compile {} source late).toOption.isSome = true := by decide +kernel
  cases hc : compile {} source late with
  | error f => rw [hc] at hok; cases hok
  | ok c => exact ⟨c, rfl, (compile_structured {} source late).2.1 c hc⟩

end TapeCompiler
