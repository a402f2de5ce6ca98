import TapeCompiler.Proofs.Machine.Outcomes
import TapeCompiler.Proofs.Machine.Fragments

/-! # Operation limits

A limit only cuts a run short. How a routine goes on from a state until its end is said without one
(`Routine.Concludes`); a run is that of its routine as far as its limit allows.

* `halted_runFor_iff`: a run halts exactly if its routine takes more operations;
* `runFor_of_halted`: where a run halted, a run with more operations goes on;
* `limit_cuts_short`: two runs of a machine that differ in their limit. -/

namespace TapeCompiler

/-! ### Operations until the end -/

/-- **What a routine does from a state to its end**, and in how many operations. The operation that
fails counts. -/
inductive Routine.Concludes (c : MachineSettings) (r : Routine) :
    RunState → Nat → Ending → RunState → Prop
  | finished {s : RunState} : r.ops.size ≤ s.counter → Concludes c r s 0 .finished s
  | failed {s t : RunState} {f : Fault} (h : s.counter < r.ops.size) :
    step c r r.ops[s.counter] s = .error (f, t) → Concludes c r s 1 (.failed f) t
  | next {s t u : RunState} {n : Nat} {e : Ending} (h : s.counter < r.ops.size) :
    step c r r.ops[s.counter] s = .ok t → Concludes c r t n e u → Concludes c r s (n + 1) e u

section Steps
variable {c : MachineSettings} {r : Routine} {a : Sited} {s t u : RunState} {f : Fault} {n : Nat}

/-- An operation counts one and **takes back no output**. -/
theorem step_ok (h : step c r a s = .ok t) :
    t.executed = s.executed + 1 ∧ s.output.toList <+: t.output.toList := by
  obtain ⟨tape, pointer, counter, input, output, executed⟩ := s
  obtain ⟨o, position⟩ := a
  unfold step at h
  cases o with
  | inc | dec | negate | enter | leave => cases h; exact ⟨rfl, List.prefix_rfl⟩
  | write =>
    cases h
    exact ⟨rfl, by rw [Array.toList_push]; exact List.prefix_append _ _⟩
  | read => cases input <;> (cases h; exact ⟨rfl, List.prefix_rfl⟩)
  | left | right =>
    simp only at h
    split_ifs at h
    · cases h; exact ⟨rfl, List.prefix_rfl⟩
    · cases hm : c.pointerMode <;> rw [hm] at h <;> cases h
      exact ⟨rfl, List.prefix_rfl⟩

/-- **Only a move off the tape fails**, and it changes nothing. -/
theorem step_error (h : step c r a s = .error (f, t)) :
    f = .pointerOutOfBounds a.position s.tape.size ∧ t = s := by
  obtain ⟨tape, pointer, counter, input, output, executed⟩ := s
  obtain ⟨o, position⟩ := a
  unfold step at h
  cases o with
  | inc | dec | negate | enter | leave | write => cases h
  | read => cases input <;> cases h
  | left | right =>
    simp only at h
    split_ifs at h
    cases hm : c.pointerMode <;> rw [hm] at h <;> cases h
    exact ⟨rfl, rfl⟩

theorem runFor_next (hk : s.counter < r.ops.size) (hs : step c r r.ops[s.counter] s = .ok t)
    (n : Nat) : runFor c r (n + 1) s = runFor c r n t := by
  rw [runFor, dif_pos hk, hs]

theorem runFor_failed (hk : s.counter < r.ops.size)
    (hs : step c r r.ops[s.counter] s = .error (f, t)) (n : Nat) :
    runFor c r (n + 1) s = (.failed f, t) := by
  rw [runFor, dif_pos hk, hs]

/-- **What concludes is run to its end** under every limit that leaves room for it. -/
theorem runFor_of_concludes {e : Ending} (h : r.Concludes c s n e u) : ∀ {fuel : Nat}, n ≤ fuel →
    runFor c r fuel s = (e, u) := by
  induction h with
  | finished hk => intro fuel _; exact runFor_end (by omega) fuel
  | failed hk hs =>
    intro fuel hn
    obtain ⟨fuel, rfl⟩ := Nat.exists_eq_add_one_of_ne_zero (show fuel ≠ 0 by omega)
    exact runFor_failed hk hs fuel
  | next hk hs _ ih =>
    intro fuel hn
    obtain ⟨fuel, rfl⟩ := Nat.exists_eq_add_one_of_ne_zero (show fuel ≠ 0 by omega)
    rw [runFor_next hk hs]
    exact ih (by omega)

/-- **A run that does not halt concludes** with no more operations than it may. -/
theorem concludes_of_not_halted (fuel : Nat) : ∀ {s : RunState},
    (runFor c r fuel s).1 ≠ .halted →
      ∃ n ≤ fuel, r.Concludes c s n (runFor c r fuel s).1 (runFor c r fuel s).2 := by
  induction fuel with
  | zero =>
    intro s h
    have hk : r.ops.size ≤ s.counter := by
      by_contra hk
      exact h (by rw [runFor, if_pos (by omega)])
    rw [runFor_end (by omega)]
    exact ⟨0, Nat.le_refl _, .finished hk⟩
  | succ fuel ih =>
    intro s h
    by_cases hk : s.counter < r.ops.size
    · cases hs : step c r r.ops[s.counter] s with
      | ok t =>
        rw [runFor_next hk hs] at h ⊢
        obtain ⟨n, hn, hend⟩ := ih h
        exact ⟨n + 1, by omega, .next hk hs hend⟩
      | error x =>
        rw [runFor_failed hk hs]
        exact ⟨1, by omega, .failed hk hs⟩
    · rw [runFor_end (by omega)]
      exact ⟨0, Nat.zero_le _, .finished (by omega)⟩

theorem Routine.Concludes.ne_halted {e : Ending} (h : r.Concludes c s n e u) : e ≠ .halted := by
  induction h with
  | finished | failed => exact Ending.noConfusion
  | next _ _ _ ih => exact ih

/-- **A run halts** exactly if all that its routine concludes takes more operations. -/
theorem halted_runFor_iff {fuel : Nat} :
    (runFor c r fuel s).1 = .halted ↔ ∀ n e u, r.Concludes c s n e u → fuel < n := by
  constructor
  · intro h n e u hend
    by_contra hn
    rw [runFor_of_concludes hend (by omega)] at h
    exact hend.ne_halted h
  · intro h
    by_contra hne
    obtain ⟨n, hn, hend⟩ := concludes_of_not_halted fuel hne
    have := h n _ _ hend
    omega

/-- A run that does not halt is the same **under every larger limit**. -/
theorem runFor_of_not_halted {l k : Nat} (h : (runFor c r l s).1 ≠ .halted) (hk : l ≤ k) :
    runFor c r k s = runFor c r l s := by
  obtain ⟨n, hn, hend⟩ := concludes_of_not_halted l h
  rw [runFor_of_concludes hend (by omega)]

/-- A run executes no more operations than it may, and takes back no output. -/
theorem runFor_extends (fuel : Nat) : ∀ s : RunState,
    (runFor c r fuel s).2.executed ≤ s.executed + fuel ∧
      s.output.toList <+: (runFor c r fuel s).2.output.toList := by
  induction fuel with
  | zero => intro s; rw [runFor]; split <;> exact ⟨Nat.le_refl _, List.prefix_rfl⟩
  | succ fuel ih =>
    intro s
    by_cases hk : s.counter < r.ops.size
    · cases hs : step c r r.ops[s.counter] s with
      | ok t =>
        obtain ⟨hcount, hout⟩ := step_ok hs
        obtain ⟨hle, hpre⟩ := ih t
        rw [runFor_next hk hs]
        exact ⟨by omega, hout.trans hpre⟩
      | error x =>
        rw [runFor_failed hk hs, (step_error hs).2]
        exact ⟨Nat.le_add_right _ _, List.prefix_rfl⟩
    · rw [runFor_end (by omega)]
      exact ⟨Nat.le_add_right _ _, List.prefix_rfl⟩

/-- **Where a run halted** it has spent its limit inside the code, and a run with more operations
goes on from there. -/
theorem runFor_of_halted {fuel : Nat} : ∀ {s : RunState}, runFor c r fuel s = (.halted, t) →
    t.counter < r.ops.size ∧ t.executed = s.executed + fuel ∧
      ∀ more, runFor c r (fuel + more) s = runFor c r more t := by
  induction fuel with
  | zero =>
    intro s h
    rw [runFor] at h
    split_ifs at h with hk <;> cases h
    exact ⟨hk, rfl, fun more => by rw [Nat.zero_add]⟩
  | succ fuel ih =>
    intro s h
    by_cases hk : s.counter < r.ops.size
    · cases hs : step c r r.ops[s.counter] s with
      | ok u =>
        rw [runFor_next hk hs] at h
        obtain ⟨hin, hcount, hmore⟩ := ih h
        refine ⟨hin, by rw [hcount, (step_ok hs).1]; omega, fun more => ?_⟩
        rw [show fuel + 1 + more = fuel + more + 1 by omega, runFor_next hk hs, hmore]
      | error x =>
        rw [runFor_failed hk hs] at h
        cases h
    · rw [runFor_end (by omega)] at h
      cases h

end Steps

/-! ### Runs of a machine -/

/-- The state a run starts in. -/
def Machine.start (m : Machine) (input : List UInt8) : RunState :=
  ⟨Array.replicate m.tape.size 0, 0, 0, input, #[], 0⟩

/-- **The operations a program needs** to finish or to fault. An empty tape and unpaired brackets
are faults found before the first. -/
inductive Machine.Needs (m : Machine) (code : String) (input : List UInt8) : Nat → Prop
  | emptyTape : m.settings.tapeSize = 0 → Needs m code input 0
  | unpaired {f : Fault} : routineOf code = .error f → Needs m code input 0
  | concludes {r : Routine} {n : Nat} {e : Ending} {s : RunState} : m.settings.tapeSize ≠ 0 →
    routineOf code = .ok r → r.Concludes m.settings (m.start input) n e s → Needs m code input n

section Machines
variable {m : Machine} {code : String} {input : List UInt8} {limit : Nat}

/-- A limit does not change what is executed under it. -/
theorem runFor_withLimit (m : Machine) (limit : Nat) (r : Routine) (n : Nat) : ∀ s : RunState,
    runFor (m.withLimit limit).settings r n s = runFor m.settings r n s := by
  have hstep : ∀ a s, step (m.withLimit limit).settings r a s = step m.settings r a s :=
    fun _ _ => rfl
  induction n with
  | zero => intro s; rfl
  | succ n ih => intro s; simp only [runFor, hstep, ih]

theorem routineOf_cases (code : String) :
    (∃ f, routineOf code = .error f ∧ partners (operations code.toList) = .error f) ∨
      ∃ p, routineOf code = .ok ⟨(operations code.toList).toArray, p⟩ ∧
        partners (operations code.toList) = .ok p := by
  unfold routineOf
  cases partners (operations code.toList) with
  | error f => exact .inl ⟨f, rfl, rfl⟩
  | ok p => exact .inr ⟨p, rfl, rfl⟩

theorem run_of_refused {f : Fault} (hc : m.settings.check = .error f) (code : String)
    (input : List UInt8) : m.run code input = (.error f, m) := by
  unfold Machine.run
  simp only [hc]

theorem run_of_unpaired {f : Fault} (hc : m.settings.check = .ok ())
    (hr : routineOf code = .error f) (input : List UInt8) : m.run code input = (.error f, m) := by
  obtain ⟨g, hg, hp⟩ | ⟨p, hg, hp⟩ := routineOf_cases code
  · cases hg.symm.trans hr
    unfold Machine.run
    simp only [hc, hp]
  · cases hg.symm.trans hr

/-- **A run of a routine**, as far as the limit allows. -/
theorem run_of_routine {r : Routine} (hc : m.settings.check = .ok ())
    (hr : routineOf code = .ok r) (input : List UInt8) :
    m.run code input =
      m.ended (runFor m.settings r m.settings.maxOperations (m.start input)) := by
  obtain ⟨g, hg, hp⟩ | ⟨p, hg, hp⟩ := routineOf_cases code
  · cases hg.symm.trans hr
  · cases hg.symm.trans hr
    unfold Machine.run Machine.start
    simp only [hc, hp]
    generalize runFor m.settings _ _ _ = x
    obtain ⟨ending, s⟩ := x
    cases ending <;> rfl

theorem check_of_emptyTape (h : m.settings.tapeSize = 0) :
    m.settings.check = .error (.badSetting .emptyTape) := by
  rw [MachineSettings.check, if_pos h]

theorem check_of_tape (h : m.settings.tapeSize ≠ 0) (hl : 0 < limit) :
    (m.withLimit limit).settings.check = .ok () := by
  rw [MachineSettings.check, if_neg (show ¬ (m.withLimit limit).settings.tapeSize = 0 from h),
    if_neg (show ¬ (m.withLimit limit).settings.maxOperations = 0 from Nat.pos_iff_ne_zero.mp hl)]

theorem limitReached_ended {x : Ending × RunState} :
    LimitReached (m.ended x) ↔ x.1 = .halted := by
  obtain ⟨ending, s⟩ := x
  cases ending <;> simp [LimitReached, Machine.ended, Machine.report]

theorem ended_ok {x : Ending × RunState} {e : Execution} (h : (m.ended x).1 = .ok e) :
    e.operations = x.2.executed ∧ e.outputCells = x.2.output.toList ∧
      (e.halted = true → x.1 = .halted) := by
  obtain ⟨ending, s⟩ := x
  cases ending <;> cases h
  · exact ⟨rfl, rfl, fun h => by cases h⟩
  · exact ⟨rfl, rfl, fun _ => rfl⟩

theorem ended_withLimit {x : Ending × RunState} (h : x.1 ≠ .halted) (l k : Nat) :
    ((m.withLimit k).ended x).1 = ((m.withLimit l).ended x).1 ∧
      ((m.withLimit k).ended x).2.tape = ((m.withLimit l).ended x).2.tape ∧
      ((m.withLimit k).ended x).2.pointer = ((m.withLimit l).ended x).2.pointer := by
  obtain ⟨ending, s⟩ := x
  cases ending with
  | halted => exact absurd rfl h
  | finished | failed => exact ⟨rfl, rfl, rfl⟩

theorem not_limitReached_error (f : Fault) : ¬ LimitReached (.error f, m) := by
  rintro ⟨e, he, -⟩
  cases he

/-- A program whose routine starts needs **what the routine takes**. -/
theorem needs_iff {r : Routine} (h : m.settings.tapeSize ≠ 0) (hr : routineOf code = .ok r)
    {n : Nat} : m.Needs code input n ↔ ∃ e s, r.Concludes m.settings (m.start input) n e s := by
  constructor
  · rintro (h0 | hf | ⟨-, hr', hend⟩)
    · exact absurd h0 h
    · cases hf.symm.trans hr
    · cases hr'.symm.trans hr
      exact ⟨_, _, hend⟩
  · rintro ⟨e, s, hend⟩
    exact .concludes h hr hend

/-- **A limit only cuts a run short.** A run executes no more operations than its limit. One that is
not cut short is the same under every larger limit, in what it shows, its tape and its pointer. One
that is has executed as many operations as its limit says and is still inside the code, and what it
put out is the beginning of what a run under a larger limit puts out. Exactly the runs of programs
that need more operations are cut short. -/
theorem limit_cuts_short (m : Machine) (code : String) (input : List UInt8) {l k : Nat}
    (hl : 1 ≤ l) (hk : l ≤ k) :
    (∀ e, ((m.withLimit l).run code input).1 = .ok e → e.operations ≤ l) ∧
    (¬ LimitReached ((m.withLimit l).run code input) →
      ((m.withLimit k).run code input).1 = ((m.withLimit l).run code input).1 ∧
      ((m.withLimit k).run code input).2.tape = ((m.withLimit l).run code input).2.tape ∧
      ((m.withLimit k).run code input).2.pointer = ((m.withLimit l).run code input).2.pointer) ∧
    (∀ e, ((m.withLimit l).run code input).1 = .ok e → e.halted = true → e.operations = l ∧
      (∃ r s, routineOf code = .ok r ∧ runFor m.settings r l (m.start input) = (.halted, s) ∧
        s.counter < r.ops.size) ∧
      ∀ e', ((m.withLimit k).run code input).1 = .ok e' → e.outputCells <+: e'.outputCells) ∧
    (LimitReached ((m.withLimit l).run code input) ↔ ∀ n, m.Needs code input n → l < n) := by
  by_cases htape : m.settings.tapeSize = 0
  · have hrun : ∀ limit, (m.withLimit limit).run code input =
        (.error (.badSetting .emptyTape), m.withLimit limit) := fun limit =>
      run_of_refused (check_of_emptyTape (m := m.withLimit limit) htape) code input
    rw [hrun l, hrun k]
    refine ⟨fun e he => (by cases he), fun _ => ⟨rfl, rfl, rfl⟩, fun e he => (by cases he), ?_⟩
    exact iff_of_false (not_limitReached_error _) fun h => absurd (h 0 (.emptyTape htape)) (by omega)
  obtain ⟨f, hr, -⟩ | ⟨p, hr, -⟩ := routineOf_cases code
  · have hrun : ∀ limit > 0, (m.withLimit limit).run code input = (.error f, m.withLimit limit) :=
      fun limit h => run_of_unpaired (check_of_tape htape h) hr input
    rw [hrun l (by omega), hrun k (by omega)]
    refine ⟨fun e he => (by cases he), fun _ => ⟨rfl, rfl, rfl⟩, fun e he => (by cases he), ?_⟩
    exact iff_of_false (not_limitReached_error _) fun h => absurd (h 0 (.unpaired hr)) (by omega)
  generalize (⟨(operations code.toList).toArray, p⟩ : Routine) = r at hr
  have hrun : ∀ limit > 0, (m.withLimit limit).run code input =
      (m.withLimit limit).ended (runFor m.settings r limit (m.start input)) := fun limit h => by
    rw [run_of_routine (check_of_tape htape h) hr, ← runFor_withLimit m limit]
    rfl
  rw [hrun l (by omega), hrun k (by omega), limitReached_ended]
  have hcount : (m.start input).executed = 0 := rfl
  refine ⟨fun e he => ?_, fun h => ?_, fun e he hhalt => ?_, ?_⟩
  · have := (runFor_extends (c := m.settings) (r := r) l (m.start input)).1
    rw [(ended_ok he).1]
    omega
  · rw [runFor_of_not_halted h hk]
    exact ended_withLimit h l k
  · obtain ⟨hops, hout, hend⟩ := ended_ok he
    obtain ⟨s, hx⟩ : ∃ s, runFor m.settings r l (m.start input) = (.halted, s) :=
      ⟨_, Prod.ext (hend hhalt) rfl⟩
    obtain ⟨hin, hspent, hmore⟩ := runFor_of_halted hx
    rw [hx] at hops hout
    refine ⟨hops.trans (show s.executed = l by omega), ⟨r, s, hr, hx, hin⟩, fun e' he' => ?_⟩
    rw [hout, (ended_ok he').2.1, show k = l + (k - l) by omega, hmore]
    exact (runFor_extends _ _).2
  · rw [halted_runFor_iff]
    simp only [needs_iff htape hr]
    exact ⟨fun h n ⟨e, s, hend⟩ => h n e s hend, fun h n e s hend => h n ⟨e, s, hend⟩⟩

end Machines

/-- A run of `+[.+]` shows 1 under a limit of four, which ends inside the loop, and 1, 2 and 3 under
a limit of ten. -/
theorem limit_cuts_short_of_loop :
    1 ≤ 4 ∧ 4 ≤ 10 ∧
      ∃ e, (((Machine.new ⟨2, .bits8, 1, .wrap⟩).withLimit 4).run "+[.+]" []).1 = .ok e ∧
        ∃ e', (((Machine.new ⟨2, .bits8, 1, .wrap⟩).withLimit 10).run "+[.+]" []).1 = .ok e' ∧
          e.halted = true ∧ e.operations = 4 ∧ e.outputCells = [1] ∧ e'.outputCells = [1, 2, 3] ∧
            e.outputCells <+: e'.outputCells := by
  obtain ⟨hops, -, hpre⟩ := (limit_cuts_short (Machine.new ⟨2, .bits8, 1, .wrap⟩) "+[.+]" []
    (show 1 ≤ 4 by decide) (show 4 ≤ 10 by decide)).2.2.1 _ rfl rfl
  exact ⟨by decide, by decide, _, rfl, _, rfl, rfl, hops, rfl, rfl, hpre _ rfl⟩

end TapeCompiler
