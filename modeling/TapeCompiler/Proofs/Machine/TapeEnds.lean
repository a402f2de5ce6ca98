import TapeCompiler.Proofs.Machine.Limits

/-! # The ends of the tape

A strict run that does not fail never comes to an end of its tape, so more cells behind it and
another pointer mode make no difference. One that fails went up to that point as a wrapping run
does.

* `step_prolong`, `runFor_prolong`: on a tape prolonged by zeros the same is executed;
* `runFor_strays`: a strict run fails at the first move that would leave the tape;
* `strict_runs_anywhere`: both for runs of machines. -/

namespace TapeCompiler

/-! ### Longer tapes -/

/-- A tape **goes on with zeros** behind another. -/
structure Prolongs (tape longer : Array Nat) : Prop where
  size : tape.size ≤ longer.size
  cells : ∀ i, longer.getD i 0 = tape.getD i 0

namespace Prolongs
variable {tape longer : Array Nat}

theorem refl (tape : Array Nat) : Prolongs tape tape := ⟨Nat.le_refl _, fun _ => rfl⟩

theorem replicate {n m : Nat} (h : n ≤ m) : Prolongs (Array.replicate n 0) (Array.replicate m 0) where
  size := by simpa using h
  cells i := by
    have hzero : ∀ k, (Array.replicate k 0).getD i 0 = 0 := fun k => by
      rw [Array.getD_eq_getD_getElem?, Array.getElem?_replicate]
      split <;> rfl
    rw [hzero, hzero]

theorem set (h : Prolongs tape longer) {p : Nat} (hp : p < tape.size) (v : Nat) :
    Prolongs (tape.setIfInBounds p v) (longer.setIfInBounds p v) where
  size := by simpa using h.size
  cells i := by
    have hcells := h.cells i
    have hsize := h.size
    simp only [Array.getD_eq_getD_getElem?] at hcells ⊢
    rcases Nat.lt_trichotomy p i with hlt | rfl | hlt
    · rw [Array.getElem?_setIfInBounds_ne (by omega), Array.getElem?_setIfInBounds_ne (by omega),
        hcells]
    · rw [Array.getElem?_setIfInBounds_self_of_lt (by omega),
        Array.getElem?_setIfInBounds_self_of_lt hp]
    · rw [Array.getElem?_setIfInBounds_ne (by omega), Array.getElem?_setIfInBounds_ne (by omega),
        hcells]

theorem eq_of_size (h : Prolongs tape longer) (hs : longer.size = tape.size) : longer = tape := by
  refine Array.ext hs fun i hi hi' => ?_
  have := h.cells i
  rwa [Array.getD_eq_getD_getElem?, Array.getD_eq_getD_getElem?, Array.getElem?_eq_getElem hi,
    Array.getElem?_eq_getElem hi'] at this

end Prolongs

/-- Whether a move from a cell **would leave a tape** of some cells. -/
def Op.Strays (o : Op) (size pointer : Nat) : Prop :=
  (o = .right ∧ size ≤ pointer + 1) ∨ (o = .left ∧ pointer = 0)

/-! ### One operation -/

section Steps
variable {c d : MachineSettings} {r : Routine} {a : Sited} {s t u : RunState} {longer : Array Nat}
  {f : Fault}

/-- **One operation of a strict machine** that does not fail is the same on a longer tape and in
either pointer mode; it is no move off the tape, and the tape keeps its size. -/
theorem step_prolong (hm : c.pointerMode = .strict) (hw : d.width = c.width)
    (hp : s.pointer < s.tape.size) (hl : Prolongs s.tape longer) (h : step c r a s = .ok t) :
    (∃ longer', step d r a { s with tape := longer } = .ok { t with tape := longer' } ∧
      Prolongs t.tape longer' ∧ longer'.size = longer.size) ∧
    ¬ a.op.Strays s.tape.size s.pointer ∧ t.tape.size = s.tape.size ∧ t.pointer < s.tape.size := by
  obtain ⟨tape, pointer, counter, input, output, executed⟩ := s
  obtain ⟨o, position⟩ := a
  have hsize := hl.size
  have hcell := hl.cells pointer
  unfold step at h ⊢
  simp only [hw, hcell] at *
  cases o with
  | inc | dec | negate =>
    cases h
    exact ⟨⟨_, rfl, hl.set hp _, by simp⟩, by simp [Op.Strays], by simp, hp⟩
  | write | enter | leave =>
    cases h
    exact ⟨⟨_, rfl, hl, rfl⟩, by simp [Op.Strays], rfl, hp⟩
  | read =>
    cases input <;>
    · cases h
      exact ⟨⟨_, rfl, hl.set hp _, by simp⟩, by simp [Op.Strays], by simp, hp⟩
  | left =>
    simp only at h ⊢
    split_ifs at h with hmove
    · cases h
      rw [if_pos hmove]
      exact ⟨⟨_, rfl, hl, rfl⟩, by simp [Op.Strays]; omega, rfl, by simp only; omega⟩
    · rw [hm] at h
      cases h
  | right =>
    simp only at h ⊢
    split_ifs at h with hmove
    · cases h
      rw [if_pos (show pointer + 1 < longer.size by omega)]
      exact ⟨⟨_, rfl, hl, rfl⟩, by simp [Op.Strays]; omega, rfl, hmove⟩
    · rw [hm] at h
      cases h

theorem strays_of_error (h : step c r a s = .error (f, t)) : a.op.Strays s.tape.size s.pointer := by
  obtain ⟨tape, pointer, counter, input, output, executed⟩ := s
  obtain ⟨o, position⟩ := a
  unfold step at h
  cases o with
  | inc | dec | negate | enter | leave | write => cases h
  | read => cases input <;> cases h
  | left =>
    simp only at h
    split_ifs at h with hmove
    exact .inr ⟨rfl, by simp only; omega⟩
  | right =>
    simp only at h
    split_ifs at h with hmove
    exact .inl ⟨rfl, by simp only; omega⟩

end Steps

/-! ### Runs -/

section Runs
variable {c d : MachineSettings} {r : Routine} {s : RunState} {f : Fault}

/-- **A strict run that does not fail** is the same on a longer tape and in either pointer mode. -/
theorem runFor_prolong (hm : c.pointerMode = .strict) (hw : d.width = c.width) (fuel : Nat) :
    ∀ {s : RunState} {longer : Array Nat}, s.pointer < s.tape.size → Prolongs s.tape longer →
      (∀ f, (runFor c r fuel s).1 ≠ .failed f) →
        ∃ longer', runFor d r fuel { s with tape := longer } =
          ((runFor c r fuel s).1, { (runFor c r fuel s).2 with tape := longer' }) ∧
          Prolongs (runFor c r fuel s).2.tape longer' := by
  induction fuel with
  | zero =>
    intro s longer _ hl _
    refine ⟨longer, ?_, ?_⟩ <;> simp only [runFor] <;> split <;> first | rfl | exact hl
  | succ fuel ih =>
    intro s longer hp hl hf
    by_cases hk : s.counter < r.ops.size
    · cases hs : step c r r.ops[s.counter] s with
      | ok t =>
        obtain ⟨⟨longer', hs', hl', -⟩, -, hsize, hp'⟩ := step_prolong hm hw hp hl hs
        rw [runFor_next hk hs] at hf ⊢
        rw [runFor_next (s := { s with tape := longer }) hk hs']
        exact ih (by omega) hl' hf
      | error x => exact absurd (by rw [runFor_failed hk hs]) (hf x.1)
    · have hend : r.ops.size ≤ s.counter := by omega
      rw [runFor_end hend, runFor_end (s := { s with tape := longer }) hend]
      exact ⟨longer, rfl, hl⟩

/-- After some operations a run **is in a state** and about to execute an operation. -/
def Routine.At (c : MachineSettings) (r : Routine) (s : RunState) (n : Nat) (t : RunState)
    (o : Sited) : Prop :=
  runFor c r n s = (.halted, t) ∧ r.ops[t.counter]? = some o

theorem at_zero (hk : s.counter < r.ops.size) : r.At c s 0 s r.ops[s.counter] :=
  ⟨by rw [runFor, if_pos hk], Array.getElem?_eq_getElem hk⟩

theorem at_succ {t u : RunState} {n : Nat} {o : Sited} (hk : s.counter < r.ops.size)
    (hs : step c r r.ops[s.counter] s = .ok t) (h : r.At c t n u o) : r.At c s (n + 1) u o :=
  ⟨by rw [runFor_next hk hs, h.1], h.2⟩

/-- **A strict run fails at the first move that would leave the tape.** Up to there it goes as a run
in either pointer mode. -/
theorem runFor_strays (hm : c.pointerMode = .strict) (hw : d.width = c.width) {size : Nat}
    (fuel : Nat) : ∀ {s : RunState}, s.tape.size = size → s.pointer < size →
      (runFor c r fuel s).1 = .failed f →
        ∃ k < fuel,
          (∀ j < k, ∃ t o, r.At c s j t o ∧ r.At d s j t o ∧ ¬ o.op.Strays size t.pointer) ∧
          ∃ t o, r.At c s k t o ∧ r.At d s k t o ∧ o.op.Strays size t.pointer ∧
            f = .pointerOutOfBounds o.position size := by
  induction fuel with
  | zero =>
    intro s _ _ h
    rw [runFor] at h
    split_ifs at h
  | succ fuel ih =>
    intro s hsize hp h
    by_cases hk : s.counter < r.ops.size
    · cases hs : step c r r.ops[s.counter] s with
      | ok t =>
        obtain ⟨⟨tape, hs', hl', htape⟩, hstay, hsize', hp'⟩ :=
          step_prolong hm hw (hsize ▸ hp) (.refl _) hs
        obtain rfl := hl'.eq_of_size (by omega)
        rw [runFor_next hk hs] at h
        obtain ⟨k, hkf, hbefore, u, o, hc, hd, hstray⟩ := ih (by omega) (by omega) h
        refine ⟨k + 1, by omega, fun j hj => ?_, u, o, at_succ hk hs hc, at_succ hk hs' hd, hstray⟩
        cases j with
        | zero => exact ⟨s, _, at_zero hk, at_zero hk, hsize ▸ hstay⟩
        | succ j =>
          obtain ⟨v, q, hc, hd, hstay⟩ := hbefore j (by omega)
          exact ⟨v, q, at_succ hk hs hc, at_succ hk hs' hd, hstay⟩
      | error x =>
        rw [runFor_failed hk hs] at h
        cases h
        exact ⟨0, by omega, fun j hj => by omega, s, _, at_zero hk, at_zero hk,
          hsize ▸ strays_of_error hs, hsize ▸ (step_error hs).1⟩
    · rw [runFor_end (by omega)] at h
      cases h

end Runs

/-! ### Positions -/

/-- An operation stands at its position, behind **as many operations as its index says**. -/
theorem operationsFrom_getElem? (l : List Char) : ∀ {i k : Nat} {o : Sited},
    (operationsFrom i l)[k]? = some o → i ≤ o.position ∧ l[o.position - i]? = some o.op.char ∧
      ((l.take (o.position - i)).filterMap Op.ofChar?).length = k := by
  induction l with
  | nil => intro i k o h; simp [operationsFrom] at h
  | cons c l ih =>
    intro i k o h
    have hbehind : ∀ {n}, (operationsFrom (i + 1) l)[n]? = some o →
        i ≤ o.position ∧ (c :: l)[o.position - i]? = some o.op.char ∧
          (((c :: l).take (o.position - i)).filterMap Op.ofChar?).length =
            ([c].filterMap Op.ofChar?).length + n := by
      intro n hn
      obtain ⟨hle, hchar, hcount⟩ := ih hn
      rw [show o.position - i = o.position - (i + 1) + 1 by omega, List.getElem?_cons_succ,
        List.take_succ_cons, ← List.singleton_append, List.filterMap_append, List.length_append,
        hcount]
      exact ⟨by omega, hchar, rfl⟩
    cases hc : Op.ofChar? c with
    | none =>
      rw [operationsFrom_cons_none hc] at h
      simpa [hc] using hbehind h
    | some p =>
      rw [operationsFrom_cons_some hc] at h
      cases k with
      | zero =>
        cases h
        simp [char_of_ofChar? hc]
      | succ k => simpa [hc, Nat.add_comm] using hbehind h

theorem operations_of_routineOf {code : String} {r : Routine} {k : Nat} {o : Sited}
    (hr : routineOf code = .ok r) (h : r.ops[k]? = some o) :
    (operationsFrom 0 code.toList)[k]? = some o := by
  obtain ⟨f, hf, -⟩ | ⟨p, hp, -⟩ := routineOf_cases code
  · cases hf.symm.trans hr
  · cases hp.symm.trans hr
    rw [← h]
    exact (List.getElem?_toArray ..).symm

/-! ### Machines -/

section Machines
variable {m : Machine} {code : String} {input : List UInt8} {f : Fault}

theorem badSetting_of_check {c : MachineSettings} (h : c.check = .error f) :
    ∃ b, f = .badSetting b := by
  rw [MachineSettings.check] at h
  split_ifs at h <;> cases h <;> exact ⟨_, rfl⟩

theorem pos_of_check {c : MachineSettings} (h : c.check = .ok ()) :
    0 < c.tapeSize ∧ 0 < c.maxOperations := by
  rw [MachineSettings.check] at h
  split_ifs at h
  omega

theorem unmatchedBracket_of_next {p : Pairing} {a : Sited} (h : p.next a = .error f) :
    ∃ b position, f = .unmatchedBracket b position := by
  unfold Pairing.next at h
  split at h
  · cases h
  · split at h <;> cases h
    exact ⟨_, _, rfl⟩
  · cases h

theorem unmatchedBracket_of_foldlM (ops : List Sited) : ∀ {p : Pairing},
    ops.foldlM Pairing.next p = .error f → ∃ b position, f = .unmatchedBracket b position := by
  induction ops with
  | nil => intro p h; cases h
  | cons a ops ih =>
    intro p h
    rw [List.foldlM_cons] at h
    cases ha : p.next a with
    | error g =>
      rw [ha] at h
      cases h
      exact unmatchedBracket_of_next ha
    | ok q =>
      rw [ha] at h
      exact ih h

theorem unmatchedBracket_of_routineOf (h : routineOf code = .error f) :
    ∃ b position, f = .unmatchedBracket b position := by
  obtain ⟨g, hg, hp⟩ | ⟨p, hg, -⟩ := routineOf_cases code
  · cases hg.symm.trans h
    simp only [partners, bind, Except.bind] at hp
    split at hp
    · next hfold =>
      cases hp
      exact unmatchedBracket_of_foldlM _ hfold
    · split at hp <;> cases hp
      exact ⟨_, _, rfl⟩
  · cases hg.symm.trans h

theorem exists_routine_of_run
    (h : ∀ f, (m.run code input).1 = .error f → ∃ p cells, f = .pointerOutOfBounds p cells) :
    m.settings.check = .ok () ∧ ∃ r, routineOf code = .ok r ∧
      m.run code input = m.ended (runFor m.settings r m.settings.maxOperations (m.start input)) := by
  cases hc : m.settings.check with
  | error f =>
    obtain ⟨p, cells, rfl⟩ := h f (by rw [run_of_refused hc])
    obtain ⟨b, hb⟩ := badSetting_of_check hc
    cases hb
  | ok _ =>
    cases hr : routineOf code with
    | error f =>
      obtain ⟨p, cells, rfl⟩ := h f (by rw [run_of_unpaired hc hr])
      obtain ⟨b, position, hb⟩ := unmatchedBracket_of_routineOf hr
      cases hb
    | ok r => exact ⟨rfl, r, rfl, run_of_routine hc hr input⟩

section Starts
variable {n limit : Nat} {w : CellWidth} {mode : PointerMode}

theorem start_new (hn : 0 < n) (w : CellWidth) (limit : Nat) (mode : PointerMode)
    (input : List UInt8) : (Machine.new ⟨n, w, limit, mode⟩).start input =
      ⟨Array.replicate n 0, 0, 0, input, #[], 0⟩ := by
  unfold Machine.start Machine.new
  simp only [Array.size_replicate, show max n 1 = n by omega]

theorem check_new (hn : 0 < n) (hl : 0 < limit) (w : CellWidth) (mode : PointerMode) :
    (Machine.new ⟨n, w, limit, mode⟩).settings.check = .ok () := by
  unfold Machine.new MachineSettings.check
  rw [if_neg (show ¬ n = 0 by omega), if_neg (show ¬ limit = 0 by omega)]

/-- **A strict run that gives an execution** is the same on every longer tape and in either mode. -/
theorem run_prolong {m : Nat} (hm : n ≤ m) (mode : PointerMode) {e : Execution} {s : Machine}
    (h : (Machine.new ⟨n, w, limit, .strict⟩).run code input = (.ok e, s)) :
    ∃ t, (Machine.new ⟨m, w, limit, mode⟩).run code input = (.ok e, t) ∧
      t.pointer = s.pointer ∧ ∀ i, t.tape.getD i 0 = s.tape.getD i 0 := by
  obtain ⟨hc, r, hr, hrun⟩ := exists_routine_of_run (m := Machine.new ⟨n, w, limit, .strict⟩)
    fun f hf => by rw [h] at hf; cases hf
  obtain ⟨hn, hl⟩ : 0 < n ∧ 0 < limit := pos_of_check hc
  rw [h, start_new hn] at hrun
  rw [run_of_routine (check_new (show 0 < m by omega) hl w mode) hr, start_new (by omega)]
  have hlong := runFor_prolong (c := ⟨n, w, limit, .strict⟩) (d := ⟨m, w, limit, mode⟩) (r := r)
    rfl rfl limit (s := ⟨Array.replicate n 0, 0, 0, input, #[], 0⟩) (by simpa using hn)
    (.replicate hm)
  simp only [Machine.new] at hrun ⊢
  generalize runFor ⟨n, w, limit, .strict⟩ r limit _ = x at hrun hlong
  obtain ⟨ending, u⟩ := x
  cases ending with
  | failed f => cases hrun
  | finished | halted =>
    obtain ⟨longer, hrun', hcells⟩ := hlong fun f => Ending.noConfusion
    cases hrun
    rw [hrun']
    exact ⟨_, rfl, rfl, hcells.cells⟩

end Starts

/-- **A strict run that gives an execution needs no more cells and no other pointer mode.** On any
larger tape and in either mode the execution is the same, and so are the pointer and the cells that
are not zero. A strict run that leaves the tape is at the position of the first `<` or `>` to be
executed that would leave it, and a wrapping run executes the same operations up to that point. -/
theorem strict_runs_anywhere (n : Nat) (w : CellWidth) (limit : Nat) (code : String)
    (input : List UInt8) :
    (∀ e s, (Machine.new ⟨n, w, limit, .strict⟩).run code input = (.ok e, s) →
      ∀ m ≥ n, ∀ mode, ∃ t, (Machine.new ⟨m, w, limit, mode⟩).run code input = (.ok e, t) ∧
        t.pointer = s.pointer ∧ ∀ i, t.tape.getD i 0 = s.tape.getD i 0) ∧
    ∀ p cells, ((Machine.new ⟨n, w, limit, .strict⟩).run code input).1 =
        .error (.pointerOutOfBounds p cells) →
      cells = n ∧ ∃ r, routineOf code = .ok r ∧ ∃ k < limit,
        (∀ j < k, ∃ t o,
          r.At ⟨n, w, limit, .strict⟩ ((Machine.new ⟨n, w, limit, .strict⟩).start input) j t o ∧
          r.At ⟨n, w, limit, .wrap⟩ ((Machine.new ⟨n, w, limit, .wrap⟩).start input) j t o ∧
          ¬ o.op.Strays n t.pointer) ∧
        ∃ t o,
          r.At ⟨n, w, limit, .strict⟩ ((Machine.new ⟨n, w, limit, .strict⟩).start input) k t o ∧
          r.At ⟨n, w, limit, .wrap⟩ ((Machine.new ⟨n, w, limit, .wrap⟩).start input) k t o ∧
          o.op.Strays n t.pointer ∧ o.position = p ∧ code.toList[p]? = some o.op.char ∧
          ((code.toList.take p).filterMap Op.ofChar?).length = t.counter := by
  refine ⟨fun e s h m hm mode => run_prolong hm mode h, fun p cells h => ?_⟩
  obtain ⟨hc, r, hr, hrun⟩ := exists_routine_of_run (m := Machine.new ⟨n, w, limit, .strict⟩)
    fun f hf => ⟨p, cells, by rw [h] at hf; cases hf; rfl⟩
  obtain ⟨hn, hl⟩ : 0 < n ∧ 0 < limit := pos_of_check hc
  have hfail : (runFor ⟨n, w, limit, .strict⟩ r limit
      ⟨Array.replicate n 0, 0, 0, input, #[], 0⟩).1 = .failed (.pointerOutOfBounds p cells) := by
    rw [hrun, start_new hn] at h
    simp only [Machine.new] at h
    generalize runFor ⟨n, w, limit, .strict⟩ r limit _ = x at h
    obtain ⟨ending, u⟩ := x
    cases ending <;> cases h
    rfl
  rw [start_new hn, start_new hn]
  obtain ⟨k, hk, hbefore, t, o, hstrict, hwrap, hstray, hf⟩ := runFor_strays
    (c := ⟨n, w, limit, .strict⟩) (d := ⟨n, w, limit, .wrap⟩) rfl rfl limit
    (s := ⟨Array.replicate n 0, 0, 0, input, #[], 0⟩) (Array.size_replicate ..) hn hfail
  cases hf
  obtain ⟨-, hchar, hcount⟩ := operationsFrom_getElem? (i := 0) code.toList
    (operations_of_routineOf hr hstrict.2)
  exact ⟨rfl, r, hr, k, hk, hbefore, t, o, hstrict, hwrap, hstray, rfl, hchar, hcount⟩

/-- On two cells a strict run of `+>-` gives an execution, so a wrapping run on three cells gives it
too; one of `+>-[>]` leaves the tape at the fifth character. -/
theorem strict_runs_anywhere_of_stray :
    (∃ t, (Machine.new ⟨3, .bits8, 9, .wrap⟩).run "+>-" [] = (.ok ⟨"", [], 3, false⟩, t) ∧
      t.pointer = 1 ∧ ∀ i, t.tape.getD i 0 = #[1, 255].getD i 0) ∧
    ∃ r, routineOf "+>-[>]" = .ok r ∧ ∃ k < 9, ∃ t o,
      r.At ⟨2, .bits8, 9, .wrap⟩ ((Machine.new ⟨2, .bits8, 9, .wrap⟩).start []) k t o ∧
      o.op.Strays 2 t.pointer ∧ o.position = 4 := by
  have hrun : (Machine.new ⟨2, .bits8, 9, .strict⟩).run "+>-" [] =
      (.ok ⟨"", [], 3, false⟩, ⟨⟨2, .bits8, 9, .strict⟩, #[1, 255], 1⟩) := rfl
  have hstray : ((Machine.new ⟨2, .bits8, 9, .strict⟩).run "+>-[>]" []).1 =
      .error (.pointerOutOfBounds 4 2) := rfl
  obtain ⟨-, r, hr, k, hk, -, t, o, -, hwrap, ho, hp, -⟩ :=
    (strict_runs_anywhere 2 .bits8 9 "+>-[>]" []).2 4 2 hstray
  exact ⟨(strict_runs_anywhere 2 .bits8 9 "+>-" []).1 _ _ hrun 3 (by decide) .wrap,
    r, hr, k, hk, t, o, hwrap, ho, hp⟩

end Machines

end TapeCompiler
