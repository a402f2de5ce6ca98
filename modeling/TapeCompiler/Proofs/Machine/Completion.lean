import TapeCompiler.Proofs.Machine.Loops

/-! # Runs that reach the end of the code

A run completes when the operation limit lets it reach the end of its code. For code that is the
text of a flow, it does exactly if the flow ends (`completes_of_runs`, `runs_of_completes`). -/

namespace TapeCompiler

/-- A run on a new machine **completes**: it ends without a fault and before its limit is spent. -/
def CompletesWithin (c : MachineSettings) (code : String) (input : List UInt8) (e : Execution)
    (m : Machine) : Prop :=
  (Machine.new c).run code input = (.ok e, m) ∧ e.halted = false

/-- A run on a new machine of some cells completes **under some limit**. -/
def Completes (size : Nat) (w : CellWidth) (mode : PointerMode) (code : String)
    (input : List UInt8) (e : Execution) (m : Machine) : Prop :=
  ∃ limit, CompletesWithin ⟨size, w, limit, mode⟩ code input e m

/-- A run completes under some limit and **shows** an output, a tape and a pointer. -/
def Ends (size : Nat) (w : CellWidth) (mode : PointerMode) (code : String) (input : List UInt8)
    (output : List Nat) (tape : Array Nat) (pointer : Nat) : Prop :=
  ∃ e m, Completes size w mode code input e m ∧ e.outputCells = output ∧ m.tape = tape ∧
    m.pointer = pointer

/-- The executed symbols of a text. -/
def opsOf (code : String) : List Op := code.toList.filterMap Op.ofChar?

/-- The state before anything is executed. -/
def Snapshot.start (size : Nat) (input : List UInt8) : Snapshot :=
  ⟨Array.replicate size 0, 0, input, #[], 0⟩

theorem map_op_operations (l : List Char) :
    (operations l).map Sited.op = l.filterMap Op.ofChar? := by
  unfold operations
  generalize 0 = k
  induction l generalizing k with
  | nil => rfl
  | cons c l ih =>
    rw [List.zipIdx_cons]
    cases h : Op.ofChar? c <;> simp_all

section Runs
variable {size : Nat} {w : CellWidth} {mode : PointerMode} {code : String} {input : List UInt8}
  {f : Flow}

/-- The text of a flow is a routine **in which the flow stands**. -/
theorem exists_placed (hf : f.WellFormed) (hops : opsOf code = f.ops) :
    ∃ p, partners (operations code.toList) = .ok p ∧
      f.Placed ⟨(operations code.toList).toArray, p⟩ 0 ∧
      (operations code.toList).toArray.size = f.size := by
  have hm : (operations code.toList).map Sited.op = f.ops := by
    rw [map_op_operations]
    exact hops
  obtain ⟨p, hp, hpl⟩ := Flow.partners_placed hf hm
  exact ⟨p, hp, hpl, by rw [Flow.size, ← hm, List.length_map, List.size_toArray]⟩

theorem run_eq (w : CellWidth) (mode : PointerMode) (input : List UInt8) (hf : f.WellFormed)
    (hops : opsOf code = f.ops) (hs : 0 < size) {limit : Nat} (hl : 0 < limit) :
    ∃ r : Routine, f.Placed r 0 ∧ r.ops.size = f.size ∧
      (Machine.new ⟨size, w, limit, mode⟩).run code input =
        let (ending, s) := runFor ⟨size, w, limit, mode⟩ r limit
          ((Snapshot.start size input).resume 0)
        match ending with
        | .finished =>
          (.ok (Machine.report limit false s), ⟨⟨size, w, limit, mode⟩, s.tape, s.pointer⟩)
        | .halted =>
          (.ok (Machine.report limit true s), ⟨⟨size, w, limit, mode⟩, s.tape, s.pointer⟩)
        | .failed f => (.error f, ⟨⟨size, w, limit, mode⟩, s.tape, s.pointer⟩) := by
  obtain ⟨p, hp, hpl, hsize⟩ := exists_placed hf hops
  refine ⟨⟨(operations code.toList).toArray, p⟩, hpl, hsize, ?_⟩
  have hc : (⟨size, w, limit, mode⟩ : MachineSettings).check = .ok () := by
    unfold MachineSettings.check
    rw [if_neg (show ¬ size = 0 by omega), if_neg (show ¬ limit = 0 by omega)]
  have hmax : max size 1 = size := by omega
  unfold Machine.run Machine.new
  simp only [hc, hp, Array.size_replicate, hmax]
  rfl

/-- **A flow that ends completes** under every limit from some on. -/
theorem completes_of_runs (hf : f.WellFormed) (hops : opsOf code = f.ops) (hs : 0 < size)
    {n : Nat} {t : Snapshot} (h : f.Runs w mode (.start size input) n t) (limit : Nat)
    (hn : n < limit) :
    ∃ e m, CompletesWithin ⟨size, w, limit, mode⟩ code input e m ∧
      e.outputCells = t.output.toList ∧ m.tape = t.tape ∧ m.pointer = t.pointer := by
  obtain ⟨r, hp, hsize, hrun⟩ := run_eq w mode input hf hops hs
    (show 0 < limit by omega)
  rw [runFor_finished (c := ⟨size, w, limit, mode⟩) h hp hsize (by omega)] at hrun
  exact ⟨_, _, ⟨hrun, rfl⟩, rfl, rfl, rfl⟩

/-- **A run that completes went through the flow.** -/
theorem runs_of_completes (hf : f.WellFormed) (hops : opsOf code = f.ops) (hs : 0 < size)
    {e : Execution} {m : Machine} (h : Completes size w mode code input e m) :
    ∃ n t, f.Runs w mode (.start size input) n t ∧ e.outputCells = t.output.toList ∧
      m.tape = t.tape ∧ m.pointer = t.pointer := by
  obtain ⟨limit, hrun, hhalt⟩ := h
  have hl : 0 < limit := by
    by_contra h0
    have hc : (⟨size, w, limit, mode⟩ : MachineSettings).check =
        .error (.badSetting .noOperations) := by
      unfold MachineSettings.check
      rw [if_neg (show ¬ size = 0 by omega), if_pos (show limit = 0 by omega)]
    simp only [Machine.run, Machine.new, hc, Prod.mk.injEq, reduceCtorEq, false_and] at hrun
  obtain ⟨r, hp, hsize, heq⟩ := run_eq w mode input hf hops hs hl
  rw [heq] at hrun
  cases hfin : runFor ⟨size, w, limit, mode⟩ r limit ((Snapshot.start size input).resume 0) with
  | mk ending s =>
    rw [hfin] at hrun
    cases ending with
    | halted =>
      simp only [Prod.mk.injEq, Except.ok.injEq] at hrun
      rw [← hrun.1] at hhalt
      cases hhalt
    | failed _ => simp at hrun
    | finished =>
      obtain ⟨n, hn, t, ht⟩ := runs_of_finished (c := ⟨size, w, limit, mode⟩) limit f _ 0 hp
        (by omega) (by rw [hfin])
      have hgo := runFor_finished (c := ⟨size, w, limit, mode⟩) ht hp hsize hn
      rw [hfin] at hgo
      simp only [Prod.mk.injEq, true_and] at hgo
      simp only [Prod.mk.injEq, Except.ok.injEq] at hrun
      obtain ⟨rfl, rfl⟩ := hrun
      exact ⟨n, t, ht, by rw [hgo]; rfl, by rw [hgo]; rfl, by rw [hgo]; rfl⟩

end Runs

end TapeCompiler
