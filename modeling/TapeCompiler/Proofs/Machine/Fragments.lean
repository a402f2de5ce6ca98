import TapeCompiler.Proofs.Tape.Flowing

/-! # Texts run from any state

A run of a machine starts on a cleared tape; the code of one instruction starts on what the code
before it left. `Executes` says where a text ends that is run from **any** state, whatever the
tape, the pointer, the input and the output are by then.

* `executes_of_reaches`: the text of a flow that ends is executed;
* `Executes.unique`: a text ends in one state. -/

namespace TapeCompiler

/-- The routine of a text, if its brackets have partners. -/
def routineOf (text : String) : Except Fault Routine :=
  (partners (operations text.toList)).map fun p => ⟨(operations text.toList).toArray, p⟩

/-- **A text leads from a state to another**: it has a routine, and every run of it from the one
with enough operations to spend goes off its end in the other. -/
def Executes (c : MachineSettings) (text : String) (s t : Snapshot) : Prop :=
  ∃ r, routineOf text = .ok r ∧ ∃ least, ∀ fuel ≥ least,
    runFor c r fuel (s.resume 0) = (.finished, t.resume r.ops.size)

variable {c : MachineSettings} {text : String} {s t u : Snapshot}

theorem executes_of_reaches {f : Flow} (hf : f.WellFormed) (hops : opsOf text = f.ops)
    (h : f.Reaches c.width c.pointerMode s t) : Executes c text s t := by
  obtain ⟨n, hn⟩ := h
  obtain ⟨p, hp, hpl, hsize⟩ := exists_placed hf hops
  refine ⟨⟨(operations text.toList).toArray, p⟩, by rw [routineOf, hp]; rfl, n, fun fuel hl => ?_⟩
  rw [runFor_finished hn hpl hsize hl, hsize]

theorem Executes.unique (h : Executes c text s t) (h' : Executes c text s u) : t = u := by
  obtain ⟨r, hr, n, hn⟩ := h
  obtain ⟨r', hr', m, hm⟩ := h'
  obtain rfl : r = r' := Except.ok.inj (hr.symm.trans hr')
  have hend := (hn (max n m) (le_max_left n m)).symm.trans (hm (max n m) (le_max_right n m))
  cases t
  cases u
  simpa [Snapshot.resume] using hend

end TapeCompiler
