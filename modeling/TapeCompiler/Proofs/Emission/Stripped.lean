import TapeCompiler.Proofs.Emission.Written
import TapeCompiler.Proofs.Tape.Stripping

/-! # Programs in base symbols

Stripping the text of a program changes nothing that a run shows (`strip_preserves_runs`): the code
behind the text never names the guard cell, so a spelled out negation finds it zero. -/

namespace TapeCompiler

/-- **Stripping preserves runs.** The text of a program completes under some operation limit if and
only if the stripped text does, and then both runs give the same output, the same tape and the same
pointer. -/
theorem strip_preserves_runs {p : Program} (hp : ∀ i ∈ p.instructions, i.Proper) {library : Library}
    (hl : library.BuiltIn) {w : CellWidth} {size reserved : Nat} {text : String} {ws : List String}
    (h : p.emit library w size reserved = (.ok text, ws)) (mode : PointerMode)
    (input : List UInt8) :
    ((∃ e m, Completes size w mode text input e m) ↔
      ∃ e m, Completes size w mode (strip text) input e m) ∧
    ∀ e m e' m', Completes size w mode text input e m →
      Completes size w mode (strip text) input e' m' →
        e.outputCells = e'.outputCells ∧ m.tape = m'.tape ∧ m.pointer = m'.pointer := by
  obtain ⟨c, hc, rfl⟩ := Program.exists_code hp hl h
  have hguard := Program.guard_lt_of_emit h
  have hsize : 0 < size := by omega
  have htext := Code.opsOf_textFrom hc
  have hends : ∀ o t q, Ends size w mode (c.textFrom 0) input o t q ↔
      Ends size w mode (strip (c.textFrom 0)) input o t q := fun o t q =>
    ends_strip hc (fun a ha => ha) hguard htext
  constructor
  · constructor
    · rintro ⟨e, m, hem⟩
      obtain ⟨e', m', hem', -⟩ := (hends _ _ _).mp ⟨e, m, hem, rfl, rfl, rfl⟩
      exact ⟨e', m', hem'⟩
    · rintro ⟨e, m, hem⟩
      obtain ⟨e', m', hem', -⟩ := (hends _ _ _).mpr ⟨e, m, hem, rfl, rfl, rfl⟩
      exact ⟨e', m', hem'⟩
  · intro e m e' m' hem hem'
    exact Code.ends_unique (hc.mono (fun a ha => ha.1) fun a ha => ha) hsize htext
      ⟨e, m, hem, rfl, rfl, rfl⟩ ((hends _ _ _).mpr ⟨e', m', hem', rfl, rfl, rfl⟩)

/-- A negative literal, whose code negates: the text and the stripped text run alike. -/
theorem strip_preserves_runs_of_negative :
    let p : Program := ⟨[], [], [], [.setValue 0 (.int (-5)), .print [.cell 0]]⟩
    (∀ i ∈ p.instructions, i.Proper) ∧
      p.emit .standard .bits8 20 0 = (.ok "[-]>+++++~[-<+>]\n<.>\n", []) ∧
      ((∃ e m, Completes 20 .bits8 .strict "[-]>+++++~[-<+>]\n<.>\n" [] e m) ↔
        ∃ e m, Completes 20 .bits8 .strict (strip "[-]>+++++~[-<+>]\n<.>\n") [] e m) := by
  intro p
  have hp : ∀ i ∈ p.instructions, i.Proper := by
    simp [p, Instruction.Proper, Instruction.operands, Operand.Proper, Operand.cell]
  have he : p.emit .standard .bits8 20 0 = (.ok "[-]>+++++~[-<+>]\n<.>\n", []) := by decide
  exact ⟨hp, he, (strip_preserves_runs hp Library.known_standard.builtIn he .strict []).1⟩

end TapeCompiler
