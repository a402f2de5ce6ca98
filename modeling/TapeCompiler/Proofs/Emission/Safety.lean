import TapeCompiler.Proofs.Cells.Renaming
import TapeCompiler.Proofs.Emission.Written
import TapeCompiler.Proofs.Machine.Safety
import TapeCompiler.Proofs.Tape.Stripping

/-! # Emitted code stays on its tape

Code that names cells of a tape only is the text of a flow that tracks the tape
(`Code.tracks_flow`): the moves lead from cell to cell, and every loop goes back to the cell that it
tests. The text of a program is the text of such code, and so is the stripped text, whose spelled
out negations use the guard cell. Neither leaves the tape or has a bracket without a partner
(`emit_safe`), whatever jumps and labels the program holds.

Where a machine word can count the cells of a program, words compute the sums themselves
(`Program.emitWrapping_eq_emit`), and code emitted in words is as safe. Beyond that the flag cells
may come to lie on the first cells, and the code may leave its tape. -/

namespace TapeCompiler

namespace Flow

variable {size : Nat}

theorem tracks_rights {p : Nat} (n : Nat) (h : p + n < size) :
    (ofOps (List.replicate n .right)).Tracks size p (p + n) := by
  induction n generalizing p with
  | zero => rfl
  | succ n ih =>
    refine ⟨by omega, ?_⟩
    rw [show p + (n + 1) = p + 1 + n by omega]
    exact ih (by omega)

theorem tracks_lefts {p : Nat} (n : Nat) (h : n ≤ p) :
    (ofOps (List.replicate n .left)).Tracks size p (p - n) := by
  induction n generalizing p with
  | zero => rfl
  | succ n ih =>
    refine ⟨by omega, ?_⟩
    rw [show p - (n + 1) = p - 1 - n by omega]
    exact ih (by omega)

theorem tracks_moves {p q : Nat} (hq : q < size) : (ofOps (moves p q)).Tracks size p q := by
  unfold moves
  split_ifs with h
  · have := tracks_rights (p := p) (q - p) (show p + (q - p) < size by omega)
    rwa [show p + (q - p) = q by omega] at this
  · have : (ofOps (List.replicate (p - q) .left)).Tracks size p (p - (p - q)) :=
      tracks_lefts (p - q) (by omega)
    rwa [show p - (p - q) = q by omega] at this

theorem tracks_replicate {o : Op} (hr : o ≠ .right) (hl : o ≠ .left) (n p : Nat) :
    (ofOps (List.replicate n o)).Tracks size p p := by
  induction n with
  | zero => rfl
  | succ n ih => cases o <;> first | exact absurd rfl hr | exact absurd rfl hl | exact ih

end Flow

/-- **Code that names cells of the tape only** is the text of a flow that tracks the tape. -/
theorem Code.tracks_flow {size : Nat} {N : Nat → Prop} {c : Code} (hc : c.Within (· < size) N)
    {p : Nat} (hp : p < size) : (c.flow p).Tracks size p (c.last p) := by
  induction c generalizing p with
  | skip | text => rfl
  | move a => exact Flow.tracks_moves hc
  | add a n | sub a n =>
    exact (Flow.tracks_moves hc).append (Flow.tracks_replicate (by decide) (by decide) n a)
  | on a o =>
    refine (Flow.tracks_moves hc.1).append ?_
    rcases hc.2 with rfl | rfl | ⟨rfl, -⟩ <;> rfl
  | loop a body ih =>
    exact (Flow.tracks_moves hc.1).append
      ⟨(ih hc.2 hc.1).append (Flow.tracks_moves hc.1), rfl⟩
  | opening | closing => exact hc.elim
  | seq first second ih₁ ih₂ =>
    exact (ih₁ hc.1 hp).append (ih₂ hc.2 (Code.last_within hc.1 hp))

/-- **Emitted code is safe.** The text of a program and the stripped text have balanced brackets,
and on a strict machine with the cells that the program was emitted for neither fails by leaving the
tape or by a bracket without a partner, on any input and under any limit. -/
theorem emit_safe {p : Program} (hp : ∀ i ∈ p.instructions, i.Proper) {library : Library}
    (hl : library.BuiltIn) {w : CellWidth} {size reserved : Nat} {text : String} {ws : List String}
    (h : p.emit library w size reserved = (.ok text, ws)) {code : String}
    (hcode : code = text ∨ code = strip text) :
    Balanced code ∧ ∀ limit input e m,
      (Machine.new ⟨size, w, limit, .strict⟩).run code input = (.error e, m) → ¬ e.OfCode := by
  obtain ⟨c, hc, rfl⟩ := Program.exists_code hp hl h
  have hguard := Program.guard_lt_of_emit h
  have htext := Code.opsOf_textFrom hc
  -- both texts are those of code that names cells of the tape only
  obtain ⟨d, hd, hops⟩ : ∃ d : Code,
      d.Within (· < size) (fun a => a + 1 = (p.scratch reserved).guard) ∧
        opsOf code = (d.flow 0).ops := by
    rcases hcode with rfl | rfl
    · exact ⟨c, hc.mono (fun a ha => ha.1) fun a ha => ha, htext⟩
    · exact ⟨c.expanded, Code.within_expanded (fun a ha => ha.1)
        (fun a ha => by rw [ha]; exact hguard) hc, Code.opsOf_strip_textFrom htext⟩
  have hwf := Code.wellFormed_flow hd 0
  have hsize : 0 < size := by omega
  exact ⟨balanced_of_ops hwf hops, fun limit input e m =>
    safe_of_tracks hwf hops hsize (Code.tracks_flow hd hsize) w .strict limit input⟩

/-! ### Machine words -/

namespace Program

variable {p : Program} (hp : ∀ i ∈ p.instructions, i.Proper)
include hp

theorem maxAddressWrapping_eq (h : p.maxAddress < wordSize) :
    p.maxAddressWrapping = p.maxAddress := by
  have hcode : p.instructions.foldl (fun top i => max top i.maxAddressWrapping) 0 =
      p.instructions.foldl (fun top i => max top i.maxAddress) 0 :=
    List.foldl_ext _ _ _ fun top i hi => by
      rw [Instruction.maxAddressWrapping_eq (hp i hi) ((maxAddress_le hi).trans_lt h)]
  unfold maxAddressWrapping
  rw [hcode]
  refine List.foldl_ext _ _ _ fun top v hv => ?_
  have : v.address + v.size ≤ p.maxAddress :=
    le_foldl_max_of_mem (fun v : VariableInfo => v.address + v.size) hv _
  rw [Nat.mod_eq_of_lt (by omega)]

/-- **Counting in machine words makes no difference** to a program whose cells a word can count. -/
theorem emitWrapping_eq_emit {reserved : Nat} (h : p.cellsNeeded reserved < wordSize)
    (library : Library) (w : CellWidth) (size : Nat) :
    p.emitWrapping library w size reserved = p.emit library w size reserved := by
  simp only [cellsNeeded, scratch] at h
  have hmax : p.maxAddressWrapping = p.maxAddress := maxAddressWrapping_eq hp (by omega)
  have hflags : (max p.maxAddress reserved + scratchCells) % wordSize =
      max p.maxAddress reserved + scratchCells := Nat.mod_eq_of_lt (by omega)
  simp only [emitWrapping, emit, hmax, hflags, Nat.mod_eq_of_lt h]

end Program

/-- **Code emitted in machine words is safe**, if a word can count the cells of the program. -/
theorem emitWrapping_safe {p : Program} (hp : ∀ i ∈ p.instructions, i.Proper) {library : Library}
    (hl : library.BuiltIn) {w : CellWidth} {size reserved : Nat}
    (hn : p.cellsNeeded reserved < wordSize) {text : String} {ws : List String}
    (h : p.emitWrapping library w size reserved = (.ok text, ws)) {code : String}
    (hcode : code = text ∨ code = strip text) :
    Balanced code ∧ ∀ limit input e m,
      (Machine.new ⟨size, w, limit, .strict⟩).run code input = (.error e, m) → ¬ e.OfCode := by
  rw [Program.emitWrapping_eq_emit hp hn] at h
  exact emit_safe hp hl h hcode

/-- A program with a stray jump, a stray conditional jump and a label defined twice. -/
theorem emitWrapping_safe_of_stray :
    let p : Program := ⟨[], [], [], [.label "a", .setValue 0 (.int (-1)), .jump "b", .label "a",
      .jumpUnless (.cells 0 1) "a", .print [.cells 0 1]]⟩
    let text := ":a\n[-]>+~[-<+>]\n|b\n:a\n=a\n<.>\n"
    let warnings := ["jump to 'b' emitted as a marker",
      "conditional jump to 'a' emitted as a marker"]
    (∀ i ∈ p.instructions, i.Proper) ∧ p.cellsNeeded 0 < wordSize ∧
      p.emitWrapping .standard .bits8 20 0 = (.ok text, warnings) ∧ Balanced (strip text) ∧
      ∀ limit input e m, (Machine.new ⟨20, .bits8, limit, .strict⟩).run (strip text) input = (.error e, m) →
          ¬ e.OfCode := by
  intro p text warnings
  have hp : ∀ i ∈ p.instructions, i.Proper := by
    simp [p, Instruction.Proper, Instruction.operands, Operand.Proper]
  have hn : p.cellsNeeded 0 < wordSize := by decide
  have he : p.emitWrapping .standard .bits8 20 0 = (.ok text, warnings) := by decide
  exact ⟨hp, hn, he, emitWrapping_safe hp Library.known_standard.builtIn hn he (Or.inr rfl)⟩

/-- Beside a variable next to the last cell that a word counts, the flag cells are counted from
the first cell again: the program is emitted for a tape of twenty cells, and **its code leaves
them**. -/
theorem emitWrapping_leaves_tape :
    let p : Program := ⟨[("v", ⟨wordSize - 13, 1, .block⟩)], [], [], [.setValue 20 (.int 1)]⟩
    let text := ">>>>>>>>>>>>>>>>>>>>[-]+\n"
    (∀ i ∈ p.instructions, i.Proper) ∧ p.emitWrapping .standard .bits8 20 0 = (.ok text, []) ∧
      ∃ e, ((Machine.new ⟨20, .bits8, 100, .strict⟩).run text []).1 = .error e ∧ e.OfCode := by
  refine ⟨by simp [Instruction.Proper, Instruction.operands], by decide +kernel, ?_⟩
  exact ⟨.pointerOutOfBounds 19 20, by decide +kernel, .inl ⟨19, 20, rfl⟩⟩

end TapeCompiler
