import TapeCompiler.Proofs.Emission.Rewording
import TapeCompiler.Proofs.Emission.Named
import TapeCompiler.Proofs.Machine.Safety
import TapeCompiler.Proofs.Tape.Stripping

/-! # Free text is not executed

Names and comments reach the code through markers only, and a marker holds no executed symbol
(`opsOf_mark`). So two programs that differ in their wording are emitted in step: the same symbols
are written, with the pointer on the same cells. Templates may be any functions, for they are given
the names of variables only, which are the same in both programs.

* `step_of_reworded`, `run_of_reworded`: one instruction, and all of them;
* `emission_ignores_wording`: the executed symbols of the code, and the stripped code. -/

namespace TapeCompiler

/-! ### Symbols of texts -/

theorem strip_eq (text : String) :
    strip text = String.ofList ((opsOf text).flatMap fun o => stripChar o.char) := by
  unfold strip opsOf
  congr 1
  induction text.toList with
  | nil => rfl
  | cons c l ih =>
    rw [List.flatMap_cons, ih]
    cases h : Op.ofChar? c with
    | none => rw [List.filterMap_cons_none h]; simp [stripChar, h]
    | some o => rw [List.filterMap_cons_some h, List.flatMap_cons, char_of_ofChar? h]

/-! ### Code that executes the same -/

/-- Two writers have written **the same executed symbols** and are on the same cell. -/
structure Writer.SameOps (v w : Writer) : Prop where
  pointer : w.pointer = v.pointer
  ops : opsOf w.text = opsOf v.text

namespace Writer.SameOps
variable {v w : Writer}

theorem push (h : v.SameOps w) (o : Op) (n : Nat) : (v.push o.char n).SameOps (w.push o.char n) :=
  ⟨h.pointer, by rw [opsOf_push, opsOf_push, h.ops]⟩

theorem moveTo (h : v.SameOps w) (cell : Nat) : (v.moveTo cell).SameOps (w.moveTo cell) :=
  ⟨rfl, by rw [opsOf_moveTo, opsOf_moveTo, h.ops, h.pointer]⟩

theorem append (h : v.SameOps w) {s t : String} (hst : opsOf t = opsOf s) :
    (v.append s).SameOps (w.append t) :=
  ⟨h.pointer, by
    show opsOf (w.text ++ t) = opsOf (v.text ++ s)
    rw [opsOf_append, opsOf_append, h.ops, hst]⟩

end Writer.SameOps

/-- Two codes **execute the same** wherever they are written. -/
def Code.SameOps (c d : Code) : Prop :=
  ∀ v w : Writer, v.SameOps w → (c.write v).SameOps (d.write w)

namespace Code

theorem sameOps_refl (c : Code) : c.SameOps c := by
  induction c with
  | skip => exact fun v w h => h
  | move a => exact fun v w h => h.moveTo a
  | add a n => exact fun v w h => (h.moveTo a).push .inc n
  | sub a n => exact fun v w h => (h.moveTo a).push .dec n
  | on a o => exact fun v w h => (h.moveTo a).push o 1
  | text s => exact fun v w h => h.append rfl
  | loop a body ih =>
    exact fun v w h => ((ih _ _ ((h.moveTo a).push .enter 1)).moveTo a).push .leave 1
  | opening a => exact fun v w h => (h.moveTo a).push .enter 1
  | closing a => exact fun v w h => (h.moveTo a).push .leave 1
  | seq first second ih₁ ih₂ => exact fun v w h => ih₂ _ _ (ih₁ _ _ h)

theorem SameOps.append {c d c' d' : Code} (h : c.SameOps d) (h' : c'.SameOps d') :
    (c ++ c').SameOps (d ++ d') :=
  fun v w hv => h' _ _ (h v w hv)

/-- **All markers execute the same**: nothing. -/
theorem sameOps_mark (s t : Sign) (note note' : String) : (mark s note).SameOps (mark t note') :=
  fun _ _ h => h.append (by rw [opsOf_mark, opsOf_mark])

end Code

/-! ### Instructions in step -/

section Instructions
variable {e : Emitter} {rename : String → String} {i j : Instruction}

theorem exists_callMark (e : Emitter) (name : String) : ∃ s, (e.callMark name).1 = .mark s name := by
  unfold Emitter.callMark Emitter.unresolved
  split_ifs
  · exact ⟨_, rfl⟩
  · exact ⟨_, rfl⟩

theorem plain_of_reworded (h : i.Reworded e.library rename j) (p : Nat) :
    (e.plain p i).1.SameOps (e.plain p j).1 := by
  cases h with
  | same => exact Code.sameOps_refl _
  | createObject address hv =>
    refine (Code.sameOps_mark _ _ _ _).append ?_
    rw [hv]
    exact Code.sameOps_refl _
  | @callFunction name name' args target hn hn' =>
    obtain ⟨s, hs⟩ := exists_callMark e name
    obtain ⟨t, ht⟩ := exists_callMark e name'
    simp only [Emitter.plain, Emitter.expandOr_of_none hn, Emitter.expandOr_of_none hn', hs, ht]
    exact Code.sameOps_mark _ _ _ _
  | callMethod object args target hn hn' =>
    simp only [Emitter.plain, Emitter.expandOr_of_none hn, Emitter.expandOr_of_none hn']
    exact Code.sameOps_mark _ _ _ _
  | _ => exact Code.sameOps_mark _ _ _ _

end Instructions

/-! ### Emission in step -/

/-- An open shape **in other words**: its test is. -/
inductive OpenShape.Reworded (library : Library) (rename : String → String) :
    OpenShape → OpenShape → Prop
  | loop (flag : Nat) (condition : Operand) {test test' : List Instruction} :
    List.Forall₂ (Instruction.Reworded library rename) test test' →
      Reworded library rename (.loop flag test condition) (.loop flag test' condition)
  | branch (first other : Nat) :
    Reworded library rename (.branch first other) (.branch first other)

/-- Two emissions **are in step**: they have written the same executed symbols, are on the same cell
and have the same shapes open, up to their wording. -/
structure Emission.InStep (library : Library) (rename : String → String) (s t : Emission) :
    Prop where
  writer : s.writer.SameOps t.writer
  frames : List.Forall₂ (OpenShape.Reworded library rename) s.frames t.frames

/-- Two steps end in step or **fail with the same fault**. -/
inductive Emission.EndInStep (library : Library) (rename : String → String) :
    Except Fault Emission → Except Fault Emission → Prop
  | ok {s t : Emission} : s.InStep library rename t → EndInStep library rename (.ok s) (.ok t)
  | error (f : Fault) : EndInStep library rename (.error f) (.error f)

section Steps
variable {e : Emitter} {rename : String → String} {i j : Instruction} {s t : Emission}
  {code code' : List Instruction}

theorem Emission.InStep.write {library : Library} (h : s.InStep library rename t) {c d : Code}
    (hcd : c.SameOps d) : (s.write c).InStep library rename (t.write d) :=
  ⟨hcd _ _ h.writer, h.frames⟩

theorem Emission.InStep.withFrames {library : Library} (h : s.InStep library rename t)
    {F G : List OpenShape} (hF : List.Forall₂ (OpenShape.Reworded library rename) F G) :
    Emission.InStep library rename { s with frames := F } { t with frames := G } :=
  ⟨h.writer, hF⟩

theorem Emission.InStep.nextFlag (h : s.InStep e.library rename t) :
    e.nextFlag t = e.nextFlag s := by
  unfold Emitter.nextFlag
  rw [h.frames.length_eq]

theorem writePlain_of_reworded (hij : i.Reworded e.library rename j)
    (h : s.InStep e.library rename t) :
    (e.writePlain s i).InStep e.library rename (e.writePlain t j) := by
  unfold Emitter.writePlain
  rw [h.writer.pointer]
  exact ⟨plain_of_reworded hij _ _ _ h.writer, h.frames⟩

theorem foldl_writePlain_of_reworded
    (hc : List.Forall₂ (Instruction.Reworded e.library rename) code code') :
    ∀ {s t : Emission}, s.InStep e.library rename t →
      (code.foldl e.writePlain s).InStep e.library rename (code'.foldl e.writePlain t) := by
  induction hc with
  | nil => exact fun h => h
  | cons hij _ ih => exact fun h => ih (writePlain_of_reworded hij h)

theorem closeLoop_of_reworded (h : s.InStep e.library rename t) (k : Nat) :
    Emission.EndInStep e.library rename (e.closeLoop k s) (e.closeLoop k t) := by
  unfold Emitter.closeLoop
  have hframes := h.frames
  generalize s.frames = F at hframes
  generalize t.frames = G at hframes
  cases hframes with
  | nil => exact .error _
  | cons hf hrest =>
    cases hf with
    | loop flag condition htest =>
      exact .ok ((foldl_writePlain_of_reworded htest (h.withFrames hrest)).write
        (Code.sameOps_refl _))
    | branch => exact .error _

theorem switchBranch_of_reworded {library : Library} (h : s.InStep library rename t) (k : Nat) :
    Emission.EndInStep library rename (Emitter.switchBranch k s) (Emitter.switchBranch k t) := by
  unfold Emitter.switchBranch
  have hframes := h.frames
  generalize s.frames = F at hframes
  generalize t.frames = G at hframes
  cases hframes with
  | nil => exact .error _
  | cons hf _ =>
    cases hf with
    | loop => exact .error _
    | branch => exact .ok (h.write (Code.sameOps_refl _))

theorem closeBranch_of_reworded {library : Library} (h : s.InStep library rename t) (k : Nat) :
    Emission.EndInStep library rename (Emitter.closeBranch k s) (Emitter.closeBranch k t) := by
  unfold Emitter.closeBranch
  have hframes := h.frames
  generalize s.frames = F at hframes
  generalize t.frames = G at hframes
  cases hframes with
  | nil => exact .error _
  | cons hf hrest =>
    cases hf with
    | loop => exact .error _
    | branch => exact .ok ((h.withFrames hrest).write (Code.sameOps_refl _))

theorem step_of_reworded (hc : List.Forall₂ (Instruction.Reworded e.library rename) code code')
    (hij : i.Reworded e.library rename j) (h : s.InStep e.library rename t) (plan : ControlPlan)
    (k : Nat) :
    Emission.EndInStep e.library rename (e.step plan code k i s) (e.step plan code' k j t) := by
  have hplain : Emission.EndInStep e.library rename (.ok (e.writePlain s i))
      (.ok (e.writePlain t j)) := .ok (writePlain_of_reworded hij h)
  unfold Emitter.step
  cases hij with
  | label name =>
    simp only [ControlPlan.role]
    split_ifs
    · exact closeBranch_of_reworded h k
    · exact .ok h
    · exact hplain
  | jump name =>
    simp only [ControlPlan.role]
    split_ifs
    · exact closeLoop_of_reworded h k
    · exact switchBranch_of_reworded h k
    · exact hplain
  | jumpUnless condition name =>
    simp only [ControlPlan.role]
    cases plan.loops.reverse.find? fun l => l.test = k with
    | none => exact hplain
    | some shape =>
      simp only [Emitter.openLoop, h.nextFlag]
      exact .ok ⟨Code.sameOps_refl _ _ _ h.writer,
        .cons (.loop _ _ (List.forall₂_drop _ (List.forall₂_take _ hc))) h.frames⟩
  | branch condition name =>
    simp only [ControlPlan.role]
    split_ifs
    · simp only [Emitter.openBranch, h.nextFlag]
      exact .ok ⟨Code.sameOps_refl _ _ _ h.writer, .cons (.branch _ _) h.frames⟩
    · exact hplain
  | same hi =>
    cases i with
    | label | jump | jumpUnless | branch => cases hi
    | _ => exact hplain
  | _ => exact hplain

theorem run_of_reworded (hc : List.Forall₂ (Instruction.Reworded e.library rename) code code')
    (plan : ControlPlan) {l l' : List (Instruction × Nat)}
    (hl : List.Forall₂ (fun x y => x.1.Reworded e.library rename y.1 ∧ x.2 = y.2) l l') :
    ∀ {s t : Emission}, s.InStep e.library rename t →
      (e.run plan code' l' t).1 = (e.run plan code l s).1 ∧
        (e.run plan code l s).2.writer.SameOps (e.run plan code' l' t).2.writer := by
  induction hl with
  | nil =>
    intro s t h
    have hlen := h.frames.length_eq
    have hempty : t.frames.isEmpty = s.frames.isEmpty := by
      rw [Bool.eq_iff_iff, List.isEmpty_iff_length_eq_zero, List.isEmpty_iff_length_eq_zero, hlen]
    unfold Emitter.run
    rw [hempty, hlen]
    split_ifs
    · exact ⟨rfl, h.writer⟩
    · exact ⟨rfl, h.writer⟩
  | @cons x y _ _ hxy _ ih =>
    intro s t h
    obtain ⟨i, k⟩ := x
    obtain ⟨j, k'⟩ := y
    obtain ⟨hij, rfl⟩ := hxy
    have hstep := step_of_reworded hc hij h plan k
    unfold Emitter.run
    generalize e.step plan code k i s = x at hstep
    generalize e.step plan code' k j t = y at hstep
    cases hstep with
    | ok hst => exact ih (hst.write (Code.sameOps_refl _))
    | error f => exact ⟨rfl, h.writer⟩

end Steps

/-! ### Programs -/

theorem emitWith_of_reworded {e : Emitter} {p q : Program} (h : p.Reworded e.library q)
    (plan : ControlPlan) (needed size : Nat) :
    (q.emitWith plan e needed size).1.map opsOf = (p.emitWith plan e needed size).1.map opsOf := by
  obtain ⟨rename, -, hc⟩ := h.instructions
  unfold Program.emitWith
  split_ifs
  · rfl
  · obtain ⟨hend, hwriter⟩ := run_of_reworded hc plan (forall₂_zipIdx hc 0) (s := .start)
      (t := .start) ⟨⟨rfl, rfl⟩, .nil⟩
    dsimp only
    rw [hend]
    cases (e.run plan p.instructions _ _).1 with
    | error f => rfl
    | ok _ => exact congrArg Except.ok hwriter.ops

theorem map_strip_of_map_opsOf {x y : Except Fault String} (h : x.map opsOf = y.map opsOf) :
    x.map strip = y.map strip := by
  have hstrip : ∀ x : Except Fault String, x.map strip =
      (x.map opsOf).map fun ops => String.ofList (ops.flatMap fun o => stripChar o.char) := by
    rintro (f | text)
    · rfl
    · exact congrArg Except.ok (strip_eq text)
  rw [hstrip, hstrip, h]

/-- **Free text is not executed.** Two programs that differ in their wording are both emitted or
both refused with the same fault, on whatever tape and with whatever templates, and then the same
symbols are executed, as emitted and after stripping; also where cells are counted in machine
words. -/
theorem emission_ignores_wording {library : Library} {p q : Program} (h : p.Reworded library q)
    (w : CellWidth) (size reserved : Nat) :
    ((q.emit library w size reserved).1.map opsOf = (p.emit library w size reserved).1.map opsOf ∧
      (q.emit library w size reserved).1.map strip =
        (p.emit library w size reserved).1.map strip) ∧
    (q.emitWrapping library w size reserved).1.map opsOf =
        (p.emitWrapping library w size reserved).1.map opsOf ∧
      (q.emitWrapping library w size reserved).1.map strip =
        (p.emitWrapping library w size reserved).1.map strip := by
  obtain ⟨rename, hf, hc⟩ := h.instructions
  have hemitter : ∀ scratch flags,
      q.emitter library w scratch flags = p.emitter library w scratch flags := fun _ _ => by
    unfold Program.emitter
    rw [h.bindings, h.functions]
  have hexact : (q.emit library w size reserved).1.map opsOf =
      (p.emit library w size reserved).1.map opsOf := by
    unfold Program.emit
    rw [of_reworded hf hc, maxAddress_of_reworded h, ← hc.length_eq]
    simp only [hemitter]
    exact emitWith_of_reworded h _ _ _
  have hwrapping : (q.emitWrapping library w size reserved).1.map opsOf =
      (p.emitWrapping library w size reserved).1.map opsOf := by
    unfold Program.emitWrapping
    rw [of_reworded hf hc, maxAddressWrapping_of_reworded h, ← hc.length_eq]
    simp only [hemitter]
    exact emitWith_of_reworded h _ _ _
  exact ⟨⟨hexact, map_strip_of_map_opsOf hexact⟩, hwrapping, map_strip_of_map_opsOf hwrapping⟩

/-- A template of one's own: a byte read is written back. -/
def echo : Template where
  name := "echo"
  description := "Write one input cell back"
  arity? := some 0
  render _ _ := .ok (.text ",.")

/-- A label that nothing jumps to, behind a comment and calls of which one has a template. -/
def plainWords : Program :=
  ⟨[], [], [], [.comment "note", .callFunction "f" [] none, .callFunction "echo" [] none,
    .label "a", .update 0 .increment]⟩

/-- The same with tape symbols, signs and line breaks for words. -/
def tapeWords : Program :=
  ⟨[], [], [], [.comment "+[-]\n", .callFunction "~@>" [] none, .callFunction "echo" [] none,
    .label "<.a", .update 0 .increment]⟩

/-- Tape symbols for words change the code but not what is executed of it. -/
theorem emission_ignores_wording_of_tapeWords :
    let library := Library.standard.register echo
    plainWords.Reworded library tapeWords ∧
      ∃ c d, (plainWords.emit library .bits8 20 0).1 = .ok c ∧
        (tapeWords.emit library .bits8 20 0).1 = .ok d ∧ c ≠ d ∧ strip c = strip d := by
  intro library
  have h : plainWords.Reworded library tapeWords := by
    refine ⟨rfl, rfl, rfl, ("<." ++ ·), fun a b hab => ?_, ?_⟩
    · simpa using hab
    · exact .cons (.comment _ _) (.cons (.callFunction _ _ (by decide) (by decide))
        (.cons (.same rfl) (.cons (.label "a") (.cons (.same rfl) .nil))))
  have hp : (plainWords.emit library .bits8 20 0).1 = .ok "#note\n?f\n,.\n:a\n+\n" := rfl
  have hq : (tapeWords.emit library .bits8 20 0).1 = .ok "#_____\n?___\n,.\n:__a\n+\n" := rfl
  refine ⟨h, _, _, hp, hq, by decide, ?_⟩
  have hstrip := (emission_ignores_wording h .bits8 20 0).1.2
  rw [hp, hq] at hstrip
  exact (Except.ok.inj hstrip).symm

end TapeCompiler
