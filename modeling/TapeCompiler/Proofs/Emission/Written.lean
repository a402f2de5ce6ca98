import TapeCompiler.Proofs.Emission.Named
import TapeCompiler.Proofs.Emission.Nesting
import TapeCompiler.Proofs.Tape.Flowing

/-! # The code of a program

Whenever emission succeeds, its text is the text of code without open ends (`exists_code`). While a
program is emitted, the brackets open are those of the open shapes (`Stacked`), each with the code
written in front of it, and closing a bracket makes a loop of what was written since. The flag cells
lie above the scratch cells and below the limit that was checked (`flags_allowed`). -/

namespace TapeCompiler

/-! ### Depth -/

namespace ControlPlan

variable (plan : ControlPlan)

/-- The nesting in front of an index, with the deepest so far. -/
def depthAt (k : Nat) : Nat × Nat := (List.range k).foldl plan.depthStep (0, 0)

theorem depthAt_succ (k : Nat) : plan.depthAt (k + 1) = plan.depthStep (plan.depthAt k) k := by
  simp [depthAt, List.range_succ]

theorem deepest_mono {j k : Nat} (h : j ≤ k) : (plan.depthAt j).2 ≤ (plan.depthAt k).2 := by
  induction h with
  | refl => exact Nat.le_refl _
  | step _ ih =>
    rw [depthAt_succ]
    exact Nat.le_trans ih (Nat.le_max_left _ _)

theorem opens_iff {plan : ControlPlan} {k : Nat} :
    (plan.loops.any (fun l => l.test = k) || plan.branches.any fun b => b.test = k) = true ↔
      ∃ X ∈ plan.shapes, X.first = k := by
  simp [shapes, Shape.first, or_and_right, exists_or]

theorem closes_iff {plan : ControlPlan} {k : Nat} :
    (plan.loops.any (fun l => l.back = k) || plan.branches.any fun b => b.stop = k) = true ↔
      ∃ X ∈ plan.shapes, X.last = k := by
  simp [shapes, Shape.last, or_and_right, exists_or]

end ControlPlan

/-! ### Open brackets -/

/-- The writer at an open bracket: each bracket stands on a cell behind the code written in front of
it. -/
def level : List (Nat × Code) → Writer
  | [] => Writer.on 0
  | (a, before) :: rest => (Code.opening a).write (before.write (level rest))

/-- Cells that emission may name: the cells of the program, the scratch cells but the guard, and two
flags for each level of nesting. Of templates only those of **known functions** keep to them. -/
structure Emitter.Room (e : Emitter) (P N : Nat → Prop) (depth : Nat) : Prop where
  library : e.library.BuiltIn
  scratch : e.scratch.Allowed P
  neg : N e.scratch.neg
  cells : ∀ a < e.scratch.base, P a
  flags : ∀ a, e.flags ≤ a → a < e.flags + 2 * depth → P a

theorem Emitter.Room.within_plain {e : Emitter} {P N : Nat → Prop} {depth p : Nat}
    (h : e.Room P N depth) (hp : P p) {i : Instruction} (hi : i.Below e.scratch.base) :
    (e.plain p i).1.Within P N :=
  Emitter.within_plain h.scratch h.neg h.cells h.library hp hi

theorem Emitter.Room.zero {e : Emitter} {P N : Nat → Prop} {depth : Nat} (h : e.Room P N depth) :
    P 0 := by
  rcases Nat.eq_zero_or_pos e.scratch.base with h0 | h0
  · have := h.scratch 0 (by decide) (by decide)
    rwa [h0] at this
  · exact h.cells 0 h0

/-- **The open shapes, the frames and the brackets** in front of an index. A branch has its first
bracket open up to its turn. -/
inductive Stacked (e : Emitter) (P N : Nat → Prop) (k : Nat) :
    List Shape → List OpenShape → List (Nat × Code) → Prop
  | nil : Stacked e P N k [] [] []
  | loop {l : LoopShape} {flag : Nat} {test : List Instruction} {c : Operand} {before : Code}
    {S : List Shape} {F : List OpenShape} {K : List (Nat × Code)} :
    P flag → (∀ i ∈ test, i.Below e.scratch.base) → c.Below e.scratch.base → before.Within P N →
      Stacked e P N k S F K →
        Stacked e P N k (.loop l :: S) (.loop flag test c :: F) ((flag, before) :: K)
  | branch {b : BranchShape} {first other : Nat} {before : Code}
    {S : List Shape} {F : List OpenShape} {K : List (Nat × Code)} :
    P first → P other → before.Within P N → Stacked e P N k S F K →
      Stacked e P N k (.branch b :: S) (.branch first other :: F)
        ((if k ≤ b.turn then first else other, before) :: K)

namespace Stacked

variable {e : Emitter} {P N : Nat → Prop} {k depth : Nat} {S : List Shape} {F : List OpenShape}
  {K : List (Nat × Code)}

theorem succ (h : Stacked e P N k S F K) (hk : ∀ X ∈ S, X.turn? ≠ some k) :
    Stacked e P N (k + 1) S F K := by
  induction h with
  | nil => exact .nil
  | loop hf ht hc hb _ ih => exact .loop hf ht hc hb (ih fun X hX => hk X (by simp [hX]))
  | @branch b first other before S F K hf ho hb _ ih =>
    have hne : b.turn ≠ k := fun he => hk (.branch b) (by simp) (congrArg some he)
    have hiff : k ≤ b.turn ↔ k + 1 ≤ b.turn := by omega
    simp only [hiff]
    exact .branch hf ho hb (ih fun X hX => hk X (by simp [hX]))

theorem pointer_level (hr : e.Room P N depth) (h : Stacked e P N k S F K) :
    P (level K).pointer := by
  cases h with
  | nil => exact hr.zero
  | loop hf => exact hf
  | branch hf ho => show P (if _ then _ else _); split_ifs <;> assumption

end Stacked

section Written
variable {e : Emitter} {P N : Nat → Prop} {code : List Instruction} {plan : ControlPlan}
  {k depth : Nat} {st st' : Emission}

/-- **What was written in front of an index**: code behind the open brackets. -/
structure Written (e : Emitter) (P N : Nat → Prop) (plan : ControlPlan) (k : Nat) (st : Emission)
    (S : List Shape) (K : List (Nat × Code)) (c : Code) : Prop where
  opened : Opened plan k S
  stacked : Stacked e P N k S st.frames K
  writer : st.writer = c.write (level K)
  within : c.Within P N
  depth : st.frames.length = (plan.depthAt k).1

/-- Instructions that are no part of a shape, written one after another. -/
theorem exists_foldl_writePlain (st : Emission) (hr : e.Room P N depth) {l : List Instruction}
    (hl : ∀ i ∈ l, i.Below e.scratch.base) {c : Code} (hc : c.Within P N) {v : Writer}
    (hv : P v.pointer) (hw : st.writer = c.write v) :
    ∃ d : Code, d.Within P N ∧ (l.foldl e.writePlain st).writer = (c ++ d).write v := by
  induction l generalizing st c with
  | nil => exact ⟨.skip, trivial, hw⟩
  | cons i l ih =>
    have hp : P st.writer.pointer := by
      rw [hw, (opsOf_write hc v).2]
      exact Code.last_within hc hv
    have hd := hr.within_plain hp (hl i (by simp))
    obtain ⟨d, hd', hw'⟩ := ih (e.writePlain st i) (fun j hj => hl j (by simp [hj]))
      (c := c ++ (e.plain st.writer.pointer i).1) ⟨hc, hd⟩ (by
        simp only [Emitter.writePlain, Emission.write, hw]
        rfl)
    exact ⟨(e.plain st.writer.pointer i).1 ++ d, ⟨hd, hd'⟩, hw'⟩

theorem depth_step {i : Instruction} (hi : code[k]? = some i)
    (hs : e.step (.of code) code k i st = .ok st')
    (h : st.frames.length = ((ControlPlan.of code).depthAt k).1) :
    st'.frames.length = ((ControlPlan.of code).depthAt (k + 1)).1 ∧
      ((∃ X ∈ (ControlPlan.of code).shapes, X.first = k) →
        st.frames.length + 1 ≤ ((ControlPlan.of code).depthAt (k + 1)).2) := by
  have hlen := length_step hi hs
  rw [ControlPlan.depthAt_succ]
  unfold ControlPlan.depthStep
  simp only [ControlPlan.opens_iff, ControlPlan.closes_iff, ← h]
  constructor
  · split_ifs at hlen ⊢ <;> omega
  · intro ho
    rw [if_pos ho]
    exact Nat.le_max_right _ _

/-- Where a shape opens, **its flags are cells that emission may name**. -/
theorem flags_allowed (hr : e.Room P N depth)
    (hdeep : ((ControlPlan.of code).depthAt code.length).2 ≤ depth) {i : Instruction}
    (hi : code[k]? = some i) (hs : e.step (.of code) code k i st = .ok st')
    (h : st.frames.length = ((ControlPlan.of code).depthAt k).1) {X : Shape}
    (hX : X ∈ (ControlPlan.of code).shapes) (hk : X.first = k) :
    P (e.nextFlag st) ∧ P (e.nextFlag st + 1) := by
  have hroom : st.frames.length + 1 ≤ depth :=
    ((depth_step hi hs h).2 ⟨X, hX, hk⟩).trans
      ((ControlPlan.deepest_mono _ (List.getElem?_eq_some_iff.mp hi).1).trans hdeep)
  unfold Emitter.nextFlag
  exact ⟨hr.flags _ (by omega) (by omega), hr.flags _ (by omega) (by omega)⟩

theorem Emitter.Room.within_setBool (hr : e.Room P N depth) {cond : Operand}
    (hc : cond.Below e.scratch.base) {flag : Nat} (hf : P flag) :
    (Code.setBool e.scratch flag cond).Within P N :=
  Code.within_setBool hr.scratch (fun a ha => hr.cells a (hc.address a ha)) hf

variable {S : List Shape} {K : List (Nat × Code)} {c : Code}

namespace Written

section Step
variable {cond : Operand} {l : LoopShape} {b : BranchShape}
  (hr : e.Room P N depth) (hp : (ControlPlan.of code).Nests code)
  (hlen : st'.frames.length = ((ControlPlan.of code).depthAt (k + 1)).1)
include hr hp hlen

/-- **A loop opens**: its bracket stands behind the code that sets its flag. -/
theorem openLoop (h : Written e P N (.of code) k st S K c)
    (hl : .loop l ∈ (ControlPlan.of code).shapes) (hk : l.test = k) {test : List Instruction}
    (ht : ∀ i ∈ test, i.Below e.scratch.base) (hc : cond.Below e.scratch.base)
    (hf : P (e.nextFlag st)) (hs : st' = e.openLoop cond test st) :
    Written e P N (.of code) (k + 1) st' (.loop l :: S)
      ((e.nextFlag st, c ++ .setBool e.scratch (e.nextFlag st) cond) :: K) .skip := by
  subst hs
  exact {
    opened := h.opened.push hp hl hk
    stacked := .loop hf ht hc ⟨h.within, hr.within_setBool hc hf⟩
      (h.stacked.succ (h.opened.turn_ne_of_first hp hl hk))
    writer := by
      simp only [Emitter.openLoop, Emission.write, h.writer]
      rfl
    within := trivial
    depth := hlen }

/-- **A loop closes**: what was written since it opened, with its test written again, is its
body. -/
theorem closeLoop (h : Written e P N (.of code) k st S K c)
    (hl : .loop l ∈ (ControlPlan.of code).shapes) (hk : l.back = k)
    (hs : e.closeLoop k st = .ok st') :
    ∃ S' K' c', Written e P N (.of code) (k + 1) st' S' K' c' := by
  obtain ⟨flag, test, cond, rest, hframes, rfl⟩ := Emitter.closeLoop_eq_ok hs
  obtain ⟨R, rfl⟩ := h.opened.top hp hl (Or.inl hk)
  have hstack := h.stacked
  rw [hframes] at hstack
  cases hstack with
  | @loop _ _ _ _ before _ _ K hf ht hc hb hrest =>
  obtain ⟨d, hd, hw⟩ := exists_foldl_writePlain { st with frames := rest } hr ht h.within
    (h.stacked.pointer_level hr) h.writer
  have hset := hr.within_setBool hc hf
  have hloop : (before ++ Code.loop flag (c ++ d
      ++ (Code.clear flag ++ Code.setBool e.scratch flag cond))).Within P N :=
    ⟨hb, hf, ⟨h.within, hd⟩, Code.within_clear.mpr hf, hset⟩
  refine ⟨R, K, _, h.opened.pop hp hk, ?_, ?_, hloop, hlen⟩
  · have : (test.foldl e.writePlain { st with frames := rest }).frames = rest :=
      Emitter.frames_foldl_writePlain _ _
    simp only [Emission.write, this]
    exact hrest.succ fun Y hY => h.opened.turn_ne_of_last hp hl hk Y (by simp [hY])
  · simp only [Emission.write, hw]
    rfl

/-- **A branch opens** its first bracket behind the code that sets both flags. -/
theorem openBranch (h : Written e P N (.of code) k st S K c)
    (hb : .branch b ∈ (ControlPlan.of code).shapes) (hk : b.test = k)
    (hc : cond.Below e.scratch.base) (hf : P (e.nextFlag st)) (ho : P (e.nextFlag st + 1))
    (hs : st' = e.openBranch cond st) :
    ∃ S' K' c', Written e P N (.of code) (k + 1) st' S' K' c' := by
  subst hs
  have hlt : k + 1 ≤ b.turn := by
    have := BranchShape.Valid.test_lt (hp.valid _ hb)
    omega
  have hfront : (c ++ (.add (e.nextFlag st + 1) 1
      ++ .setBool e.scratch (e.nextFlag st) cond)).Within P N :=
    ⟨h.within, ho, hr.within_setBool hc hf⟩
  have hstack := Stacked.branch (k := k + 1) (b := b) hf ho hfront
    (h.stacked.succ (h.opened.turn_ne_of_first hp hb hk))
  rw [if_pos hlt] at hstack
  refine ⟨_, _, .sub (e.nextFlag st + 1) 1, h.opened.push hp hb hk, hstack, ?_, ho, hlen⟩
  simp only [Emitter.openBranch, Emission.write, h.writer]
  rfl

omit hr in
/-- **A branch turns**: what was written since it opened is its first side, and its other bracket
opens. -/
theorem switchBranch (h : Written e P N (.of code) k st S K c)
    (hb : .branch b ∈ (ControlPlan.of code).shapes) (hk : b.turn = k)
    (hs : Emitter.switchBranch k st = .ok st') :
    ∃ S' K' c', Written e P N (.of code) (k + 1) st' S' K' c' := by
  obtain ⟨first, other, rest, hframes, rfl⟩ := Emitter.switchBranch_eq_ok hs
  obtain ⟨R, rfl⟩ := h.opened.top hp hb (Or.inr (congrArg some hk))
  have hstack := h.stacked
  rw [hframes] at hstack
  have hwriter := h.writer
  cases hstack with
  | @branch _ _ _ before _ _ K hf ho hbefore hrest =>
  have hfront : (before ++ Code.loop first (c ++ Code.clear first)).Within P N :=
    ⟨hbefore, hf, h.within, Code.within_clear.mpr hf⟩
  have hnext := Stacked.branch (k := k + 1) (b := b) hf ho hfront
    (hrest.succ (h.opened.turn_ne_of_turn hp (congrArg some hk)))
  rw [if_neg (by omega), ← hframes] at hnext
  rw [if_pos hk.ge] at hwriter
  refine ⟨_, _, .sub other 1, h.opened.turn hp hb (congrArg some hk), hnext, ?_, ho, hlen⟩
  simp only [Emission.write, hwriter]
  rfl

omit hr in
/-- **A branch closes**: what was written since it turned is its other side. -/
theorem closeBranch (h : Written e P N (.of code) k st S K c)
    (hb : .branch b ∈ (ControlPlan.of code).shapes) (hk : b.stop = k)
    (hs : Emitter.closeBranch k st = .ok st') :
    ∃ S' K' c', Written e P N (.of code) (k + 1) st' S' K' c' := by
  obtain ⟨first, other, rest, hframes, rfl⟩ := Emitter.closeBranch_eq_ok hs
  obtain ⟨R, rfl⟩ := h.opened.top hp hb (Or.inl hk)
  have hstack := h.stacked
  rw [hframes] at hstack
  have hwriter := h.writer
  have hlt : ¬ k ≤ b.turn := by
    have := BranchShape.Valid.turn_lt (hp.valid _ hb)
    omega
  cases hstack with
  | @branch _ _ _ before _ _ K hf ho hbefore hrest =>
  rw [if_neg hlt] at hwriter
  have hloop : (before ++ Code.loop other c).Within P N := ⟨hbefore, ho, h.within⟩
  have hnext := hrest.succ fun Y hY => h.opened.turn_ne_of_last hp hb hk Y (by simp [hY])
  refine ⟨R, K, _, h.opened.pop hp hk, hnext, ?_, hloop, hlen⟩
  simp only [Emission.write, hwriter]
  rfl

omit hp in
/-- Where **nothing opens, turns or closes**, at most the code of one instruction is written. -/
theorem quiet (h : Written e P N (.of code) k st S K c) (hq : (ControlPlan.of code).Quiet k)
    {i : Instruction} (hi : i.Below e.scratch.base) (hs : st' = st ∨ st' = e.writePlain st i) :
    ∃ c', Written e P N (.of code) (k + 1) st' S K c' := by
  have hstay := h.opened.stay (fun X hX => (hq X hX).1) fun X hX => (hq X hX).2.1
  have hstack := h.stacked.succ fun X hX => (hq X ((h.opened.mem X).mp hX).1).2.2
  rcases hs with rfl | rfl
  · exact ⟨c, hstay, hstack, h.writer, h.within, hlen⟩
  · have hpointer : P st.writer.pointer := by
      rw [h.writer, (opsOf_write h.within _).2]
      exact Code.last_within h.within (h.stacked.pointer_level hr)
    refine ⟨c ++ (e.plain st.writer.pointer i).1, hstay, hstack, ?_,
      ⟨h.within, hr.within_plain hpointer hi⟩, hlen⟩
    simp only [Emitter.writePlain, Emission.write, h.writer]
    rfl

end Step

/-- **One step** writes code behind the open brackets, or opens, turns or closes one. -/
theorem step (hr : e.Room P N depth) (hp : (ControlPlan.of code).Nests code)
    (hcode : ∀ i ∈ code, i.Below e.scratch.base)
    (hdepth : ((ControlPlan.of code).depthAt code.length).2 ≤ depth) {i : Instruction}
    (hi : code[k]? = some i) (hs : e.step (.of code) code k i st = .ok st')
    (h : Written e P N (.of code) k st S K c) :
    ∃ S' K' c', Written e P N (.of code) (k + 1) st' S' K' c' := by
  have hib : i.Below e.scratch.base := hcode i (List.mem_of_getElem? hi)
  have hlen := (depth_step hi hs h.depth).1
  have hflags := fun X => flags_allowed (X := X) hr hdepth hi hs h.depth
  rcases step_cases hi e st with ⟨l, cond, out, hl, hk, rfl, hs'⟩ | ⟨l, hl, hk, hs'⟩ |
    ⟨b, cond, label, hb, hk, rfl, hs'⟩ | ⟨b, hb, hk, hs'⟩ | ⟨b, hb, hk, hs'⟩ | ⟨hq, hs'⟩
  · have hc := hib.operands cond (by simp [Instruction.operands])
    have ht : ∀ j ∈ (code.take l.test).drop (l.head + 1), j.Below e.scratch.base := fun j hj =>
      hcode j (List.mem_of_mem_take (List.mem_of_mem_drop hj))
    exact ⟨_, _, _, h.openLoop hr hp hlen hl hk ht hc (hflags _ hl hk).1
      (Except.ok.inj (hs.symm.trans hs'))⟩
  · exact h.closeLoop hr hp hlen hl hk (hs' ▸ hs)
  · have hc := hib.operands cond (by simp [Instruction.operands])
    have hf := hflags _ hb hk
    exact h.openBranch hr hp hlen hb hk hc hf.1 hf.2 (Except.ok.inj (hs.symm.trans hs'))
  · exact h.switchBranch hp hlen hb hk (hs' ▸ hs)
  · exact h.closeBranch hp hlen hb hk (hs' ▸ hs)
  · obtain ⟨c', h'⟩ := h.quiet hr hlen hq hib
      (hs'.imp (fun hs' => Except.ok.inj (hs.symm.trans hs')) fun hs' =>
        Except.ok.inj (hs.symm.trans hs'))
    exact ⟨S, K, c', h'⟩

end Written

theorem Written.newline (h : Written e P N plan k st S K c) :
    Written e P N plan k (st.write (.text "\n")) S K (c ++ .text "\n") where
  opened := h.opened
  stacked := h.stacked
  writer := by
    simp only [Emission.write, h.writer]
    rfl
  within := ⟨h.within, Code.within_newline⟩
  depth := h.depth

/-- **A successful emission writes code** without open ends. -/
theorem exists_code_of_run {t : Emission} (hr : e.Room P N depth)
    (hcode : ∀ i ∈ code, i.Below e.scratch.base)
    (hdepth : ((ControlPlan.of code).depthAt code.length).2 ≤ depth)
    (h : e.run (.of code) code code.zipIdx .start = (.ok (), t)) :
    ∃ c : Code, c.Within P N ∧ t.writer = c.write (.on 0) := by
  have hp := nests_of_run h
  have hstart : Written e P N (.of code) 0 .start [] [] .skip :=
    ⟨Opened.zero _, .nil, rfl, trivial, rfl⟩
  obtain ⟨⟨S, K, c, hw⟩, hf⟩ := Emitter.run_invariant
    (I := fun k st => ∃ S K c, Written e P N (.of code) k st S K c)
    (fun k i st st' hi ⟨S, K, c, hw⟩ hs => by
      obtain ⟨S', K', c', hw'⟩ := hw.step hr hp hcode hdepth hi hs
      exact ⟨S', K', _, hw'.newline⟩) ⟨_, _, _, hstart⟩ h
  have hstack := hw.stacked
  rw [hf] at hstack
  cases hstack with
  | nil => exact ⟨c, hw.within, hw.writer⟩

end Written

/-! ### Programs -/

/-- The scratch block of a program. -/
def Program.scratch (p : Program) (reserved : Nat) : Scratch := ⟨max p.maxAddress reserved⟩

/-- The cells that the code of a program takes. -/
def Program.cellsNeeded (p : Program) (reserved : Nat) : Nat :=
  (p.scratch reserved).base + scratchCells
    + 2 * (ControlPlan.of p.instructions).depth p.instructions.length

theorem Program.guard_lt_cellsNeeded (p : Program) (reserved : Nat) :
    (p.scratch reserved).guard < p.cellsNeeded reserved := by
  unfold cellsNeeded scratchCells Scratch.guard
  omega

/-- The emitter of a program that **keeps cells reserved**. -/
def Program.emitterAbove (p : Program) (library : Library) (w : CellWidth) (reserved : Nat) :
    Emitter :=
  p.emitter library w (p.scratch reserved) ((p.scratch reserved).base + scratchCells)

/-- A program is emitted by an emitter **if it fits and its instructions are written without a
fault**. -/
theorem Program.emitWith_eq_ok {p : Program} {plan : ControlPlan} {e : Emitter} {needed size : Nat}
    {text : String} {ws : List String} :
    p.emitWith plan e needed size = (.ok text, ws) ↔ needed ≤ size ∧
      ∃ t : Emission, e.run plan p.instructions p.instructions.zipIdx .start = (.ok (), t) ∧
        t.writer.text = text ∧ t.warnings = ws := by
  unfold Program.emitWith
  split_ifs with hn
  · simp [Nat.not_le.mpr hn]
  · simp only [Nat.not_lt.mp hn, true_and]
    obtain ⟨result, t⟩ := e.run plan p.instructions p.instructions.zipIdx .start
    cases result with
    | error f => simp [Except.map]
    | ok u =>
      simp only [Except.map, Prod.mk.injEq, Except.ok.injEq, true_and]
      exact ⟨fun h => ⟨t, rfl, h.1, h.2⟩, fun ⟨_, rfl, h⟩ => h⟩

theorem Program.emit_eq_ok {p : Program} {library : Library} {w : CellWidth} {size reserved : Nat}
    {text : String} {ws : List String} :
    p.emit library w size reserved = (.ok text, ws) ↔
      p.cellsNeeded reserved ≤ size ∧
      ∃ t : Emission, (p.emitterAbove library w reserved).run (.of p.instructions) p.instructions
        p.instructions.zipIdx .start = (.ok (), t) ∧ t.writer.text = text ∧ t.warnings = ws :=
  Program.emitWith_eq_ok

theorem Program.guard_lt_of_emit {p : Program} {library : Library} {w : CellWidth}
    {size reserved : Nat} {text : String} {ws : List String}
    (h : p.emit library w size reserved = (.ok text, ws)) : (p.scratch reserved).guard < size :=
  (p.guard_lt_cellsNeeded reserved).trans_le (Program.emit_eq_ok.mp h).1

/-- The cells that the code of a program may name. -/
theorem Program.room (p : Program) {library : Library} (hl : library.BuiltIn) (w : CellWidth)
    {size reserved depth : Nat}
    (h : (p.scratch reserved).base + scratchCells + 2 * depth ≤ size) :
    (p.emitterAbove library w reserved).Room (fun a => a < size ∧ a ≠ (p.scratch reserved).guard)
      (fun a => a + 1 = (p.scratch reserved).guard) depth := by
  have hs : (p.emitterAbove library w reserved).scratch = p.scratch reserved := rfl
  have hf : (p.emitterAbove library w reserved).flags
    = (p.scratch reserved).base + scratchCells := rfl
  unfold Scratch.guard
  unfold scratchCells at h
  refine ⟨hl, fun k hk h1 => ?_, rfl, fun a ha => ?_, fun a h₁ h₂ => ?_⟩
  · unfold scratchCells at hk
    rw [hs]
    omega
  · rw [hs] at ha
    omega
  · rw [hf] at h₁ h₂
    unfold scratchCells at h₁ h₂
    omega

/-- **The text of a program** is that of code without open ends, which names no guard cell. -/
theorem Program.exists_code {p : Program} (hp : ∀ i ∈ p.instructions, i.Proper) {library : Library}
    (hl : library.BuiltIn) {w : CellWidth} {size reserved : Nat} {text : String} {ws : List String}
    (h : p.emit library w size reserved = (.ok text, ws)) :
    ∃ c : Code, c.Within (fun a => a < size ∧ a ≠ (p.scratch reserved).guard)
      (fun a => a + 1 = (p.scratch reserved).guard) ∧ text = c.textFrom 0 := by
  obtain ⟨hn, t, ht, rfl, -⟩ := Program.emit_eq_ok.mp h
  have hcode : ∀ i ∈ p.instructions, i.Below (p.scratch reserved).base := fun i hi =>
    Instruction.below_of_le (hp i hi) ((Program.maxAddress_le hi).trans (Nat.le_max_left _ _))
  obtain ⟨c, hc, hw⟩ := exists_code_of_run (p.room hl w hn) hcode (Nat.le_refl _) ht
  exact ⟨c, hc, by rw [hw]; rfl⟩

end TapeCompiler
