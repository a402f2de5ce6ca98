import TapeCompiler.Proofs.Cells.Footprint
import TapeCompiler.Proofs.Emission.Named
import TapeCompiler.Proofs.Emission.Plain
import TapeCompiler.Proofs.Passes.Folding
import TapeCompiler.Proofs.Tape.Resting

/-! # The footprint of emitted code

The code of an instruction that is no part of a shape is **exact** and stays inside its footprint.
Run on any tape at rest it ends, with the pointer where the writer says and the scratch block zero
(`Emitter.Straight`): the cells are those the instruction leaves, only cells it lists as written
have changed, and what it does depends on the input and on the cells it lists.

`Instruction.Leaves` spells the effect out for the instructions that store, copy, count and
print. -/

namespace TapeCompiler

variable {w : CellWidth}

/-! ### What is left -/

/-- The amount of a change **as an integer**. -/
def Change.amount : Change → Int
  | increment => 1
  | decrement => -1
  | addBy n => n.toInt
  | subtractBy n => -n.toInt

theorem Change.val_delta (c : Change) : ((w.literal c.delta).val : Int) = c.amount % w.modulus := by
  rw [CellWidth.val_literal]
  cases c with
  | increment | decrement | addBy => rfl
  | subtractBy n =>
    show (-n).toInt % _ = -n.toInt % _
    rw [Int64.toInt_neg, CellWidth.bmod_emod_modulus]

/-- The numbers that an operand prints: **every cell of a value**; of a variable the first, and
each later one that is not zero. -/
def Snapshot.shown (w : CellWidth) (t : Snapshot) : Operand → List Nat
  | .value v => v.cells.map w.wrap
  | .cells a len => t.peek a :: ((List.range' (a + 1) (len - 1)).map t.peek).filter (· ≠ 0)

/-- What an instruction **leaves behind**, and adds to the output. -/
def Instruction.Leaves (w : CellWidth) (t u : Snapshot) (added : List Nat) : Instruction → Prop
  | .setValue a v => (List.range' a v.size).map u.peek = v.cells.map w.wrap
  | .copyValue target source => u.peek target = t.peek source
  | .update a c => (u.peek a : Int) = (t.peek a + c.amount) % w.modulus
  | .print ops => added = ops.flatMap (t.shown w)
  | _ => True

namespace Snapshot.AtRest

variable {s : Scratch} {t : Snapshot}

theorem shown_store (h : t.AtRest w s) (o : Operand) :
    ((t.store w).shown o).map Fin.val = t.shown w o := by
  cases o with
  | value v => simp [Store.shown, shown, CellWidth.literal, Function.comp_def]
  | cells a len =>
    have hcell : ∀ b, ((t.store w).cells b).val = t.peek b := h.val_store
    have hzero : ∀ b, (t.store w).cells b = 0 ↔ t.peek b = 0 := fun b => by
      rw [← hcell b]
      exact Fin.ext_iff
    simp [Store.shown, shown, List.filter_map, Function.comp_def, hcell, hzero]

end Snapshot.AtRest

theorem Store.cells_setAll_map (σ : Store w) (a : Nat) (vs : List w.Cell) :
    (List.range' a vs.length).map (σ.setAll a vs).cells = vs := by
  induction vs generalizing σ a with
  | nil => rfl
  | cons v rest ih =>
    rw [List.length_cons, List.range'_succ, List.map_cons, cells_setAll_cons, setAll, ih]

/-- **What the effect of an instruction shows.** -/
theorem Instruction.leaves_of_store {l : Library} {s : Scratch} {t u : Snapshot}
    (ht : t.AtRest w s) (hu : u.AtRest w s) {i : Instruction}
    (h : u.store w = i.effect l (t.store w)) {added : List Nat}
    (hadded : u.output.toList = t.output.toList ++ added) : i.Leaves w t u added := by
  have hcell : ∀ a, u.peek a = ((i.effect l (t.store w)).cells a).val := fun a => by
    rw [← hu.val_store, h]
  cases i with
  | setValue a v =>
    have hall := (t.store w).cells_setAll_map a (v.cells.map w.literal)
    rw [List.length_map] at hall
    have hpeek : u.peek = Fin.val ∘ ((t.store w).setAll a (v.cells.map w.literal)).cells :=
      funext hcell
    show (List.range' a v.cells.length).map u.peek = _
    rw [hpeek, ← List.map_map, hall, List.map_map]
    rfl
  | copyValue target source =>
    show u.peek target = t.peek source
    rw [hcell, ← ht.val_store source]
    exact congrArg Fin.val (Store.cells_set_self _ _ _)
  | update a c =>
    have hset : u.peek a = ((t.store w).cells a + w.literal c.delta).val :=
      (hcell a).trans (congrArg Fin.val (Store.cells_set_self _ _ _))
    show (u.peek a : Int) = _
    rw [hset, Fin.val_add, ht.val_store, Int.natCast_mod, Nat.cast_add, c.val_delta]
    exact Int.add_emod_emod ..
  | print ops =>
    have hout : u.output.toList = t.output.toList ++ (ops.flatMap (t.store w).shown).map Fin.val :=
      congrArg Store.output h
    show added = ops.flatMap (t.shown w)
    rw [hadded, List.append_cancel_left_eq] at hout
    rw [hout, List.map_flatMap]
    exact List.flatMap_congr fun o _ => ht.shown_store o
  | _ => trivial

/-! ### Straight-line code -/

namespace Emitter

variable {e : Emitter}

/-- **What a text does that is emitted for an instruction**, with the pointer taken from one cell
to another, from every tape at rest. -/
structure Straight (e : Emitter) (i : Instruction) (text : String) (p q : Nat) : Prop where
  /-- The text ends; it is exact and changes only what the instruction lists as written. -/
  ends : ∀ (size limit : Nat) (mode : PointerMode) (t : Snapshot), t.AtRest e.width e.scratch →
    t.pointer = p → ∃ u added, Executes ⟨size, e.width, limit, mode⟩ text t u ∧ u.pointer = q ∧
      t.ChangesOnly e.width e.scratch i.writes u ∧
      u.store e.width = i.effect e.library (t.store e.width) ∧
      u.output.toList = t.output.toList ++ added ∧ i.Leaves e.width t u added
  /-- Nothing but the input and the cells the instruction lists makes a difference. -/
  depends : ∀ (size limit : Nat) (mode : PointerMode) (t t' u u' : Snapshot),
    t.AtRest e.width e.scratch → t'.AtRest e.width e.scratch → t.pointer = p → t'.pointer = p →
      t'.input = t.input → (∀ a ∈ i.reads ++ i.writes, t'.peek a = t.peek a) →
      Executes ⟨size, e.width, limit, mode⟩ text t u →
      Executes ⟨size, e.width, limit, mode⟩ text t' u' →
      u'.input = u.input ∧ (∀ a ∈ i.writes, u'.peek a = u.peek a) ∧
        ∃ added, u.output.toList = t.output.toList ++ added ∧
          u'.output.toList = t'.output.toList ++ added

theorem executes_plain (hl : e.library.Known) {i : Instruction} (hi : i.Below e.scratch.base)
    {t : Snapshot} (h : t.AtRest e.width e.scratch) (size limit : Nat) (mode : PointerMode) :
    ∃ u, Executes ⟨size, e.width, limit, mode⟩ ((e.plain t.pointer i).1.textFrom t.pointer) t u ∧
      u.pointer = ((e.plain t.pointer i).1.write (.on t.pointer)).pointer ∧
      t.ChangesOnly e.width e.scratch i.writes u ∧
      u.store e.width = i.effect e.library (t.store e.width) := by
  have hroom := h.room
  have hwithin : (e.plain t.pointer i).1.Within (· < t.tape.size) (· = e.scratch.neg) :=
    within_plain h.allowed (N := (· = e.scratch.neg)) rfl (fun a ha => by omega) hl.builtIn
      h.inside hi
  exact Code.executes_of_runs h hwithin (runs_plain hl h.clean t.pointer hi) i.writes hi.writes
    (fun a ha => i.cells_effect _ _ ha) size limit mode

theorem straight_plain (hl : e.library.Known) {i : Instruction} (hi : i.Below e.scratch.base)
    (p : Nat) : e.Straight i ((e.plain p i).1.textFrom p) p
      ((e.plain p i).1.write (.on p)).pointer where
  ends := by
    rintro size limit mode t h rfl
    obtain ⟨u, hexec, hpointer, hkeep, hstore⟩ := executes_plain hl hi h size limit mode
    obtain ⟨-, -, added, hout, -⟩ := Instruction.effect_agree (l := e.library) hi.proper
      (σ := t.store e.width) (fun _ _ => rfl) rfl
    have hadded : u.output.toList = t.output.toList ++ added :=
      (congrArg Store.output hstore).trans hout
    exact ⟨u, added, hexec, hpointer, hkeep, hstore, hadded,
      Instruction.leaves_of_store h hkeep.rest hstore hadded⟩
  depends := by
    rintro size limit mode t t' u u' h h' rfl hp hinput hcells hu hu'
    obtain ⟨v, hv, -, hkeep, hstore⟩ := executes_plain hl hi h size limit mode
    obtain ⟨v', hv', -, hkeep', hstore'⟩ := executes_plain hl hi h' size limit mode
    rw [hp] at hv'
    obtain rfl := hu.unique hv
    obtain rfl := hu'.unique hv'
    obtain ⟨hagree, hin, added, hout, hout'⟩ := Instruction.effect_agree (l := e.library) hi.proper
      (σ := t.store e.width) (τ := t'.store e.width)
      (fun a ha => congrArg e.width.cell (hcells a ha)) hinput
    refine ⟨?_, fun a ha => ?_, added, (congrArg Store.output hstore).trans hout,
      (congrArg Store.output hstore').trans hout'⟩
    · exact (congrArg Store.input hstore').trans (hin.trans (congrArg Store.input hstore).symm)
    · rw [← hkeep'.rest.val_store, ← hkeep.rest.val_store, hstore, hstore',
        hagree a (List.mem_append_right _ ha)]

/-- **Straight-line emission is exact and stays inside its footprint.** -/
theorem straight_step (hl : e.library = .standard ∨ e.library = .empty) {plan : ControlPlan}
    {k : Nat} {i : Instruction} (hrole : plan.role k i = .plain) (hi : i.Below e.scratch.base)
    (code : List Instruction) (st : Emission) :
    ∃ text q warnings, e.step plan code k i st =
        .ok ⟨⟨st.writer.text ++ text, q⟩, st.frames, st.warnings ++ warnings⟩ ∧
      e.Straight i text st.writer.pointer q := by
  refine ⟨_, _, (e.plain st.writer.pointer i).2, ?_,
    straight_plain (Library.known_of_eq hl) hi st.writer.pointer⟩
  have hstep : e.step plan code k i st = .ok (e.writePlain st i) := by
    unfold step
    rw [hrole]
  have hwrite := Code.write_eq (e.plain st.writer.pointer i).1 st.writer
  rw [hstep, ← hwrite]
  rfl

/-- 300 taken off a cell of 8 bits. -/
theorem straight_step_subtractBy :
    ∃ text u st, Emitter.step ⟨.standard, .bits8, ⟨1⟩, 13, [], []⟩ (.of []) [] 0
        (.update 0 (.subtractBy 300)) .start = .ok st ∧ st.writer = ⟨text, u.pointer⟩ ∧
      Executes ⟨13, .bits8, 1, .strict⟩ text ⟨#[5] ++ Array.replicate 12 0, 0, [], #[], 0⟩ u ∧
      u.peek 0 = 217 := by
  obtain ⟨text, q, ws, hstep, hrun, -⟩ := straight_step (e := ⟨.standard, .bits8, ⟨1⟩, 13, [], []⟩)
    (Or.inl rfl) (show (ControlPlan.of []).role 0 (.update 0 (.subtractBy 300)) = .plain from rfl)
    ⟨by simp [Instruction.operands], by simp [Instruction.readsBeside],
      by simp [Instruction.writes]⟩ [] .start
  obtain ⟨u, added, hu, rfl, -, -, -, hleaves⟩ := hrun 13 1 .strict
    ⟨#[5] ++ Array.replicate 12 0, 0, [], #[], 0⟩ (by decide) rfl
  refine ⟨text, u, _, hstep, by simp [Emission.start, Writer.on], hu, ?_⟩
  exact Int.ofNat_inj.mp (hleaves.trans (by decide))

end Emitter

end TapeCompiler
