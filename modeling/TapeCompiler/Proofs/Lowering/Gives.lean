import TapeCompiler.Lowering.Statement
import TapeCompiler.Proofs.Memory.Requests

/-! # What a step of lowering gives

`Gives m s a t` says that a step of lowering, made in a session, succeeds with a result and leaves
another session. Steps in a row are taken apart by `gives_bind`; each request of a session has its
own law, which says what it changes. `Flawless m s` says that the step does not fail by a defect,
whatever else becomes of it. -/

namespace TapeCompiler

/-- The session with an instruction appended. -/
def Session.add (s : Session) (i : Instruction) : Session :=
  { s with program := { s.program with instructions := s.program.instructions ++ [i] } }

/-- The session with another planner. -/
def Session.withPlanner (s : Session) (p : Planner) : Session := { s with planner := p }

/-- The session **one request later**. -/
def Session.asked (s : Session) : Session := { s with schedule := fun n => s.schedule (n + 1) }

/-- The session with another planner **whose moves are applied** to what was lowered. -/
def Session.relocated (s : Session) (p : Planner) : Session :=
  { s.asked with planner := p.takeMoves.2, program := s.program.relocate p.moves }

/-- The session with another planner after a block moved to a larger one. -/
def Session.grown (s : Session) (p : Planner) (moved : Relocation) (size : Nat) : Session :=
  { s.asked with planner := p.takeMoves.2, program := s.program.grow moved size p.moves }

namespace Lowering

variable {α β : Type} {s t u : Session} {a : α} {b : β} {name : String}

/-- A step of lowering **succeeds with a result** and leaves a session. -/
def Gives (m : Lowering α) (s : Session) (a : α) (t : Session) : Prop := m.run.run s = (.ok a, t)

/-! ### Steps in a row -/

@[simp] theorem gives_pure {x : α} : Gives (pure a) s x t ↔ x = a ∧ s = t := by
  constructor
  · rintro ⟨⟩; exact ⟨rfl, rfl⟩
  · rintro ⟨rfl, rfl⟩; rfl

theorem run_bind (m : Lowering α) (f : α → Lowering β) (s : Session) :
    (m >>= f).run.run s = match m.run.run s with
      | (.ok a, t) => (f a).run.run t
      | (.error e, t) => (.error e, t) := by
  show (match m.run.run s with | (r, t) => (ExceptT.bindCont f r).run t) = _
  cases m.run.run s with
  | mk r t => cases r <;> rfl

@[simp] theorem gives_bind {m : Lowering α} {f : α → Lowering β} :
    Gives (m >>= f) s b u ↔ ∃ a t, Gives m s a t ∧ Gives (f a) t b u := by
  unfold Gives
  rw [run_bind]
  constructor
  · intro h
    cases hm : m.run.run s with
    | mk r t =>
      rw [hm] at h
      cases r with
      | error e => cases h
      | ok a => exact ⟨a, t, rfl, h⟩
  · rintro ⟨a, t, hm, h⟩
    rw [hm]
    exact h

@[simp] theorem gives_map {m : Lowering α} {f : α → β} :
    Gives (f <$> m) s b t ↔ ∃ a, Gives m s a t ∧ b = f a := by
  rw [← bind_pure_comp, gives_bind]
  constructor
  · rintro ⟨a, u, h, h'⟩
    obtain ⟨rfl, rfl⟩ := gives_pure.mp h'
    exact ⟨a, h, rfl⟩
  · rintro ⟨a, h, rfl⟩
    exact ⟨a, t, h, gives_pure.mpr ⟨rfl, rfl⟩⟩

@[simp] theorem gives_throw {f : Fault} : ¬ Gives (throw f : Lowering α) s a t := by
  rintro ⟨⟩

@[simp] theorem gives_get {x : Session} : Gives get s x t ↔ x = s ∧ s = t := by
  constructor
  · rintro ⟨⟩; exact ⟨rfl, rfl⟩
  · rintro ⟨rfl, rfl⟩; rfl

@[simp] theorem gives_modify {f : Session → Session} {x : Unit} :
    Gives (modify f) s x t ↔ t = f s := by
  constructor
  · rintro ⟨⟩; rfl
  · rintro rfl; rfl

@[simp] theorem gives_modifyGet {f : Session → α × Session} :
    Gives (modifyGet f) s a t ↔ f s = (a, t) := by
  show (_, _) = _ ↔ _
  cases f s
  simp

@[simp] theorem gives_discard {m : Lowering α} {x : Unit} :
    Gives (discard m) s x t ↔ ∃ a, Gives m s a t := by
  rw [show discard m = (fun _ => ()) <$> m from rfl, gives_map]
  simp

/-! ### Requests -/

@[simp] theorem gives_warn {message : String} {x : Unit} :
    Gives (warn message) s x t ↔ t = { s with warnings := s.warnings ++ [message] } := by
  simp [warn]

@[simp] theorem gives_nextLabel {n : Nat} :
    Gives nextLabel s n t ↔ n = s.labels ∧ t = { s with labels := s.labels + 1 } := by
  simp [nextLabel, eq_comm]

@[simp] theorem gives_nextFunction {n : Nat} :
    Gives nextFunction s n t ↔
      n = s.functions + 1 ∧ t = { s with functions := s.functions + 1 } := by
  simp [nextFunction, eq_comm]

@[simp] theorem gives_emit {i : Instruction} {x : Unit} : Gives (emit i) s x t ↔ t = s.add i := by
  simp [emit, Session.add]

@[simp] theorem gives_block? {o : Option Block} :
    Gives (block? name) s o t ↔ o = s.planner.visible? name ∧ s = t := by
  simp [block?, and_comm]

@[simp] theorem gives_scope {tag : String} :
    Gives scope s tag t ↔ tag = s.planner.scope ∧ s = t := by
  simp [scope, and_comm]

@[simp] theorem gives_address {n : Nat} : Gives (address name) s n t ↔
    (∃ b, s.planner.visible? name = some b ∧ n = b.address) ∧ s = t := by
  unfold address
  simp only [gives_bind, gives_block?]
  cases s.planner.visible? name <;> simp

/-- A request is made **at the next time of the schedule**. -/
@[simp] theorem gives_request {f : Planner → Int → Except Fault α × Planner} :
    Gives (request f) s a t ↔
      ∃ p, f s.planner (s.schedule 0) = (.ok a, p) ∧ t = s.asked.withPlanner p := by
  unfold request Session.withPlanner Session.asked
  simp only [gives_bind, gives_get, gives_modify]
  cases h : f s.planner (s.schedule 0) with
  | mk r p => cases r <;> simp [h, request.liftExcept, eq_comm]

@[simp] theorem gives_allocate {size n : Nat} : Gives (allocate name size) s n t ↔
    ∃ p, s.planner.allocate name size (s.schedule 0) = (.ok n, p) ∧ t = s.relocated p := by
  unfold allocate takeMoves Session.relocated
  simp only [gives_bind, gives_request, gives_modifyGet, gives_modify, gives_pure]
  constructor
  · rintro ⟨a, _, ⟨p, hp, rfl⟩, moves, _, hm, x, _, rfl, rfl, rfl⟩
    cases hm
    exact ⟨p, hp, rfl⟩
  · rintro ⟨p, hp, rfl⟩
    exact ⟨n, _, ⟨p, hp, rfl⟩, _, _, rfl, (), _, rfl, rfl, rfl⟩

theorem resize_eq_none {p q : Planner} {size : Nat} {idle : Int}
    (h : p.resize name size idle = (.ok none, q)) {b : Block} (hb : p.visible? name = some b) :
    size ≤ b.size ∧ q = p := by
  rcases p.resize_cases name size idle with
    ⟨hsize, heq⟩ | ⟨old, -, -, ⟨a, r, -, heq⟩ | ⟨f, r, -, heq⟩⟩ <;> rw [h] at heq <;> cases heq
  exact ⟨hsize b hb, rfl⟩

/-- **Making room** for a name: it gets a block, keeps the one it has, or moves to a larger one. -/
theorem gives_ensureCapacity {size n : Nat} (h : Gives (ensureCapacity name size) s n t) :
    (s.planner.visible? name = none ∧ Gives (allocate name size) s n t) ∨
    (∃ b, s.planner.visible? name = some b ∧ size ≤ b.size ∧ n = b.address ∧ s.asked = t) ∨
    (∃ moved p b, s.planner.resize name size (s.schedule 0) = (.ok (some moved), p) ∧
      t = s.grown p moved size ∧ t.planner.visible? name = some b ∧ n = b.address) := by
  unfold ensureCapacity at h
  simp only [gives_bind, gives_block?] at h
  obtain ⟨_, _, ⟨rfl, rfl⟩, h⟩ := h
  split at h
  · next hn => exact Or.inl ⟨by simpa using hn, by simpa using h⟩
  · next hn =>
    obtain ⟨b, hb⟩ := Option.ne_none_iff_exists'.mp (by simpa using hn)
    simp only [gives_bind, gives_request] at h
    obtain ⟨r, _, ⟨p, hp, rfl⟩, h⟩ := h
    cases r with
    | none =>
      refine Or.inr (Or.inl ⟨b, hb, ?_⟩)
      obtain ⟨hsize, rfl⟩ := resize_eq_none hp hb
      simp only [gives_address] at h
      obtain ⟨⟨c, hc, rfl⟩, rfl⟩ := h
      rw [show (s.asked.withPlanner s.planner).planner = s.planner from rfl, hb] at hc
      cases hc
      exact ⟨hsize, rfl, rfl⟩
    | some moved =>
      refine Or.inr (Or.inr ⟨moved, p, ?_⟩)
      simp only [gives_bind, takeMoves, gives_modifyGet, gives_modify, gives_address] at h
      obtain ⟨moves, _, hm, x, _, rfl, ⟨c, hc, rfl⟩, rfl⟩ := h
      cases hm
      exact ⟨c, hp, rfl, hc, rfl⟩

theorem gives_temporary {size : Nat} {tmp : String} : Gives (temporary size) s tmp t ↔
    tmp = s!"__tmp_{s.temporaries}" ∧
      ∃ n, Gives (allocate tmp size) { s with temporaries := s.temporaries + 1 } n t := by
  unfold temporary
  simp only [gives_bind, gives_modifyGet, gives_discard, gives_pure]
  constructor
  · rintro ⟨n, _, hm, x, u, ⟨a, ha⟩, rfl, rfl⟩
    cases hm
    exact ⟨rfl, a, ha⟩
  · rintro ⟨rfl, a, ha⟩
    exact ⟨_, _, rfl, (), t, ⟨a, ha⟩, rfl, rfl⟩

@[simp] theorem gives_liveKind? {k : Option DeclKind} : Gives (liveKind? name) s k t ↔
    k = ((s.planner.visible? name).bind fun b => s.kinds.lookup (name, b.scope)) ∧ s = t := by
  simp [liveKind?, and_comm]

@[simp] theorem gives_setKind {scope : String} {kind : DeclKind} {x : Unit} :
    Gives (setKind name scope kind) s x t ↔
      t = { s with kinds := ((name, scope), kind) :: s.kinds } := by
  simp [setKind]

@[simp] theorem gives_readVariable {n : Nat} : Gives (readVariable name) s n t ↔
    (∃ b, s.planner.visible? name = some b ∧ n = b.size) ∧
      t = s.withPlanner (s.planner.addReference name).2 := by
  unfold readVariable Session.withPlanner
  simp only [gives_bind, gives_block?]
  cases s.planner.visible? name <;> simp [and_comm]

@[simp] theorem gives_enter {tag : String} : Gives (enter name) s tag t ↔
    tag = (s.planner.enter name).1 ∧ t = s.withPlanner (s.planner.enter name).2 := by
  simp [enter, Session.withPlanner, eq_comm]

theorem gives_leave {x : Unit} (h : Gives leave s x t) : ∃ bindings shadowed,
    t = { s with
      planner := s.planner.leave.2
      program := { s.program with bindings := bindings, shadowed := shadowed } } := by
  unfold leave at h
  rw [gives_modify] at h
  exact ⟨_, _, h⟩

theorem gives_bindName {info : VariableInfo} {x : Unit} (h : Gives (bind name info) s x t) :
    ∃ bindings shadowed,
      t = { s with program := { s.program with bindings := bindings, shadowed := shadowed } } := by
  unfold bind at h
  rw [gives_modify] at h
  exact ⟨_, _, h⟩

/-! ### Defects -/

/-- A step of lowering made in a session **does not fail by a defect**. -/
def Flawless (m : Lowering α) (s : Session) : Prop := ∀ d t, m.run.run s ≠ (.error (.defect d), t)

theorem flawless_of_gives {m : Lowering α} (h : Gives m s a t) : Flawless m s := fun d u hd => by
  unfold Gives at h
  rw [h] at hd
  cases hd

theorem flawless_bind {m : Lowering α} {f : α → Lowering β} (hm : Flawless m s)
    (hf : ∀ a t, Gives m s a t → Flawless (f a) t) : Flawless (m >>= f) s := by
  intro d u hd
  rw [run_bind] at hd
  cases hr : m.run.run s with
  | mk r v =>
    rw [hr] at hd
    cases r with
    | ok a => exact hf a v hr d u hd
    | error e =>
      cases hd
      exact hm d _ hr

theorem flawless_throw {f : Fault} (h : ∀ d, f ≠ .defect d) :
    Flawless (throw f : Lowering α) s := by
  intro d t hd
  cases hd
  exact h d rfl

theorem flawless_request {f : Planner → Int → Except Fault α × Planner}
    (h : ∀ d p, f s.planner (s.schedule 0) ≠ (.error (.defect d), p)) : Flawless (request f) s := by
  unfold request
  refine flawless_bind (flawless_of_gives (gives_get.mpr ⟨rfl, rfl⟩)) fun x t hx => ?_
  obtain ⟨rfl, rfl⟩ := gives_get.mp hx
  cases hr : f x.planner (x.schedule 0) with
  | mk r p =>
    refine flawless_bind (flawless_of_gives (a := ()) (gives_modify.mpr rfl)) fun _ u _ => ?_
    cases r with
    | ok a => exact flawless_of_gives (gives_pure.mpr ⟨rfl, rfl⟩)
    | error e => exact flawless_throw fun d he => h d p (he ▸ hr)

end Lowering

end TapeCompiler
