import TapeCompiler.Tape.Machine
import Mathlib.Tactic.Common

/-! # Structured loops on the tape machine

The machine executes a flat list of operations and jumps between partners. A `Flow` is the same
code as a tree, in which a loop holds its body, and `Flow.Runs` is its meaning without a counter:
*while the current cell is not zero do the body*.

* `partners_placed`: the search for partners succeeds on the operations of a flow and finds, for
  every loop, the bracket that closes it;
* `runFor_of_runs`: a flow that ends is executed by the machine in as many operations;
* `runs_of_finished`: a run of the machine that ends went through the whole flow. -/

namespace TapeCompiler

/-! ### Code as a tree -/

/-- Tape code as a tree: what stands first, and the rest. -/
inductive Flow
  | done
  | op (o : Op) (rest : Flow)
  | loop (body rest : Flow)
  deriving DecidableEq, Repr

/-- Whether an operation is one of the two brackets. -/
def Op.isBracket : Op → Bool
  | enter | leave => true
  | _ => false

namespace Flow

/-- The operations of a flow, in order. -/
def ops : Flow → List Op
  | done => []
  | op o rest => o :: rest.ops
  | loop body rest => .enter :: body.ops ++ .leave :: rest.ops

/-- The number of operations. -/
def size (f : Flow) : Nat := f.ops.length

/-- Only loops hold brackets. -/
def WellFormed : Flow → Prop
  | done => True
  | op o rest => o.isBracket = false ∧ rest.WellFormed
  | loop body rest => body.WellFormed ∧ rest.WellFormed

/-- One flow behind another. -/
def append : Flow → Flow → Flow
  | done, g => g
  | op o rest, g => op o (rest.append g)
  | loop body rest, g => loop body (rest.append g)

instance : Append Flow := ⟨Flow.append⟩

@[simp] theorem done_append (g : Flow) : done ++ g = g := rfl

@[simp] theorem op_append (o : Op) (f g : Flow) : op o f ++ g = op o (f ++ g) := rfl

@[simp] theorem loop_append (b f g : Flow) : loop b f ++ g = loop b (f ++ g) := rfl

@[simp] theorem ops_append (f g : Flow) : (f ++ g).ops = f.ops ++ g.ops := by
  induction f with
  | done => rfl
  | op o rest ih => simp [ops, ih]
  | loop body rest _ ih => simp [ops, ih]

theorem wellFormed_append {f g : Flow} (hf : f.WellFormed) (hg : g.WellFormed) :
    (f ++ g).WellFormed := by
  induction f with
  | done => exact hg
  | op o rest ih => exact ⟨hf.1, ih hf.2⟩
  | loop body rest _ ih => exact ⟨hf.1, ih hf.2⟩

@[simp] theorem size_done : done.size = 0 := rfl

@[simp] theorem size_op (o : Op) (f : Flow) : (op o f).size = f.size + 1 := rfl

@[simp] theorem size_loop (b f : Flow) : (loop b f).size = b.size + f.size + 2 := by
  simp [size, ops]; omega

end Flow

/-! ### The meaning of a flow -/

/-- The state of a run **without its counter**. -/
structure Snapshot where
  tape : Array Nat
  pointer : Nat
  input : List UInt8
  output : Array Nat
  executed : Nat
  deriving DecidableEq, Repr

namespace Snapshot

/-- The state of a run that goes on at an operation. -/
def resume (s : Snapshot) (counter : Nat) : RunState :=
  ⟨s.tape, s.pointer, counter, s.input, s.output, s.executed⟩

/-- The current cell. -/
def cell (s : Snapshot) : Nat := s.tape.getD s.pointer 0

/-- One more operation executed. -/
def tick (s : Snapshot) : Snapshot := { s with executed := s.executed + 1 }

/-- The current cell holds a number. -/
def put (s : Snapshot) (v : Nat) : Snapshot :=
  { s with tape := s.tape.setIfInBounds s.pointer v, executed := s.executed + 1 }

/-- The pointer is on a cell. -/
def goTo (s : Snapshot) (cell : Nat) : Snapshot :=
  { s with pointer := cell, executed := s.executed + 1 }

/-- The snapshot after an operation that is no bracket, unless the pointer would leave the tape. -/
def exec? (w : CellWidth) (mode : PointerMode) (s : Snapshot) : Op → Option Snapshot
  | .inc => some (s.put ((s.cell + 1) % w.modulus))
  | .dec => some (s.put ((s.cell + w.modulus - 1) % w.modulus))
  | .negate => some (s.put ((w.modulus - s.cell) % w.modulus))
  | .right =>
    if s.pointer + 1 < s.tape.size then some (s.goTo (s.pointer + 1))
    else if mode = .wrap then some (s.goTo 0) else none
  | .left =>
    if s.pointer > 0 then some (s.goTo (s.pointer - 1))
    else if mode = .wrap then some (s.goTo (s.tape.size - 1)) else none
  | .write => some { s with output := s.output.push s.cell, executed := s.executed + 1 }
  | .read =>
    match s.input with
    | [] => some (s.put 0)
    | byte :: rest => some { s.put (byte.toNat % w.modulus) with input := rest }
  | .enter | .leave => none

end Snapshot

/-- **What a flow does**, and in how many operations. A bracket costs one operation each time it is
met; a closing one tests the cell as the opening one does. -/
inductive Flow.Runs (w : CellWidth) (mode : PointerMode) :
    Flow → Snapshot → Nat → Snapshot → Prop
  | done {s : Snapshot} : Runs w mode .done s 0 s
  | op {o : Op} {rest : Flow} {s t u : Snapshot} {n : Nat} :
    s.exec? w mode o = some t → Runs w mode rest t n u → Runs w mode (.op o rest) s (n + 1) u
  | skip {body rest : Flow} {s u : Snapshot} {n : Nat} :
    s.cell = 0 → Runs w mode rest s.tick n u → Runs w mode (.loop body rest) s (n + 1) u
  | again {body rest : Flow} {s t u : Snapshot} {n m : Nat} :
    s.cell ≠ 0 → Runs w mode body s.tick n t → Runs w mode (.loop body rest) t m u →
      Runs w mode (.loop body rest) s (n + m + 1) u

/-! ### Flows in a routine -/

/-- The operation at an index. -/
def Routine.op? (r : Routine) (i : Nat) : Option Op := r.ops[i]?.map Sited.op

/-- A flow **stands in a routine** from an index on, its brackets being partners. -/
def Flow.Placed (r : Routine) : Nat → Flow → Prop
  | _, .done => True
  | i, .op o rest => o.isBracket = false ∧ r.op? i = some o ∧ Placed r (i + 1) rest
  | i, .loop body rest =>
    r.op? i = some .enter ∧ r.partner.getD i 0 = i + body.size + 1 ∧ Placed r (i + 1) body ∧
      r.op? (i + body.size + 1) = some .leave ∧ r.partner.getD (i + body.size + 1) 0 = i ∧
      Placed r (i + body.size + 2) rest

/-! ### Partners -/

namespace Flow

/-- The partners of the brackets of a flow, written into an array from an index on. -/
def fill : Flow → Nat → Array Nat → Array Nat
  | done, _, p => p
  | op _ rest, i, p => rest.fill (i + 1) p
  | loop body rest, i, p =>
    let j := i + body.size + 1
    rest.fill (j + 1) (((body.fill (i + 1) p).setIfInBounds i j).setIfInBounds j i)

@[simp] theorem size_fill (f : Flow) (i : Nat) (p : Array Nat) : (f.fill i p).size = p.size := by
  induction f generalizing i p with
  | done => rfl
  | op o rest ih => exact ih _ _
  | loop body rest ihb ihr => simp [fill, ihb, ihr]

theorem getD_fill (f : Flow) (i : Nat) (p : Array Nat) {k : Nat} (h : k < i ∨ i + f.size ≤ k) :
    (f.fill i p).getD k 0 = p.getD k 0 := by
  induction f generalizing i p with
  | done => rfl
  | op o rest ih => exact ih _ _ (by simp at h; omega)
  | loop body rest ihb ihr =>
    rw [size_loop] at h
    rw [fill, ihr _ _ (by omega), ← ihb (i + 1) p (by omega)]
    simp only [Array.getD_eq_getD_getElem?]
    rw [Array.getElem?_setIfInBounds_ne (by omega), Array.getElem?_setIfInBounds_ne (by omega)]

/-- The search goes through a flow and leaves the brackets open that were open before. -/
theorem foldlM_next (f : Flow) (hf : f.WellFormed) : ∀ (l : List Sited) (p : Pairing),
    l.map Sited.op = f.ops →
      l.foldlM Pairing.next p = .ok ⟨p.seen + f.size, p.openings, f.fill p.seen p.partner⟩ := by
  induction f with
  | done =>
    intro l p hl
    obtain rfl := List.map_eq_nil_iff.mp hl
    rfl
  | op o rest ih =>
    intro l p hl
    obtain ⟨a, l, rfl, rfl, ht⟩ := List.map_eq_cons_iff.mp hl
    have hn : p.next a = .ok ⟨p.seen + 1, p.openings, p.partner⟩ := by
      have := hf.1
      unfold Pairing.next
      cases ho : a.op <;> simp_all [Op.isBracket]
    rw [List.foldlM_cons, hn]
    refine (ih hf.2 l _ ht).trans ?_
    simp [fill, Nat.add_assoc, Nat.add_comm 1]
  | loop body rest ihb ihr =>
    intro l p hl
    obtain ⟨a, l, rfl, ha, hl⟩ := List.map_eq_cons_iff.mp hl
    obtain ⟨lb, l, rfl, hb, hl⟩ := List.map_eq_append_iff.mp hl
    obtain ⟨z, lr, rfl, hz, hr⟩ := List.map_eq_cons_iff.mp hl
    have hn : p.next a = .ok ⟨p.seen + 1, (p.seen, a.position) :: p.openings, p.partner⟩ := by
      unfold Pairing.next; rw [ha]
    rw [List.foldlM_cons, hn]
    show (lb ++ z :: lr).foldlM Pairing.next _ = _
    rw [List.foldlM_append, ihb hf.1 lb _ hb]
    show (z :: lr).foldlM Pairing.next _ = _
    rw [List.foldlM_cons]
    unfold Pairing.next
    rw [hz]
    refine (ihr hf.2 lr _ hr).trans ?_
    simp only [fill, size_loop]
    congr 2
    · omega
    · rw [show p.seen + 1 + body.size = p.seen + body.size + 1 by omega]

/-- A flow whose operations stand in a routine is placed there, if its partners are filled in. -/
theorem placed_of_fill (f : Flow) (hf : f.WellFormed) : ∀ (r : Routine) (i : Nat) (p : Array Nat),
    (∀ k < f.size, r.op? (i + k) = f.ops[k]?) → i + f.size ≤ p.size →
      (∀ k, i ≤ k → k < i + f.size → r.partner.getD k 0 = (f.fill i p).getD k 0) →
        f.Placed r i := by
  induction f with
  | done => intros; trivial
  | op o rest ih =>
    intro r i p hop hp hpar
    rw [size_op] at hop hp hpar
    refine ⟨hf.1, by simpa [ops] using hop 0 (by omega), ih hf.2 r (i + 1) p (fun k hk => ?_)
      (by omega) fun k hk hk' => hpar k (by omega) (by omega)⟩
    have := hop (k + 1) (by omega)
    rw [show i + 1 + k = i + (k + 1) by omega, this]
    rfl
  | loop body rest ihb ihr =>
    intro r i p hop hp hpar
    rw [size_loop] at hop hp hpar
    have hops : ∀ k, (loop body rest).ops[k + 1]? = (body.ops ++ .leave :: rest.ops)[k]? :=
      fun k => rfl
    have hfill : (loop body rest).fill i p = rest.fill (i + body.size + 2)
        (((body.fill (i + 1) p).setIfInBounds i (i + body.size + 1)).setIfInBounds
          (i + body.size + 1) i) := rfl
    refine ⟨by simpa [ops] using hop 0 (by omega), ?_, ?_, ?_, ?_, ?_⟩
    · rw [hpar i (by omega) (by omega), hfill, getD_fill _ _ _ (by omega)]
      simp only [Array.getD_eq_getD_getElem?]
      rw [Array.getElem?_setIfInBounds_ne (by omega), Array.getElem?_setIfInBounds_self_of_lt
        (by rw [size_fill]; omega)]
      rfl
    · refine ihb hf.1 r (i + 1) p (fun k hk => ?_) (by omega) fun k hk hk' => ?_
      · have := hop (k + 1) (by omega)
        rw [show i + 1 + k = i + (k + 1) by omega, this, hops, List.getElem?_append_left hk]
      · rw [hpar k (by omega) (by omega), hfill, getD_fill _ _ _ (by omega)]
        simp only [Array.getD_eq_getD_getElem?]
        rw [Array.getElem?_setIfInBounds_ne (by omega), Array.getElem?_setIfInBounds_ne (by omega)]
    · have := hop (body.size + 1) (by omega)
      rw [show i + body.size + 1 = i + (body.size + 1) by omega, this, hops]
      simp [size]
    · rw [hpar _ (by omega) (by omega), hfill, getD_fill _ _ _ (by omega)]
      simp only [Array.getD_eq_getD_getElem?]
      rw [Array.getElem?_setIfInBounds_self_of_lt
        (by rw [Array.size_setIfInBounds, size_fill]; omega)]
      rfl
    · refine ihr hf.2 r _ (((body.fill (i + 1) p).setIfInBounds i (i + body.size + 1)).setIfInBounds
        (i + body.size + 1) i) (fun k hk => ?_) (by simp; omega) fun k hk hk' => ?_
      · have := hop (body.size + 1 + (k + 1)) (by omega)
        rw [show i + body.size + 2 + k = i + (body.size + 1 + (k + 1)) by omega, this,
          show body.size + 1 + (k + 1) = (body.size + (k + 1)) + 1 by omega, hops,
          List.getElem?_append_right (by unfold size; omega)]
        simp [size]
      · rw [hpar k (by omega) (by omega), hfill]

/-- **The search for partners finds those of the loops.** -/
theorem partners_placed {f : Flow} (hf : f.WellFormed) {l : List Sited}
    (hl : l.map Sited.op = f.ops) :
    ∃ p, partners l = .ok p ∧ f.Placed ⟨l.toArray, p⟩ 0 := by
  have hlen : l.length = f.size := by rw [size, ← hl, List.length_map]
  refine ⟨f.fill 0 (Array.replicate l.length 0), ?_, ?_⟩
  · unfold partners
    rw [foldlM_next f hf l _ hl]
    rfl
  · refine placed_of_fill f hf _ 0 (Array.replicate l.length 0) (fun k hk => ?_) (by simp [hlen])
      fun k _ _ => rfl
    simp [Routine.op?, ← hl]

end Flow

section Steps
variable {c : MachineSettings} {r : Routine} {s : Snapshot} {i : Nat}

theorem lt_size_of_op? {o : Op} (h : r.op? i = some o) : i < r.ops.size := by
  obtain ⟨x, hx, -⟩ := Option.map_eq_some_iff.mp h
  exact (Array.getElem?_eq_some_iff.mp hx).1

theorem op_getElem {o : Op} (h : r.op? i = some o) :
    have := lt_size_of_op? h
    r.ops[i].op = o := by
  obtain ⟨x, hx, rfl⟩ := Option.map_eq_some_iff.mp h
  obtain ⟨_, rfl⟩ := Array.getElem?_eq_some_iff.mp hx
  rfl

theorem step_resume (a : Sited) (ha : a.op.isBracket = false) :
    match s.exec? c.width c.pointerMode a.op with
    | some t => step c r a (s.resume i) = .ok (t.resume (i + 1))
    | none => ∃ f t, step c r a (s.resume i) = .error (f, t) := by
  obtain ⟨o, pos⟩ := a
  cases o
  case enter | leave => simp [Op.isBracket] at ha
  case inc | dec | negate | write => rfl
  case left =>
    by_cases h : s.pointer > 0 <;> cases hm : c.pointerMode <;>
      simp [Snapshot.exec?, step, Snapshot.resume, Snapshot.goTo, h, hm]
  case right =>
    by_cases h : s.pointer + 1 < s.tape.size <;> cases hm : c.pointerMode <;>
      simp [Snapshot.exec?, step, Snapshot.resume, Snapshot.goTo, h, hm]
  case read =>
    obtain ⟨tape, pointer, input, output, executed⟩ := s
    cases input <;> rfl

theorem runFor_zero (h : i < r.ops.size) : runFor c r 0 (s.resume i) = (.halted, s.resume i) := by
  simp [runFor, Snapshot.resume, h]

theorem runFor_op {o : Op} {t : Snapshot} (ho : r.op? i = some o) (hb : o.isBracket = false)
    (ht : s.exec? c.width c.pointerMode o = some t) (fuel : Nat) :
    runFor c r (fuel + 1) (s.resume i) = runFor c r fuel (t.resume (i + 1)) := by
  have hi := lt_size_of_op? ho
  have ha := op_getElem ho
  have := step_resume (c := c) (r := r) (s := s) (i := i) r.ops[i] (by rw [ha, hb])
  rw [ha, ht] at this
  have hi' : (s.resume i).counter < r.ops.size := hi
  rw [runFor, dif_pos hi']
  simp only [Snapshot.resume] at this ⊢
  rw [this]

theorem runFor_enter (ho : r.op? i = some .enter) (fuel : Nat) :
    runFor c r (fuel + 1) (s.resume i) = runFor c r fuel
      (s.tick.resume ((if s.cell = 0 then r.partner.getD i 0 else i) + 1)) := by
  have hi : (s.resume i).counter < r.ops.size := lt_size_of_op? ho
  have ha := op_getElem ho
  rw [runFor, dif_pos hi]
  unfold step
  simp only [Snapshot.resume, ha, Snapshot.tick, Snapshot.cell]
  rfl

theorem runFor_leave (ho : r.op? i = some .leave) (fuel : Nat) :
    runFor c r (fuel + 1) (s.resume i) = runFor c r fuel
      (s.tick.resume ((if s.cell = 0 then i else r.partner.getD i 0) + 1)) := by
  have hi : (s.resume i).counter < r.ops.size := lt_size_of_op? ho
  have ha := op_getElem ho
  rw [runFor, dif_pos hi]
  unfold step
  simp only [Snapshot.resume, ha, Snapshot.tick, Snapshot.cell]
  rfl

/-- **From the closing bracket of a loop** a run goes on as from the opening one. -/
theorem runFor_again {j : Nat} (ho : r.op? i = some .enter) (hi : r.partner.getD i 0 = j)
    (hc : r.op? j = some .leave) (hj : r.partner.getD j 0 = i) (fuel : Nat) :
    runFor c r (fuel + 1) (s.resume j) = runFor c r (fuel + 1) (s.resume i) := by
  rw [runFor_leave hc, runFor_enter ho, hi, hj]

end Steps

/-! ### Running -/

section Running
variable {c : MachineSettings} {r : Routine}

/-- **A flow that ends is executed**, in as many operations. -/
theorem runFor_of_runs {f : Flow} {s t : Snapshot} {n : Nat}
    (h : f.Runs c.width c.pointerMode s n t) :
    ∀ i, f.Placed r i → ∀ fuel,
      runFor c r (n + fuel) (s.resume i) = runFor c r fuel (t.resume (i + f.size)) := by
  induction h with
  | done => intro i _ fuel; simp
  | op ht _ ih =>
    rintro i ⟨hb, ho, hp⟩ fuel
    rw [Nat.add_right_comm, runFor_op ho hb ht, ih _ hp]
    congr 2; simp; omega
  | skip h0 _ ih =>
    rintro i ⟨ho, hpi, -, -, -, hp⟩ fuel
    rw [Nat.add_right_comm, runFor_enter ho, if_pos h0, hpi, ih _ hp]
    congr 2; simp; omega
  | @again body rest s t u n m h0 _ hagain ihb iha =>
    rintro i ⟨ho, hpi, hb, hc, hpc, hr⟩ fuel
    rw [show n + m + 1 + fuel = (n + (m + fuel)) + 1 by omega, runFor_enter ho, if_neg h0,
      ihb _ hb, ← iha i ⟨ho, hpi, hb, hc, hpc, hr⟩ fuel]
    obtain ⟨k, rfl⟩ : ∃ k, m = k + 1 := by cases hagain <;> exact ⟨_, rfl⟩
    rw [show i + 1 + body.size = i + body.size + 1 by omega, Nat.add_right_comm k,
      runFor_again ho hpi hc hpc]

theorem runFor_end {s : RunState} (h : r.ops.size ≤ s.counter) (fuel : Nat) :
    runFor c r fuel s = (.finished, s) := by
  cases fuel with
  | zero => rw [runFor, if_neg (by omega)]
  | succ fuel => rw [runFor, dif_neg (by omega)]

theorem runFor_finished {f : Flow} {s t : Snapshot} {n : Nat}
    (h : f.Runs c.width c.pointerMode s n t) (hp : f.Placed r 0) (hsize : r.ops.size = f.size)
    {fuel : Nat} (hn : n ≤ fuel) : runFor c r fuel (s.resume 0) = (.finished, t.resume f.size) := by
  obtain ⟨k, rfl⟩ : ∃ k, fuel = n + k := ⟨fuel - n, by omega⟩
  rw [runFor_of_runs h 0 hp k, Nat.zero_add]
  exact runFor_end (Nat.le_of_eq hsize) k

/-- **A run that ends went through the flow.** -/
theorem runs_of_finished (fuel : Nat) : ∀ (f : Flow) (s : Snapshot) (i : Nat), f.Placed r i →
    i + f.size ≤ r.ops.size → (runFor c r fuel (s.resume i)).1 = .finished →
      ∃ n ≤ fuel, ∃ t, f.Runs c.width c.pointerMode s n t := by
  induction fuel using Nat.strongRecOn with
  | ind fuel ih =>
    intro f s i hp hi hf
    cases f with
    | done => exact ⟨0, Nat.zero_le _, s, .done⟩
    | op o rest =>
      obtain ⟨hb, ho, hp⟩ := hp
      have hlt := lt_size_of_op? ho
      rcases fuel with _ | fuel
      · rw [runFor_zero hlt] at hf; cases hf
      · cases ht : s.exec? c.width c.pointerMode o with
        | none =>
          have := step_resume (c := c) (r := r) (s := s) (i := i) r.ops[i] (by rw [op_getElem ho, hb])
          rw [op_getElem ho, ht] at this
          obtain ⟨e, t, he⟩ := this
          rw [runFor, dif_pos (show (s.resume i).counter < r.ops.size from hlt)] at hf
          simp only [Snapshot.resume] at he hf
          rw [he] at hf
          cases hf
        | some t =>
          rw [runFor_op ho hb ht] at hf
          obtain ⟨n, hn, u, hu⟩ :=
            ih fuel (by omega) rest t (i + 1) hp (by simp at hi; omega) hf
          exact ⟨n + 1, by omega, u, .op ht hu⟩
    | loop body rest =>
      obtain ⟨ho, hpi, hb, hc, hpc, hr⟩ := hp
      have hlt := lt_size_of_op? ho
      rw [Flow.size_loop] at hi
      rcases fuel with _ | fuel
      · rw [runFor_zero hlt] at hf; cases hf
      · rw [runFor_enter ho] at hf
        by_cases h0 : s.cell = 0
        · rw [if_pos h0, hpi] at hf
          obtain ⟨n, hn, u, hu⟩ := ih fuel (by omega) rest s.tick _ hr (by omega) hf
          exact ⟨n + 1, by omega, u, .skip h0 hu⟩
        · rw [if_neg h0] at hf
          obtain ⟨n, hn, t, ht⟩ := ih fuel (by omega) body s.tick _ hb (by omega) hf
          rw [show fuel = n + (fuel - n) by omega, runFor_of_runs ht _ hb] at hf
          obtain ⟨k, hk⟩ : ∃ k, fuel - n = k + 1 := by
            rcases hk : fuel - n with _ | k
            · rw [hk, runFor_zero (by omega)] at hf; cases hf
            · exact ⟨k, rfl⟩
          rw [hk, show i + 1 + body.size = i + body.size + 1 by omega,
            runFor_again ho hpi hc hpc] at hf
          obtain ⟨m, hm, u, hu⟩ := ih (k + 1) (by omega) (.loop body rest) t i
            ⟨ho, hpi, hb, hc, hpc, hr⟩ (by rw [Flow.size_loop]; omega) hf
          exact ⟨n + m + 1, by omega, u, .again h0 ht hu⟩

end Running

end TapeCompiler
