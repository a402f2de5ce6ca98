import TapeCompiler.Proofs.Machine.Texts

/-! # The machine does what the loops say

`TextTree.Runs` is the meaning of a tree without brackets, partners or a counter: a loop does its
body *while the current cell is not zero*, and characters that are no operations are passed over.
It ends at the end of the tree or, on a strict machine, at the character that would take the
pointer off the tape.

* `TextTree.Runs.after`: what a tree does, the machine does in as many operations;
* `TextTree.exists_runs`: a run that its limit does not cut short goes as the tree does;
* `OnTape.runFor`: cells stay below the modulus and the pointer on the tape;
* `run_follows_loops`: the three together, for every balanced text. -/

namespace TapeCompiler

/-! ### What a tree does -/

/-- How a run ends that no limit cuts short. -/
inductive Outcome
  /-- Nothing was left to do. -/
  | finished (s : Snapshot)
  /-- The pointer would have left the tape, at the character of a position. -/
  | strayed (position : Nat) (s : Snapshot)
  deriving DecidableEq, Repr

/-- **What a tree does** whose first character has a position, and in how many operations. A loop
costs one operation for each time its cell is looked at. -/
inductive TextTree.Runs (w : CellWidth) (mode : PointerMode) :
    Nat → TextTree → Snapshot → Nat → Outcome → Prop
  | done {i : Nat} {s : Snapshot} : Runs w mode i .done s 0 (.finished s)
  /-- A character that is no operation. -/
  | skip {i n : Nat} {c : Char} {rest : TextTree} {s : Snapshot} {o : Outcome} :
    Op.ofChar? c = none → Runs w mode (i + 1) rest s n o → Runs w mode i (.char c rest) s n o
  | op {i n : Nat} {c : Char} {a : Op} {rest : TextTree} {s t : Snapshot} {o : Outcome} :
    Op.ofChar? c = some a → s.exec? w mode a = some t → Runs w mode (i + 1) rest t n o →
      Runs w mode i (.char c rest) s (n + 1) o
  /-- A move off the tape. -/
  | stray {i : Nat} {c : Char} {a : Op} {rest : TextTree} {s : Snapshot} :
    Op.ofChar? c = some a → s.exec? w mode a = none →
      Runs w mode i (.char c rest) s 1 (.strayed i s)
  | leave {i n : Nat} {body rest : TextTree} {s : Snapshot} {o : Outcome} :
    s.cell = 0 → Runs w mode (i + body.text.length + 2) rest s.tick n o →
      Runs w mode i (.loop body rest) s (n + 1) o
  | again {i n m : Nat} {body rest : TextTree} {s t : Snapshot} {o : Outcome} :
    s.cell ≠ 0 → Runs w mode (i + 1) body s.tick n (.finished t) →
      Runs w mode i (.loop body rest) t m o → Runs w mode i (.loop body rest) s (n + m + 1) o
  /-- A body that does not come to its end. -/
  | inside {i n p : Nat} {body rest : TextTree} {s t : Snapshot} :
    s.cell ≠ 0 → Runs w mode (i + 1) body s.tick n (.strayed p t) →
      Runs w mode i (.loop body rest) s (n + 1) (.strayed p t)

theorem TextTree.Runs.pos_of_loop {w : CellWidth} {mode : PointerMode} {i n : Nat}
    {body rest : TextTree} {s : Snapshot} {o : Outcome}
    (h : (loop body rest).Runs w mode i s n o) : ∃ m, n = m + 1 := by
  cases h <;> exact ⟨_, rfl⟩

/-! ### Trees in a routine -/

/-- The operations of a text whose first character has a position. -/
def operationsFrom (i : Nat) (l : List Char) : List Sited :=
  (l.zipIdx i).filterMap fun (c, i) => (Op.ofChar? c).map fun op => ⟨op, i⟩

theorem operationsFrom_append (i : Nat) (l l' : List Char) :
    operationsFrom i (l ++ l') = operationsFrom i l ++ operationsFrom (i + l.length) l' := by
  simp [operationsFrom, List.zipIdx_append]

theorem operationsFrom_cons_none {c : Char} (h : Op.ofChar? c = none) (i : Nat) (l : List Char) :
    operationsFrom i (c :: l) = operationsFrom (i + 1) l := by
  simp [operationsFrom, h]

theorem operationsFrom_cons_some {c : Char} {o : Op} (h : Op.ofChar? c = some o) (i : Nat)
    (l : List Char) : operationsFrom i (c :: l) = ⟨o, i⟩ :: operationsFrom (i + 1) l := by
  simp [operationsFrom, h]

theorem operationsFrom_loop (i : Nat) (body rest : List Char) :
    operationsFrom i ('[' :: body ++ ']' :: rest) =
      ⟨.enter, i⟩ :: (operationsFrom (i + 1) body ++
        ⟨.leave, i + 1 + body.length⟩ :: operationsFrom (i + body.length + 2) rest) := by
  have hopen : Op.ofChar? '[' = some .enter := rfl
  have hclose : Op.ofChar? ']' = some .leave := rfl
  rw [List.cons_append, operationsFrom_cons_some hopen, operationsFrom_append,
    operationsFrom_cons_some hclose, show i + 1 + body.length + 1 = i + body.length + 2 by omega]

section Prefixes
variable {α : Type} {a : α} {l l' m : List α} {k : Nat}

theorem getElem?_of_prefix_drop (h : a :: l <+: m.drop k) : m[k]? = some a := by
  obtain ⟨t, ht⟩ := h
  rw [← Nat.add_zero k, ← List.getElem?_drop, ← ht]
  rfl

theorem prefix_drop_succ (h : a :: l <+: m.drop k) : l <+: m.drop (k + 1) := by
  obtain ⟨t, ht⟩ := h
  exact ⟨t, by rw [← List.drop_drop, ← ht]; rfl⟩

theorem prefix_drop_add (h : l ++ l' <+: m.drop k) : l' <+: m.drop (k + l.length) := by
  obtain ⟨t, ht⟩ := h
  exact ⟨t, by rw [← List.drop_drop, ← ht, List.append_assoc, List.drop_left]⟩

end Prefixes

namespace TextTree

/-- The number of operations. -/
def size (t : TextTree) : Nat := t.flow.size

@[simp] theorem size_loop (body rest : TextTree) :
    (loop body rest).size = body.size + rest.size + 2 := Flow.size_loop _ _

theorem size_char_none {c : Char} (h : Op.ofChar? c = none) (rest : TextTree) :
    (char c rest).size = rest.size := by
  unfold size
  rw [flow, h]

theorem size_char_some {c : Char} {o : Op} (h : Op.ofChar? c = some o) (rest : TextTree) :
    (char c rest).size = rest.size + 1 := by
  unfold size
  rw [flow, h]
  rfl

theorem length_operationsFrom (t : TextTree) (i : Nat) :
    (operationsFrom i t.text).length = t.size := by
  induction t generalizing i with
  | done => rfl
  | char c rest ih =>
    cases h : Op.ofChar? c with
    | none => rw [text, operationsFrom_cons_none h, ih, size_char_none h]
    | some o => rw [text, operationsFrom_cons_some h, List.length_cons, ih, size_char_some h]
  | loop body rest ihb ihr =>
    rw [text, operationsFrom_loop, List.length_cons, List.length_append, List.length_cons, ihb, ihr,
      size_loop]
    omega

/-- A tree **stands in a routine**, its operations from an index and its characters from a position
on, its brackets being partners. -/
def Placed (r : Routine) : Nat → Nat → TextTree → Prop
  | _, _, done => True
  | k, i, char c rest =>
    match Op.ofChar? c with
    | none => Placed r k (i + 1) rest
    | some o => o.isBracket = false ∧ r.ops[k]? = some ⟨o, i⟩ ∧ Placed r (k + 1) (i + 1) rest
  | k, i, loop body rest =>
    r.op? k = some .enter ∧ r.partner.getD k 0 = k + body.size + 1 ∧ Placed r (k + 1) (i + 1) body ∧
      r.op? (k + body.size + 1) = some .leave ∧ r.partner.getD (k + body.size + 1) 0 = k ∧
      Placed r (k + body.size + 2) (i + body.text.length + 2) rest

theorem placed_char_none {r : Routine} {k i : Nat} {c : Char} (h : Op.ofChar? c = none)
    (rest : TextTree) : (char c rest).Placed r k i ↔ rest.Placed r k (i + 1) := by
  rw [Placed, h]

theorem placed_char_some {r : Routine} {k i : Nat} {c : Char} {o : Op} (h : Op.ofChar? c = some o)
    (rest : TextTree) : (char c rest).Placed r k i ↔
      o.isBracket = false ∧ r.ops[k]? = some ⟨o, i⟩ ∧ rest.Placed r (k + 1) (i + 1) := by
  rw [Placed, h]

theorem placed_of_flow {r : Routine} (t : TextTree) : ∀ {k i : Nat}, t.flow.Placed r k →
    operationsFrom i t.text <+: r.ops.toList.drop k → t.Placed r k i := by
  induction t with
  | done => intros; trivial
  | char c rest ih =>
    intro k i hf hp
    cases h : Op.ofChar? c with
    | none =>
      rw [flow, h] at hf
      rw [text, operationsFrom_cons_none h] at hp
      exact (placed_char_none h rest).mpr (ih hf hp)
    | some o =>
      rw [flow, h] at hf
      rw [text, operationsFrom_cons_some h] at hp
      exact (placed_char_some h rest).mpr
        ⟨hf.1, by simpa using getElem?_of_prefix_drop hp, ih hf.2.2 (prefix_drop_succ hp)⟩
  | loop body rest ihb ihr =>
    rintro k i ⟨ho, hpo, hb, hc, hpc, hr⟩ hp
    rw [text, operationsFrom_loop] at hp
    have hbody := prefix_drop_succ hp
    have hrest := prefix_drop_succ (prefix_drop_add hbody)
    rw [length_operationsFrom, show k + 1 + body.size + 1 = k + body.size + 2 by omega] at hrest
    exact ⟨ho, hpo, ihb hb ((List.prefix_append _ _).trans hbody), hc, hpc, ihr hr hrest⟩

end TextTree

/-! ### What a tree does, the machine does -/

section Running
variable {c : MachineSettings} {r : Routine} {s : Snapshot} {k i : Nat}

theorem runFor_stray {o : Op} (ho : r.ops[k]? = some ⟨o, i⟩) (hb : o.isBracket = false)
    (hs : s.exec? c.width c.pointerMode o = none) (fuel : Nat) :
    runFor c r (fuel + 1) (s.resume k) =
      (.failed (.pointerOutOfBounds i s.tape.size), s.resume k) := by
  obtain ⟨hk, hop⟩ := Array.getElem?_eq_some_iff.mp ho
  have hstep : step c r ⟨o, i⟩ (s.resume k) =
      .error (.pointerOutOfBounds i s.tape.size, s.resume k) := by
    cases o with
    | enter | leave => cases hb
    | inc | dec | negate | write => cases hs
    | read =>
      obtain ⟨tape, pointer, input, output, executed⟩ := s
      cases input <;> cases hs
    | left =>
      by_cases h : s.pointer > 0 <;> cases hm : c.pointerMode <;>
        simp_all [Snapshot.exec?, step, Snapshot.resume]
    | right =>
      by_cases h : s.pointer + 1 < s.tape.size <;> cases hm : c.pointerMode <;>
        simp_all [Snapshot.exec?, step, Snapshot.resume]
  have hcounter : (s.resume k).counter < r.ops.size := hk
  rw [runFor, dif_pos hcounter]
  simp only [Snapshot.resume, hop] at hstep ⊢
  rw [hstep]

/-- **What follows an outcome** at an index, with some operations left. -/
def Outcome.After (c : MachineSettings) (r : Routine) (k fuel : Nat) :
    Outcome → Ending × RunState → Prop
  | finished t, x => x = runFor c r fuel (t.resume k)
  | strayed p t, x => ∃ j, x = (.failed (.pointerOutOfBounds p t.tape.size), t.resume j)

/-- **What a tree does, the machine does** in as many operations. -/
theorem TextTree.Runs.after {t : TextTree} {n : Nat} {o : Outcome}
    (h : t.Runs c.width c.pointerMode i s n o) : ∀ k, t.Placed r k i → ∀ fuel,
      o.After c r (k + t.size) fuel (runFor c r (n + fuel) (s.resume k)) := by
  induction h with
  | done => intro k _ fuel; rw [Nat.zero_add]; rfl
  | skip hc _ ih =>
    intro k hp fuel
    rw [TextTree.size_char_none hc]
    exact ih k ((TextTree.placed_char_none hc _).mp hp) fuel
  | op hc ht _ ih =>
    intro k hp fuel
    obtain ⟨hb, ho, hp⟩ := (TextTree.placed_char_some hc _).mp hp
    rw [TextTree.size_char_some hc, Nat.add_right_comm,
      runFor_op (by simp [Routine.op?, ho]) hb ht, Nat.add_comm _ 1, ← Nat.add_assoc]
    exact ih (k + 1) hp fuel
  | stray hc hs =>
    intro k hp fuel
    obtain ⟨hb, ho, -⟩ := (TextTree.placed_char_some hc _).mp hp
    exact ⟨k, by rw [Nat.add_comm]; exact runFor_stray ho hb hs fuel⟩
  | @leave i n body rest s o h0 _ ih =>
    rintro k ⟨ho, hpo, -, -, -, hr⟩ fuel
    rw [Nat.add_right_comm, runFor_enter ho, if_pos h0, hpo, TextTree.size_loop,
      show k + (body.size + rest.size + 2) = k + body.size + 2 + rest.size by omega]
    exact ih _ hr fuel
  | @again i n m body rest s t o h0 _ hagain ihb iha =>
    rintro k ⟨ho, hpo, hb, hc, hpc, hr⟩ fuel
    have hbody : runFor c r (n + (m + fuel)) (s.tick.resume (k + 1)) =
        runFor c r (m + fuel) (t.resume (k + 1 + body.size)) := ihb _ hb (m + fuel)
    have hloop := iha k ⟨ho, hpo, hb, hc, hpc, hr⟩ fuel
    obtain ⟨m, rfl⟩ := hagain.pos_of_loop
    rw [show n + (m + 1) + 1 + fuel = (n + (m + 1 + fuel)) + 1 by omega, runFor_enter ho,
      if_neg h0, hbody, show k + 1 + body.size = k + body.size + 1 by omega, Nat.add_right_comm m,
      runFor_again ho hpo hc hpc]
    rwa [Nat.add_right_comm m] at hloop
  | inside h0 _ ih =>
    rintro k ⟨ho, -, hb, -, -, -⟩ fuel
    rw [Nat.add_right_comm, runFor_enter ho, if_neg h0]
    exact ih (k + 1) hb fuel

/-- **A run that its limit does not cut short goes as the tree does.** -/
theorem exists_runs (fuel : Nat) : ∀ (t : TextTree) (s : Snapshot) (k i : Nat), t.Placed r k i →
    k + t.size ≤ r.ops.size → (runFor c r fuel (s.resume k)).1 ≠ .halted →
      ∃ n ≤ fuel, ∃ o, t.Runs c.width c.pointerMode i s n o := by
  -- the induction is on the operations left, and on the tree where a character is no operation
  induction fuel using Nat.strongRecOn with
  | ind fuel ih =>
    intro t
    induction t with
    | done => intro s k i _ _ _; exact ⟨0, Nat.zero_le _, _, .done⟩
    | char x rest ihr =>
      intro s k i hp hk hend
      cases hx : Op.ofChar? x with
      | none =>
        rw [TextTree.size_char_none hx] at hk
        obtain ⟨n, hn, o, h⟩ := ihr s k (i + 1) ((TextTree.placed_char_none hx _).mp hp) hk hend
        exact ⟨n, hn, o, .skip hx h⟩
      | some a =>
        obtain ⟨hb, ho, hp⟩ := (TextTree.placed_char_some hx _).mp hp
        have hop : r.op? k = some a := by simp [Routine.op?, ho]
        rw [TextTree.size_char_some hx] at hk
        rcases fuel with _ | fuel
        · rw [runFor_zero (lt_size_of_op? hop)] at hend; exact absurd rfl hend
        cases ht : s.exec? c.width c.pointerMode a with
        | none => exact ⟨1, by omega, _, .stray hx ht⟩
        | some t =>
          rw [runFor_op hop hb ht] at hend
          obtain ⟨n, hn, o, h⟩ := ih fuel (by omega) rest t (k + 1) (i + 1) hp (by omega) hend
          exact ⟨n + 1, by omega, o, .op hx ht h⟩
    | loop body rest _ _ =>
      intro s k i hp hk hend
      have hloop := hp
      obtain ⟨ho, hpo, hb, hc, hpc, hr⟩ := hloop
      rw [TextTree.size_loop] at hk
      rcases fuel with _ | fuel
      · rw [runFor_zero (lt_size_of_op? ho)] at hend; exact absurd rfl hend
      rw [runFor_enter ho] at hend
      by_cases h0 : s.cell = 0
      · rw [if_pos h0, hpo] at hend
        obtain ⟨n, hn, o, h⟩ := ih fuel (by omega) rest s.tick _ _ hr (by omega) hend
        exact ⟨n + 1, by omega, o, .leave h0 h⟩
      rw [if_neg h0] at hend
      obtain ⟨n, hn, o, h⟩ := ih fuel (by omega) body s.tick (k + 1) (i + 1) hb (by omega) hend
      cases o with
      | strayed p t => exact ⟨n + 1, by omega, _, .inside h0 h⟩
      | finished t =>
        have hbody : runFor c r (n + (fuel - n)) (s.tick.resume (k + 1)) =
            runFor c r (fuel - n) (t.resume (k + 1 + body.size)) := h.after _ hb (fuel - n)
        rw [show n + (fuel - n) = fuel by omega,
          show k + 1 + body.size = k + body.size + 1 by omega] at hbody
        rw [hbody] at hend
        obtain ⟨m, hm⟩ : ∃ m, fuel - n = m + 1 := by
          rcases hm : fuel - n with _ | m
          · rw [hm, runFor_zero (lt_size_of_op? hc)] at hend; exact absurd rfl hend
          · exact ⟨m, rfl⟩
        rw [hm, runFor_again ho hpo hc hpc] at hend
        obtain ⟨m', hm', o, h'⟩ := ih (m + 1) (by omega) (.loop body rest) t k i hp
          (by rw [TextTree.size_loop]; exact hk) hend
        exact ⟨n + m' + 1, by omega, o, .again h0 h h'⟩

end Running

/-! ### Counting operations -/

theorem Snapshot.executed_of_exec? {w : CellWidth} {mode : PointerMode} {s t : Snapshot} {o : Op}
    (h : s.exec? w mode o = some t) : t.executed = s.executed + 1 := by
  unfold Snapshot.exec? at h
  split at h
  case h_4 | h_5 => split_ifs at h <;> cases h <;> rfl
  case h_7 => split at h <;> cases h <;> rfl
  all_goals cases h
  all_goals rfl

/-- A tree that ends has executed **as many operations as it took**. -/
theorem TextTree.Runs.executed {w : CellWidth} {mode : PointerMode} {i n : Nat} {t : TextTree}
    {s : Snapshot} {o : Outcome} (h : t.Runs w mode i s n o) :
    ∀ u, o = .finished u → u.executed = s.executed + n := by
  induction h with
  | done => rintro u ⟨⟩; rfl
  | skip _ _ ih => exact ih
  | op _ ht _ ih =>
    intro u hu
    rw [ih u hu, Snapshot.executed_of_exec? ht]
    omega
  | stray | inside => intro u hu; cases hu
  | @leave _ _ _ _ s _ _ _ ih =>
    intro u hu
    have hs : s.tick.executed = s.executed + 1 := rfl
    rw [ih u hu, hs]
    omega
  | @again _ _ _ _ _ s _ _ _ _ _ ihb iha =>
    intro u hu
    have hs : s.tick.executed = s.executed + 1 := rfl
    rw [iha u hu, ihb _ rfl, hs]
    omega

/-! ### Cells and pointer -/

/-- The cells are **below the modulus** and the pointer is **on the tape** of some cells. -/
structure OnTape (w : CellWidth) (size : Nat) (tape : Array Nat) (pointer : Nat) : Prop where
  length : tape.size = size
  pointer : pointer < size
  cells : ∀ v ∈ tape, v < pow2 w.bits

namespace OnTape
variable {w : CellWidth} {size : Nat} {tape : Array Nat} {pointer : Nat}

theorem start (w : CellWidth) (h : 0 < size) : OnTape w size (Array.replicate size 0) 0 where
  length := Array.size_replicate
  pointer := h
  cells v hv := by
    rw [Array.mem_replicate] at hv
    rw [hv.2]
    exact pow2_pos _

theorem set (h : OnTape w size tape pointer) (v : Nat) :
    OnTape w size (tape.setIfInBounds pointer (v % w.modulus)) pointer where
  length := by rw [Array.size_setIfInBounds, h.length]
  pointer := h.pointer
  cells u hu := by
    rcases Array.mem_or_eq_of_mem_setIfInBounds hu with hu | rfl
    · exact h.cells u hu
    · have := Nat.mod_lt v w.modulus_pos
      rw [w.modulus_eq] at this ⊢
      exact this

theorem goTo (h : OnTape w size tape pointer) {q : Nat} (hq : q < size) : OnTape w size tape q :=
  ⟨h.length, hq, h.cells⟩

theorem step {c : MachineSettings} {r : Routine} {a : Sited} {s : RunState}
    (h : OnTape c.width size s.tape s.pointer) :
    (∀ t, step c r a s = .ok t → OnTape c.width size t.tape t.pointer) ∧
      ∀ f t, step c r a s = .error (f, t) → OnTape c.width size t.tape t.pointer := by
  obtain ⟨tape, pointer, counter, input, output, executed⟩ := s
  have hlen := h.length
  have hptr := h.pointer
  obtain ⟨o, position⟩ := a
  unfold TapeCompiler.step
  simp only at h hlen hptr ⊢
  cases o with
  | inc | dec | negate =>
    refine ⟨?_, fun _ _ h => by cases h⟩
    rintro _ ⟨⟩
    exact h.set _
  | write | enter | leave =>
    refine ⟨?_, fun _ _ h => by cases h⟩
    rintro _ ⟨⟩
    exact h
  | read =>
    cases input with
    | nil =>
      refine ⟨?_, fun _ _ h => by cases h⟩
      rintro _ ⟨⟩
      simpa using h.set 0
    | cons byte rest =>
      refine ⟨?_, fun _ _ h => by cases h⟩
      rintro _ ⟨⟩
      exact h.set _
  | left =>
    simp only
    split_ifs with hmove
    · refine ⟨?_, fun _ _ h => by cases h⟩
      rintro _ ⟨⟩
      exact h.goTo (show pointer - 1 < size by omega)
    · cases c.pointerMode with
      | wrap =>
        refine ⟨?_, fun _ _ h => by cases h⟩
        rintro _ ⟨⟩
        exact h.goTo (show tape.size - 1 < size by omega)
      | strict => exact ⟨fun _ h => (by cases h), by rintro _ _ ⟨⟩; exact h⟩
  | right =>
    simp only
    split_ifs with hmove
    · refine ⟨?_, fun _ _ h => by cases h⟩
      rintro _ ⟨⟩
      exact h.goTo (show pointer + 1 < size by omega)
    · cases c.pointerMode with
      | wrap =>
        refine ⟨?_, fun _ _ h => by cases h⟩
        rintro _ ⟨⟩
        exact h.goTo (show 0 < size by omega)
      | strict => exact ⟨fun _ h => (by cases h), by rintro _ _ ⟨⟩; exact h⟩

theorem runFor {c : MachineSettings} {r : Routine} (fuel : Nat) : ∀ {s : RunState},
    OnTape c.width size s.tape s.pointer →
      OnTape c.width size (runFor c r fuel s).2.tape (runFor c r fuel s).2.pointer := by
  induction fuel with
  | zero => intro s h; unfold TapeCompiler.runFor; split <;> exact h
  | succ fuel ih =>
    intro s h
    unfold TapeCompiler.runFor
    split
    · next hk =>
      obtain ⟨hok, herror⟩ := h.step (r := r) (a := r.ops[s.counter])
      split
      · next t ht => exact ih (hok t ht)
      · next f t ht => exact herror f t ht
    · exact h

end OnTape

/-! ### Runs of a machine -/

/-- Whether a run was cut short by its limit. -/
def LimitReached (x : Except Fault Execution × Machine) : Prop :=
  ∃ e, x.1 = .ok e ∧ e.halted = true

/-- **What a run shows of an outcome** after some operations. -/
def Outcome.Shown (n : Nat) : Outcome → Except Fault Execution × Machine → Prop
  | finished s, x =>
    (∃ e, x.1 = .ok e ∧ e.halted = false ∧ e.outputCells = s.output.toList ∧ e.operations = n) ∧
      x.2.tape = s.tape ∧ x.2.pointer = s.pointer
  | strayed p s, x =>
    x.1 = .error (.pointerOutOfBounds p s.tape.size) ∧ x.2.tape = s.tape ∧ x.2.pointer = s.pointer

/-- The machine with another operation limit. -/
def Machine.withLimit (m : Machine) (limit : Nat) : Machine :=
  { m with settings := { m.settings with maxOperations := limit } }

/-- What a machine shows of a run that ended in a state. -/
def Machine.ended (m : Machine) : Ending × RunState → Except Fault Execution × Machine
  | (.finished, s) =>
    (.ok (report m.settings.maxOperations false s), ⟨m.settings, s.tape, s.pointer⟩)
  | (.halted, s) =>
    (.ok (report m.settings.maxOperations true s), ⟨m.settings, s.tape, s.pointer⟩)
  | (.failed f, s) => (.error f, ⟨m.settings, s.tape, s.pointer⟩)

theorem Machine.run_eq_ended {m : Machine} (hc : m.settings.check = .ok ()) {t : TextTree}
    (ht : t.Proper) {code : String} (htext : t.text = code.toList) (input : List UInt8) :
    ∃ r : Routine, t.Placed r 0 0 ∧ r.ops.size = t.size ∧
      m.run code input = m.ended (runFor m.settings r m.settings.maxOperations
        ((Snapshot.start m.tape.size input).resume 0)) := by
  have hops : operations code.toList = operationsFrom 0 t.text := by rw [htext]; rfl
  have hflow : (operations code.toList).map Sited.op = t.flow.ops := by
    rw [map_op_operations, TextTree.ops_flow, htext]
  obtain ⟨p, hp, hpl⟩ := Flow.partners_placed (TextTree.wellFormed_flow ht) hflow
  refine ⟨⟨(operations code.toList).toArray, p⟩, TextTree.placed_of_flow t hpl ?_, ?_, ?_⟩
  · show operationsFrom 0 t.text <+: operations code.toList
    exact hops ▸ List.prefix_rfl
  · rw [List.size_toArray, hops, TextTree.length_operationsFrom]
  · have hstart : (Snapshot.start m.tape.size input).resume 0 =
        ⟨Array.replicate m.tape.size 0, 0, 0, input, #[], 0⟩ := rfl
    rw [hstart]
    unfold Machine.run
    simp only [hc, hp]
    generalize runFor m.settings _ _ _ = x
    obtain ⟨ending, s⟩ := x
    cases ending <;> rfl

section Machines
variable {m : Machine} {code : String} {t : TextTree}

/-- **A run that its limit does not cut short** is one of the tree, in so many operations. -/
theorem runs_of_not_limitReached (hc : m.settings.check = .ok ()) (ht : t.Proper)
    (htext : t.text = code.toList) {input : List UInt8} (h : ¬ LimitReached (m.run code input)) :
    ∃ n ≤ m.settings.maxOperations, ∃ o,
      t.Runs m.settings.width m.settings.pointerMode 0 (.start m.tape.size input) n o := by
  obtain ⟨r, hp, hsize, hrun⟩ := Machine.run_eq_ended hc ht htext input
  refine exists_runs (c := m.settings) _ t (.start m.tape.size input) 0 0 hp (by omega)
    fun hend => h ?_
  generalize runFor m.settings r _ _ = x at hrun hend
  obtain ⟨ending, s⟩ := x
  obtain rfl : ending = .halted := hend
  exact ⟨_, congrArg Prod.fst hrun, rfl⟩

/-- **A run of the tree** that the limit leaves room for is what the machine shows. -/
theorem shown_of_runs (hc : m.settings.check = .ok ()) (ht : t.Proper)
    (htext : t.text = code.toList) {input : List UInt8} {n : Nat} {o : Outcome}
    (hn : n ≤ m.settings.maxOperations)
    (h : t.Runs m.settings.width m.settings.pointerMode 0 (.start m.tape.size input) n o) :
    o.Shown n (m.run code input) := by
  obtain ⟨r, hp, hsize, hrun⟩ := Machine.run_eq_ended hc ht htext input
  have hafter := h.after (c := m.settings) (r := r) 0 hp (m.settings.maxOperations - n)
  rw [show n + (m.settings.maxOperations - n) = m.settings.maxOperations by omega] at hafter
  cases o with
  | finished s =>
    have hend : runFor m.settings r m.settings.maxOperations
        ((Snapshot.start m.tape.size input).resume 0) = (.finished, s.resume (0 + t.size)) :=
      hafter.trans (runFor_end (by simp [Snapshot.resume, hsize]) _)
    have hops : s.executed = n := by rw [h.executed s rfl]; exact Nat.zero_add n
    rw [hrun, hend]
    exact ⟨⟨_, rfl, rfl, rfl, hops⟩, rfl, rfl⟩
  | strayed p s =>
    obtain ⟨j, hend⟩ := hafter
    rw [hrun, hend]
    exact ⟨rfl, rfl, rfl⟩

theorem not_limitReached_of_shown {n : Nat} {o : Outcome} {x : Except Fault Execution × Machine}
    (h : o.Shown n x) : ¬ LimitReached x := by
  rintro ⟨e, he, hhalt⟩
  cases o with
  | finished s =>
    obtain ⟨⟨e', he', hfalse, -⟩, -⟩ := h
    obtain rfl : e = e' := Except.ok.inj (he.symm.trans he')
    rw [hfalse] at hhalt
    cases hhalt
  | strayed p s =>
    have hfault := h.1
    rw [he] at hfault
    cases hfault

theorem onTape_run (hc : m.settings.check = .ok ()) (hm : 0 < m.tape.size) (ht : t.Proper)
    (htext : t.text = code.toList) (input : List UInt8) :
    OnTape m.settings.width m.tape.size (m.run code input).2.tape (m.run code input).2.pointer := by
  obtain ⟨r, -, -, hrun⟩ := Machine.run_eq_ended hc ht htext input
  have hstart : OnTape m.settings.width m.tape.size
      ((Snapshot.start m.tape.size input).resume 0).tape 0 := .start _ hm
  have hend := OnTape.runFor (r := r) m.settings.maxOperations hstart
  rw [hrun]
  generalize TapeCompiler.runFor m.settings r _ _ = x at hend
  obtain ⟨ending, s⟩ := x
  cases ending <;> exact hend

theorem check_withLimit (hc : m.settings.check = .ok ()) {limit : Nat} (hl : 0 < limit) :
    (m.withLimit limit).settings.check = .ok () := by
  have hsize : m.settings.tapeSize ≠ 0 := by
    intro h0
    rw [MachineSettings.check, if_pos h0] at hc
    cases hc
  rw [MachineSettings.check, if_neg (show ¬ (m.withLimit limit).settings.tapeSize = 0 from hsize),
    if_neg (show ¬ (m.withLimit limit).settings.maxOperations = 0 from Nat.pos_iff_ne_zero.mp hl)]

/-- **The machine does what the loops say.** A balanced text is that of a tree. Whatever the input,
the cells, the width and the pointer mode are, a run is cut short by its limit exactly if the tree
takes more operations; else it shows the outcome of the tree: the cells it writes, its tape, its
pointer and its number of operations, or the position of the character that leaves the tape. At
every moment, which is where a run under a smaller limit stops, the cells are below the modulus and
the pointer is on the tape. -/
theorem run_follows_loops (hc : m.settings.check = .ok ()) (hm : 0 < m.tape.size)
    (hb : Balanced code) (input : List UInt8) :
    (∃ t : TextTree, t.Proper ∧ t.text = code.toList) ∧
    (∀ t : TextTree, t.Proper → t.text = code.toList →
      (¬ LimitReached (m.run code input) ↔ ∃ n ≤ m.settings.maxOperations, ∃ o,
        t.Runs m.settings.width m.settings.pointerMode 0 (.start m.tape.size input) n o) ∧
      ∀ n ≤ m.settings.maxOperations, ∀ o,
        t.Runs m.settings.width m.settings.pointerMode 0 (.start m.tape.size input) n o →
          o.Shown n (m.run code input)) ∧
    ∀ limit > 0, OnTape m.settings.width m.tape.size ((m.withLimit limit).run code input).2.tape
      ((m.withLimit limit).run code input).2.pointer := by
  obtain ⟨t, ht, htext⟩ := TextTree.exists_of_balanced hb
  refine ⟨⟨t, ht, htext⟩, fun t ht htext => ⟨⟨runs_of_not_limitReached hc ht htext, ?_⟩,
    fun n hn o h => shown_of_runs hc ht htext hn h⟩, fun limit hl => ?_⟩
  · rintro ⟨n, hn, o, h⟩
    exact not_limitReached_of_shown (shown_of_runs hc ht htext hn h)
  · exact onTape_run (check_withLimit hc hl) hm ht htext input

end Machines

/-- The tree of `+[ab>+]`. -/
def strayingTree : TextTree :=
  .char '+' (.loop (.char 'a' (.char 'b' (.char '>' (.char '+' .done)))) .done)

/-- On two cells a strict machine goes round the loop of `+[ab>+]` once and leaves the tape in the
second round, at the fifth character. -/
theorem run_follows_loops_of_stray :
    (⟨2, .bits8, 20, .strict⟩ : MachineSettings).check = .ok () ∧ Balanced "+[ab>+]" ∧
      Outcome.Shown 6 (.strayed 4 ⟨#[1, 1], 1, [], #[], 5⟩)
        ((Machine.new ⟨2, .bits8, 20, .strict⟩).run "+[ab>+]" []) := by
  have htext : strayingTree.text = "+[ab>+]".toList := by decide
  have ht : strayingTree.Proper := by simp [strayingTree, TextTree.Proper]
  have hb : Balanced "+[ab>+]" := balanced_of_ops (TextTree.wellFormed_flow ht)
    (by rw [TextTree.ops_flow, htext]; rfl)
  have hruns : strayingTree.Runs .bits8 .strict 0 (.start 2 []) 6
      (.strayed 4 ⟨#[1, 1], 1, [], #[], 5⟩) := by
    have hround : TextTree.Runs .bits8 .strict 2 (.char 'a' (.char 'b' (.char '>' (.char '+' .done))))
        ⟨#[1, 0], 0, [], #[], 2⟩ 2 (.finished ⟨#[1, 1], 1, [], #[], 4⟩) :=
      .skip rfl (.skip rfl (.op rfl rfl (.op rfl rfl .done)))
    have hstray : TextTree.Runs .bits8 .strict 2 (.char 'a' (.char 'b' (.char '>' (.char '+' .done))))
        ⟨#[1, 1], 1, [], #[], 5⟩ 1 (.strayed 4 ⟨#[1, 1], 1, [], #[], 5⟩) :=
      .skip rfl (.skip rfl (.stray rfl rfl))
    have hfirst : Snapshot.cell ⟨#[1, 0], 0, [], #[], 1⟩ ≠ 0 := by decide
    have hsecond : Snapshot.cell ⟨#[1, 1], 1, [], #[], 4⟩ ≠ 0 := by decide
    exact .op rfl rfl (.again hfirst hround (.inside hsecond hstray))
  exact ⟨rfl, hb, ((run_follows_loops (m := Machine.new ⟨2, .bits8, 20, .strict⟩) rfl (by decide) hb
    []).2.1 strayingTree ht htext).2 6 (by decide) _ hruns⟩

end TapeCompiler
