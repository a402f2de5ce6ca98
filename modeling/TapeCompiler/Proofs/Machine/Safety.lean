import TapeCompiler.Proofs.Machine.Completion

/-! # Runs that stay on the tape

A flow **tracks** a tape (`Flow.Tracks`) if the cell that the pointer is on is known at every
operation, is a cell of the tape, and is the same before and after the body of every loop. The
number of rounds does not matter then, and a strict machine runs the flow without a fault
(`safe_of_tracks`).

The brackets of the text of a flow are balanced (`balanced_of_ops`), so the search for partners
finds no fault either. -/

namespace TapeCompiler

/-! ### Faults of the code -/

/-- A fault of a run that **the code is to blame for**: the pointer left the tape, or a bracket has
no partner. -/
def Fault.OfCode (f : Fault) : Prop :=
  (∃ position cells, f = .pointerOutOfBounds position cells) ∨
    ∃ bracket position, f = .unmatchedBracket bracket position

/-- The brackets of a code are **balanced**: up to no character more are closed than were opened,
and at the end as many. -/
structure Balanced (code : String) : Prop where
  opened : ∀ n, (code.toList.take n).count ']' ≤ (code.toList.take n).count '['
  closed : code.toList.count ']' = code.toList.count '['

/-! ### Balance -/

namespace Flow

theorem balanced_ops {f : Flow} (hf : f.WellFormed) :
    (∀ n, (f.ops.take n).count .leave ≤ (f.ops.take n).count .enter) ∧
      f.ops.count .leave = f.ops.count .enter := by
  induction f with
  | done => simp [ops]
  | op o rest ih =>
    obtain ⟨hn, he⟩ := ih hf.2
    have hleave : o ≠ .leave := by rintro rfl; cases hf.1
    have henter : o ≠ .enter := by rintro rfl; cases hf.1
    refine ⟨fun n => ?_, ?_⟩
    · cases n with
      | zero => simp
      | succ n =>
        rw [ops, List.take_succ_cons, List.count_cons_of_ne hleave, List.count_cons_of_ne henter]
        exact hn n
    · rw [ops, List.count_cons_of_ne hleave, List.count_cons_of_ne henter, he]
  | loop body rest ihb ihr =>
    obtain ⟨hbn, hbe⟩ := ihb hf.1
    obtain ⟨hrn, hre⟩ := ihr hf.2
    refine ⟨fun n => ?_, ?_⟩
    · cases n with
      | zero => simp
      | succ n =>
        rw [ops, List.cons_append, List.take_succ_cons, List.take_append]
        simp only [List.count_cons, List.count_append]
        -- the closing bracket is met behind the whole body only
        cases hm : n - body.ops.length with
        | zero =>
          have := hbn n
          simp only [List.take_zero, List.count_nil]
          grind
        | succ m =>
          have := hrn m
          rw [List.take_of_length_le (show body.ops.length ≤ n by omega), List.take_succ_cons]
          simp only [List.count_cons]
          grind
    · simp only [ops, List.cons_append, List.count_cons, List.count_append]
      grind

end Flow

theorem char_of_ofChar? {c : Char} {o : Op} (h : Op.ofChar? c = some o) : o.char = c := by
  unfold Op.ofChar? at h
  split at h <;> cases h <;> rfl

theorem count_char (l : List Char) (o : Op) :
    l.count o.char = (l.filterMap Op.ofChar?).count o := by
  induction l with
  | nil => rfl
  | cons c l ih =>
    have hc : Op.ofChar? c = some o ↔ c = o.char :=
      ⟨fun h => (char_of_ofChar? h).symm, fun h => h ▸ Op.ofChar?_char o⟩
    rw [List.count_cons, List.filterMap_cons, ih]
    cases h : Op.ofChar? c with
    | none => simp_all
    | some q => rw [List.count_cons]; simp_all

/-- **The text of a flow is balanced.** -/
theorem balanced_of_ops {code : String} {f : Flow} (hf : f.WellFormed) (h : opsOf code = f.ops) :
    Balanced code := by
  obtain ⟨hn, he⟩ := Flow.balanced_ops hf
  refine ⟨fun n => ?_, ?_⟩
  · have hpre := (List.take_prefix n code.toList).filterMap Op.ofChar?
    rw [List.prefix_iff_eq_take, show code.toList.filterMap Op.ofChar? = f.ops from h] at hpre
    rw [show ']' = Op.leave.char from rfl, show '[' = Op.enter.char from rfl, count_char,
      count_char, hpre]
    exact hn _
  · rw [show ']' = Op.leave.char from rfl, show '[' = Op.enter.char from rfl, count_char,
      count_char, show code.toList.filterMap Op.ofChar? = f.ops from h, he]

/-! ### Tracking -/

namespace Flow

/-- A flow **tracks a tape** from a cell to a cell. -/
def Tracks (size : Nat) : Flow → Nat → Nat → Prop
  | done, p, q => p = q
  | op .right rest, p, q => p + 1 < size ∧ rest.Tracks size (p + 1) q
  | op .left rest, p, q => 0 < p ∧ rest.Tracks size (p - 1) q
  | op _ rest, p, q => rest.Tracks size p q
  | loop body rest, p, q => body.Tracks size p p ∧ rest.Tracks size p q

variable {size p q m : Nat}

theorem Tracks.append {f g : Flow} (hf : f.Tracks size p q) (hg : g.Tracks size q m) :
    (f ++ g).Tracks size p m := by
  induction f generalizing p with
  | done => obtain rfl : p = q := hf; exact hg
  | op o rest ih =>
    cases o with
    | left | right => exact ⟨hf.1, ih hf.2⟩
    | _ => exact ih hf
  | loop body rest _ ih => exact ⟨hf.1, ih hf.2⟩

end Flow

section Steps
variable {w : CellWidth} {mode : PointerMode}

theorem exec?_of_tracks {o : Op} (ho : o.isBracket = false) {rest : Flow} {s : Snapshot} {q : Nat}
    (h : (Flow.op o rest).Tracks s.tape.size s.pointer q) :
    ∃ t, s.exec? w mode o = some t ∧ t.tape.size = s.tape.size ∧
      rest.Tracks s.tape.size t.pointer q := by
  cases o with
  | enter | leave => cases ho
  | right => exact ⟨s.goTo (s.pointer + 1), by rw [Snapshot.exec?, if_pos h.1], rfl, h.2⟩
  | left => exact ⟨s.goTo (s.pointer - 1), by rw [Snapshot.exec?, if_pos h.1], rfl, h.2⟩
  | inc | dec | negate => exact ⟨_, rfl, by simp [Snapshot.put], h⟩
  | write => exact ⟨_, rfl, rfl, h⟩
  | read =>
    obtain ⟨tape, pointer, input, output, executed⟩ := s
    cases input with
    | nil => exact ⟨_, rfl, by simp [Snapshot.put], h⟩
    | cons b l => exact ⟨_, rfl, by simp [Snapshot.put], h⟩

end Steps

section Running
variable {c : MachineSettings} {r : Routine}

/-- A run that does not fail. -/
def Unfailing (c : MachineSettings) (r : Routine) (fuel : Nat) (s : RunState) : Prop :=
  ∀ f, (runFor c r fuel s).1 ≠ .failed f

theorem unfailing_zero (s : RunState) : Unfailing c r 0 s := by
  intro f
  unfold runFor
  split <;> exact Ending.noConfusion

/-- **A flow that tracks the tape does not fail**, if what stands behind it does not. -/
theorem unfailing_of_tracks {size : Nat} (fuel : Nat) : ∀ (f : Flow) (s : Snapshot) (i q : Nat),
    f.Placed r i → s.tape.size = size → f.Tracks size s.pointer q →
      (∀ k ≤ fuel, ∀ t : Snapshot, t.tape.size = size → t.pointer = q →
        Unfailing c r k (t.resume (i + f.size))) → Unfailing c r fuel (s.resume i) := by
  -- the induction is on the operations left: a further round of a loop has fewer of them
  induction fuel using Nat.strongRecOn with
  | ind fuel ih =>
    intro f s i q hp hs htr hthen
    rcases fuel with _ | fuel
    · exact unfailing_zero _
    cases f with
    | done => exact hthen _ (Nat.le_refl _) s hs htr
    | op o rest =>
      obtain ⟨hb, ho, hp⟩ := hp
      subst hs
      obtain ⟨t, ht, hsize, hrest⟩ := exec?_of_tracks hb htr
      unfold Unfailing
      rw [runFor_op ho hb ht]
      refine ih fuel (Nat.lt_succ_self _) rest t (i + 1) q hp hsize hrest fun k hk u hu hq => ?_
      rw [show i + 1 + rest.size = i + (Flow.op o rest).size by rw [Flow.size_op]; omega]
      exact hthen k (by omega) u hu hq
    | loop body rest =>
      obtain ⟨ho, hpi, hb, hc, hpc, hr⟩ := hp
      have hsize : (Flow.loop body rest).size = body.size + rest.size + 2 := Flow.size_loop _ _
      unfold Unfailing
      rw [runFor_enter ho]
      split_ifs with h0
      · rw [hpi]
        refine ih fuel (Nat.lt_succ_self _) rest s.tick _ q hr hs htr.2 fun k hk u hu hq => ?_
        rw [show i + body.size + 1 + 1 + rest.size = i + (Flow.loop body rest).size by omega]
        exact hthen k (by omega) u hu hq
      refine ih fuel (Nat.lt_succ_self _) body s.tick (i + 1) s.pointer hb hs htr.1
        fun k hk t ht hpt => ?_
      rcases k with _ | k
      · exact unfailing_zero _
      rw [show i + 1 + body.size = i + body.size + 1 by omega]
      unfold Unfailing
      rw [runFor_again ho hpi hc hpc]
      exact ih (k + 1) (by omega) (.loop body rest) t i q ⟨ho, hpi, hb, hc, hpc, hr⟩ ht (hpt ▸ htr)
        fun k' hk' => hthen k' (by omega)

/-- **A flow that tracks the tape runs without a fault of the code**, on every input and under
every limit. -/
theorem safe_of_tracks {f : Flow} {code : String} {size q : Nat} (hf : f.WellFormed)
    (hops : opsOf code = f.ops) (hs : 0 < size) (htr : f.Tracks size 0 q) (w : CellWidth)
    (mode : PointerMode) (limit : Nat) (input : List UInt8) {e : Fault} {m : Machine}
    (h : (Machine.new ⟨size, w, limit, mode⟩).run code input = (.error e, m)) : ¬ e.OfCode := by
  rcases Nat.eq_zero_or_pos limit with rfl | hl
  · have hc : (⟨size, w, 0, mode⟩ : MachineSettings).check =
        .error (.badSetting .noOperations) := by
      unfold MachineSettings.check
      rw [if_neg (show ¬ size = 0 by omega), if_pos rfl]
    simp only [Machine.run, Machine.new, hc, Prod.mk.injEq, Except.error.injEq] at h
    obtain ⟨rfl, -⟩ := h
    rintro (⟨_, _, h⟩ | ⟨_, _, h⟩) <;> cases h
  · obtain ⟨r, hp, hsize, hrun⟩ := run_eq w mode input hf hops hs hl
    have hend :
        Unfailing ⟨size, w, limit, mode⟩ r limit ((Snapshot.start size input).resume 0) := by
      refine unfailing_of_tracks limit f _ 0 q hp (Array.size_replicate ..) htr
        fun k _ t _ _ g => ?_
      have hout : ¬ (t.resume (0 + f.size)).counter < r.ops.size := by simp [Snapshot.resume, hsize]
      cases k <;> simp only [runFor, hout] <;> exact Ending.noConfusion
    rw [hrun] at h
    revert h
    cases hfin : runFor ⟨size, w, limit, mode⟩ r limit ((Snapshot.start size input).resume 0) with
    | mk ending s =>
      cases ending with
      | finished | halted => intro h; cases h
      | failed g => exact absurd (congrArg Prod.fst hfin) (hend g)

end Running

end TapeCompiler
