import TapeCompiler.Proofs.Machine.TapeEnds
import TapeCompiler.Proofs.Tape.Flowing

/-! # The moments of a run

What a flow does is told from its start to its end; `Flow.Meets` tells what happens **on the way**:
an operation is executed on a cell that holds some number. The moments of a machine that executes a
flow are those that the flow meets (`meets_of_at`), also when the flow has no end. -/

namespace TapeCompiler

variable {w : CellWidth} {mode : PointerMode}

/-- On its way a flow **executes an operation on a cell** that holds a number. Brackets are left
out: they change no cell. -/
inductive Flow.Meets (w : CellWidth) (mode : PointerMode) : Flow → Snapshot → Nat → Op → Prop
  | here {o : Op} {rest : Flow} {s : Snapshot} : Meets w mode (.op o rest) s s.cell o
  | behind {o q : Op} {rest : Flow} {s t : Snapshot} {v : Nat} :
    s.exec? w mode o = some t → Meets w mode rest t v q → Meets w mode (.op o rest) s v q
  | past {q : Op} {body rest : Flow} {s : Snapshot} {v : Nat} :
    s.cell = 0 → Meets w mode rest s.tick v q → Meets w mode (.loop body rest) s v q
  | inside {q : Op} {body rest : Flow} {s : Snapshot} {v : Nat} :
    s.cell ≠ 0 → Meets w mode body s.tick v q → Meets w mode (.loop body rest) s v q
  | again {q : Op} {body rest : Flow} {s t : Snapshot} {v n : Nat} :
    s.cell ≠ 0 → body.Runs w mode s.tick n t → Meets w mode (.loop body rest) t v q →
      Meets w mode (.loop body rest) s v q

namespace Flow

variable {f g : Flow} {s : Snapshot} {v : Nat} {q : Op}

/-- What a flow meets that goes on with another is met **before the first ends, or behind**. -/
theorem Meets.split {fg : Flow} (h : fg.Meets w mode s v q) : ∀ {f : Flow}, fg = f ++ g →
    f.Meets w mode s v q ∨ ∃ t, f.Reaches w mode s t ∧ g.Meets w mode t v q := by
  induction h with
  | @here o rest s =>
    rintro (_ | _ | _) h
    · cases h; exact .inr ⟨s, ⟨0, .done⟩, .here⟩
    · cases h; exact .inl .here
    · cases h
  | @behind o q rest s t v ht hr ih =>
    rintro (_ | ⟨o', f⟩ | _) h
    · cases h; exact .inr ⟨s, ⟨0, .done⟩, .behind ht hr⟩
    · cases h
      obtain hf | ⟨u, ⟨n, hn⟩, hg⟩ := ih rfl
      · exact .inl (.behind ht hf)
      · exact .inr ⟨u, ⟨n + 1, .op ht hn⟩, hg⟩
    · cases h
  | @past q body rest s v h0 hr ih =>
    rintro (_ | _ | ⟨b, f⟩) h
    · cases h; exact .inr ⟨s, ⟨0, .done⟩, .past h0 hr⟩
    · cases h
    · cases h
      obtain hf | ⟨u, ⟨n, hn⟩, hg⟩ := ih rfl
      · exact .inl (.past h0 hf)
      · exact .inr ⟨u, ⟨n + 1, .skip h0 hn⟩, hg⟩
  | @inside q body rest s v h0 hb ih =>
    rintro (_ | _ | ⟨b, f⟩) h
    · cases h; exact .inr ⟨s, ⟨0, .done⟩, .inside h0 hb⟩
    · cases h
    · cases h; exact .inl (.inside h0 hb)
  | @again q body rest s t v n h0 hb ha ih =>
    rintro (_ | _ | ⟨b, f⟩) h
    · cases h; exact .inr ⟨s, ⟨0, .done⟩, .again h0 hb ha⟩
    · cases h
    · cases h
      obtain hf | ⟨u, ⟨m, hm⟩, hg⟩ := ih (f := .loop body f) rfl
      · exact .inl (.again h0 hb hf)
      · exact .inr ⟨u, ⟨n + m + 1, .again h0 hb hm⟩, hg⟩

theorem meets_append (h : (f ++ g).Meets w mode s v q) :
    f.Meets w mode s v q ∨ ∃ t, f.Reaches w mode s t ∧ g.Meets w mode t v q :=
  h.split rfl

theorem mem_of_meets_ofOps {l : List Op} (h : (ofOps l).Meets w mode s v q) : q ∈ l := by
  induction l generalizing s with
  | nil => cases h
  | cons o l ih =>
    cases h with
    | here => exact List.mem_cons_self ..
    | behind _ h => exact List.mem_cons_of_mem _ (ih h)

end Flow

section Moments
variable {c : MachineSettings} {r : Routine} {s : Snapshot} {u : RunState} {o : Sited} {i m : Nat}

/-! ### One operation -/

theorem eq_of_at_zero {p : Op} (hop : r.op? i = some p) (h : r.At c (s.resume i) 0 u o) :
    u = s.resume i ∧ o.op = p := by
  rw [Routine.At, runFor_zero (lt_size_of_op? hop)] at h
  obtain ⟨hu, hget⟩ := h
  cases hu
  exact ⟨rfl, Option.some.inj ((congrArg (Option.map Sited.op) hget).symm.trans hop)⟩

theorem exists_exec_of_at {p : Op} (hop : r.op? i = some p) (hb : p.isBracket = false)
    (h : r.At c (s.resume i) (m + 1) u o) :
    ∃ t, s.exec? c.width c.pointerMode p = some t ∧ r.At c (t.resume (i + 1)) m u o := by
  cases ht : s.exec? c.width c.pointerMode p with
  | none =>
    have hi := lt_size_of_op? hop
    have hstep := step_resume (c := c) (r := r) (s := s) (i := i) r.ops[i] (by rw [op_getElem hop, hb])
    rw [op_getElem hop, ht] at hstep
    obtain ⟨e, t, he⟩ := hstep
    have hfail := h.1
    rw [runFor_failed hi he] at hfail
    cases hfail
  | some t => exact ⟨t, rfl, by rw [← runFor_op hop hb ht, h.1], h.2⟩

theorem at_of_enter (hop : r.op? i = some .enter) (h : r.At c (s.resume i) (m + 1) u o) :
    r.At c (s.tick.resume ((if s.cell = 0 then r.partner.getD i 0 else i) + 1)) m u o :=
  ⟨by rw [← runFor_enter hop, h.1], h.2⟩

/-! ### Runs -/

/-- A moment of a run from where a flow stands **is met by the flow**, or the flow has ended by then
and the moment belongs to what stands behind it. -/
theorem meets_or_runs_of_at (ho : o.op.isBracket = false) (m : Nat) :
    ∀ {f : Flow} {s : Snapshot} {i : Nat}, f.Placed r i → r.At c (s.resume i) m u o →
      f.Meets c.width c.pointerMode s u.cell o.op ∨
      ∃ n ≤ m, ∃ t, f.Runs c.width c.pointerMode s n t ∧
        r.At c (t.resume (i + f.size)) (m - n) u o := by
  -- a loop is met again after a round, with fewer operations to go
  induction m using Nat.strongRecOn with
  | ind m ih =>
    intro f s i hp ha
    cases f with
    | done => exact .inr ⟨0, Nat.zero_le _, s, .done, ha⟩
    | op p rest =>
      obtain ⟨hb, hop, hp⟩ := hp
      cases m with
      | zero =>
        obtain ⟨rfl, rfl⟩ := eq_of_at_zero hop ha
        exact .inl .here
      | succ m =>
        obtain ⟨t, ht, ha⟩ := exists_exec_of_at hop hb ha
        obtain hmeets | ⟨n, hn, x, hrun, hx⟩ := ih m (Nat.lt_succ_self m) hp ha
        · exact .inl (.behind ht hmeets)
        · refine .inr ⟨n + 1, by omega, x, .op ht hrun, ?_⟩
          rwa [Flow.size_op, Nat.add_sub_add_right,
            show i + (rest.size + 1) = i + 1 + rest.size by omega]
    | loop body rest =>
      have hloop := hp
      obtain ⟨hop, hpi, hbody, hclose, hpc, hrest⟩ := hp
      cases m with
      | zero =>
        rw [(eq_of_at_zero hop ha).2] at ho
        cases ho
      | succ m =>
        have hgo := at_of_enter hop ha
        by_cases h0 : s.cell = 0
        · rw [if_pos h0, hpi] at hgo
          obtain hmeets | ⟨n, hn, x, hrun, hx⟩ := ih m (Nat.lt_succ_self m) hrest hgo
          · exact .inl (.past h0 hmeets)
          · refine .inr ⟨n + 1, by omega, x, .skip h0 hrun, ?_⟩
            rwa [Flow.size_loop, Nat.add_sub_add_right,
              show i + (body.size + rest.size + 2) = i + body.size + 2 + rest.size by omega]
        · rw [if_neg h0] at hgo
          obtain hmeets | ⟨n, hn, t, hrun, ht⟩ := ih m (Nat.lt_succ_self m) hbody hgo
          · exact .inl (.inside h0 hmeets)
          rw [show i + 1 + body.size = i + body.size + 1 by omega] at ht
          -- the round has ended at the closing bracket
          cases hk : m - n with
          | zero =>
            rw [hk] at ht
            rw [(eq_of_at_zero hclose ht).2] at ho
            cases ho
          | succ k =>
            rw [hk] at ht
            have hagain : r.At c (t.resume i) (k + 1) u o :=
              ⟨by rw [← runFor_again hop hpi hclose hpc, ht.1], ht.2⟩
            obtain hmeets | ⟨n', hn', x, hrun', hx⟩ := ih (k + 1) (by omega) hloop hagain
            · exact .inl (.again h0 hrun hmeets)
            · refine .inr ⟨n + n' + 1, by omega, x, .again h0 hrun hrun', ?_⟩
              rwa [show m + 1 - (n + n' + 1) = k + 1 - n' by omega]

/-- **The moments of a routine that is one flow** are those that the flow meets. -/
theorem meets_of_at {f : Flow} (hp : f.Placed r 0) (hsize : r.ops.size = f.size)
    (ho : o.op.isBracket = false) (ha : r.At c (s.resume 0) m u o) :
    f.Meets c.width c.pointerMode s u.cell o.op := by
  obtain hmeets | ⟨n, -, t, -, hend⟩ := meets_or_runs_of_at ho m hp ha
  · exact hmeets
  · rw [Routine.At, Nat.zero_add, ← hsize, runFor_end (Nat.le_refl _)] at hend
    cases hend.1

end Moments

end TapeCompiler
