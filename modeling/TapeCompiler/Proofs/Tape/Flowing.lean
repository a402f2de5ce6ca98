import TapeCompiler.Proofs.Tape.Meaning

/-! # The flow of tape code

The text of code, started on a cell, is the text of a flow (`Code.flow`): the moves between cells
are written out (`moves`), and loops become loops.

* `Flow.reaches_append`: flows compose;
* `Flow.Runs.unique`: a flow has one outcome, after one number of operations;
* `opsOf_write`: the executed symbols of the text of code are those of its flow. -/

namespace TapeCompiler

/-! ### Flows that end -/

/-- A flow ends, in some number of operations. -/
def Flow.Reaches (w : CellWidth) (mode : PointerMode) (f : Flow) (s t : Snapshot) : Prop :=
  ∃ n, f.Runs w mode s n t

/-- Operations without loops, as a flow. -/
def Flow.ofOps : List Op → Flow
  | [] => .done
  | o :: l => .op o (ofOps l)

namespace Flow

variable {w : CellWidth} {mode : PointerMode}

theorem Runs.append {f g : Flow} {s t u : Snapshot} {n m : Nat} (hf : f.Runs w mode s n t)
    (hg : g.Runs w mode t m u) : (f ++ g).Runs w mode s (n + m) u := by
  induction hf with
  | done => simpa using hg
  | op ht _ ih => rw [Nat.add_right_comm]; exact .op ht (ih hg)
  | skip h0 _ ih => rw [Nat.add_right_comm]; exact .skip h0 (ih hg)
  | @again _ _ _ _ _ n k h0 hb _ _ ih =>
    rw [show n + k + 1 + m = n + (k + m) + 1 by omega]
    exact .again h0 hb (ih hg)

theorem Runs.split {g : Flow} {s u : Snapshot} {n : Nat} {fg : Flow} (h : fg.Runs w mode s n u) :
    ∀ {f : Flow}, fg = f ++ g → ∃ t, f.Reaches w mode s t ∧ g.Reaches w mode t u := by
  induction h with
  | @done s =>
    rintro (_ | _ | _) h
    · cases h; exact ⟨s, ⟨0, .done⟩, 0, .done⟩
    all_goals cases h
  | @op o rest s t u n ht hr ih =>
    rintro (_ | ⟨o', f⟩ | _) h
    · cases h; exact ⟨s, ⟨0, .done⟩, n + 1, .op ht hr⟩
    · cases h
      obtain ⟨v, ⟨m, hm⟩, hg⟩ := ih rfl
      exact ⟨v, ⟨m + 1, .op ht hm⟩, hg⟩
    · cases h
  | @skip body rest s u n h0 hr ih =>
    rintro (_ | _ | ⟨b, f⟩) h
    · cases h; exact ⟨s, ⟨0, .done⟩, n + 1, .skip h0 hr⟩
    · cases h
    · cases h
      obtain ⟨v, ⟨m, hm⟩, hg⟩ := ih rfl
      exact ⟨v, ⟨m + 1, .skip h0 hm⟩, hg⟩
  | @again body rest s t u n m h0 hb ha _ ih =>
    rintro (_ | _ | ⟨b, f⟩) h
    · cases h; exact ⟨s, ⟨0, .done⟩, n + m + 1, .again h0 hb ha⟩
    · cases h
    · cases h
      obtain ⟨v, ⟨k, hk⟩, hg⟩ := ih (f := .loop body f) rfl
      exact ⟨v, ⟨n + k + 1, .again h0 hb hk⟩, hg⟩

theorem reaches_append {f g : Flow} {s u : Snapshot} :
    (f ++ g).Reaches w mode s u ↔ ∃ t, f.Reaches w mode s t ∧ g.Reaches w mode t u :=
  ⟨fun ⟨_, h⟩ => h.split rfl, fun ⟨_, ⟨_, hf⟩, _, hg⟩ => ⟨_, hf.append hg⟩⟩

theorem Runs.unique {f : Flow} {s t u : Snapshot} {n m : Nat} (h : f.Runs w mode s n t)
    (h' : f.Runs w mode s m u) : t = u ∧ n = m := by
  induction h generalizing m u with
  | done => cases h'; exact ⟨rfl, rfl⟩
  | op ht _ ih =>
    cases h' with
    | op ht' hr =>
      rw [ht] at ht'
      cases ht'
      obtain ⟨rfl, rfl⟩ := ih hr
      exact ⟨rfl, rfl⟩
  | skip h0 _ ih =>
    cases h' with
    | skip _ hr => obtain ⟨rfl, rfl⟩ := ih hr; exact ⟨rfl, rfl⟩
    | again h0' => exact absurd h0 h0'
  | again h0 _ _ ihb iha =>
    cases h' with
    | skip h0' => exact absurd h0' h0
    | again _ hb ha =>
      obtain ⟨rfl, rfl⟩ := ihb hb
      obtain ⟨rfl, rfl⟩ := iha ha
      exact ⟨rfl, rfl⟩

theorem Reaches.unique {f : Flow} {s t u : Snapshot} (h : f.Reaches w mode s t)
    (h' : f.Reaches w mode s u) : t = u :=
  (h.choose_spec.unique h'.choose_spec).1

theorem reaches_ofOps_cons {o : Op} {l : List Op} {s t u : Snapshot} (h : s.exec? w mode o = some t)
    (hl : (ofOps l).Reaches w mode t u) : (ofOps (o :: l)).Reaches w mode s u :=
  ⟨_, .op h hl.choose_spec⟩

@[simp] theorem ops_ofOps (l : List Op) : (ofOps l).ops = l := by
  induction l with
  | nil => rfl
  | cons o l ih => simp [ofOps, ops, ih]

theorem wellFormed_ofOps {l : List Op} (h : ∀ o ∈ l, o.isBracket = false) :
    (ofOps l).WellFormed := by
  induction l with
  | nil => trivial
  | cons o l ih => exact ⟨h o (by simp), ih fun p hp => h p (by simp [hp])⟩

end Flow

/-! ### The flow of code -/

/-- The moves from a cell to another. -/
def moves (p q : Nat) : List Op :=
  if q > p then List.replicate (q - p) .right else List.replicate (p - q) .left

theorem mem_moves {p q : Nat} {o : Op} (h : o ∈ moves p q) : o = .right ∨ o = .left := by
  unfold moves at h
  split_ifs at h
  · exact Or.inl (List.eq_of_mem_replicate h)
  · exact Or.inr (List.eq_of_mem_replicate h)

namespace Code

/-- The cell the pointer is left on. -/
def last : Code → Nat → Nat
  | skip, p | text _, p => p
  | move a, _ | add a _, _ | sub a _, _ | on a _, _ | loop a _, _ | opening a, _ | closing a, _ => a
  | seq first second, p => second.last (first.last p)

/-- The flow of code that starts on a cell. -/
def flow : Code → Nat → Flow
  | skip, _ | text _, _ | opening _, _ | closing _, _ => .done
  | move a, p => .ofOps (moves p a)
  | add a n, p => .ofOps (moves p a) ++ .ofOps (List.replicate n .inc)
  | sub a n, p => .ofOps (moves p a) ++ .ofOps (List.replicate n .dec)
  | on a o, p => .ofOps (moves p a) ++ .ofOps [o]
  | loop a body, p =>
    .ofOps (moves p a) ++ .loop (body.flow a ++ .ofOps (moves (body.last a) a)) .done
  | seq first second, p => first.flow p ++ second.flow (first.last p)

@[simp] theorem last_append (c d : Code) (p : Nat) : (c ++ d).last p = d.last (c.last p) := rfl

@[simp] theorem flow_append (c d : Code) (p : Nat) :
    (c ++ d).flow p = c.flow p ++ d.flow (c.last p) := rfl

theorem wellFormed_moves (p q : Nat) : (Flow.ofOps (moves p q)).WellFormed :=
  Flow.wellFormed_ofOps fun o h => by rcases mem_moves h with rfl | rfl <;> rfl

theorem wellFormed_flow {P N : Nat → Prop} {c : Code} (hc : c.Within P N) (p : Nat) :
    (c.flow p).WellFormed := by
  induction c generalizing p with
  | skip | text | opening | closing => trivial
  | move => exact wellFormed_moves _ _
  | add | sub =>
    refine Flow.wellFormed_append (wellFormed_moves _ _) (Flow.wellFormed_ofOps fun o h => ?_)
    rw [List.eq_of_mem_replicate h]; rfl
  | on a o =>
    refine Flow.wellFormed_append (wellFormed_moves _ _) ⟨?_, trivial⟩
    rcases hc.2 with rfl | rfl | ⟨rfl, -⟩ <;> rfl
  | loop a body ih =>
    exact Flow.wellFormed_append (wellFormed_moves _ _)
      ⟨Flow.wellFormed_append (ih hc.2 _) (wellFormed_moves _ _), trivial⟩
  | seq first second ih₁ ih₂ => exact Flow.wellFormed_append (ih₁ hc.1 _) (ih₂ hc.2 _)

theorem last_within {P N : Nat → Prop} {c : Code} (hc : c.Within P N) {p : Nat} (hp : P p) :
    P (c.last p) := by
  induction c generalizing p with
  | skip | text => exact hp
  | move | add | sub => exact hc
  | on | loop => exact hc.1
  | opening | closing => exact hc.elim
  | seq first second ih₁ ih₂ => exact ih₂ hc.2 (ih₁ hc.1 hp)

end Code

/-! ### The text of code -/

theorem opsOf_append (s t : String) : opsOf (s ++ t) = opsOf s ++ opsOf t := by
  simp [opsOf]

theorem toList_pushn (s : String) (c : Char) (n : Nat) :
    (s.pushn c n).toList = s.toList ++ List.replicate n c := by
  rw [String.pushn_eq_repeat_push]
  induction n with
  | zero => simp [Nat.repeat]
  | succ n ih => rw [Nat.repeat, String.toList_push, ih, List.append_assoc, List.replicate_succ']

theorem opsOf_push (v : Writer) (o : Op) (n : Nat) :
    opsOf (v.push o.char n).text = opsOf v.text ++ List.replicate n o := by
  unfold opsOf Writer.push
  rw [toList_pushn, List.filterMap_append]
  congr 1
  induction n with
  | zero => rfl
  | succ n ih => rw [List.replicate_succ, List.filterMap_cons, Op.ofChar?_char, ih]; rfl

theorem opsOf_moveTo (v : Writer) (a : Nat) :
    opsOf (v.moveTo a).text = opsOf v.text ++ moves v.pointer a := by
  unfold Writer.moveTo moves
  split_ifs
  · exact opsOf_push v .right _
  · exact opsOf_push v .left _

/-- **The text of code is that of its flow.** -/
theorem opsOf_write {P N : Nat → Prop} {c : Code} (hc : c.Within P N) (v : Writer) :
    opsOf (c.write v).text = opsOf v.text ++ (c.flow v.pointer).ops ∧
      (c.write v).pointer = c.last v.pointer := by
  induction c generalizing v with
  | skip => exact ⟨by simp [Code.write, Code.flow, Flow.ops], rfl⟩
  | move a => exact ⟨by simp [Code.write, Code.flow, opsOf_moveTo], rfl⟩
  | add a n =>
    exact ⟨(opsOf_push (v.moveTo a) .inc n).trans (by simp [Code.flow, opsOf_moveTo]), rfl⟩
  | sub a n =>
    exact ⟨(opsOf_push (v.moveTo a) .dec n).trans (by simp [Code.flow, opsOf_moveTo]), rfl⟩
  | on a o => exact ⟨by simp [Code.write, Code.flow, opsOf_push, opsOf_moveTo], rfl⟩
  | text s =>
    have hs : opsOf s = [] := hc
    exact ⟨by simp [Code.write, Code.flow, Writer.append, opsOf_append, hs, Flow.ops], rfl⟩
  | loop a body ih =>
    obtain ⟨hb, hp⟩ := ih hc.2 ((v.moveTo a).push '[' 1)
    refine ⟨?_, rfl⟩
    simp only [Code.write, Code.flow]
    rw [show ']' = Op.leave.char from rfl, opsOf_push, opsOf_moveTo, hb, hp,
      show '[' = Op.enter.char from rfl, opsOf_push, opsOf_moveTo]
    simp [Flow.ops]
  | opening | closing => exact hc.elim
  | seq first second ih₁ ih₂ =>
    obtain ⟨h₁, hp₁⟩ := ih₁ hc.1 v
    obtain ⟨h₂, hp₂⟩ := ih₂ hc.2 (first.write v)
    refine ⟨?_, ?_⟩
    · simp only [Code.write, Code.flow]
      rw [h₂, h₁, hp₁]
      simp
    · simp only [Code.write, Code.last]
      rw [hp₂, hp₁]

end TapeCompiler
