import TapeCompiler.Proofs.Tape.Exact
import TapeCompiler.Proofs.Tape.Resting
import TapeCompiler.Proofs.Tape.Stripping

/-! # Constants on the machine

What becomes of a tape, whatever else is on it, when the text of a constant is executed
(`Code.Sets`): one cell holds the new number, and everything else is as it was, the scratch cells
included. The stripped text, in which a negation is spelled out, does the same.

A constant that is built is never reduced modulo the width on the way; adding a constant or a
literal adds exactly that number modulo the width (`constants_exact`). -/

namespace TapeCompiler

/-! ### Snapshots -/

namespace Snapshot

/-- A cell on the tape that is **zero**. -/
def Vacant (t : Snapshot) (a : Nat) : Prop := a < t.tape.size ∧ t.peek a = 0

instance (t : Snapshot) (a : Nat) : Decidable (t.Vacant a) :=
  inferInstanceAs (Decidable (_ ∧ _))

/-- **One cell has become a number**, and all else but the pointer is as it was. -/
structure Becomes (t u : Snapshot) (a value : Nat) : Prop where
  cell : u.peek a = value
  others : ∀ b, b ≠ a → u.peek b = t.peek b
  size : u.tape.size = t.tape.size
  input : u.input = t.input
  output : u.output = t.output

variable {w : CellWidth} {t u : Snapshot} {a : Nat}

theorem store_zero (h : t.peek a = 0) : (t.store w).cells a = 0 := by
  show w.cell (t.peek a) = 0
  rw [h, CellWidth.cell_zero]

theorem Sound.becomes (h : t.Sound w) {p : Nat} {x : w.Cell} (ha : a < t.tape.size)
    (hm : Mirrors t.tape.size p ((t.store w).set a x) u) : t.Becomes u a x.val where
  cell := by rw [hm.peek_eq ha, Store.cells_set_self]
  others b hb := by
    rcases Nat.lt_or_ge b t.tape.size with hlt | hge
    · rw [hm.peek_eq hlt, Store.cells_set_of_ne _ _ hb, h.val_store]
    · rw [peek_of_size_le hge, peek_of_size_le (hm.length.symm ▸ hge)]
  size := hm.length
  input := hm.input
  output := Array.toList_inj.mp hm.output

end Snapshot

/-! ### Code that sets a cell -/

namespace Code

/-- **Code sets a cell**: what it writes behind another text leads to where the cell holds a number
and all else is as it was, and the stripped text does too. -/
def Sets (m : MachineSettings) (c : Code) (v : Writer) (t : Snapshot) (a value : Nat) : Prop :=
  (c.write v).text = v.text ++ c.textFrom t.pointer ∧
    ∀ text ∈ [c.textFrom t.pointer, strip (c.textFrom t.pointer)],
      ∃ u, Executes m text t u ∧ u.pointer = (c.write v).pointer ∧ t.Becomes u a value

variable {m : MachineSettings} {c : Code} {v : Writer} {t : Snapshot} {a g : Nat} {text : String}
  {N : Nat → Prop} {x : m.width.Cell}

theorem exists_becomes (ht : t.Sound m.width) (hc : c.Within (· < t.tape.size) N)
    (hops : opsOf text = (c.flow t.pointer).ops) (ha : a < t.tape.size)
    (hr : c.Runs (t.store m.width) ((t.store m.width).set a x)) :
    ∃ u, Executes m text t u ∧ u.pointer = c.last t.pointer ∧ t.Becomes u a x.val := by
  obtain ⟨u, hu, hm⟩ := reaches_of_runs m.pointerMode hc ht.pointer hr ht.mirrors
  exact ⟨u, executes_of_reaches (wellFormed_flow hc _) hops hu, hm.pointer, ht.becomes ha hm⟩

/-- **Code sets the cell that it sets in a store**, if it does not name the cell that its negations
are spelled out on, and that cell is zero. -/
theorem sets_of_runs (ht : t.Sound m.width) (hv : v.pointer = t.pointer)
    (hc : c.Within (fun b => b < t.tape.size ∧ b ≠ g) N) (hN : ∀ b, N b → b + 1 = g)
    (hsize : ∀ b, N b → g < t.tape.size) (hg : t.peek g = 0) (ha : a < t.tape.size)
    (hr : c.Runs (t.store m.width) ((t.store m.width).set a x)) : c.Sets m v t a x.val := by
  have hc₁ : c.Within (· < t.tape.size) N := hc.mono (fun _ h => h.1) fun _ h => h
  have hc₂ : c.expanded.Within (· < t.tape.size) N :=
    within_expanded (fun _ h => h.1) (fun b hb => by rw [hN b hb]; exact hsize b hb) hc
  have hr₂ := (runs_expanded_iff hc (fun _ h => h.2) hN (Snapshot.store_zero hg)).mp hr
  obtain ⟨hops, -⟩ := opsOf_write hc₁ (.on t.pointer)
  have hlast : (c.write v).pointer = c.last t.pointer := hv ▸ (opsOf_write hc₁ v).2
  refine ⟨by rw [write_eq, hv], fun text htext => ?_⟩
  rw [hlast]
  simp only [List.mem_cons, List.not_mem_nil, or_false] at htext
  rcases htext with rfl | rfl
  · exact exists_becomes ht hc₁ hops ha hr
  · rw [← last_expanded]
    refine exists_becomes ht hc₂ ?_ ha hr₂
    rw [opsOf_strip, ops_expanded]
    exact congrArg (List.flatMap Op.spelled) hops

theorem sets_of_runs_plain (ht : t.Sound m.width) (hv : v.pointer = t.pointer)
    (hc : c.Within (· < t.tape.size) fun _ => False) (ha : a < t.tape.size)
    (hr : c.Runs (t.store m.width) ((t.store m.width).set a x)) : c.Sets m v t a x.val :=
  -- no negation, so any cell will do that code does not name, such as the first past the tape
  sets_of_runs ht hv (hc.mono (fun _ h => ⟨h, Nat.ne_of_lt h⟩) fun _ h => h) (fun _ h => h.elim)
    (fun _ h => h.elim) (Snapshot.peek_of_size_le (Nat.le_refl _)) ha hr

/-! ### Constants -/

theorem val_add_literal (ht : t.Sound m.width) (a : Nat) (n : Int64) :
    ((t.store m.width).cells a + m.width.literal n).val =
      ((t.peek a + n.toInt) % 2 ^ m.width.bits).toNat := by
  have hmod : ((m.width.modulus : Nat) : Int) = 2 ^ m.width.bits := by
    rw [m.width.modulus_eq]
    exact_mod_cast rfl
  have hwrap : ((m.width.wrap n : Nat) : Int) = n.toInt % m.width.modulus := by
    have := m.width.modulus_pos
    exact Int.toNat_of_nonneg (Int.emod_nonneg _ (by omega))
  rw [Fin.val_add, ht.val_store, ← hmod]
  show (t.peek a + m.width.wrap n) % m.width.modulus = _
  rw [← Int.toNat_natCast ((t.peek a + m.width.wrap n) % m.width.modulus)]
  push_cast
  rw [hwrap, Int.add_emod_emod]

variable {s : Scratch} {way value : Nat}

theorem within_build_plain (ha : t.Vacant a) (hway : t.Vacant way) (n : Nat) :
    (build a n way).Within (· < t.tape.size) fun _ => False :=
  within_build (P := (· < t.tape.size)) ha.1 hway.1 n

theorem sets_build (ht : t.Sound m.width) (hv : v.pointer = t.pointer)
    (hvalue : value < m.width.modulus) (h : a ≠ way) (ha : t.Vacant a) (hway : t.Vacant way) :
    (build a value way).Sets m v t a value := by
  have hset := sets_of_runs_plain ht hv (within_build_plain ha hway value) ha.1
    (runs_build h (Snapshot.store_zero hway.2) (Snapshot.store_zero ha.2) value)
  rwa [CellWidth.val_cell hvalue] at hset

/-- **On the way** of building, no increment reaches past the number and no decrement is one of
zero. -/
theorem exact_of_at_build (ht : t.Sound m.width) (hvalue : value < m.width.modulus) (h : a ≠ way)
    (ha : t.Vacant a) (hway : t.Vacant way) :
    ∃ r, routineOf ((build a value way).textFrom t.pointer) = .ok r ∧
      ∀ n u o, r.At m (t.resume 0) n u o → o.op.Exact value u.cell := by
  have hc := within_build_plain ha hway value
  have hx := exact_build hvalue h (Snapshot.store_zero hway.2) (Snapshot.store_zero ha.2)
  have hops : opsOf ((build a value way).textFrom t.pointer) =
      ((build a value way).flow t.pointer).ops := (opsOf_write hc (.on t.pointer)).1
  obtain ⟨p, hp, hplaced, hsize⟩ := exists_placed (wellFormed_flow hc t.pointer) hops
  refine ⟨_, by rw [routineOf, hp]; rfl, fun n u o hat => ?_⟩
  cases hb : o.op.isBracket with
  | true => cases ho : o.op <;> simp [ho, Op.isBracket, Op.Exact] at hb ⊢
  | false =>
    exact exact_of_meets hvalue hc ht.pointer hx ht.mirrors (meets_of_at hplaced hsize hb hat)

theorem sets_addConst (ht : t.Sound m.width) (hv : v.pointer = t.pointer) (ha : a < t.tape.size)
    (hne : a ≠ s.constant) (hc : t.Vacant s.constant) (hm : t.Vacant s.multiplier) (n : Int64) :
    (addConst m.width s a n).Sets m v t a ((t.peek a + n.toInt) % 2 ^ m.width.bits).toNat := by
  rw [← val_add_literal ht]
  exact sets_of_runs_plain ht hv (within_addConst (P := (· < t.tape.size)) hc.1 hm.1 ha n) ha
    (runs_addConst (Snapshot.store_zero hc.2) (Snapshot.store_zero hm.2) hne n)

theorem sets_addLiteral (ht : t.Sound m.width) (hv : v.pointer = t.pointer) (ha : a < t.tape.size)
    (hne : a < s.base ∨ s.base + 4 ≤ a) (hn : t.Vacant s.neg) (hg : t.Vacant s.guard)
    (hc : t.Vacant s.constant) (hm : t.Vacant s.multiplier) (n : Int64) :
    (addLiteral m.width s a n).Sets m v t a ((t.peek a + n.toInt) % 2 ^ m.width.bits).toNat := by
  rw [← val_add_literal ht]
  have hwithin : (addLiteral m.width s a n).Within (fun b => b < t.tape.size ∧ b ≠ s.guard)
      (· = s.neg) := by
    refine within_addLiteral (P := fun b => b < t.tape.size ∧ b ≠ s.guard) (N := (· = s.neg))
      ⟨hn.1, ?_⟩ ⟨hc.1, ?_⟩ ⟨hm.1, ?_⟩ rfl ⟨ha, ?_⟩ n <;>
      simp only [Scratch.neg, Scratch.guard, Scratch.constant, Scratch.multiplier] <;> omega
  exact sets_of_runs ht hv hwithin (fun _ hb => by rw [hb]; rfl) (fun _ _ => hg.1) hg.2 ha
    (runs_addLiteral ⟨Snapshot.store_zero hn.2, Snapshot.store_zero hc.2,
      Snapshot.store_zero hm.2⟩ hne n)

end Code

/-- **Constants are exact at every width.** From any state with its cells below the modulus:

* building a number below the modulus in a cell that is zero, by way of another, leaves the number
  in the cell and the way zero; on the way no increment exceeds the number and no zero is
  decremented, so nothing is reduced modulo the width;
* adding a constant to any cell but the two it is built with, or a literal to any cell but the four
  that it is made with, these being zero, adds the number modulo the width and changes nothing else.

The text that is written does so, and the stripped text as well. -/
theorem constants_exact (m : MachineSettings) (t : Snapshot) (v : Writer) (ht : t.Sound m.width)
    (hv : v.pointer = t.pointer) :
    (∀ cell way value, value < 2 ^ m.width.bits → cell ≠ way → t.Vacant cell → t.Vacant way →
      (Code.build cell value way).Sets m v t cell value ∧
      ∃ r, routineOf ((Code.build cell value way).textFrom t.pointer) = .ok r ∧
        ∀ n u o, r.At m (t.resume 0) n u o →
          (o.op = .inc → u.cell < value) ∧ (o.op = .dec → u.cell ≠ 0)) ∧
    ∀ (s : Scratch) (cell : Nat) (n : Int64), cell < t.tape.size →
      let sum := ((t.peek cell + n.toInt) % 2 ^ m.width.bits).toNat
      (cell ≠ s.constant → cell ≠ s.multiplier → t.Vacant s.constant → t.Vacant s.multiplier →
        (Code.addConst m.width s cell n).Sets m v t cell sum) ∧
      (cell ≠ s.neg → cell ≠ s.guard → cell ≠ s.constant → cell ≠ s.multiplier →
        t.Vacant s.neg → t.Vacant s.guard → t.Vacant s.constant → t.Vacant s.multiplier →
        (Code.addLiteral m.width s cell n).Sets m v t cell sum) := by
  refine ⟨fun cell way value hvalue h ha hway => ?_, fun s cell n ha => ⟨fun hc _ hzc hzm => ?_,
    fun hn hg hc hm hzn hzg hzc hzm => ?_⟩⟩
  · have hvalue : value < m.width.modulus := by
      rw [m.width.modulus_eq]
      exact hvalue
    exact ⟨Code.sets_build ht hv hvalue h ha hway,
      Code.exact_of_at_build ht hvalue h ha hway⟩
  · exact Code.sets_addConst ht hv ha hc hzc hzm n
  · have hne : cell < s.base ∨ s.base + 4 ≤ cell := by
      simp only [Scratch.neg, Scratch.guard, Scratch.constant, Scratch.multiplier] at hn hg hc hm
      omega
    exact Code.sets_addLiteral ht hv ha hne hzn hzg hzc hzm n

/-- Cells of eight bits, the least number of all among the literals. -/
theorem constants_exact_of_least :
    let m : MachineSettings := ⟨5, .bits8, 1000000, .strict⟩
    let t : Snapshot := ⟨#[0, 0, 0, 0, 250], 4, [], #[], 0⟩
    ((Code.build 0 200 1).Sets m (.on 4) t 0 200 ∧
      ∃ r, routineOf ((Code.build 0 200 1).textFrom 4) = .ok r ∧
        ∀ n u o, r.At m (t.resume 0) n u o →
          (o.op = .inc → u.cell < 200) ∧ (o.op = .dec → u.cell ≠ 0)) ∧
    (Code.addConst .bits8 ⟨0⟩ 4 1000).Sets m (.on 4) t 4 226 ∧
    (Code.addLiteral .bits8 ⟨0⟩ 4 (-300)).Sets m (.on 4) t 4 206 ∧
    (Code.addLiteral .bits8 ⟨0⟩ 4 Int64.minValue).Sets m (.on 4) t 4 250 := by
  intro m t
  obtain ⟨hbuild, hadd⟩ := constants_exact m t (.on 4) ⟨rfl, by decide, by decide⟩ rfl
  have hsums : ((t.peek 4 + (1000 : Int64).toInt) % 2 ^ m.width.bits).toNat = 226 ∧
      ((t.peek 4 + (-300 : Int64).toInt) % 2 ^ m.width.bits).toNat = 206 ∧
      ((t.peek 4 + Int64.minValue.toInt) % 2 ^ m.width.bits).toNat = 250 := by decide
  have hconst := (hadd ⟨0⟩ 4 1000 (by decide)).1 (by decide) (by decide) (by decide) (by decide)
  have hnegative := (hadd ⟨0⟩ 4 (-300) (by decide)).2 (by decide) (by decide) (by decide)
    (by decide) (by decide) (by decide) (by decide) (by decide)
  have hleast := (hadd ⟨0⟩ 4 Int64.minValue (by decide)).2 (by decide) (by decide) (by decide)
    (by decide) (by decide) (by decide) (by decide) (by decide)
  rw [hsums.1] at hconst
  rw [hsums.2.1] at hnegative
  rw [hsums.2.2] at hleast
  exact ⟨hbuild 0 1 200 (by decide) (by decide) (by decide) (by decide), hconst, hnegative, hleast⟩

end TapeCompiler
