import TapeCompiler.Proofs.Tape.Resting

/-! # What the operators leave on a tape

`Operator.result?` is modular arithmetic on numbers below a modulus; the quotient and the remainder
by zero are left open. The code of an operator, run on any tape at rest, ends with this result in
its target, which may be a cell of an operand, and with **every other cell as it was**, also when
the divisor is zero (`Code.executes_binary`). -/

namespace TapeCompiler

variable {w : CellWidth} {s : Scratch}

/-- **The result of an operator** on two numbers below a modulus, unless a divisor is zero. -/
def Operator.result? (m x y : Nat) : Operator → Option Nat
  | .add => some ((x + y) % m)
  | .sub => some (((x : Int) - y) % m).toNat
  | .mul => some (x * y % m)
  | .div => if y = 0 then none else some (x / y)
  | .mod => if y = 0 then none else some (x % y)
  | .eq => some (if x = y then 1 else 0)
  | .notEq => some (if x ≠ y then 1 else 0)
  | .lt => some (if x < y then 1 else 0)
  | .gt => some (if x > y then 1 else 0)
  | .ltEq => some (if x ≤ y then 1 else 0)
  | .gtEq => some (if x ≥ y then 1 else 0)
  | .and => some (if x ≠ 0 then y else 0)
  | .or => some (if x ≠ 0 then x else y)

theorem CellWidth.val_sub (x y : w.Cell) :
    (x - y).val = (((x.val : Int) - y.val) % w.modulus).toNat := by
  have hx := x.isLt
  have hy := y.isLt
  rw [Fin.sub_def]
  show (w.modulus - y.val + x.val) % w.modulus = _
  have h : ((x.val : Int) - y.val) % w.modulus =
      ((w.modulus - y.val + x.val : Nat) : Int) % w.modulus := by
    rw [Nat.cast_add, Nat.cast_sub hy.le, ← Int.add_emod_right]
    congr 1
    ring
  rw [h, ← Int.natCast_mod, Int.toNat_natCast]

/-- **An operator on cells** is modular arithmetic on their numbers. -/
theorem Operator.val_onCells (o : Operator) (x y : w.Cell) {n : Nat}
    (h : n ∈ o.result? w.modulus x.val y.val) : (o.onCells x y).val = n := by
  have one : (1 : w.Cell).val = 1 := Nat.mod_eq_of_lt w.one_lt_modulus
  have zero : ((0 : w.Cell) : Nat) = 0 := rfl
  cases o with
  | add => exact (Fin.val_add x y).trans (Option.some.inj h)
  | sub => exact (CellWidth.val_sub x y).trans (Option.some.inj h)
  | mul => exact (Fin.val_mul x y).trans (Option.some.inj h)
  | div | mod =>
    simp only [Operator.result?] at h
    split_ifs at h with h0
    · exact absurd h (Option.not_mem_none n)
    · exact Option.some.inj h
  | eq | notEq | lt | gt | ltEq | gtEq | and | or =>
    rw [← Option.some.inj h]
    simp only [Operator.onCells, Fin.lt_def, Fin.ext_iff, zero]
    split_ifs <;> first | rfl | exact one | omega

namespace Code

/-- **The code of an operator computes modular arithmetic.** On a tape at rest it ends, with the
pointer where the writer says; the result is in the target, and nothing else is changed. -/
theorem executes_binary (o : Operator) {x y : Operand} (hx : ∀ a ∈ x.address?, a < s.base)
    (hy : ∀ a ∈ y.address?, a < s.base) {target : Nat} (ht : target < s.base) {t : Snapshot}
    (h : t.AtRest w s) (v : Writer) (hv : v.pointer = t.pointer) (size limit : Nat)
    (mode : PointerMode) :
    ∃ text u, (binary w s o x y target).write v = ⟨v.text ++ text, u.pointer⟩ ∧
      Executes ⟨size, w, limit, mode⟩ text t u ∧
      (∀ n ∈ o.result? w.modulus (t.first w x) (t.first w y), u.peek target = n) ∧
      (∀ a ≠ target, u.peek a = t.peek a) ∧ u.AtRest w s ∧ u.tape.size = t.tape.size ∧
      u.input = t.input ∧ u.output = t.output := by
  have hroom := h.room
  have hN : (fun a => a = s.neg) s.neg := rfl
  have hin : ∀ a < s.base, a < t.tape.size := fun a ha => by omega
  have hwithin := within_binary (w := w) h.allowed hN (fun a ha => hin a (hx a ha))
    (fun a ha => hin a (hy a ha)) (hin _ ht) o
  obtain ⟨u, hexec, hpointer, hkeep, hstore⟩ := executes_of_runs h hwithin
    (runs_binary h.clean hx hy (Or.inl ht)) [target] (by simpa using ht)
    (fun a ha => Store.cells_set_of_ne _ _ (by simpa using ha)) size limit mode
  refine ⟨_, u, by rw [write_eq, hv, hpointer], hexec, fun n hn => ?_,
    fun a ha => hkeep.frame a (by simpa using ha), hkeep.rest, hkeep.size,
    congrArg Store.input hstore, Array.toList_inj.mp (congrArg Store.output hstore)⟩
  rw [← hkeep.rest.val_store, hstore, Store.cells_set_self]
  refine Operator.val_onCells o _ _ ?_
  rwa [h.val_first, h.val_first]

/-- The remainder of 7 by 3, **in place of the 7**. -/
theorem executes_binary_mod : ∃ text u,
    (binary .bits8 ⟨2⟩ .mod (.cell 0) (.cell 1) 0).write (.on 1) = ⟨text, u.pointer⟩ ∧
      Executes ⟨14, .bits8, 1, .strict⟩ text ⟨#[7, 3] ++ Array.replicate 12 0, 1, [], #[], 0⟩ u ∧
      u.peek 0 = 1 ∧ u.peek 1 = 3 := by
  obtain ⟨text, u, hw, he, hr, hk, -⟩ := executes_binary (w := .bits8) (s := ⟨2⟩) .mod
    (x := .cell 0) (y := .cell 1) (by simp [Operand.cell, Operand.address?])
    (by simp [Operand.cell, Operand.address?]) (show 0 < 2 by decide)
    (t := ⟨#[7, 3] ++ Array.replicate 12 0, 1, [], #[], 0⟩) (by decide) (.on 1) rfl 14 1 .strict
  refine ⟨text, u, ?_, he, hr 1 rfl, hk 1 (by decide)⟩
  simpa [Writer.on] using hw

end Code

end TapeCompiler
