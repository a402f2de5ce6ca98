import TapeCompiler.Emission.Emitter
import TapeCompiler.Proofs.Cells.Bounds
import TapeCompiler.Proofs.Cells.Effect

/-! # The code of single instructions

The code of an instruction that is no part of a shape does what the instruction does (`runs_plain`),
if the scratch cells are zero and the instruction's cells lie below them. The truth of a condition
is added to a flag by `runs_setBool`. -/

namespace TapeCompiler

variable {w : CellWidth}

namespace Scratch

variable {s : Scratch} {σ : Store w}

theorem Clean.set (h : s.Clean σ) {a : Nat} (v : w.Cell)
    (ha : a < s.base ∨ s.base + scratchCells ≤ a) : s.Clean (σ.set a v) := fun k hk => by
  rw [Store.cells_set_of_ne _ _ (by omega), h k hk]

end Scratch

namespace Code

variable {s : Scratch} {σ : Store w}

/-! ### Storing -/

theorem runs_writeCells (hs : s.Clean σ) {a : Nat} {ns : List Int64} (ha : a + ns.length ≤ s.base) :
    (writeCells w s a ns).Runs σ (σ.setAll a (ns.map w.literal)) := by
  induction ns generalizing σ a with
  | nil => rfl
  | cons n rest ih =>
    rw [List.length_cons] at ha
    have h0 := hs.set (0 : w.Cell) (Or.inl (show a < s.base by omega))
    refine Runs.seq (Runs.seq (runs_clear a) ((runs_addLiteral (ready_of_clean h0)
      (Or.inl (by omega)) n).to ?_)) (ih (hs.set _ (Or.inl (by omega))) (by omega))
    rw [Store.cells_set_self, zero_add, Store.set_set]

theorem runs_store (hs : s.Clean σ) {a : Nat} (ha : a < s.base) {o : Operand}
    (ho : ∀ b ∈ o.address?, b < s.base) :
    (if o.address? = some a then skip else clear a ++ load w s o a).Runs σ
      (σ.set a (σ.first o)) := by
  split_ifs with h
  · cases o with
    | value => simp [Operand.address?] at h
    | cells b len =>
      obtain rfl : b = a := Option.some.inj h
      exact (Store.set_cells_self σ b : σ.set b (σ.cells b) = σ)
  · have hne : ∀ b ∈ o.address?, b ≠ a := fun b hb he => h (by rw [← he]; exact hb)
    have h0 := hs.set (0 : w.Cell) (Or.inl ha)
    refine Runs.seq (runs_clear a) ((runs_load (ready_of_clean h0) (Or.inr ha) ho hne).to ?_)
    have hfirst : (σ.set a 0).first o = σ.first o := by
      cases o with
      | value => rfl
      | cells b len => exact Store.cells_set_of_ne _ _ (hne b rfl)
    rw [Store.cells_set_self, zero_add, Store.set_set, hfirst]

theorem runs_storeAll {e : Emitter} {σ : Store e.width} (hs : e.scratch.Clean σ) {a : Nat}
    {os : List Operand} (ha : a + os.length ≤ e.scratch.base)
    (ho : ∀ o ∈ os, o.Below e.scratch.base) : (e.storeAll a os).Runs σ (σ.storeAll a os) := by
  induction os generalizing σ a with
  | nil => rfl
  | cons o rest ih =>
    rw [List.length_cons] at ha
    exact Runs.seq (runs_store hs (by omega) (ho o (by simp)).address)
      (ih (hs.set _ (Or.inl (by omega))) (by omega) fun p hp => ho p (by simp [hp]))

/-! ### Conditions -/

theorem runs_setBool (hs : s.Clean σ) (flag : Nat)
    (hf : s.base + scratchCells ≤ flag) {o : Operand} (ho : ∀ b ∈ o.address?, b < s.base) :
    (setBool s flag o).Runs σ
      (σ.set flag (σ.cells flag + if σ.holds o then 1 else 0)) := by
  have hfa : flag ≠ s.a := by unfold Scratch.a; unfold scratchCells at hf; omega
  cases o with
  | value v =>
    show (if v.truthy then add flag 1 else skip : Code).Runs σ (σ.set flag
      (σ.cells flag + if v.truthy then 1 else 0))
    split_ifs
    · exact runs_add _ _
    · rw [add_zero, Store.set_cells_self]
      rfl
  | cells b len =>
    have hb : b < s.base := ho b rfl
    have ha : σ.cells s.a = 0 := hs 4 (by decide)
    have hba : b ≠ s.a := by unfold Scratch.a; omega
    have hbb : b ≠ s.b := by unfold Scratch.b; omega
    refine Runs.seq (runs_copyAdd hba hbb (by simp [Scratch.a, Scratch.b]) (hs 5 (by decide))) ?_
    simp only [Store.holds, decide_eq_true_eq]
    rw [ha, zero_add]
    split_ifs with h0
    · refine runs_loop_once (by rwa [Store.cells_set_self]) (Runs.seq (runs_clear _)
        ((runs_add _ _).to (Store.ext (fun i => ?_) rfl rfl))) ?_
      · simp only [Store.cells_set, CellWidth.cell_one]; grind
      · simp only [Store.cells_set]; grind
    · rw [not_not] at h0
      rw [h0, add_zero, Store.set_cells_self, Store.set_eq_self ha]
      exact runs_loop_zero ha

/-! ### Printing -/

theorem runs_printCells (hs : s.Clean σ) (ns : List Int64) :
    (printCells w s ns).Runs σ (σ.write (ns.map w.literal)) := by
  induction ns generalizing σ with
  | nil => exact (Store.write_nil σ)
  | cons n rest ih =>
    have ha : σ.cells s.a = 0 := hs 4 (by decide)
    have hadd : (addLiteral w s s.a n).Runs σ (σ.set s.a (w.literal n)) := by
      refine (runs_addLiteral (ready_of_clean hs) (Or.inr ?_) n).to ?_
      · unfold Scratch.a; omega
      · rw [ha, zero_add]
    have hput : (on s.a .write ++ clear s.a).Runs (σ.set s.a (w.literal n))
        (σ.put (w.literal n)) := by
      refine Runs.seq rfl ((runs_clear s.a).to (Store.ext (fun i => ?_) rfl ?_))
      · simp only [Store.cells_set, Store.act, Store.put]; grind
      · simp [Store.act, Store.put]
    rw [List.map_cons, Store.write_cons]
    obtain ⟨ρ, hw, hc⟩ := hput
    exact Runs.seq (Runs.seq (Runs.seq hadd hw) hc) (ih hs)

theorem runs_printTail (hs : s.Clean σ) {a n : Nat} (ha : a + n ≤ s.base) :
    (printTail s a n).Runs σ
      (σ.write (((List.range' a n).map σ.cells).filter fun v => v ≠ 0)) := by
  induction n generalizing σ a with
  | zero => exact Store.write_nil σ
  | succ n ih =>
    have hsa : σ.cells s.a = 0 := hs 4 (by decide)
    have haa : a ≠ s.a := by unfold Scratch.a; omega
    have hab : a ≠ s.b := by unfold Scratch.b; omega
    have hcopy := runs_copyAdd (σ := σ) haa hab (by simp [Scratch.a, Scratch.b])
      (hs 5 (by decide))
    rw [hsa, zero_add] at hcopy
    rw [List.range'_succ, List.map_cons]
    by_cases h0 : σ.cells a = 0
    · rw [h0, Store.set_eq_self hsa] at hcopy
      rw [List.filter_cons_of_neg (by simp [h0])]
      exact Runs.seq (Runs.seq hcopy (runs_loop_zero hsa)) (ih hs (by omega))
    · rw [List.filter_cons_of_pos (by simp [h0]), Store.write_cons]
      have hloop : (loop s.a (on a .write ++ clear s.a)).Runs (σ.set s.a (σ.cells a))
          (σ.put (σ.cells a)) := by
        refine runs_loop_once (by rwa [Store.cells_set_self]) (Runs.seq rfl
          ((runs_clear s.a).to (Store.ext (fun i => ?_) rfl ?_))) hsa
        · simp only [Store.cells_set, Store.act, Store.put]; grind
        · simp [Store.act, Store.put, Store.cells_set, haa]
      exact Runs.seq (Runs.seq hcopy hloop) (ih (σ := σ.put (σ.cells a)) hs (by omega))

theorem runs_printOperand (hs : s.Clean σ) {o : Operand} (ho : o.Below s.base) :
    (printOperand w s o).Runs σ (σ.write (σ.shown o)) := by
  cases o with
  | value v => exact runs_printCells hs v.cells
  | cells a len =>
    obtain ⟨hlen, ha⟩ := ho
    rw [Store.shown, Store.write_cons]
    exact Runs.seq rfl (runs_printTail (σ := σ.put (σ.cells a)) hs (by omega))

theorem runs_printAll (hs : s.Clean σ) {os : List Operand} (ho : ∀ o ∈ os, o.Below s.base) :
    (all (os.map (printOperand w s))).Runs σ (σ.print os) := by
  induction os generalizing σ with
  | nil => exact Store.write_nil σ
  | cons o rest ih =>
    have h₁ := runs_printOperand (w := w) hs (ho o (by simp))
    have h₂ := ih (σ := σ.write (σ.shown o)) hs fun p hp => ho p (by simp [hp])
    rw [Store.print, Store.shown_write] at h₂
    rw [Store.print, List.flatMap_cons, Store.write_append]
    cases rest with
    | nil => simpa [all] using h₁
    | cons p rest => exact Runs.seq h₁ h₂

/-! ### Calls -/

section Calls
variable {p : Nat} {target : Option Nat}

/-- **A choice** between two operands. -/
theorem runs_choose (hs : s.Clean σ) {o : Operator} (hor : o ≠ .or) {x y : Operand}
    (hx : ∀ b ∈ x.address?, b < s.base) (hy : ∀ b ∈ y.address?, b < s.base) {t : Nat}
    (ht : t < s.base) :
    (Builtin.choose ⟨p, s, target, w⟩ o x y t).Runs σ
      (σ.set t (if o.onCells (σ.first x) (σ.first y) = 0 then σ.first y else σ.first x)) := by
  have he : σ.cells s.e = 0 := hs 8 (by decide)
  have hf : σ.cells s.f = 0 := hs 9 (by decide)
  have hef : s.e ≠ s.f := by simp [Scratch.e, Scratch.f]
  have hte : t ≠ s.e := by unfold Scratch.e; omega
  have htf : t ≠ s.f := by unfold Scratch.f; omega
  have hready : ∀ v : w.Cell, Ready (σ.set s.f v) s := fun v =>
    (ready_of_clean hs).set v (Or.inr (by unfold Scratch.f; omega))
  have hse : s.base + 4 ≤ s.e := by unfold Scratch.e; omega
  have hfirst : ∀ (z : Operand), (∀ b ∈ z.address?, b < s.base) → ∀ v : w.Cell,
      (σ.set s.f v).first z = σ.first z := by
    intro z hz v
    cases z with
    | value => rfl
    | cells b len =>
      have := hz b rfl
      exact Store.cells_set_of_ne _ _ (by unfold Scratch.f; omega)
  have hne : ∀ (z : Operand), (∀ b ∈ z.address?, b < s.base) → ∀ b ∈ z.address?, b ≠ s.e := by
    intro z hz b hb
    have := hz b hb
    unfold Scratch.e
    omega
  generalize hc : o.onCells (σ.first x) (σ.first y) = c
  have h₁ : (binary w s o x y s.f).Runs σ (σ.set s.f c) := by
    rw [← hc]
    exact runs_binary hs hx hy (Or.inr ⟨rfl, hor⟩)
  have h₂ : (load w s y s.e).Runs (σ.set s.f c) ((σ.set s.f c).set s.e (σ.first y)) := by
    refine (runs_load (hready c) (Or.inl hse) hy (hne y hy)).to ?_
    rw [hfirst y hy, Store.cells_set_of_ne _ _ hef, he, zero_add]
  have h₃ : (loop s.f (clear s.f ++ clear s.e ++ load w s x s.e)).Runs
      ((σ.set s.f c).set s.e (σ.first y))
      (σ.set s.e (if c = 0 then σ.first y else σ.first x)) := by
    split_ifs with h0
    · rw [h0, Store.set_eq_self hf]
      exact runs_loop_zero (by rwa [Store.cells_set_of_ne _ _ hef.symm])
    · have hclear : (clear s.f ++ clear s.e).Runs ((σ.set s.f c).set s.e (σ.first y)) σ := by
        refine Runs.seq (runs_clear _) ((runs_clear _).to (Store.ext (fun i => ?_) rfl rfl))
        simp only [Store.cells_set]; grind
      have hload : (load w s x s.e).Runs σ (σ.set s.e (σ.first x)) := by
        refine (runs_load (ready_of_clean hs) (Or.inl hse) hx (hne x hx)).to ?_
        rw [he, zero_add]
      exact runs_loop_once (by rwa [Store.cells_set_of_ne _ _ hef.symm, Store.cells_set_self])
        (Runs.seq hclear hload) (by rwa [Store.cells_set_of_ne _ _ hef.symm])
  refine Runs.seq (Runs.seq (Runs.seq (Runs.seq h₁ h₂) h₃) (runs_clear _))
    ((runs_moveAdd hte.symm).to (Store.ext (fun i => ?_) rfl rfl))
  simp only [Store.cells_set]; grind

theorem choice_lt (x y : w.Cell) : (if Operator.lt.onCells x y = 0 then y else x) = min x y := by
  have h1 := CellWidth.one_ne_zero (w := w)
  unfold Operator.onCells
  rcases lt_or_ge x y with h | h
  · simp [h, h1, h.le]
  · simp [h.not_gt, h]

theorem choice_gt (x y : w.Cell) : (if Operator.gt.onCells x y = 0 then y else x) = max x y := by
  have h1 := CellWidth.one_ne_zero (w := w)
  unfold Operator.onCells
  rcases lt_or_ge y x with h | h
  · simp [h, h1, h.le]
  · simp [h.not_gt, h]

theorem runs_pick (hs : s.Clean σ) (ht : ∀ a ∈ target, a < s.base) {o : Operator} (hor : o ≠ .or)
    {x y : Operand} (hx : x.Below s.base) (hy : y.Below s.base) :
    (Builtin.pick ⟨p, s, target, w⟩ o x y).Runs σ (target.elim σ fun a =>
      σ.set a (if o.onCells (σ.first x) (σ.first y) = 0 then σ.first y else σ.first x)) := by
  cases target with
  | none => rfl
  | some a => exact Runs.seq (runs_choose hs hor hx.address hy.address (ht a rfl)) rfl

theorem receive_set_zero {a : Nat} (h : σ.cells a = 0) :
    (σ.receive a).set a 0 = { σ with input := σ.input.tail } := by
  obtain ⟨cells, input, output⟩ := σ
  have hset : ∀ v, Function.update (Function.update cells a v) a (0 : w.Cell) = cells := fun v => by
    rw [Function.update_idem, ← show cells a = 0 from h, Function.update_eq_self]
  cases input <;> simp [Store.receive, Store.set, hset]

theorem runs_builtin (hs : s.Clean σ) {args : List Operand} (ha : ∀ o ∈ args, o.Below s.base)
    (ht : ∀ a ∈ target, a < s.base) (b : Builtin) :
    (b.code ⟨p, s, target, w⟩ args).Runs σ (b.effect args target σ) := by
  unfold Builtin.code
  split
  · induction args generalizing σ with
    | nil => exact Store.write_nil σ
    | cons o rest ih =>
      have h₁ := runs_printOperand (w := w) hs (ha o (by simp))
      have h₂ := ih (σ := σ.write (σ.shown o)) hs fun p hp => ha p (by simp [hp])
      simp only [Builtin.effect, Store.print, Store.shown_write] at h₂ ⊢
      rw [List.flatMap_cons, Store.write_append]
      exact Runs.seq h₁ h₂
  · cases target with
    | some a => exact Runs.seq (ρ := σ.receive a) rfl rfl
    | none =>
      refine Runs.seq (Runs.seq (ρ := σ.receive s.a) rfl (runs_clear _)) ?_
      exact (receive_set_zero (hs 4 (by decide))).symm
  · next x y =>
    refine (runs_pick hs ht (by simp) (ha x (by simp)) (ha y (by simp))).to ?_
    cases target with
    | none => rfl
    | some a => exact congrArg (σ.set a) (choice_lt ..)
  · next x y =>
    refine (runs_pick hs ht (by simp) (ha x (by simp)) (ha y (by simp))).to ?_
    cases target with
    | none => rfl
    | some a => exact congrArg (σ.set a) (choice_gt ..)
  · unfold Builtin.effect
    split <;> simp_all [Runs]

end Calls

end Code

/-! ### Instructions -/

namespace Emitter

variable {e : Emitter} {σ : Store e.width}

theorem add_le_of_range' {a n limit : Nat} (hn : 0 < n) (h : ∀ c ∈ List.range' a n, c < limit) :
    a + n ≤ limit := by
  have := h (a + (n - 1)) (by rw [List.mem_range'_1]; omega)
  omega

theorem effect_of_misfit {b : Builtin} {args : List Operand} (h : ¬ b.Takes args.length)
    (target : Option Nat) (σ : Store w) : b.effect args target σ = σ := by
  unfold Builtin.effect
  split
  · exact absurd (fun _ hm => by cases hm) h
  · exact absurd (fun _ hm => by cases hm) h
  · exact absurd (fun _ hm => by cases hm) h
  · exact absurd (fun _ hm => by cases hm; rfl) h
  · exact absurd (fun _ hm => by cases hm; rfl) h
  · rfl

/-- A call is **its function's code**, or what stands in its place and then has no effect. -/
theorem expandOr_known (hl : e.library.Known) (p : Nat) (name : String) (args : List Operand)
    (target : Option Nat) (instead : Warned) :
    (∃ b, Builtin.named? name = some b ∧
      (e.expandOr p name args target instead).1 = b.code ⟨p, e.scratch, target, e.width⟩ args ∧
      ∀ σ : Store w, e.library.effect name args target σ = b.effect args target σ) ∨
    ((e.expandOr p name args target instead).1 = instead.1 ∧
      ∀ σ : Store w, e.library.effect name args target σ = σ) := by
  cases hf : e.library.find? name with
  | none =>
    exact Or.inr ⟨by rw [expandOr_of_none hf], fun σ => Library.effect_of_none hf ..⟩
  | some t =>
    obtain ⟨b, hb, rfl⟩ := hl hf
    by_cases htakes : b.Takes args.length
    · exact Or.inl ⟨b, hb, by rw [expandOr_of_takes hf htakes],
        fun σ => Library.effect_of_named hf hb ..⟩
    · refine Or.inr ⟨by rw [expandOr_of_misfit hf htakes], fun σ => ?_⟩
      rw [Library.effect_of_named hf hb, effect_of_misfit htakes]

theorem runs_call (hl : e.library.Known) (hs : e.scratch.Clean σ) {p : Nat} {name : String}
    {args : List Operand} {target : Option Nat} (ha : ∀ o ∈ args, o.Below e.scratch.base)
    (ht : ∀ a ∈ target, a < e.scratch.base) {instead : Warned} (hi : instead.1.Runs σ σ) :
    (e.expandOr p name args target instead).1.Runs σ (e.library.effect name args target σ) := by
  rcases expandOr_known (w := e.width) hl p name args target instead with
    ⟨b, -, hcode, heffect⟩ | ⟨hcode, heffect⟩
  · rw [hcode, heffect]
    exact Code.runs_builtin hs ha ht b
  · rwa [hcode, heffect]

theorem runs_print (hl : e.library.Known) (hs : e.scratch.Clean σ) (p : Nat) {ops : List Operand}
    (ho : ∀ o ∈ ops, o.Below e.scratch.base) :
    (e.plain p (.print ops)).1.Runs σ (σ.print ops) := by
  rcases expandOr_known (w := e.width) hl p printCallee ops none
    (Code.all (ops.map (Code.printOperand e.width e.scratch)), []) with
    ⟨b, hb, hcode, -⟩ | ⟨hcode, -⟩
  · -- the library's printer shows what the compiler's own does
    obtain rfl : Builtin.print = b := Option.some.inj hb
    exact hcode ▸ Code.runs_builtin hs ho (by simp) .print
  · exact hcode ▸ Code.runs_printAll hs ho

theorem runs_plain (hl : e.library.Known) (hs : e.scratch.Clean σ) (p : Nat) {i : Instruction}
    (hi : i.Below e.scratch.base) : (e.plain p i).1.Runs σ (i.effect e.library σ) := by
  cases i with
  | setValue a v =>
    exact Code.runs_writeCells hs (add_le_of_range' v.size_pos hi.writes)
  | copyValue t c =>
    have ht : t < e.scratch.base := hi.writes t (by simp [Instruction.writes])
    have hc : c < e.scratch.base := hi.beside c (by simp [Instruction.readsBeside])
    show (if t = c then Code.skip
      else Code.clear t ++ Code.copyAdd c t e.scratch.a : Code).Runs σ (σ.set t (σ.cells c))
    split_ifs with h
    · rw [h]
      exact (Store.set_cells_self σ c : σ.set c (σ.cells c) = σ)
    · refine Code.Runs.seq (Code.runs_clear t) ((Code.runs_copyAdd (Ne.symm h)
        (by unfold Scratch.a; omega) (by unfold Scratch.a; omega) ?_).to ?_)
      · rw [Store.cells_set_of_ne _ _ (by unfold Scratch.a; omega)]
        exact hs 4 (by decide)
      · rw [Store.cells_set_self, zero_add, Store.set_set, Store.cells_set_of_ne _ _ (Ne.symm h)]
  | binary t o x y =>
    exact Code.runs_binary hs (hi.operands x (by simp [Instruction.operands])).address
      (hi.operands y (by simp [Instruction.operands])).address
      (Or.inl (hi.writes t (by simp [Instruction.writes])))
  | print ops => exact runs_print hl hs p hi.operands
  | callFunction name args target =>
    refine runs_call hl hs hi.operands
      (fun a ha => hi.writes a (by simpa [Instruction.writes] using ha)) ?_
    unfold callMark unresolved
    split_ifs <;> rfl
  | callMethod _ object method args target =>
    exact runs_call hl hs hi.operands
      (fun a ha => hi.writes a (by simpa [Instruction.writes] using ha))
      rfl
  | createArray a es =>
    have := add_le_of_range' (by omega) hi.writes
    exact Code.runs_storeAll hs (by omega) hi.operands
  | createObject a fs =>
    have := add_le_of_range' (by omega) hi.writes
    exact Code.Runs.seq rfl (Code.runs_storeAll hs (by rw [List.length_map]; omega) hi.operands)
  | update a change =>
    have ha : a < e.scratch.base := hi.writes a (by simp [Instruction.writes])
    have hr := Code.ready_of_clean hs
    exact Code.runs_addConst hr.constant hr.multiplier (by unfold Scratch.constant; omega) _
  | _ => rfl

end Emitter

end TapeCompiler
