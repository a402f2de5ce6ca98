import TapeCompiler.Emission.Emitter
import TapeCompiler.Proofs.Cells.Bounds
import TapeCompiler.Proofs.Tape.Meaning

/-! # The cells that tape code names

The code of an instruction names the cells of the instruction, the scratch cells **except the one
right of the negated cell**, and the cell the pointer came from (`within_plain`); it negates one
scratch cell only. So the cell that a spelled out negation goes through is never touched by other
code. -/

namespace TapeCompiler

/-- All scratch cells but the guard are allowed. -/
def Scratch.Allowed (s : Scratch) (P : Nat → Prop) : Prop :=
  ∀ k < scratchCells, k ≠ 1 → P (s.base + k)

namespace Scratch.Allowed

variable {s : Scratch} {P : Nat → Prop} (hs : s.Allowed P)
include hs

theorem neg : P s.neg := hs 0 (by decide) (by decide)

theorem constant : P s.constant := hs 2 (by decide) (by decide)

theorem multiplier : P s.multiplier := hs 3 (by decide) (by decide)

theorem a : P s.a := hs 4 (by decide) (by decide)

theorem b : P s.b := hs 5 (by decide) (by decide)

theorem c : P s.c := hs 6 (by decide) (by decide)

theorem d : P s.d := hs 7 (by decide) (by decide)

theorem e : P s.e := hs 8 (by decide) (by decide)

theorem f : P s.f := hs 9 (by decide) (by decide)

theorem g : P s.g := hs 10 (by decide) (by decide)

theorem h : P s.h := hs 11 (by decide) (by decide)

end Scratch.Allowed

/-! ### Texts -/

theorem opsOf_mark (s : Sign) (note : String) : opsOf (s.char.toString ++ sanitize note) = [] := by
  have hs : Op.ofChar? s.char = none := by cases s <;> rfl
  have hn : ∀ c ∈ (sanitize note).toList, Op.ofChar? c = none := fun c hc => by
    have := not_isReserved_sanitize note c hc
    simp only [isReserved, Bool.or_eq_true, Option.isSome_iff_ne_none, decide_eq_true_eq,
      not_or, ne_eq, not_not] at this
    exact this.1.1.1
  unfold opsOf
  rw [String.toList_append, List.filterMap_append]
  have h₂ : (sanitize note).toList.filterMap Op.ofChar? = [] := List.filterMap_eq_nil_iff.mpr hn
  rw [h₂, List.append_nil]
  simp [hs]

namespace Code

variable {P N : Nat → Prop}

@[simp] theorem within_append {c d : Code} :
    (c ++ d).Within P N ↔ c.Within P N ∧ d.Within P N := Iff.rfl

@[simp] theorem within_skip : skip.Within P N := trivial

@[simp] theorem within_add {a n : Nat} : (add a n).Within P N ↔ P a := Iff.rfl

@[simp] theorem within_sub {a n : Nat} : (sub a n).Within P N ↔ P a := Iff.rfl

@[simp] theorem within_move {a : Nat} : (move a).Within P N ↔ P a := Iff.rfl

@[simp] theorem within_write {a : Nat} : (on a .write).Within P N ↔ P a := by simp [Within]

@[simp] theorem within_read {a : Nat} : (on a .read).Within P N ↔ P a := by simp [Within]

@[simp] theorem within_negate {a : Nat} : (on a .negate).Within P N ↔ P a ∧ N a := by
  simp [Within]

@[simp] theorem within_loop {a : Nat} {body : Code} :
    (loop a body).Within P N ↔ P a ∧ body.Within P N := Iff.rfl

@[simp] theorem within_mark (s : Sign) (note : String) : (mark s note).Within P N :=
  opsOf_mark s note

@[simp] theorem within_newline : (text "\n").Within P N := show opsOf "\n" = [] by decide

/-! ### Moving and building -/

@[simp] theorem within_clear {a : Nat} : (clear a).Within P N ↔ P a := by simp [clear]

@[simp] theorem within_moveAdd {a b : Nat} : (moveAdd a b).Within P N ↔ P a ∧ P b := by
  simp [moveAdd]

@[simp] theorem within_moveSub {a b : Nat} : (moveSub a b).Within P N ↔ P a ∧ P b := by
  simp [moveSub]

@[simp] theorem within_copyAdd {a b c : Nat} :
    (copyAdd a b c).Within P N ↔ P a ∧ P b ∧ P c := by
  simp [copyAdd]; tauto

theorem within_build {a way : Nat} (ha : P a) (hw : P way) (n : Nat) :
    (build a n way).Within P N := by
  have digits : ∀ (rest : List Nat) (c : Code), c.Within P N →
      (rest.foldl (fun code digit => code ++ times16 a way ++ add a digit) c).Within P N := by
    intro rest
    induction rest with
    | nil => exact fun _ h => h
    | cons d rest ih => exact fun c hc => ih _ (by simp [times16, hc, ha, hw])
  unfold build
  split
  · trivial
  · exact digits _ _ ha

section Arithmetic
variable {w : CellWidth} {s : Scratch}

/-- Adding a constant names **two scratch cells**. -/
theorem within_addConst (hc : P s.constant) (hm : P s.multiplier) {a : Nat} (ha : P a) (n : Int64) :
    (addConst w s a n).Within P N := by
  unfold addConst
  simp only
  split_ifs
  · trivial
  · exact ha
  · exact ha
  · exact ⟨within_build hc hm _, by simp [hc, ha]⟩

theorem within_addLiteral (hn : P s.neg) (hc : P s.constant) (hm : P s.multiplier) (hN : N s.neg)
    {a : Nat} (ha : P a) (n : Int64) : (addLiteral w s a n).Within P N := by
  unfold addLiteral
  simp only
  split_ifs
  · exact within_addConst hc hm ha _
  · trivial
  · exact ⟨⟨within_addConst hc hm hn _, by simp [hn, hN]⟩, by simp [hn, ha]⟩

variable (hs : s.Allowed P) (hN : N s.neg)
include hs hN

theorem within_writeCells {a : Nat} {ns : List Int64}
    (ha : ∀ b ∈ List.range' a ns.length, P b) : (writeCells w s a ns).Within P N := by
  induction ns generalizing a with
  | nil => trivial
  | cons n rest ih =>
    rw [List.length_cons, List.range'_succ] at ha
    have h0 : P a := ha a (by simp)
    exact ⟨⟨by simpa using h0, within_addLiteral hs.neg hs.constant hs.multiplier hN h0 n⟩,
      ih fun b hb => ha b (by simp [hb])⟩

theorem within_load {o : Operand} (ho : ∀ b ∈ o.address?, P b) {a : Nat} (ha : P a) :
    (load w s o a).Within P N := by
  cases o with
  | value v => exact within_addLiteral hs.neg hs.constant hs.multiplier hN ha _
  | cells b len => simpa [load] using ⟨ho b rfl, ha, hs.constant⟩

omit hN in
theorem within_setBool {o : Operand} (ho : ∀ b ∈ o.address?, P b) {flag : Nat} (hf : P flag) :
    (setBool s flag o).Within P N := by
  cases o with
  | value v =>
    show (if v.truthy then add flag 1 else skip : Code).Within P N
    split_ifs <;> simp [hf]
  | cells b len => simp [setBool, ho b rfl, hs.a, hs.b, hf]

theorem within_printCells (ns : List Int64) : (printCells w s ns).Within P N := by
  induction ns with
  | nil => trivial
  | cons n rest ih =>
    exact ⟨⟨⟨within_addLiteral hs.neg hs.constant hs.multiplier hN hs.a n, by simpa using hs.a⟩,
      by simpa using hs.a⟩, ih⟩

omit hN in
theorem within_printTail {a n : Nat} (ha : ∀ b ∈ List.range' a n, P b) :
    (printTail s a n).Within P N := by
  induction n generalizing a with
  | zero => trivial
  | succ n ih =>
    rw [List.range'_succ] at ha
    have h0 : P a := ha a (by simp)
    exact ⟨by simp [h0, hs.a, hs.b], ih fun b hb => ha b (by simp [hb])⟩

theorem within_printOperand {o : Operand} {limit : Nat} (hP : ∀ a < limit, P a)
    (ho : o.Below limit) : (printOperand w s o).Within P N := by
  cases o with
  | value v => exact within_printCells hs hN _
  | cells a len =>
    obtain ⟨hlen, ha⟩ := ho
    refine ⟨within_write.mpr (hP a (by omega)), within_printTail hs fun b hb => hP b ?_⟩
    rw [List.mem_range'_1] at hb
    omega

theorem within_binary {x y : Operand} (hx : ∀ b ∈ x.address?, P b) (hy : ∀ b ∈ y.address?, P b)
    {t : Nat} (ht : P t) (o : Operator) : (binary w s o x y t).Within P N := by
  have hxa := within_load (w := w) hs hN hx hs.a
  have hxb := within_load (w := w) hs hN hx hs.b
  have hya := within_load (w := w) hs hN hy hs.a
  have hyb := within_load (w := w) hs hN hy hs.b
  cases o <;>
    simp [binary, divMod, lessThan, isZero, isNonzero, hxa, hxb, hya, hyb, ht, hs.a, hs.b, hs.c,
      hs.d, hs.e, hs.f, hs.g, hs.h]

end Arithmetic

end Code

/-! ### Calls and instructions -/

section Calls
variable {P N : Nat → Prop} {w : CellWidth} {s : Scratch} (hs : s.Allowed P) (hN : N s.neg)
  (hP : ∀ a < s.base, P a)
include hs hN hP

theorem within_choose {p : Nat} {target : Option Nat} {x y : Operand} (hx : x.Below s.base)
    (hy : y.Below s.base) {t : Nat} (ht : t < s.base) (o : Operator) :
    (Builtin.choose ⟨p, s, target, w⟩ o x y t).Within P N := by
  have hx' : ∀ b ∈ x.address?, P b := fun b h => hP b (hx.address b h)
  have hy' : ∀ b ∈ y.address?, P b := fun b h => hP b (hy.address b h)
  have hxe := Code.within_load (w := w) hs hN hx' hs.e
  have hye := Code.within_load (w := w) hs hN hy' hs.e
  have hb := Code.within_binary (w := w) hs hN hx' hy' hs.f o
  simp [Builtin.choose, hb, hxe, hye, hs.e, hs.f, hP t ht]

theorem within_pick {p : Nat} (hp : P p) {target : Option Nat} (ht : ∀ b ∈ target, b < s.base)
    {x y : Operand} (hx : x.Below s.base) (hy : y.Below s.base) (o : Operator) :
    (Builtin.pick ⟨p, s, target, w⟩ o x y).Within P N := by
  cases target with
  | none => trivial
  | some a => exact ⟨within_choose hs hN hP hx hy (ht a rfl) o, hp⟩

theorem within_builtin {args : List Operand} {p : Nat} {target : Option Nat} (hp : P p)
    (ha : ∀ o ∈ args, o.Below s.base) (ht : ∀ b ∈ target, b < s.base) (b : Builtin) :
    (b.code ⟨p, s, target, w⟩ args).Within P N := by
  unfold Builtin.code
  split
  · induction args with
    | nil => exact hp
    | cons o rest ih =>
      exact ⟨Code.within_printOperand hs hN hP (ha o (by simp)),
        ih fun q hq => ha q (by simp [hq])⟩
  · cases target with
    | some a => exact ⟨Code.within_read.mpr (hP a (ht a rfl)), hp⟩
    | none => simp [hs.a, hp]
  · exact within_pick hs hN hP hp ht (ha _ (by simp)) (ha _ (by simp)) _
  · exact within_pick hs hN hP hp ht (ha _ (by simp)) (ha _ (by simp)) _
  · trivial

end Calls

namespace Emitter

variable {P N : Nat → Prop} {e : Emitter} (hs : e.scratch.Allowed P) (hN : N e.scratch.neg)
  (hP : ∀ a < e.scratch.base, P a)
include hs hN hP

theorem within_storeAll {a : Nat} {os : List Operand} (ho : ∀ o ∈ os, o.Below e.scratch.base)
    (ha : ∀ b ∈ List.range' a os.length, b < e.scratch.base) :
    (e.storeAll a os).Within P N := by
  induction os generalizing a with
  | nil => trivial
  | cons o rest ih =>
    rw [List.length_cons, List.range'_succ] at ha
    have h0 : P a := hP a (ha a (by simp))
    refine ⟨?_, ih (fun q hq => ho q (by simp [hq])) fun b hb => ha b (by simp [hb])⟩
    split_ifs
    · trivial
    · exact ⟨by simpa using h0, Code.within_load hs hN
        (fun b h => hP b ((ho o (by simp)).address b h)) h0⟩

theorem within_expandOr (hl : e.library.BuiltIn) {p : Nat} (hp : P p) {name : String}
    {args : List Operand} (ha : ∀ o ∈ args, o.Below e.scratch.base) {target : Option Nat}
    (ht : ∀ b ∈ target, b < e.scratch.base) {instead : Warned} (hi : instead.1.Within P N) :
    (e.expandOr p name args target instead).1.Within P N := by
  cases hf : e.library.find? name with
  | none => rwa [expandOr_of_none hf]
  | some t =>
    obtain ⟨b, under, rfl⟩ := hl hf
    by_cases hb : b.Takes args.length
    · rw [expandOr_of_takes hf hb]
      exact within_builtin hs hN hP hp ha ht b
    · rwa [expandOr_of_misfit hf hb]

theorem within_plain (hl : e.library.BuiltIn) {p : Nat} (hp : P p) {i : Instruction}
    (hi : i.Below e.scratch.base) :
    (e.plain p i).1.Within P N := by
  have haddr : ∀ o ∈ i.operands, ∀ b ∈ o.address?, P b := fun o ho b hb =>
    hP b ((hi.operands o ho).address b hb)
  have hw : ∀ b ∈ i.writes, P b := fun b hb => hP b (hi.writes b hb)
  cases i with
  | setValue a v => exact Code.within_writeCells hs hN fun b hb => hw b hb
  | copyValue t c =>
    have ht : P t := hw t (by simp [Instruction.writes])
    have hc : P c := hP c (hi.beside c (by simp [Instruction.readsBeside]))
    show (if t = c then Code.skip
      else Code.clear t ++ Code.copyAdd c t e.scratch.a : Code).Within P N
    split_ifs
    · trivial
    · simp [ht, hc, hs.a]
  | binary t o x y =>
    exact Code.within_binary hs hN (haddr x (by simp [Instruction.operands]))
      (haddr y (by simp [Instruction.operands])) (hw t (by simp [Instruction.writes])) o
  | print ops =>
    refine within_expandOr hs hN hP hl hp hi.operands (by simp) ?_
    have ho : ∀ o ∈ ops, o.Below e.scratch.base := hi.operands
    clear haddr hw hi
    show (Code.all (ops.map _)).Within P N
    induction ops with
    | nil => trivial
    | cons o rest ih =>
      have h₁ := Code.within_printOperand (w := e.width) hs hN hP (ho o (by simp))
      cases rest with
      | nil => exact h₁
      | cons q rest => exact ⟨h₁, ih fun r hr => ho r (by simp [hr])⟩
  | callFunction name args target =>
    refine within_expandOr hs hN hP hl hp hi.operands
      (fun a ha => hi.writes a (by simpa [Instruction.writes] using ha)) ?_
    unfold callMark unresolved
    split_ifs <;> exact Code.within_mark _ _
  | callMethod _ object method args target =>
    exact within_expandOr hs hN hP hl hp hi.operands
      (fun a ha => hi.writes a (by simpa [Instruction.writes] using ha)) (Code.within_mark _ _)
  | createArray a es =>
    refine within_storeAll hs hN hP hi.operands fun b hb => hi.writes b ?_
    simp only [List.mem_range'_1, Instruction.writes] at hb ⊢
    omega
  | createObject a fs =>
    refine ⟨Code.within_mark _ _, within_storeAll hs hN hP hi.operands fun b hb => hi.writes b ?_⟩
    simp only [List.mem_range'_1, List.length_map, Instruction.writes] at hb ⊢
    omega
  | update a change =>
    exact Code.within_addConst hs.constant hs.multiplier (hw a (by simp [Instruction.writes])) _
  | _ => exact Code.within_mark _ _

end Emitter

end TapeCompiler
