import TapeCompiler.Cells.Program
import Mathlib.Tactic.Common

/-! # The cells of a program

An instruction is below a limit when all cells it names are (`Instruction.Below`). Its `maxAddress`
is such a limit, if operands name at least one cell (`below_of_le`), and a program's `maxAddress` is
no less than that of its instructions (`maxAddress_le`). -/

namespace TapeCompiler

/-! ### Largest of a list -/

theorem le_foldl_max {α : Type} (f : α → Nat) (l : List α) (n : Nat) :
    n ≤ l.foldl (fun top x => max top (f x)) n := by
  induction l generalizing n with
  | nil => exact Nat.le_refl n
  | cons x l ih => exact Nat.le_trans (Nat.le_max_left _ _) (ih _)

theorem le_foldl_max_of_mem {α : Type} (f : α → Nat) {l : List α} {x : α} (h : x ∈ l) (n : Nat) :
    f x ≤ l.foldl (fun top x => max top (f x)) n := by
  induction l generalizing n with
  | nil => simp at h
  | cons y l ih =>
    rcases List.mem_cons.mp h with rfl | h
    · exact Nat.le_trans (Nat.le_max_right _ _) (le_foldl_max f l _)
    · exact ih h _

theorem foldl_max_le {α : Type} (f : α → Nat) {l : List α} {n m : Nat} (hn : n ≤ m)
    (h : ∀ x ∈ l, f x ≤ m) : l.foldl (fun top x => max top (f x)) n ≤ m := by
  induction l generalizing n with
  | nil => exact hn
  | cons x l ih =>
    exact ih (Nat.max_le.mpr ⟨hn, h x (by simp)⟩) fun y hy => h y (by simp [hy])

/-! ### Below a limit -/

/-- An operand **names a cell**, if it stands for cells. -/
def Operand.Proper : Operand → Prop
  | value _ => True
  | cells _ len => 0 < len

/-- The cells of an operand lie below a limit. -/
def Operand.Below (limit : Nat) : Operand → Prop
  | value _ => True
  | cells address len => 0 < len ∧ address + len ≤ limit

theorem Operand.Below.address {limit : Nat} {o : Operand} (h : o.Below limit) :
    ∀ b ∈ o.address?, b < limit := by
  cases o with
  | value => simp [address?]
  | cells a len =>
    rintro b ⟨⟩
    unfold Below at h
    omega

namespace Instruction

/-- The operands of an instruction name cells. -/
def Proper (i : Instruction) : Prop := ∀ o ∈ i.operands, o.Proper

/-- **The cells of an instruction** lie below a limit. -/
structure Below (limit : Nat) (i : Instruction) : Prop where
  operands : ∀ o ∈ i.operands, o.Below limit
  beside : ∀ c ∈ i.readsBeside, c < limit
  writes : ∀ c ∈ i.writes, c < limit

theorem Below.proper {limit : Nat} {i : Instruction} (h : i.Below limit) : i.Proper := fun o ho => by
  have := h.operands o ho
  cases o with
  | value => trivial
  | cells a len => exact this.1

theorem lt_maxAddress {i : Instruction} {c : Nat} (h : c ∈ i.reads ∨ c ∈ i.writes) :
    c < i.maxAddress :=
  le_foldl_max_of_mem (fun c => c + 1) (List.mem_append.mpr h) 0

theorem below_of_le {i : Instruction} (hi : i.Proper) {limit : Nat} (h : i.maxAddress ≤ limit) :
    i.Below limit where
  operands o ho := by
    have hp := hi o ho
    cases o with
    | value => trivial
    | cells a len =>
      unfold Operand.Proper at hp
      have hmem : a + (len - 1) ∈ i.reads := by
        refine List.mem_append_left _ (List.mem_flatMap.mpr ⟨_, ho, ?_⟩)
        rw [Operand.span, List.mem_range'_1]
        omega
      have := lt_maxAddress (Or.inl hmem)
      exact ⟨hp, by omega⟩
  beside c hc := Nat.lt_of_lt_of_le (lt_maxAddress (Or.inl (List.mem_append_right _ hc))) h
  writes c hc := Nat.lt_of_lt_of_le (lt_maxAddress (Or.inr hc)) h

theorem Below.maxAddress_le {limit : Nat} {i : Instruction} (h : i.Below limit) :
    i.maxAddress ≤ limit := by
  refine foldl_max_le _ (Nat.zero_le _) fun c hc => ?_
  rcases List.mem_append.mp hc with hc | hc
  · rcases List.mem_append.mp hc with hc | hc
    · obtain ⟨o, ho, hc⟩ := List.mem_flatMap.mp hc
      have := h.operands o ho
      cases o with
      | value => simp [Operand.span] at hc
      | cells a len =>
        rw [Operand.span, List.mem_range'_1] at hc
        have := this.2
        omega
    · exact h.beside c hc
  · exact h.writes c hc

theorem below_comment {limit : Nat} (text : String) : (comment text).Below limit :=
  ⟨by simp [operands], by simp [readsBeside], by simp [writes]⟩

theorem Below.blocks {i : Instruction} {limit : Nat} (h : i.Below limit) :
    ∀ b ∈ i.blocks, b.1 ≤ b.2 ∧ b.2 ≤ limit := by
  obtain ⟨ho, hr, hw⟩ := h
  have hone : ∀ c < limit, (single c).1 ≤ (single c).2 ∧ (single c).2 ≤ limit := fun c hc =>
    ⟨Nat.le_succ c, hc⟩
  intro b hb
  rcases List.mem_append.mp hb with hb | hb
  · obtain ⟨o, hm, rfl⟩ := List.mem_map.mp (List.mem_filter.mp hb).1
    have := ho o hm
    cases o with
    | value => exact ⟨Nat.le_refl 0, Nat.zero_le limit⟩
    | cells a len => exact ⟨Nat.le_add_right a len, this.2⟩
  · have hspan : ∀ a n, 0 < n → (∀ c ∈ List.range' a n, c < limit) → a ≤ a + n ∧ a + n ≤ limit :=
      fun a n hn h => ⟨Nat.le_add_right a n, by
        have := h (a + (n - 1)) (by rw [List.mem_range'_1]; omega)
        omega⟩
    cases i with
    | setValue a v =>
      rw [List.mem_singleton.mp hb]
      exact hspan a _ v.size_pos hw
    | createArray a es =>
      rw [List.mem_singleton.mp hb]
      exact hspan a _ (by omega) hw
    | createObject a fs =>
      rw [List.mem_singleton.mp hb]
      exact hspan a _ (by omega) hw
    | copyValue target source =>
      rcases List.mem_cons.mp hb with rfl | hb
      · exact hone _ (hw _ List.mem_cons_self)
      · rw [List.mem_singleton.mp hb]
        exact hone _ (hr _ List.mem_cons_self)
    | callFunction name args target =>
      obtain ⟨c, hc, rfl⟩ := List.mem_map.mp hb
      exact hone _ (hw _ hc)
    | callMethod object objectName method args target =>
      rcases List.mem_cons.mp hb with rfl | hb
      · exact hone _ (hr _ List.mem_cons_self)
      · obtain ⟨c, hc, rfl⟩ := List.mem_map.mp hb
        exact hone _ (hw _ hc)
    | binary target o x y =>
      rw [List.mem_singleton.mp hb]
      exact hone _ (hw _ List.mem_cons_self)
    | update a change =>
      rw [List.mem_singleton.mp hb]
      exact hone _ (hw _ List.mem_cons_self)
    | exportCell name a =>
      rw [List.mem_singleton.mp hb]
      exact hone _ (hr _ List.mem_cons_self)
    | _ => simp [blocksBeside] at hb

end Instruction

namespace Program

theorem maxAddress_le {p : Program} {i : Instruction} (h : i ∈ p.instructions) :
    i.maxAddress ≤ p.maxAddress :=
  Nat.le_trans (le_foldl_max_of_mem Instruction.maxAddress h 0)
    (le_foldl_max (fun v : VariableInfo => v.address + v.size) _ _)

end Program

end TapeCompiler
