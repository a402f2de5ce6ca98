import TapeCompiler.Emission.Emitter
import Mathlib.Data.List.Forall2
import Mathlib.Logic.Function.Basic
import Mathlib.Tactic.Common

/-! # Programs in other words

A program is reworded by changing free texts: comments, modules, names of exports, keys of objects,
names of calls that no template answers to, and labels, different ones staying different
(`Program.Reworded`). None of these decides which shapes its control flow has, how deep they nest or
which cells they need.

* `of_reworded`: the plan stays the same;
* `maxAddress_of_reworded`: so do the cells the program takes. -/

namespace TapeCompiler

/-! ### Lists in step -/

section Lists
variable {α β γ : Type} {R : α → β → Prop} {l : List α} {m : List β}

theorem map_of_forall₂ {f : α → γ} {g : β → γ} (hfg : ∀ a b, R a b → f a = g b)
    (h : List.Forall₂ R l m) : l.map f = m.map g := by
  induction h with
  | nil => rfl
  | cons hab _ ih => rw [List.map_cons, List.map_cons, hfg _ _ hab, ih]

theorem forall₂_zipIdx (h : List.Forall₂ R l m) (k : Nat) :
    List.Forall₂ (fun x y => R x.1 y.1 ∧ x.2 = y.2) (l.zipIdx k) (m.zipIdx k) := by
  induction h generalizing k with
  | nil => exact .nil
  | cons hab _ ih => exact .cons ⟨hab, rfl⟩ (ih (k + 1))

theorem rel_getElem? (h : List.Forall₂ R l m) (k : Nat) : Option.Rel R l[k]? m[k]? := by
  induction h generalizing k with
  | nil => exact .none
  | cons hab _ ih =>
    cases k with
    | zero => exact .some hab
    | succ k => exact ih k

theorem rel_findSome? {δ ε : Type} {S : δ → ε → Prop} {f : α → Option δ} {g : β → Option ε}
    (hfg : ∀ a b, R a b → Option.Rel S (f a) (g b)) (h : List.Forall₂ R l m) :
    Option.Rel S (l.findSome? f) (m.findSome? g) := by
  induction h with
  | nil => exact .none
  | @cons a b _ _ hab _ ih =>
    rw [List.findSome?_cons, List.findSome?_cons]
    have := hfg a b hab
    cases hfa : f a <;> cases hgb : g b <;> rw [hfa, hgb] at this
    · exact ih
    · cases this
    · cases this
    · exact this

theorem filterMap_of_forall₂ {f : α → Option γ} {g : β → Option γ}
    (hfg : ∀ a b, R a b → f a = g b) (h : List.Forall₂ R l m) : l.filterMap f = m.filterMap g := by
  induction h with
  | nil => rfl
  | cons hab _ ih => rw [List.filterMap_cons, List.filterMap_cons, hfg _ _ hab, ih]

end Lists

/-! ### Rewording -/

/-- **An instruction in other words**, in a library and by a renaming of labels. -/
inductive Instruction.Reworded (library : Library) (rename : String → String) :
    Instruction → Instruction → Prop
  /-- Nothing is changed; labels and jumps have rules of their own. -/
  | same {i : Instruction} : i.isFlow = false → Reworded library rename i i
  | comment (text text' : String) : Reworded library rename (.comment text) (.comment text')
  | importModule (name name' : String) :
    Reworded library rename (.importModule name) (.importModule name')
  | exportCell (name name' : String) (address : Nat) :
    Reworded library rename (.exportCell name address) (.exportCell name' address)
  /-- Other keys with the same values. -/
  | createObject (address : Nat) {fields fields' : List (String × Operand)} :
    fields.map Prod.snd = fields'.map Prod.snd →
      Reworded library rename (.createObject address fields) (.createObject address fields')
  /-- Another function without a template. -/
  | callFunction {name name' : String} (args : List Operand) (target : Option Nat) :
    library.find? name = none → library.find? name' = none →
      Reworded library rename (.callFunction name args target) (.callFunction name' args target)
  /-- Another method without a template. -/
  | callMethod (object : Nat) {owner owner' method method' : String} (args : List Operand)
    (target : Option Nat) :
    library.find? (owner ++ "." ++ method) = none →
      library.find? (owner' ++ "." ++ method') = none →
        Reworded library rename (.callMethod object owner method args target)
          (.callMethod object owner' method' args target)
  | label (name : String) : Reworded library rename (.label name) (.label (rename name))
  | jump (name : String) : Reworded library rename (.jump name) (.jump (rename name))
  | jumpUnless (condition : Operand) (name : String) :
    Reworded library rename (.jumpUnless condition name) (.jumpUnless condition (rename name))
  | branch (condition : Operand) (name : String) :
    Reworded library rename (.branch condition name) (.branch condition (rename name))

/-- **A program in other words**: the symbols and functions are the same, and the instructions are
reworded one by one, different labels staying different. -/
structure Program.Reworded (library : Library) (p q : Program) : Prop where
  bindings : q.bindings = p.bindings
  shadowed : q.shadowed = p.shadowed
  functions : q.functions = p.functions
  instructions : ∃ rename, Function.Injective rename ∧
    List.Forall₂ (Instruction.Reworded library rename) p.instructions q.instructions

section Plan
variable {library : Library} {rename : String → String} {i j : Instruction}
  {code code' : List Instruction}

theorem Instruction.Reworded.isFlow (h : i.Reworded library rename j) : i.isFlow = j.isFlow := by
  cases h <;> rfl

theorem Instruction.Reworded.maxAddress (h : i.Reworded library rename j) :
    i.maxAddress = j.maxAddress := by
  cases h with
  | createObject address hv =>
    have hlen := congrArg List.length hv
    simp only [List.length_map] at hlen
    simp only [Instruction.maxAddress, Instruction.reads, Instruction.operands,
      Instruction.readsBeside, Instruction.writes, hv, hlen]
  | _ => rfl

theorem Instruction.Reworded.maxAddressWrapping (h : i.Reworded library rename j) :
    i.maxAddressWrapping = j.maxAddressWrapping := by
  cases h with
  | createObject address hv =>
    have hlen := congrArg List.length hv
    simp only [List.length_map] at hlen
    simp only [Instruction.maxAddressWrapping, Instruction.blocks, Instruction.operands,
      Instruction.blocksBeside, hv, hlen]
  | _ => rfl

variable (hf : Function.Injective rename)
  (h : List.Forall₂ (Instruction.Reworded library rename) code code')

include hf h in
theorem labelIndex?_of_reworded (name : String) :
    labelIndex? code' (rename name) = labelIndex? code name := by
  unfold labelIndex?
  induction h with
  | nil => rfl
  | @cons i j _ _ hij _ ih =>
    rw [List.findIdx?_cons, List.findIdx?_cons, ih]
    cases hij with
    | same hi =>
      cases i with
      | label | jump | jumpUnless | branch => cases hi
      | _ => rfl
    | label n => simp only [hf.eq_iff]
    | _ => rfl

include h in
theorem nextFlow?_of_reworded (start : Nat) :
    Option.Rel (fun x y => x.1 = y.1 ∧ x.2.Reworded library rename y.2) (nextFlow? code start)
      (nextFlow? code' start) := by
  refine rel_findSome? (fun x y hxy => ?_) (List.forall₂_drop start (forall₂_zipIdx h 0))
  obtain ⟨i, k⟩ := x
  obtain ⟨j, k'⟩ := y
  obtain ⟨hij, rfl⟩ := hxy
  simp only [hij.isFlow]
  split_ifs
  · exact .some ⟨rfl, hij⟩
  · exact .none

include hf h in
theorem loopAt?_of_reworded (back : Nat) (name : String) :
    loopAt? code' back (rename name) = loopAt? code back name := by
  unfold loopAt?
  rw [labelIndex?_of_reworded hf h]
  refine Option.bind_congr fun head _ => ?_
  refine Option.bind_congr fun _ _ => ?_
  have hnext := nextFlow?_of_reworded h (head + 1)
  generalize nextFlow? code (head + 1) = x at hnext
  generalize nextFlow? code' (head + 1) = y at hnext
  cases hnext with
  | none => rfl
  | @some a b hab =>
    obtain ⟨k, i⟩ := a
    obtain ⟨k', j⟩ := b
    obtain ⟨rfl, hij⟩ := hab
    cases hij with
    | jumpUnless condition out =>
      refine Option.bind_congr (o := guard (k < back)) fun _ _ => ?_
      rw [labelIndex?_of_reworded hf h]
    | same hi =>
      cases i with
      | label | jump | jumpUnless | branch => cases hi
      | _ => rfl
    | _ => rfl

include hf h in
theorem branchAt?_of_reworded (test : Nat) (name : String) :
    branchAt? code' test (rename name) = branchAt? code test name := by
  unfold branchAt?
  rw [labelIndex?_of_reworded hf h]
  refine Option.bind_congr fun other _ => ?_
  refine Option.bind_congr fun _ _ => ?_
  have hturn : Option.Rel (Instruction.Reworded library rename) code[other - 1]?
      code'[other - 1]? := rel_getElem? h _
  generalize code[other - 1]? = x at hturn
  generalize code'[other - 1]? = y at hturn
  cases hturn with
  | none => rfl
  | @some i j hij =>
    cases hij with
    | jump out =>
      show (labelIndex? code' (rename out)).bind _ = _
      rw [labelIndex?_of_reworded hf h]
      rfl
    | same hi =>
      cases i with
      | label | jump | jumpUnless | branch => cases hi
      | _ => rfl
    | _ => rfl

include hf h in
theorem loopShapes_of_reworded : loopShapes code' = loopShapes code := by
  refine (filterMap_of_forall₂ (fun x y hxy => ?_) (forall₂_zipIdx h 0)).symm
  obtain ⟨i, k⟩ := x
  obtain ⟨j, k'⟩ := y
  obtain ⟨hij, rfl⟩ := hxy
  cases hij with
  | jump name => exact (loopAt?_of_reworded hf h k name).symm
  | same hi =>
    cases i with
    | label | jump | jumpUnless | branch => cases hi
    | _ => rfl
  | _ => rfl

include hf h in
theorem branchShapes_of_reworded : branchShapes code' = branchShapes code := by
  refine (filterMap_of_forall₂ (fun x y hxy => ?_) (forall₂_zipIdx h 0)).symm
  obtain ⟨i, k⟩ := x
  obtain ⟨j, k'⟩ := y
  obtain ⟨hij, rfl⟩ := hxy
  cases hij with
  | branch condition name => exact (branchAt?_of_reworded hf h k name).symm
  | same hi =>
    cases i with
    | label | jump | jumpUnless | branch => cases hi
    | _ => rfl
  | _ => rfl

include hf h in
/-- **Other words make no other plan.** -/
theorem of_reworded : ControlPlan.of code' = ControlPlan.of code := by
  unfold ControlPlan.of
  rw [loopShapes_of_reworded hf h, branchShapes_of_reworded hf h]

end Plan

section Cells
variable {library : Library} {p q : Program} (h : p.Reworded library q)
include h

theorem foldl_max_of_reworded {f : Instruction → Nat}
    (hf : ∀ ⦃rename i j⦄, Instruction.Reworded library rename i j → f i = f j) :
    q.instructions.foldl (fun top i => max top (f i)) 0 =
      p.instructions.foldl (fun top i => max top (f i)) 0 := by
  obtain ⟨rename, -, hcode⟩ := h.instructions
  have hmap : p.instructions.map f = q.instructions.map f :=
    map_of_forall₂ (fun _ _ hij => hf hij) hcode
  rw [← List.foldl_map (f := f) (g := max), ← List.foldl_map (f := f) (g := max), hmap]

theorem maxAddress_of_reworded : q.maxAddress = p.maxAddress := by
  unfold Program.maxAddress
  rw [foldl_max_of_reworded h fun _ _ _ hij => hij.maxAddress, h.bindings, h.shadowed]

theorem maxAddressWrapping_of_reworded : q.maxAddressWrapping = p.maxAddressWrapping := by
  unfold Program.maxAddressWrapping
  rw [foldl_max_of_reworded h fun _ _ _ hij => hij.maxAddressWrapping, h.bindings, h.shadowed]

end Cells

end TapeCompiler
