import TapeCompiler.Proofs.Passes.Groups
import TapeCompiler.Proofs.Passes.Meaning

/-! # The cells named after a pass

Where addresses are mapped so that extents stay whole, the cells named are those that the named
cells go to (`mentions_mapAddress`). Reordering is such a mapping, also where it finds every slot in
its place (`reordering_eq`). Notes name no cell (`extents_inlineNotes`), and sharing leaves the
named cells as they are (`mentions_sharing`): the operands of a result that is copied are named
where the result was computed. -/

namespace TapeCompiler

/-- The extent with its first cell mapped. -/
def Extent.mapFirst (f : Nat → Nat) (e : Extent) : Extent := (f e.1, f e.1 + e.size)

/-! ### Instructions -/

namespace Instruction

variable {c : Nat}

/-- Whether an instruction **names a cell**. -/
def Mentions (i : Instruction) (c : Nat) : Prop := ∃ b ∈ i.blocks, Extent.Holds b c

@[simp] theorem holds_single {a : Nat} : Extent.Holds (single a) c ↔ c = a := by
  unfold Extent.Holds single
  simp only
  omega

theorem holds_bounds {o : Operand} : Extent.Holds o.bounds c ↔ o.reads c = true := by
  cases o <;> simp [Extent.Holds, Operand.bounds, Operand.reads]

theorem mentions_iff {i : Instruction} : i.Mentions c ↔
    (∃ o ∈ i.operands, o.reads c = true) ∨ ∃ b ∈ i.blocksBeside, Extent.Holds b c := by
  unfold Mentions blocks
  constructor
  · rintro ⟨b, hb, hc⟩
    rcases List.mem_append.mp hb with hb | hb
    · obtain ⟨o, ho, rfl⟩ := List.mem_map.mp (List.mem_filter.mp hb).1
      exact Or.inl ⟨o, ho, holds_bounds.mp hc⟩
    · exact Or.inr ⟨b, hb, hc⟩
  · rintro (⟨o, ho, hc⟩ | ⟨b, hb, hc⟩)
    · have hc := holds_bounds.mpr hc
      refine ⟨o.bounds, List.mem_append_left _ (List.mem_filter.mpr ⟨List.mem_map_of_mem ho, ?_⟩), hc⟩
      exact decide_eq_true (Nat.lt_of_le_of_lt hc.1 hc.2)
    · exact ⟨b, List.mem_append_right _ hb, hc⟩

theorem mentions_copyValue {target source : Nat} :
    (copyValue target source).Mentions c ↔ c = target ∨ c = source := by
  simp [mentions_iff, operands, blocksBeside]

theorem mentions_binary {target : Nat} {o : Operator} {l r : Operand} :
    (binary target o l r).Mentions c ↔ c = target ∨ l.reads c = true ∨ r.reads c = true := by
  simp [mentions_iff, operands, blocksBeside, or_comm]

/-- The cell by which an instruction uses a slot is **one that it names**. -/
theorem mentions_of_uses {i : Instruction} (hi : i.Proper) (hc : c ∈ i.uses) : i.Mentions c := by
  have hfirst : ∀ o ∈ i.operands, o.address? = some c → o.reads c = true := by
    intro o ho hc
    have hpos := hi o ho
    cases o with
    | value => cases hc
    | cells a len =>
      obtain rfl := Option.some.inj hc
      unfold Operand.Proper at hpos
      simp only [Operand.reads, Bool.and_eq_true, decide_eq_true_eq]
      omega
  cases i with
  | copyValue target source => simpa [mentions_copyValue, uses] using hc
  | print ops =>
    obtain ⟨o, ho, hc⟩ := List.mem_filterMap.mp hc
    exact mentions_iff.mpr (Or.inl ⟨o, ho, hfirst o ho hc⟩)
  | binary target o l r =>
    simp only [uses, List.mem_cons, List.mem_append, Option.mem_toList] at hc
    rw [mentions_binary]
    rcases hc with hc | hc | hc
    · exact Or.inl hc
    · exact Or.inr (Or.inl (hfirst l (by simp [operands]) hc))
    · exact Or.inr (Or.inr (hfirst r (by simp [operands]) hc))
  | _ => simp [uses] at hc

theorem blocks_mapAddress (f : Nat → Nat) (i : Instruction) :
    (i.mapAddress f).blocks = i.blocks.map (Extent.mapFirst f) := by
  have hops : ∀ ops : List Operand,
      ((ops.map (Operand.mapAddress f)).map Operand.bounds).filter (fun b => b.1 < b.2) =
        ((ops.map Operand.bounds).filter fun b => b.1 < b.2).map (Extent.mapFirst f) := by
    intro ops
    induction ops with
    | nil => rfl
    | cons o ops ih =>
      cases o with
      | value => simpa [Operand.mapAddress, Operand.bounds] using ih
      | cells a len =>
        simp only [List.map_cons, Operand.mapAddress, Operand.bounds, List.filter_cons, ih]
        by_cases hlen : 0 < len <;> simp [hlen, Extent.mapFirst, Extent.size]
  have hbeside : (i.mapAddress f).blocksBeside = i.blocksBeside.map (Extent.mapFirst f) := by
    cases i with
    | callFunction name args target | callMethod object objectName method args target =>
      cases target <;> simp [mapAddress, blocksBeside, single, Extent.mapFirst, Extent.size]
    | _ => simp [mapAddress, blocksBeside, single, Extent.mapFirst, Extent.size]
  rw [blocks, blocks, operands_mapAddress, hops, hbeside, List.map_append]

end Instruction

/-! ### Mapped addresses -/

namespace Program

variable {p : Program} {f : Nat → Nat} {c : Nat}

theorem mentions_iff : p.Mentions c ↔
    (∃ s ∈ p.symbols, Extent.Holds (extentOf s) c) ∨ ∃ i ∈ p.instructions, i.Mentions c := by
  simp only [Mentions, extents_eq, List.mem_append, List.mem_map, List.mem_flatMap, or_and_right,
    exists_or, exists_exists_and_eq_and, Instruction.Mentions]
  refine or_congr_right ⟨?_, ?_⟩
  · rintro ⟨e, ⟨i, hi, he⟩, hc⟩
    exact ⟨i, hi, e, he, hc⟩
  · rintro ⟨i, hi, e, he, hc⟩
    exact ⟨e, ⟨i, hi, he⟩, hc⟩

theorem symbols_mapAddress (f : Nat → Nat) (p : Program) :
    (p.mapAddress f).symbols = p.symbols.map fun s => (s.1, s.2.mapAddress f) := by
  simp [symbols, mapAddress, mapSymbols, Names.mapValues, List.map_flatMap, List.flatMap_map]

theorem extents_mapAddress (f : Nat → Nat) (p : Program) :
    (p.mapAddress f).extents = p.extents.map (Extent.mapFirst f) := by
  rw [extents_eq, extents_eq, symbols_mapAddress, List.map_append, List.map_map, List.map_map]
  congr 1
  · refine List.map_congr_left fun s _ => ?_
    simp [extentOf, VariableInfo.mapAddress, Extent.mapFirst, Extent.size]
  · simp only [mapAddress, List.flatMap_map, Instruction.blocks_mapAddress, List.map_flatMap]

/-- **The named cells** are those that the named cells go to, if extents stay whole. -/
theorem mentions_mapAddress {P : Nat → Prop}
    (hw : ∀ e ∈ p.extents, Instruction.MapsWhole f P e) :
    (p.mapAddress f).Mentions c ↔ ∃ d, p.Mentions d ∧ f d = c := by
  unfold Mentions
  rw [extents_mapAddress]
  constructor
  · rintro ⟨e', he', hlow, hhigh⟩
    obtain ⟨e, he, rfl⟩ := List.mem_map.mp he'
    simp only [Extent.mapFirst, Extent.size] at hlow hhigh
    have hd : Extent.Holds e (e.1 + (c - f e.1)) := ⟨by omega, by omega⟩
    have := (hw e he _ hd.1 hd.2).2
    exact ⟨_, ⟨e, he, hd⟩, by omega⟩
  · rintro ⟨d, ⟨e, he, hd⟩, rfl⟩
    have heq := (hw e he d hd.1 hd.2).2
    refine ⟨e.mapFirst f, List.mem_map_of_mem he, ?_⟩
    obtain ⟨hlow, hhigh⟩ := hd
    simp only [Extent.Holds, Extent.mapFirst, Extent.size]
    omega

theorem mapAddress_id (p : Program) : p.mapAddress id = p := by
  have hsymbol : VariableInfo.mapAddress id = id := rfl
  have hcode : Instruction.mapAddress id = id := funext Instruction.mapAddress_id
  simp [mapAddress, mapSymbols, Names.mapValues, hsymbol, hcode]

end Program

/-! ### Reordering -/

theorem relocate_of_stays {moves : List Relocation} (h : ∀ m ∈ moves, m.source = m.target) :
    relocate moves = id := by
  funext c
  unfold relocate
  cases hc : moves.findSome? fun m => m.newAddress? c with
  | none => rfl
  | some d =>
    obtain ⟨m, hm, hd⟩ := List.exists_of_findSome?_eq_some hc
    have hstay := h m hm
    unfold Relocation.newAddress? at hd
    split_ifs at hd with hin
    simp only [Option.some.injEq] at hd
    simp only [Option.getD_some, id]
    omega

/-- **Reordering maps addresses**, by moves that change nothing where every slot is in its place. -/
theorem reordering_eq (p : Program) :
    (reordering p).1 = p.mapAddress (relocate (packed p.slots p.uses)) := by
  unfold reordering Program.uses
  simp only
  split_ifs with hstay
  · rw [relocate_of_stays fun m hm => of_decide_eq_true (List.all_eq_true.mp hstay m hm),
      Program.mapAddress_id]
  · rfl

/-! ### Notes and sharing -/

theorem flatMap_blocks_noteCall (candidates : List String) (i : Instruction) :
    (noteCall candidates i).flatMap Instruction.blocks = i.blocks := by
  unfold noteCall
  split
  · split_ifs
    · simp [Instruction.blocks, Instruction.operands, Instruction.blocksBeside]
    · simp
  · simp

theorem symbols_inlineNotes (p : Program) : (inlineNotes p).1.symbols = p.symbols := by
  simp [inlineNotes, Program.symbols, Names.mapValues, List.flatMap_map, FunctionInfo.marked]

theorem extents_inlineNotes (p : Program) : (inlineNotes p).1.extents = p.extents := by
  rw [Program.extents_eq, Program.extents_eq, symbols_inlineNotes]
  simp only [inlineNotes, List.flatMap_assoc, flatMap_blocks_noteCall]

/-- The instruction that a memo entry was made at. -/
def Known.origin (k : Known) : Instruction := .binary k.cell k.operator k.left k.right

/-- **A shared instruction** names no other cells, next to what the memo names. -/
theorem mentions_shareOne {S : Nat → Prop} {memo : List Known}
    (hm : ∀ k ∈ memo, ∀ c, k.origin.Mentions c → S c) (i : Instruction) (c : Nat) :
    S c ∨ (shareOne memo i).1.Mentions c ↔ S c ∨ i.Mentions c := by
  rcases shareOne_eq memo i with h | ⟨target, o, l, r, cell, rfl, hknown, h⟩
  · rw [h]
  · have hS := hm _ (mem_of_known? hknown) c
    rw [Known.origin, Instruction.mentions_binary] at hS
    rw [h, Instruction.mentions_copyValue, Instruction.mentions_binary]
    tauto

theorem mentions_shareResults {S : Nat → Prop} {memo : List Known} {code : List Instruction}
    (hm : ∀ k ∈ memo, ∀ c, k.origin.Mentions c → S c) (c : Nat) :
    (S c ∨ ∃ i ∈ (shareResults memo code).1, i.Mentions c) ↔
      S c ∨ ∃ i ∈ code, i.Mentions c := by
  -- what the memo names grows by the instruction in front
  induction code generalizing memo S with
  | nil => rfl
  | cons i code ih =>
    have hnext : ∀ k ∈ (shareOne memo i).2, ∀ c, k.origin.Mentions c → S c ∨ i.Mentions c := by
      intro k hk c hc
      rcases mem_memo_shareOne hk with ⟨hk, -⟩ | ⟨rfl, -⟩
      · exact Or.inl (hm k hk c hc)
      · exact Or.inr hc
    simp only [shareResults_cons, List.exists_mem_cons_iff]
    rw [← or_assoc, ← or_assoc, mentions_shareOne hm]
    exact ih hnext

theorem symbols_sharing (p : Program) : (sharing p).1.symbols = p.symbols := rfl

theorem mentions_sharing {p : Program} {c : Nat} : (sharing p).1.Mentions c ↔ p.Mentions c := by
  rw [Program.mentions_iff, Program.mentions_iff]
  exact mentions_shareResults (S := fun c => ∃ s ∈ p.symbols, Extent.Holds (Program.extentOf s) c)
    (fun k hk => absurd hk List.not_mem_nil) c

end TapeCompiler
