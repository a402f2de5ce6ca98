import TapeCompiler.Proofs.Memory.Relocating
import TapeCompiler.Proofs.Passes.Mentioned

/-! # Mapped addresses, cell by cell

What becomes of an instruction whose addresses are mapped (`Instruction.Readdressed`): the cells
that it reads, the cells that it writes and its blocks are the old ones mapped cell by cell, and
with the addresses taken out (`Instruction.form`) it is the instruction that it was. This holds of every
instruction and every map that shifts the blocks of the instruction as wholes
(`Instruction.readdressed`).

A batch of moves whose sources share no cell takes every cell of a source along with it, and no
other cell (`relocate_of_held`, `relocate_of_outside`). A block that no move splits is shifted as a whole
(`shifted_relocate`). So a program whose blocks are not split has all instructions and all symbols
mapped cell by cell (`Program.readdressed`). -/

namespace TapeCompiler

/-! ### Blocks -/

namespace Extent

variable {f : Nat → Nat} {e : Extent}

/-- The cells of an extent, in order. -/
def cells (e : Extent) : List Nat := List.range' e.1 e.size

/-- A map that **shifts an extent** as a whole. -/
def Shifted (f : Nat → Nat) (e : Extent) : Prop := ∀ k < e.size, f (e.1 + k) = f e.1 + k

theorem Shifted.mapsWhole (h : e.Shifted f) : Instruction.MapsWhole f (fun _ => True) e := by
  intro c hlow hhigh
  have := h (c - e.1) (by unfold size; omega)
  rw [Nat.add_sub_cancel' hlow] at this
  exact ⟨trivial, this⟩

theorem Shifted.range' {a n : Nat} (h : Shifted f (a, a + n)) :
    List.range' (f a) n = (List.range' a n).map f := h.mapsWhole.range'.2

/-- The cells of a block that is shifted are mapped **one by one**. -/
theorem Shifted.cells_mapFirst (h : e.Shifted f) : (e.mapFirst f).cells = e.cells.map f := by
  have hsize : (e.mapFirst f).size = e.size := by simp [mapFirst, size]
  rw [cells, cells, hsize]
  refine Shifted.range' fun k hk => h k ?_
  simpa [size] using hk

end Extent

/-! ### Instructions -/

/-- An operand **with its address taken out**. -/
def Operand.form : Operand → Operand
  | value v => value v
  | cells _ len => cells 0 len

namespace Instruction

/-- An instruction **with all addresses taken out**. -/
def form : Instruction → Instruction
  | setValue _ value => setValue 0 value
  | copyValue _ _ => copyValue 0 0
  | binary _ operator l r => binary 0 operator l.form r.form
  | print ops => print (ops.map Operand.form)
  | callFunction name args target =>
    callFunction name (args.map Operand.form) (target.map fun _ => 0)
  | callMethod _ objectName method args target =>
    callMethod 0 objectName method (args.map Operand.form) (target.map fun _ => 0)
  | createArray _ elements => createArray 0 (elements.map Operand.form)
  | createObject _ fields => createObject 0 (fields.map fun (key, op) => (key, op.form))
  | label name => label name
  | jump target => jump target
  | jumpUnless condition target => jumpUnless condition.form target
  | branch condition elseLabel => branch condition.form elseLabel
  | ret value => ret (value.map Operand.form)
  | update _ change => update 0 change
  | comment text => comment text
  | importModule name => importModule name
  | exportCell name _ => exportCell name 0

/-- **An instruction after a map of addresses**: its cells and blocks are mapped cell by cell, and
nothing else is changed. -/
structure Readdressed (f : Nat → Nat) (i j : Instruction) : Prop where
  reads : j.reads = i.reads.map f
  writes : j.writes = i.writes.map f
  blocks : j.blocks.map Extent.cells = i.blocks.map fun b => (Extent.cells b).map f
  form : j.form = i.form

variable {f : Nat → Nat} {i : Instruction}

theorem form_operand (o : Operand) : (o.mapAddress f).form = o.form := by
  cases o <;> rfl

theorem form_mapAddress (f : Nat → Nat) (i : Instruction) : (i.mapAddress f).form = i.form := by
  cases i <;> simp [form, mapAddress, form_operand, Function.comp_def]

theorem readsBeside_mapAddress (f : Nat → Nat) (i : Instruction) :
    (i.mapAddress f).readsBeside = i.readsBeside.map f := by
  cases i <;> rfl

/-- The cells of an operand are mapped; a block of no cells **has none to map**. -/
theorem span_mapAddress (h : ∀ b ∈ i.blocks, Extent.Shifted f b) {o : Operand}
    (ho : o ∈ i.operands) : (o.mapAddress f).span = o.span.map f := by
  cases o with
  | value => rfl
  | cells a len =>
    rcases Nat.eq_zero_or_pos len with rfl | hpos
    · rfl
    · refine Extent.Shifted.range' (h _ (List.mem_append_left _ (List.mem_filter.mpr ⟨?_, ?_⟩)))
      · exact List.mem_map_of_mem (f := Operand.bounds) ho
      · exact decide_eq_true (Nat.lt_add_of_pos_right hpos)

theorem reads_mapAddress (h : ∀ b ∈ i.blocks, Extent.Shifted f b) :
    (i.mapAddress f).reads = i.reads.map f := by
  unfold reads
  rw [operands_mapAddress, readsBeside_mapAddress, List.map_append, List.map_flatMap,
    List.flatMap_map]
  rw [List.flatMap_congr fun o ho => span_mapAddress h ho]

/-- **No address is missed**: where blocks are shifted as wholes, every cell of an instruction is
mapped. -/
theorem readdressed (h : ∀ b ∈ i.blocks, Extent.Shifted f b) :
    i.Readdressed f (i.mapAddress f) where
  reads := reads_mapAddress h
  writes := (writes_of_blocks fun b hb => (h b hb).mapsWhole).2
  blocks := by
    rw [blocks_mapAddress, List.map_map]
    exact List.map_congr_left fun b hb => (h b hb).cells_mapFirst
  form := form_mapAddress f i

end Instruction

/-! ### Moves -/

namespace Relocation

/-- The cells that a move takes along. -/
def held (m : Relocation) : Extent := (m.source, m.source + m.size)

/-- A move that **does not split** an extent: it takes all of its cells along, or none. -/
def Keeps (m : Relocation) (e : Extent) : Prop := e.Whole fun c d => m.held.Holds c → m.held.Holds d

theorem keeps_iff {m : Relocation} {e : Extent} :
    m.Keeps e ↔ e.2 ≤ e.1 ∨ m.size = 0 ∨ (m.source ≤ e.1 ∧ e.2 ≤ m.source + m.size) ∨
      e.2 ≤ m.source ∨ m.source + m.size ≤ e.1 := by
  unfold Keeps Extent.Whole Extent.Holds held
  simp only
  constructor
  · intro h
    by_contra hn
    -- a cell that both have, next to the first and the last cell of the extent
    have hshared := h (max e.1 m.source)
    have hfirst := hshared e.1 (by omega) (by omega) (by omega)
    have hlast := hshared (e.2 - 1) (by omega) (by omega) (by omega)
    omega
  · intro h c d hc hd hm
    omega

instance (m : Relocation) (e : Extent) : Decidable (m.Keeps e) := decidable_of_iff' _ keeps_iff

theorem newAddress?_of_holds {m : Relocation} {c : Nat} (h : m.held.Holds c) :
    m.newAddress? c = some (m.target + (c - m.source)) := if_pos h

theorem newAddress?_of_not_holds {m : Relocation} {c : Nat} (h : ¬ m.held.Holds c) :
    m.newAddress? c = none := if_neg h

end Relocation

section Moves
variable {moves : List Relocation} {e : Extent} {c : Nat}

/-- A cell that no move takes along **stays**. -/
theorem relocate_of_outside (h : ∀ m ∈ moves, ¬ m.held.Holds c) : relocate moves c = c := by
  induction moves with
  | nil => rfl
  | cons m moves ih =>
    obtain ⟨hm, hmoves⟩ := List.forall_mem_cons.mp h
    rw [relocate_cons, m.newAddress?_of_not_holds hm]
    exact ih hmoves

theorem relocate_of_held (hd : Extent.Apart (moves.map Relocation.held)) {m : Relocation}
    (hm : m ∈ moves) (hc : m.held.Holds c) : relocate moves c = m.target + (c - m.source) := by
  induction moves with
  | nil => cases hm
  | cons m' moves ih =>
    obtain ⟨hfirst, hd⟩ := List.pairwise_cons.mp hd
    rw [relocate_cons]
    rcases List.mem_cons.mp hm with rfl | hm
    · rw [m.newAddress?_of_holds hc]
      rfl
    · have hout : ¬ m'.held.Holds c := fun h' => hfirst _ (List.mem_map_of_mem hm) c ⟨h', hc⟩
      rw [m'.newAddress?_of_not_holds hout]
      exact ih hd hm

/-- A block that no move splits is **shifted as a whole**. -/
theorem shifted_relocate (h : ∀ m ∈ moves, m.Keeps e) : e.Shifted (relocate moves) := by
  induction moves with
  | nil => exact fun _ _ => rfl
  | cons m moves ih =>
    obtain ⟨hm, hmoves⟩ := List.forall_mem_cons.mp h
    intro k hk
    have hholds : e.Holds e.1 ∧ e.Holds (e.1 + k) := by
      unfold Extent.Holds
      unfold Extent.size at hk
      omega
    rw [relocate_cons, relocate_cons]
    by_cases hc : m.held.Holds e.1
    · rw [m.newAddress?_of_holds hc, m.newAddress?_of_holds (hm _ _ hholds.1 hholds.2 hc)]
      have := hc.1
      simp only [Relocation.held, Option.getD_some] at *
      omega
    · have hk' : ¬ m.held.Holds (e.1 + k) := fun h' => hc (hm _ _ hholds.2 hholds.1 h')
      rw [m.newAddress?_of_not_holds hc, m.newAddress?_of_not_holds hk']
      exact ih hmoves k hk

end Moves

/-! ### Programs -/

/-- A name that stands for **the same, readdressed**. -/
def Renamed {α : Type} (R : α → α → Prop) (s t : String × α) : Prop := t.1 = s.1 ∧ R s.2 t.2

/-- A symbol after a map of addresses: **its block** is mapped cell by cell. -/
structure VariableInfo.Readdressed (f : Nat → Nat) (v u : VariableInfo) : Prop where
  address : u.address = f v.address
  size : u.size = v.size
  kind : u.kind = v.kind
  cells : List.range' u.address u.size = (List.range' v.address v.size).map f

/-- A function after a map of addresses: **its locals** are readdressed. -/
structure FunctionInfo.Readdressed (f : Nat → Nat) (g h : FunctionInfo) : Prop where
  id : h.id = g.id
  params : h.params = g.params
  body : h.body = g.body
  inlineCandidate : h.inlineCandidate = g.inlineCandidate
  locals : List.Forall₂ (Renamed (VariableInfo.Readdressed f)) g.locals h.locals

/-- **A program after a map of addresses**: all instructions, variables, displaced bindings and
locals are readdressed, each in its place. -/
structure Program.Readdressed (f : Nat → Nat) (p q : Program) : Prop where
  instructions : List.Forall₂ (Instruction.Readdressed f) p.instructions q.instructions
  bindings : List.Forall₂ (Renamed (VariableInfo.Readdressed f)) p.bindings q.bindings
  shadowed : List.Forall₂ (Renamed (VariableInfo.Readdressed f)) p.shadowed q.shadowed
  functions : List.Forall₂ (Renamed (FunctionInfo.Readdressed f)) p.functions q.functions

namespace Program

variable {f : Nat → Nat} {p : Program} {moves : List Relocation}

theorem forall₂_map {α β : Type} {R : α → β → Prop} {g : α → β} {l : List α}
    (h : ∀ a ∈ l, R a (g a)) : List.Forall₂ R l (l.map g) :=
  List.forall₂_map_right_iff.mpr (List.forall₂_same.mpr h)

theorem readdressed_symbols {l : List (String × VariableInfo)}
    (h : ∀ s ∈ l, (extentOf s).Shifted f) :
    List.Forall₂ (Renamed (VariableInfo.Readdressed f)) l
      (l.map fun (name, v) => (name, v.mapAddress f)) :=
  forall₂_map fun s hs => ⟨rfl, rfl, rfl, rfl, (h s hs).range'⟩

/-- A program whose blocks are **shifted as wholes** is readdressed. -/
theorem readdressed_mapAddress (h : ∀ e ∈ p.extents, e.Shifted f) :
    p.Readdressed f (p.mapAddress f) := by
  rw [extents_eq] at h
  have hsymbol : ∀ s ∈ p.symbols, (extentOf s).Shifted f := fun s hs =>
    h _ (List.mem_append_left _ (List.mem_map_of_mem hs))
  have hlocal : ∀ g ∈ p.functions, ∀ s ∈ g.2.locals, (extentOf s).Shifted f := fun g hg s hs =>
    hsymbol s (List.mem_append_right _ (List.mem_flatMap.mpr ⟨g, hg, hs⟩))
  refine ⟨forall₂_map fun i hi => Instruction.readdressed fun b hb => ?_, readdressed_symbols ?_,
    readdressed_symbols ?_, forall₂_map fun g hg => ⟨rfl, rfl, rfl, rfl, rfl, ?_⟩⟩
  · exact h b (List.mem_append_right _ (List.mem_flatMap.mpr ⟨i, hi, hb⟩))
  · exact fun s hs => hsymbol s (List.mem_append_left _ (List.mem_append_left _ hs))
  · exact fun s hs => hsymbol s (List.mem_append_left _ (List.mem_append_right _ hs))
  · exact readdressed_symbols (hlocal g hg)

theorem relocate_eq (p : Program) (moves : List Relocation) :
    p.relocate moves = p.mapAddress (TapeCompiler.relocate moves) := by
  unfold relocate
  split_ifs with h
  · obtain rfl := List.isEmpty_iff.mp h
    exact (mapAddress_id p).symm
  · rfl

/-- Moves that **split no block** readdress a program. -/
theorem readdressed_relocate (h : ∀ m ∈ moves, ∀ e ∈ p.extents, m.Keeps e) :
    p.Readdressed (TapeCompiler.relocate moves) (p.relocate moves) := by
  rw [relocate_eq]
  exact readdressed_mapAddress fun e he => shifted_relocate fun m hm => h m hm e he

end Program

/-- **No address is missed.** Where a map shifts the blocks of an instruction as wholes, the cells
read, the cells written and the blocks are the old ones, mapped cell by cell, and the rest of the
instruction is as it was. Where moves with sources that share no cell split no block of a program,
every cell of a source goes to its target and no other cell moves, and so it is for all
instructions, variables, displaced bindings and locals. -/
theorem addresses_mapped :
    (∀ (f : Nat → Nat) (i : Instruction), (∀ b ∈ i.blocks, Extent.Shifted f b) →
      i.Readdressed f (i.mapAddress f)) ∧
    ∀ (p : Program) (moves : List Relocation), Extent.Apart (moves.map Relocation.held) →
      (∀ m ∈ moves, ∀ e ∈ p.extents, m.Keeps e) →
      (∀ m ∈ moves, ∀ k < m.size, relocate moves (m.source + k) = m.target + k) ∧
      (∀ c, (∀ m ∈ moves, ¬ m.held.Holds c) → relocate moves c = c) ∧
      p.Readdressed (relocate moves) (p.relocate moves) := by
  refine ⟨fun f i h => Instruction.readdressed h, fun p moves hd hk => ⟨fun m hm k hlt => ?_,
    fun c h => relocate_of_outside h, Program.readdressed_relocate hk⟩⟩
  have hc : m.held.Holds (m.source + k) := ⟨Nat.le_add_right _ _, Nat.add_lt_add_left hlt _⟩
  rw [relocate_of_held hd hm hc, Nat.add_sub_cancel_left]

/-- A displaced binding and a local move together, an array moves elsewhere. -/
theorem addresses_mapped_of_displaced :
    Instruction.Readdressed (· + 6) (.createObject 0 [("a", .cells 2 2), ("b", .value .null)])
      (.createObject 6 [("a", .cells 8 2), ("b", .value .null)]) ∧
    let p : Program := ⟨[("list", ⟨8, 3, .const⟩)], [("x", ⟨5, 1, .block⟩)],
      [("g", ⟨1, ["y"], [], [("y", ⟨6, 1, .block⟩)], false⟩)],
      [.createArray 8 [.cells 5 1, .value .null, .cells 6 1], .print [.cells 8 3]]⟩
    let moves : List Relocation := [⟨8, 2, 3⟩, ⟨5, 0, 2⟩]
    p.Readdressed (relocate moves) (p.relocate moves) ∧
      (p.relocate moves).instructions =
        [.createArray 2 [.cells 0 1, .value .null, .cells 1 1], .print [.cells 2 3]] := by
  refine ⟨addresses_mapped.1 (· + 6) _ fun b _ k _ => Nat.add_right_comm b.1 k 6, ?_, rfl⟩
  refine (addresses_mapped.2 _ _ ?_ (by decide)).2.2
  simp [Extent.Apart, Relocation.held, Extent.Holds]
  omega

end TapeCompiler
