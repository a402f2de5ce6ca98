import TapeCompiler.Proofs.Cells.Bounds
import TapeCompiler.Proofs.Cells.Tree

/-! # Other cells

A store may hold in other cells what an instruction needs (`Store.Shows`): the instruction with its
addresses mapped does the same there, if the map keeps blocks whole and no cell that is needed lies
where one is written (`effect_mapAddress`). So cells that an instruction does not name are of no
concern (`effect_set`).

The same holds of trees (`CodeTree.matches_mapAddress`, `CodeTree.runs_set`). -/

namespace TapeCompiler

variable {w : CellWidth} {l : Library} {f : Nat → Nat} {P : Nat → Prop} {σ τ : Store w}

/-! ### Stores that show others -/

/-- A store **shows another**: where `f` maps a cell of `P`, it holds what the cell holds. -/
structure Store.Shows (f : Nat → Nat) (P : Nat → Prop) (σ τ : Store w) : Prop where
  cells : ∀ a, P a → τ.cells (f a) = σ.cells a
  input : τ.input = σ.input
  output : τ.output = σ.output

/-- An operand of needed cells, **mapped as a whole**. -/
def Operand.Mapped (f : Nat → Nat) (P : Nat → Prop) : Operand → Prop
  | value _ => True
  | cells a len => 0 < len ∧ ∀ j < len, P (a + j) ∧ f (a + j) = f a + j

namespace Store.Shows

theorem set (h : Shows f P σ τ) {b : Nat} (hb : ∀ a, P a → f a = f b → a = b) {u v : w.Cell}
    (hv : u = v) : Shows f P (σ.set b v) (τ.set (f b) u) where
  cells a ha := by
    simp only [Store.cells_set]
    by_cases hab : a = b
    · simp [hab, hv]
    · rw [if_neg hab, if_neg fun h => hab (hb a ha h), h.cells a ha]
  input := h.input
  output := h.output

theorem first (h : Shows f P σ τ) {o : Operand} (ho : o.Mapped f P) :
    τ.first (o.mapAddress f) = σ.first o := by
  cases o with
  | value => rfl
  | cells a len => exact h.cells a (ho.2 0 ho.1).1

theorem holds (h : Shows f P σ τ) {o : Operand} (ho : o.Mapped f P) :
    τ.holds (o.mapAddress f) = σ.holds o := by
  cases o with
  | value => rfl
  | cells a len =>
    have := h.cells a (ho.2 0 ho.1).1
    simp only [Operand.mapAddress, Store.holds, this]

theorem shown (h : Shows f P σ τ) {o : Operand} (ho : o.Mapped f P) :
    τ.shown (o.mapAddress f) = σ.shown o := by
  cases o with
  | value => rfl
  | cells a len =>
    obtain ⟨hlen, ho⟩ := ho
    have hrest : (List.range' (f a + 1) (len - 1)).map τ.cells =
        (List.range' (a + 1) (len - 1)).map σ.cells := by
      refine List.ext_getElem (by simp) fun j hj _ => ?_
      rw [List.length_map, List.length_range'] at hj
      have := ho (1 + j) (by omega)
      rw [← Nat.add_assoc, ← Nat.add_assoc] at this
      simp only [List.getElem_map, List.getElem_range', Nat.one_mul]
      rw [← this.2, h.cells _ this.1]
    simp only [Operand.mapAddress, Store.shown, hrest, h.cells a (ho 0 hlen).1]

theorem write (h : Shows f P σ τ) (vs : List w.Cell) : Shows f P (σ.write vs) (τ.write vs) :=
  ⟨h.cells, h.input, by simp only [Store.write, h.output]⟩

theorem print (h : Shows f P σ τ) {ops : List Operand} (ho : ∀ o ∈ ops, o.Mapped f P) :
    Shows f P (σ.print ops) (τ.print (ops.map (Operand.mapAddress f))) := by
  have : (ops.map (Operand.mapAddress f)).flatMap τ.shown = ops.flatMap σ.shown := by
    rw [List.flatMap_map]
    exact List.flatMap_congr fun o hm => h.shown (ho o hm)
  unfold Store.print
  rw [this]
  exact h.write _

theorem receive (h : Shows f P σ τ) {b : Nat} (hb : ∀ a, P a → f a = f b → a = b) :
    Shows f P (σ.receive b) (τ.receive (f b)) := by
  unfold Store.receive
  rw [h.input]
  cases σ.input with
  | nil => exact h.set hb rfl
  | cons byte rest =>
    have := h.set hb (rfl : w.cell byte.toNat = w.cell byte.toNat)
    exact ⟨this.cells, rfl, this.output⟩

theorem shifted_tail {b n : Nat} (hf : ∀ j < n + 1, f (b + j) = f b + j) :
    ∀ j < n, f (b + 1 + j) = f (b + 1) + j := fun j hj => by
  rw [Nat.add_assoc, hf (1 + j) (by omega), hf 1 (by omega), Nat.add_assoc]

theorem apart_tail {b n : Nat} (hb : ∀ a, P a → ∀ c ∈ List.range' b (n + 1), f a = f c → a = c) :
    ∀ a, P a → ∀ c ∈ List.range' (b + 1) n, f a = f c → a = c := fun a ha c hc =>
  hb a ha c (by rw [List.range'_succ]; exact List.mem_cons_of_mem _ hc)

theorem setAll (h : Shows f P σ τ) {b : Nat} (vs : List w.Cell)
    (hf : ∀ j < vs.length, f (b + j) = f b + j)
    (hb : ∀ a, P a → ∀ c ∈ List.range' b vs.length, f a = f c → a = c) :
    Shows f P (σ.setAll b vs) (τ.setAll (f b) vs) := by
  induction vs generalizing σ τ b with
  | nil => exact h
  | cons v vs ih =>
    have h' := h.set (fun a ha => hb a ha b (by simp)) (rfl : v = v)
    cases vs with
    | nil => exact h'
    | cons v' vs =>
      have h1 : f (b + 1) = f b + 1 := hf 1 (by simp)
      have := ih h' (b := b + 1) (shifted_tail hf) (apart_tail hb)
      rwa [h1] at this

theorem storeAll (h : Shows f P σ τ) {b : Nat} (os : List Operand)
    (ho : ∀ o ∈ os, o.Mapped f P) (hf : ∀ j < os.length, f (b + j) = f b + j)
    (hb : ∀ a, P a → ∀ c ∈ List.range' b os.length, f a = f c → a = c) :
    Shows f P (σ.storeAll b os) (τ.storeAll (f b) (os.map (Operand.mapAddress f))) := by
  induction os generalizing σ τ b with
  | nil => exact h
  | cons o os ih =>
    have h' := h.set (fun a ha => hb a ha b (by simp)) (h.first (ho o (by simp)))
    rw [List.map_cons, Store.storeAll, Store.storeAll]
    cases os with
    | nil => exact h'
    | cons o' os =>
      have h1 : f (b + 1) = f b + 1 := hf 1 (by simp)
      have := ih h' (b := b + 1) (fun p hp => ho p (by simp [hp])) (shifted_tail hf)
        (apart_tail hb)
      rwa [h1] at this

theorem builtinEffect (h : Shows f P σ τ) (b : Builtin) {args : List Operand}
    {target : Option Nat} (ho : ∀ o ∈ args, o.Mapped f P)
    (hb : ∀ a, P a → ∀ b ∈ target, f a = f b → a = b) :
    Shows f P (b.effect args target σ)
      (b.effect (args.map (Operand.mapAddress f)) (target.map f) τ) := by
  unfold Builtin.effect
  cases b with
  | print => exact h.print ho
  | prompt =>
    cases target with
    | none => exact ⟨h.cells, by simp only [Option.map_none, h.input], h.output⟩
    | some b => exact h.receive fun a ha => hb a ha b rfl
  | smaller | larger =>
    match args, target with
    | [x, y], some b =>
      exact h.set (fun a ha => hb a ha b rfl) (by
        rw [h.first (ho x (by simp)), h.first (ho y (by simp))])
    | [x, y], none | [], _ | [x], _ | _ :: _ :: _ :: _, _ => exact h

theorem libraryEffect (h : Shows f P σ τ) (name : String) {args : List Operand}
    {target : Option Nat} (ho : ∀ o ∈ args, o.Mapped f P)
    (hb : ∀ a, P a → ∀ b ∈ target, f a = f b → a = b) :
    Shows f P (l.effect name args target σ)
      (l.effect name (args.map (Operand.mapAddress f)) (target.map f) τ) := by
  unfold Library.effect
  split
  · exact h.builtinEffect _ ho hb
  · exact h

end Store.Shows

/-! ### Instructions -/

namespace Instruction

variable {i : Instruction}

/-- An instruction on needed cells whose blocks are **mapped as wholes**, and which writes onto no
other cell that is needed. -/
structure Mapped (f : Nat → Nat) (P : Nat → Prop) (i : Instruction) : Prop where
  operands : ∀ o ∈ i.operands, o.Mapped f P
  beside : ∀ a ∈ i.readsBeside, P a
  writes : (i.mapAddress f).writes = i.writes.map f
  apart : ∀ a, P a → ∀ b ∈ i.writes, f a = f b → a = b

theorem map_range' {b n : Nat} (h : List.range' (f b) n = (List.range' b n).map f) :
    ∀ j < n, f (b + j) = f b + j := fun j hj => by
  have := congrArg (·[j]?) h
  simpa [hj] using this.symm

/-- **The mapped instruction does the same** on a store that shows what is needed. -/
theorem effect_mapAddress (h : σ.Shows f P τ) (hi : i.Mapped f P) :
    (i.effect l σ).Shows f P ((i.mapAddress f).effect l τ) := by
  obtain ⟨ho, hr, hw, ha⟩ := hi
  cases i with
  | setValue b v =>
    have hf := map_range' hw
    refine h.setAll (v.cells.map w.literal) (fun j hj => hf j ?_) fun a hp c hc => ?_
    · simpa [Value.size] using hj
    · exact ha a hp c (by simpa [writes, Value.size] using hc)
  | copyValue target source =>
    exact h.set (fun a hp => ha a hp target (by simp [writes]))
      (h.cells source (hr source (by simp [readsBeside])))
  | binary target o x y =>
    exact h.set (fun a hp => ha a hp target (by simp [writes])) (by
      rw [h.first (ho x (by simp [Instruction.operands])),
        h.first (ho y (by simp [Instruction.operands]))])
  | print ops => exact h.print ho
  | callFunction name args target =>
    exact h.libraryEffect name ho fun a hp b hb => ha a hp b (by simpa [writes] using hb)
  | callMethod object objectName method args target =>
    exact h.libraryEffect _ ho fun a hp b hb => ha a hp b (by simpa [writes] using hb)
  | createArray b es =>
    have hf := map_range' (n := max es.length 1) (by simpa [writes, mapAddress] using hw)
    refine h.storeAll es ho (fun j hj => hf j (by omega)) fun a hp c hc => ha a hp c ?_
    simp only [List.mem_range'_1, writes] at hc ⊢
    omega
  | createObject b fs =>
    have hf := map_range' (n := max fs.length 1) (by simpa [writes, mapAddress] using hw)
    have := h.storeAll (fs.map Prod.snd) ho (fun j hj => hf j (by
      rw [List.length_map] at hj; omega)) fun a hp c hc => ha a hp c (by
      simp only [List.mem_range'_1, writes, List.length_map] at hc ⊢
      omega)
    rw [List.map_map] at this
    simp only [mapAddress, effect, List.map_map]
    exact this
  | update b change =>
    exact h.set (fun a hp => ha a hp b (by simp [writes])) (by
      rw [h.cells b (hr b (by simp [readsBeside]))])
  | _ => exact h

@[simp] theorem isFlow_mapAddress (f : Nat → Nat) (i : Instruction) :
    (i.mapAddress f).isFlow = i.isFlow := by
  cases i <;> rfl

theorem operands_mapAddress (f : Nat → Nat) (i : Instruction) :
    (i.mapAddress f).operands = i.operands.map (Operand.mapAddress f) := by
  cases i with
  | createObject a fs => simp [mapAddress, Instruction.operands, Function.comp_def]
  | ret v => cases v <;> rfl
  | _ => rfl

theorem Proper.mapAddress (h : i.Proper) (f : Nat → Nat) : (i.mapAddress f).Proper := by
  intro o ho
  rw [operands_mapAddress] at ho
  obtain ⟨o', ho', rfl⟩ := List.mem_map.mp ho
  have := h o' ho'
  cases o' <;> exact this

theorem mapAddress_id (i : Instruction) : i.mapAddress id = i := by
  have ho : Operand.mapAddress id = id := funext fun o => by cases o <;> rfl
  cases i <;> simp [mapAddress, ho]

/-- A block of needed cells that is **mapped as a whole**. -/
def MapsWhole (f : Nat → Nat) (P : Nat → Prop) (b : Nat × Nat) : Prop :=
  ∀ c, b.1 ≤ c → c < b.2 → P c ∧ f c = f b.1 + (c - b.1)

theorem MapsWhole.of_single {c : Nat} (h : MapsWhole f P (single c)) : P c :=
  (h c (Nat.le_refl c) (Nat.lt_succ_self c)).1

theorem MapsWhole.range' {a n : Nat} (h : MapsWhole f P (a, a + n)) :
    (∀ c ∈ List.range' a n, P c) ∧ List.range' (f a) n = (List.range' a n).map f := by
  have hmem : ∀ c ∈ List.range' a n, P c ∧ f c = f a + (c - a) := fun c hc => by
    rw [List.mem_range'_1] at hc
    exact h c hc.1 hc.2
  refine ⟨fun c hc => (hmem c hc).1, List.ext_getElem (by simp) fun j hj _ => ?_⟩
  rw [List.length_range'] at hj
  have := (hmem (a + j) (by rw [List.mem_range'_1]; omega)).2
  simp only [List.getElem_map, List.getElem_range', Nat.one_mul, this]
  omega

/-- Where blocks are mapped as wholes, **the cells written** are needed and mapped. -/
theorem writes_of_blocks (h : ∀ b ∈ i.blocks, MapsWhole f P b) :
    (∀ c ∈ i.writes, P c) ∧ (i.mapAddress f).writes = i.writes.map f := by
  have hb : ∀ b ∈ i.blocksBeside, MapsWhole f P b := fun b hm => h b (List.mem_append_right _ hm)
  cases i with
  | setValue a v => exact (hb _ (by simp [blocksBeside])).range'
  | createArray a es =>
    have := (hb (a, a + max es.length 1) (by simp [blocksBeside])).range'
    simpa [writes, mapAddress] using this
  | createObject a fs =>
    have := (hb (a, a + max fs.length 1) (by simp [blocksBeside])).range'
    simpa [writes, mapAddress] using this
  | copyValue | binary | update =>
    refine ⟨fun c hc => MapsWhole.of_single (hb (single c) ?_), rfl⟩
    simp_all [writes, blocksBeside]
  | callFunction name args target | callMethod object objectName method args target =>
    refine ⟨fun c hc => MapsWhole.of_single (hb (single c) ?_), by cases target <;> rfl⟩
    simp_all [writes, blocksBeside]
  | _ => exact ⟨by simp [writes], rfl⟩

/-- **An instruction whose blocks are mapped as wholes**, and the cells it writes are needed. -/
theorem mapped_of_blocks (hi : i.Proper) (hb : ∀ b ∈ i.blocks, MapsWhole f P b)
    (hinj : ∀ a c, P a → P c → f a = f c → a = c) :
    i.Mapped f P ∧ ∀ c ∈ i.writes, P c := by
  have ho : ∀ o ∈ i.operands, o.Mapped f P := by
    intro o ho
    have hp := hi o ho
    cases o with
    | value => trivial
    | cells a len =>
      have hpos : 0 < len := hp
      have := hb (a, a + len) (List.mem_append_left _ (List.mem_filter.mpr
        ⟨List.mem_map.mpr ⟨_, ho, rfl⟩, by simp only [decide_eq_true_eq]; omega⟩))
      refine ⟨hpos, fun j hj => ⟨(this (a + j) ?_ ?_).1, ?_⟩⟩
      · simp
      · simp only; omega
      · rw [(this (a + j) (by simp) (by simp only; omega)).2]
        simp
  have hr : ∀ c ∈ i.readsBeside, P c := by
    intro c hc
    refine MapsWhole.of_single (hb (single c) (List.mem_append_right _ ?_))
    cases i <;> simp_all [readsBeside, blocksBeside]
  have hw := writes_of_blocks hb
  exact ⟨⟨ho, hr, hw.2, fun a ha c hc => hinj a c ha (hw.1 c hc)⟩, hw.1⟩

/-- A mapped instruction lies below a limit of **where the needed cells go**. -/
theorem Mapped.below {limit : Nat} (h : i.Mapped f P) (hw : ∀ c ∈ i.writes, P c)
    (hl : ∀ c, P c → f c < limit) : (i.mapAddress f).Below limit where
  operands o ho := by
    rw [operands_mapAddress] at ho
    obtain ⟨o', ho', rfl⟩ := List.mem_map.mp ho
    have := h.operands o' ho'
    cases o' with
    | value => trivial
    | cells a len =>
      obtain ⟨hpos, hcells⟩ := this
      obtain ⟨hp, hf⟩ := hcells (len - 1) (by omega)
      have := hl _ hp
      exact ⟨hpos, by omega⟩
  beside c hc := by
    obtain ⟨c', hc', rfl⟩ : ∃ c' ∈ i.readsBeside, f c' = c := by
      cases i <;> simp_all [readsBeside, mapAddress]
    exact hl _ (h.beside c' hc')
  writes c hc := by
    rw [h.writes] at hc
    obtain ⟨c', hc', rfl⟩ := List.mem_map.mp hc
    exact hl _ (hw c' hc')

theorem below_of_blocks {limit : Nat} (hi : i.Proper) (h : ∀ b ∈ i.blocks, b.2 ≤ limit) :
    i.Below limit := by
  obtain ⟨hm, hw⟩ := mapped_of_blocks (f := id) (P := (· < limit)) hi
    (fun b hb c hc hcb => ⟨Nat.lt_of_lt_of_le hcb (h b hb), by simp only [id_eq]; omega⟩)
    fun a c _ _ hac => hac
  have := hm.below hw fun c hc => hc
  rwa [mapAddress_id] at this

theorem maxAddress_eq_blocks (hi : i.Proper) :
    i.maxAddress = i.blocks.foldl (fun top b => max top b.2) 0 := by
  refine Nat.le_antisymm ?_ ?_
  · exact (below_of_blocks hi fun b hb => le_foldl_max_of_mem Prod.snd hb 0).maxAddress_le
  · exact foldl_max_le Prod.snd (Nat.zero_le _) fun b hb =>
      ((below_of_le hi (Nat.le_refl _)).blocks b hb).2

theorem maxAddressWrapping_eq (hi : i.Proper) (h : i.maxAddress < wordSize) :
    i.maxAddressWrapping = i.maxAddress := by
  rw [maxAddress_eq_blocks hi, maxAddressWrapping]
  refine List.foldl_ext _ _ _ fun top b hb => if_pos ?_
  exact ((below_of_le hi (Nat.le_refl _)).blocks b hb).2.trans_lt h

theorem Below.mapped {limit : Nat} (hi : i.Below limit) (hP : ∀ c < limit, P c) :
    i.Mapped id P where
  operands o ho := by
    have := hi.operands o ho
    cases o with
    | value => trivial
    | cells a len => exact ⟨this.1, fun j hj => ⟨hP _ (by have := this.2; omega), rfl⟩⟩
  beside a ha := hP a (hi.beside a ha)
  writes := by rw [mapAddress_id, List.map_id]
  apart a _ b _ hab := hab

theorem effect_set {limit a : Nat} (hi : i.Below limit) (ha : limit ≤ a) (v : w.Cell) :
    i.effect l (σ.set a v) = (i.effect l σ).set a v := by
  have hs : σ.Shows id (· ≠ a) (σ.set a v) :=
    ⟨fun b hb => Store.cells_set_of_ne _ _ hb, rfl, rfl⟩
  have h := effect_mapAddress (l := l) hs (hi.mapped fun c hc => by omega)
  rw [mapAddress_id] at h
  refine Store.ext (fun b => ?_) h.input h.output
  rcases eq_or_ne b a with rfl | hb
  · rw [cells_effect l i _ fun hm => by have := hi.writes _ hm; omega, Store.cells_set_self,
      Store.cells_set_self]
  · rw [Store.cells_set_of_ne _ _ hb]
    exact h.cells b hb

end Instruction

theorem runAll_set {limit a : Nat} {seg : List Instruction} (hs : ∀ i ∈ seg, i.Below limit)
    (ha : limit ≤ a) (v : w.Cell) : runAll l seg (σ.set a v) = (runAll l seg σ).set a v := by
  induction seg generalizing σ with
  | nil => rfl
  | cons i seg ih =>
    rw [runAll_cons, runAll_cons, Instruction.effect_set (hs i (by simp)) ha,
      ih fun j hj => hs j (by simp [hj])]

theorem runAll_cells {limit a : Nat} {seg : List Instruction} (hs : ∀ i ∈ seg, i.Below limit)
    (ha : limit ≤ a) : (runAll l seg σ).cells a = σ.cells a := by
  induction seg generalizing σ with
  | nil => rfl
  | cons i seg ih =>
    rw [runAll_cons, ih fun j hj => hs j (by simp [hj]),
      Instruction.cells_effect l i σ fun hm => by have := (hs i (by simp)).writes _ hm; omega]

/-! ### Trees -/

namespace CodeTree

/-- Every instruction of a tree has a property. -/
def All (p : Instruction → Prop) (t : CodeTree) : Prop := ∀ i ∈ t.flatten, p i

section All
variable {p : Instruction → Prop} {before test last : List Instruction} {n : Nat} {c : Operand}
  {yes no body rest : CodeTree}

theorem all_branch : (branch before n c yes no rest).All p ↔
    (∀ i ∈ before, p i) ∧ p (.branch c (LabelKind.ifElse.name n)) ∧ yes.All p ∧
      p (.jump (LabelKind.ifEnd.name n)) ∧ p (.label (LabelKind.ifElse.name n)) ∧ no.All p ∧
        p (.label (LabelKind.ifEnd.name n)) ∧ rest.All p := by
  simp only [All, flatten, List.forall_mem_append, List.forall_mem_cons]

theorem all_loop : (loop before n test c body last rest).All p ↔
    (∀ i ∈ before, p i) ∧ p (.label (LabelKind.forTest.name n)) ∧ (∀ i ∈ test, p i) ∧
      p (.jumpUnless c (LabelKind.forEnd.name n)) ∧ body.All p ∧
        p (.label (LabelKind.forUpdate.name n)) ∧ (∀ i ∈ last, p i) ∧
          p (.jump (LabelKind.forTest.name n)) ∧ p (.label (LabelKind.forEnd.name n)) ∧
            rest.All p := by
  simp only [All, flatten, List.forall_mem_append, List.forall_mem_cons]

end All

/-- A tree with its addresses mapped. -/
def mapAddress (f : Nat → Nat) : CodeTree → CodeTree :=
  map (List.map (Instruction.mapAddress f)) (Operand.mapAddress f)

theorem flatten_mapAddress (f : Nat → Nat) (t : CodeTree) :
    (t.mapAddress f).flatten = t.flatten.map (Instruction.mapAddress f) := by
  unfold mapAddress
  induction t with
  | done => rfl
  | branch _ _ _ _ _ _ ihy ihn ihr => simp [map, flatten, ihy, ihn, ihr, Instruction.mapAddress]
  | loop _ _ _ _ _ _ _ ihb ihr => simp [map, flatten, ihb, ihr, Instruction.mapAddress]

theorem keeps_mapAddress {seg : List Instruction} (h : ∀ i ∈ seg, i.Mapped f P) :
    Keeps (w := w) l (Store.Shows f P) seg (seg.map (Instruction.mapAddress f)) := by
  induction seg with
  | nil => exact fun σ τ hs => hs
  | cons i seg ih =>
    exact fun σ τ hs => ih (fun j hj => h j (by simp [hj])) _ _
      (Instruction.effect_mapAddress hs (h i (by simp)))

/-- A tree with its parts changed matches it, if **each part keeps the relation**. -/
theorem matches_map {p : Instruction → Prop} {g : List Instruction → List Instruction}
    {h : Operand → Operand} {S : Store w → Store w → Prop} {t : CodeTree} (ht : t.All p)
    (hg : ∀ seg, (∀ i ∈ seg, p i) → Keeps l S seg (g seg))
    (hc : ∀ c name, p (.branch c name) ∨ p (.jumpUnless c name) → Agree S c (h c)) :
    Matches l S t (t.map g h) := by
  induction t with
  | done seg => exact .done (hg _ ht)
  | branch before n c yes no rest ihy ihn ihr =>
    obtain ⟨hb, ht, hy, -, -, hn, -, hr⟩ := all_branch.mp ht
    exact .branch (hg _ hb) (hc _ _ (.inl ht)) (ihy hy) (ihn hn) (ihr hr)
  | loop before n test c body last rest ihb ihr =>
    obtain ⟨hb, -, ht, hj, hbody, -, hl, -, -, hr⟩ := all_loop.mp ht
    exact .loop (hg _ hb) (hg _ ht) (hc _ _ (.inr hj)) (ihb hbody) (hg _ hl) (ihr hr)

/-- **The tree with its addresses mapped does the same** where what is needed is shown. -/
theorem matches_mapAddress {t : CodeTree} (h : t.All (Instruction.Mapped f P)) :
    Matches (w := w) l (Store.Shows f P) t (t.mapAddress f) := by
  refine matches_map h (fun seg hseg => keeps_mapAddress hseg) fun c name hc σ τ hs => ?_
  refine (hs.holds ?_).symm
  exact hc.elim (fun h => h.operands c (by simp [Instruction.operands]))
    fun h => h.operands c (by simp [Instruction.operands])

section Above
variable {limit a : Nat} {t : CodeTree} (ht : t.All (Instruction.Below limit)) (ha : limit ≤ a)
include ht ha

theorem Runs.cells (h : t.Runs l σ τ) : τ.cells a = σ.cells a := by
  induction t generalizing σ τ with
  | done seg =>
    rw [show τ = _ from h]
    exact runAll_cells ht ha
  | branch before n c yes no rest ihy ihn ihr =>
    obtain ⟨hb, -, hy, -, -, hn, -, hr⟩ := all_branch.mp ht
    obtain ⟨ρ, hside, hrest⟩ := h
    rw [ihr hr hrest]
    split_ifs at hside
    · rw [ihy hy hside, runAll_cells hb ha]
    · rw [ihn hn hside, runAll_cells hb ha]
  | loop before n test c body last rest ihb ihr =>
    obtain ⟨hb, -, htest, -, hbody, -, hl, -, -, hr⟩ := all_loop.mp ht
    obtain ⟨ρ, hwhile, hrest⟩ := h
    rw [ihr hr hrest]
    refine (hwhile.invariant (I := fun ρ => ρ.cells a = σ.cells a) ?_ ?_).1
    · rintro α β hα - ⟨υ, hυ, rfl⟩
      rw [runAll_append, runAll_cells htest ha, runAll_cells hl ha, ihb hbody hυ, hα]
    · rw [runAll_append, runAll_cells htest ha, runAll_cells hb ha]

theorem runs_set (v : w.Cell) :
    t.Runs l (σ.set a v) τ ↔ ∃ ρ, t.Runs l σ ρ ∧ τ = ρ.set a v := by
  have hm : Matches (w := w) l (fun σ τ => ∃ v, τ = σ.set a v) t t := by
    have hk : ∀ {seg : List Instruction}, (∀ i ∈ seg, i.Below limit) →
        Keeps (w := w) l (fun σ τ => ∃ v, τ = σ.set a v) seg seg := by
      rintro seg hseg σ τ ⟨v, rfl⟩
      exact ⟨v, runAll_set hseg ha v⟩
    have hc : ∀ {c : Operand} {name : String}, (Instruction.branch c name).Below limit ∨
        (Instruction.jumpUnless c name).Below limit →
          Agree (w := w) (fun σ τ => ∃ v, τ = σ.set a v) c c := by
      rintro c name h σ τ ⟨v, rfl⟩
      have hb : c.Below limit := h.elim (fun h => h.operands c (by simp [Instruction.operands]))
        fun h => h.operands c (by simp [Instruction.operands])
      cases c with
      | value => rfl
      | cells b len =>
        have : b ≠ a := by have := hb.address b rfl; omega
        simp only [Store.holds, Store.cells_set_of_ne _ _ this]
    induction t with
    | done seg => exact .done (hk ht)
    | branch before n c yes no rest ihy ihn ihr =>
      obtain ⟨hb, ht, hy, -, -, hn, -, hr⟩ := all_branch.mp ht
      exact .branch (hk hb) (hc (.inl ht)) (ihy hy) (ihn hn) (ihr hr)
    | loop before n test c body last rest ihb ihr =>
      obtain ⟨hb, -, ht, hj, hbody, -, hl, -, -, hr⟩ := all_loop.mp ht
      exact .loop (hk hb) (hk ht) (hc (.inr hj)) (ihb hbody) (hk hl) (ihr hr)
  constructor
  · intro h
    have hs : ∃ u, σ = (σ.set a v).set a u := ⟨σ.cells a, by simp⟩
    obtain ⟨ρ, hρ, u, rfl⟩ := hm.simulation hs h
    refine ⟨τ.set a u, hρ, ?_⟩
    have := h.cells ht ha
    rw [Store.cells_set_self] at this
    rw [Store.set_set, ← this, Store.set_cells_self]
  · rintro ⟨ρ, hρ, rfl⟩
    have hs : ∃ u, σ.set a v = σ.set a u := ⟨v, rfl⟩
    obtain ⟨τ, hτ, u, rfl⟩ := hm.simulation hs hρ
    have := hτ.cells ht ha
    rw [Store.cells_set_self, Store.cells_set_self] at this
    exact this ▸ hτ

end Above

end CodeTree

end TapeCompiler
