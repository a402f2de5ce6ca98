import TapeCompiler.Proofs.Emission.Depth

/-! # Passes keep what a program prints

What each pass but folding does to the straight parts of a tree changes no outcome that shows:

* a dead store writes cells that nothing reads (`keeps_deadStores`);
* a merged update does what the two did (`runAll_mergeUpdates`);
* notes do nothing (`runAll_noteCall`, `matches_noted`);
* a shared result is what would be computed, as long as the memo holds (`runAll_shareResults`). -/

namespace TapeCompiler

variable {w : CellWidth} {l : Library} {σ τ : Store w}

/-! ### Dead stores -/

theorem mapped_readCells {code : List Instruction} {i : Instruction} (hi : i ∈ code)
    (hp : i.Proper) : i.Mapped id (· ∈ readCells code) := by
  have hreads : ∀ c ∈ i.reads, c ∈ readCells code := fun c hc =>
    List.mem_flatMap.mpr ⟨i, hi, hc⟩
  refine ⟨fun o ho => ?_, fun a ha => hreads a (List.mem_append_right _ ha), ?_, fun _ _ _ _ h => h⟩
  · have := hp o ho
    cases o with
    | value => trivial
    | cells a len =>
      refine ⟨this, fun j hj => ⟨hreads _ (List.mem_append_left _ ?_), rfl⟩⟩
      exact List.mem_flatMap.mpr ⟨_, ho, by simp [Operand.span]; omega⟩
  · rw [Instruction.mapAddress_id, List.map_id]

theorem shows_deadStore {read : List Nat} {i : Instruction} (hi : i.isDeadStore read = true)
    (h : σ.Shows id (· ∈ read) τ) : (i.effect l σ).Shows id (· ∈ read) τ := by
  cases i with
  | setValue a v =>
    simp only [Instruction.isDeadStore, List.all_eq_true, Bool.not_eq_true',
      List.contains_eq_mem, decide_eq_false_iff_not] at hi
    refine ⟨fun b hb => ?_, ?_, ?_⟩
    · rw [h.cells b hb, Instruction.cells_effect l _ σ fun hm => hi b hm hb]
    · rw [h.input, Instruction.effect, Store.input_setAll]
    · rw [h.output, Instruction.effect, Store.output_setAll]
  | _ => cases hi

theorem keeps_deadStores {code seg : List Instruction}
    (h : ∀ i ∈ seg, i ∈ code ∧ i.Proper) :
    CodeTree.Keeps (w := w) l (Store.Shows id (· ∈ readCells code)) seg
      (seg.filter fun i => !i.isDeadStore (readCells code)) := by
  induction seg with
  | nil => exact fun σ τ hs => hs
  | cons i seg ih =>
    intro σ τ hs
    have ih := ih fun j hj => h j (by simp [hj])
    obtain ⟨hi, hp⟩ := h i (by simp)
    cases hd : i.isDeadStore (readCells code) with
    | true =>
      rw [List.filter_cons_of_neg (by simp [hd]), runAll_cons]
      exact ih _ _ (shows_deadStore hd hs)
    | false =>
      rw [List.filter_cons_of_pos (by simp [hd]), runAll_cons, runAll_cons]
      have := Instruction.effect_mapAddress (l := l) hs (mapped_readCells hi hp)
      rw [Instruction.mapAddress_id] at this
      exact ih _ _ this

/-! ### Updates -/

theorem effect_merged {i j k : Instruction} (h : i.merged? j = some k) (σ : Store w) :
    k.effect l σ = j.effect l (i.effect l σ) := by
  have h₁ : ∀ w : CellWidth, w.literal 2 = w.literal 1 + w.literal 1 := by
    intro w
    cases w <;> rfl
  have h₂ : ∀ w : CellWidth, w.literal (-2) = w.literal (-1) + w.literal (-1) := by
    intro w
    cases w <;> rfl
  obtain ⟨a, c, c', rfl, rfl, rfl, ⟨rfl, rfl⟩ | ⟨rfl, rfl⟩⟩ := merged_eq h
  · simp only [Instruction.effect, Store.cells_set_self, Store.set_set, Change.delta]
    rw [h₁, ← add_assoc]
  · simp only [Instruction.effect, Store.cells_set_self, Store.set_set, Change.delta]
    rw [h₂, ← add_assoc]

theorem runAll_mergeUpdates (seg : List Instruction) (σ : Store w) :
    runAll l (mergeUpdates seg).1 σ = runAll l seg σ := by
  induction seg using mergeUpdates.induct generalizing σ with
  | case1 i j seg merged hm _ _ _ ih =>
    rw [mergeUpdates_cons, hm]
    simp only [runAll_cons, ih, effect_merged hm]
  | case2 i j seg hm _ _ _ ih =>
    rw [mergeUpdates_cons, hm]
    simp only [runAll_cons] at ih ⊢
    rw [ih]
  | case3 seg hseg =>
    rcases seg with _ | ⟨i, _ | ⟨j, seg⟩⟩
    · rfl
    · rfl
    · exact absurd rfl (hseg i j seg)

/-! ### Notes -/

theorem runAll_noteCall (candidates : List String) (seg : List Instruction) (σ : Store w) :
    runAll l (seg.flatMap (noteCall candidates)) σ = runAll l seg σ := by
  induction seg generalizing σ with
  | nil => rfl
  | cons i seg ih =>
    have hi : runAll l (noteCall candidates i) σ = i.effect l σ := by
      unfold noteCall
      split
      · split <;> rfl
      · rfl
    rw [List.flatMap_cons, runAll_append, runAll_cons, hi, ih]

/-- **Notes in front of loops** change nothing. -/
theorem CodeTree.matches_noted (t : CodeTree) : Matches (w := w) l Eq t t.noted := by
  have hsame : ∀ seg, Keeps (w := w) l Eq seg seg := fun seg σ τ h => by rw [h]
  have hcond : ∀ c, Agree (w := w) Eq c c := fun c σ τ h => by rw [h]
  induction t with
  | done seg => exact .done (hsame seg)
  | branch _ _ _ _ _ _ ihy ihn ihr => exact .branch (hsame _) (hcond _) ihy ihn ihr
  | loop before n test c body last rest ihb ihr =>
    refine .loop (fun σ τ h => ?_) (hsame _) (hcond _) ihb (hsame _) ihr
    rw [runAll_append, h]
    have : ∀ seg : List Instruction, (∀ i ∈ seg, ∃ text, i = .comment text) →
        ∀ σ : Store w, runAll l seg σ = σ := by
      intro seg hseg
      induction seg with
      | nil => exact fun _ => rfl
      | cons i seg ih =>
        intro σ
        obtain ⟨text, rfl⟩ := hseg i (by simp)
        exact ih (fun j hj => hseg j (by simp [hj])) _
    exact (this _ (fun i hi => boundNotes_comment hi) _).symm

/-! ### Shared results -/

/-- **A memo holds** in a store: each cell has the result it is said to have. -/
def MemoHolds (memo : List Known) (σ : Store w) : Prop :=
  ∀ k ∈ memo, (∀ o ∈ [k.left, k.right], o.Proper) ∧
    σ.cells k.cell = k.operator.onCells (σ.first k.left) (σ.first k.right)

theorem first_congr {o : Operand} (ho : o.Proper)
    (h : ∀ c, o.reads c = true → τ.cells c = σ.cells c) : τ.first o = σ.first o := by
  cases o with
  | value => rfl
  | cells a len =>
    unfold Operand.Proper at ho
    exact h a (by simp [Operand.reads]; omega)

/-- A memo holds after what it **does not depend on** was written. -/
theorem MemoHolds.congr {memo : List Known} (h : MemoHolds memo σ)
    (hc : ∀ k ∈ memo, ∀ c, k.dependsOn c = true → τ.cells c = σ.cells c) : MemoHolds memo τ := by
  intro k hk
  obtain ⟨hp, he⟩ := h k hk
  refine ⟨hp, ?_⟩
  rw [hc k hk k.cell (by simp [Known.dependsOn]), he,
    first_congr (hp _ (by simp)) fun c hr => hc k hk c (by simp [Known.dependsOn, hr]),
    first_congr (hp _ (by simp)) fun c hr => hc k hk c (by simp [Known.dependsOn, hr])]

theorem mem_foldl_forget {cells : List Nat} {memo : List Known} {k : Known} :
    k ∈ cells.foldl forget memo ↔ k ∈ memo ∧ ∀ c ∈ cells, k.dependsOn c = false := by
  induction cells generalizing memo with
  | nil => simp
  | cons c cells ih =>
    rw [List.foldl_cons, ih, forget, List.mem_filter]
    simp only [Bool.not_eq_true', List.forall_mem_cons, and_assoc]

theorem MemoHolds.forget {memo : List Known} (h : MemoHolds memo σ) (i : Instruction) :
    MemoHolds (i.writes.foldl TapeCompiler.forget memo) (i.effect l σ) := by
  have hsub : MemoHolds (i.writes.foldl TapeCompiler.forget memo) σ := fun k hk =>
    h k (mem_foldl_forget.mp hk).1
  refine hsub.congr fun k hk c hd => Instruction.cells_effect l i σ fun hm => ?_
  rw [(mem_foldl_forget.mp hk).2 c hm] at hd
  cases hd

theorem mem_of_known? {memo : List Known} {o : Operator} {x y : Operand} {cell : Nat}
    (h : known? memo o x y = some cell) : ⟨o, x, y, cell⟩ ∈ memo := by
  obtain ⟨k, hk, rfl⟩ := Option.map_eq_some_iff.mp h
  have hmatch := List.find?_some hk
  simp only [Bool.and_eq_true, decide_eq_true_eq] at hmatch
  obtain ⟨⟨rfl, rfl⟩, rfl⟩ := hmatch
  exact List.mem_of_find?_eq_some hk

/-- **A memo entry behind an instruction** stood there and depends on nothing that was written, or it
says what the instruction computed, of operands that are still there. -/
theorem mem_memo_shareOne {memo : List Known} {i : Instruction} {k : Known}
    (hk : k ∈ (shareOne memo i).2) : (k ∈ memo ∧ ∀ c ∈ i.writes, k.dependsOn c = false) ∨
      (i = .binary k.cell k.operator k.left k.right ∧ k.left.reads k.cell = false ∧
        k.right.reads k.cell = false) := by
  unfold shareOne at hk
  by_cases hb : i.isBoundary = true
  · rw [if_pos hb] at hk
    simp at hk
  rw [if_neg hb] at hk
  cases i with
  | binary target o x y =>
    have hafter : k ∈ forget memo target →
        k ∈ memo ∧ ∀ c ∈ (Instruction.binary target o x y).writes, k.dependsOn c = false :=
      fun hk => mem_foldl_forget.mp (show k ∈ [target].foldl forget memo from hk)
    have hkept : k ∈ (if x.reads target || y.reads target then forget memo target
        else ⟨o, x, y, target⟩ :: forget memo target) → (k ∈ memo ∧
          ∀ c ∈ (Instruction.binary target o x y).writes, k.dependsOn c = false) ∨
            (Instruction.binary target o x y = .binary k.cell k.operator k.left k.right ∧
              k.left.reads k.cell = false ∧ k.right.reads k.cell = false) := by
      intro hk
      split_ifs at hk with hr
      · exact Or.inl (hafter hk)
      · rcases List.mem_cons.mp hk with rfl | hk
        · simp only [Bool.or_eq_true, not_or, Bool.not_eq_true] at hr
          exact Or.inr ⟨rfl, hr⟩
        · exact Or.inl (hafter hk)
    cases hknown : known? memo o x y with
    | none =>
      simp only [hknown] at hk
      exact hkept hk
    | some cell =>
      simp only [hknown] at hk
      by_cases hc : cell = target
      · rw [if_pos hc] at hk
        exact hkept hk
      · rw [if_neg hc] at hk
        exact Or.inl (hafter hk)
  | _ => exact Or.inl (mem_foldl_forget.mp hk)

/-- **A shared instruction** does what the instruction does, and the memo behind it holds. -/
theorem effect_shareOne {memo : List Known} (h : MemoHolds memo σ) {i : Instruction}
    (hi : i.Proper) : (shareOne memo i).1.effect l σ = i.effect l σ ∧
      MemoHolds (shareOne memo i).2 (i.effect l σ) := by
  refine ⟨?_, fun k hk => ?_⟩
  · rcases shareOne_eq memo i with heq | ⟨target, o, x, y, cell, rfl, hknown, heq⟩
    · rw [heq]
    · rw [heq]
      simp only [Instruction.effect, (h _ (mem_of_known? hknown)).2]
  · rcases mem_memo_shareOne hk with ⟨hk, hfree⟩ | ⟨rfl, hl, hr⟩
    · exact h.forget i k (mem_foldl_forget.mpr ⟨hk, hfree⟩)
    · have hp : ∀ z ∈ [k.left, k.right], z.Proper := hi
      have hsame : ∀ z : Operand, z.Proper → z.reads k.cell = false →
          ((Instruction.binary k.cell k.operator k.left k.right).effect l σ).first z = σ.first z :=
        fun z hz hzr => first_congr hz fun c hc => Store.cells_set_of_ne _ _ fun hct => by
          rw [hct, hzr] at hc
          cases hc
      refine ⟨hp, ?_⟩
      rw [hsame _ (hp _ (by simp)) hl, hsame _ (hp _ (by simp)) hr]
      exact Store.cells_set_self _ _ _

theorem runAll_shareResults {seg : List Instruction} (hp : ∀ i ∈ seg, i.Proper)
    {memo : List Known} (h : MemoHolds memo σ) :
    runAll l (shareResults memo seg).1 σ = runAll l seg σ := by
  induction seg generalizing memo σ with
  | nil => rfl
  | cons i seg ih =>
    obtain ⟨he, hm⟩ := effect_shareOne (l := l) h (hp i (by simp))
    rw [shareResults_cons, runAll_cons, runAll_cons, he]
    exact ih (fun j hj => hp j (by simp [hj])) hm

end TapeCompiler
