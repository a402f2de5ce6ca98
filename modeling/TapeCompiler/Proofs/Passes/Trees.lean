import TapeCompiler.Proofs.Passes.Parts

/-! # Passes of every level keep the tree

The notes on loops stand in front of a loop, at the end of what is straight there
(`CodeTree.noted`, `flatten_noted`), and reordering maps the addresses of the tree. With the passes
that work part by part, every pass keeps that a program is written from a tree
(`exists_isTree_optimize`). -/

namespace TapeCompiler

/-! ### Notes on loops -/

/-- The note in front of a label by what stands behind it. -/
def boundNotes (i : Instruction) (rest : List Instruction) : List Instruction :=
  ((rest.head?.bind (boundNote? i)).map Instruction.comment).toList

theorem noteBounds_cons (i : Instruction) (rest : List Instruction) :
    (noteBounds (i :: rest)).1 = boundNotes i rest ++ i :: (noteBounds rest).1 := by
  cases rest with
  | nil => rfl
  | cons j rest =>
    rw [noteBounds, boundNotes, List.head?_cons, Option.bind_some]
    cases boundNote? i j <;> rfl

/-- Only the label of a **loop's test** gets a note. -/
theorem boundNotes_eq_nil {i : Instruction} (h : ∀ n, i ≠ .label (LabelKind.forTest.name n))
    (hl : ∀ name, i = .label name → ∃ kind n, name = LabelKind.name kind n)
    (rest : List Instruction) : boundNotes i rest = [] := by
  cases rest with
  | nil => rfl
  | cons j rest =>
    rw [boundNotes, List.head?_cons, Option.bind_some]
    suffices hnone : boundNote? i j = none by rw [hnone]; rfl
    unfold boundNote?
    split
    · next name _ _ _ _ _ =>
      obtain ⟨kind, n, rfl⟩ := hl name rfl
      rw [if_neg]
      simp only [Bool.and_eq_true, not_and]
      rintro ⟨hpre, -⟩
      exfalso
      refine h n ?_
      rw [String.isPrefixOf, String.startsWith_string_iff] at hpre
      have htake := List.prefix_iff_eq_take.mp hpre
      have : kind = .forTest := by
        refine LabelKind.eq_of_take ?_
        have h5 := congrArg (List.take 5) htake
        rw [List.take_take] at h5
        have hlen : 5 ≤ kind.text.toList.length := by cases kind <;> decide
        rw [LabelKind.name, String.toList_append,
          List.take_append_of_le_length (by simpa using hlen)]
          at h5
        exact h5.symm
      rw [this]
    · rfl

theorem boundNotes_straight {i : Instruction} (hi : i.isFlow = false) (rest : List Instruction) :
    boundNotes i rest = [] :=
  boundNotes_eq_nil (fun n h => by rw [h] at hi; cases hi)
    (fun name h => by rw [h] at hi; cases hi) rest

theorem boundNotes_label {k : LabelKind} (hk : k ≠ .forTest) (n : Nat)
    (rest : List Instruction) : boundNotes (.label (k.name n)) rest = [] := by
  refine boundNotes_eq_nil (fun m h => hk ?_) (fun name h => ⟨k, n, ?_⟩) rest
  · injection h with h
    exact (LabelKind.name_inj.mp h).1
  · injection h with h
    exact h.symm

theorem boundNotes_jump {i : Instruction} (h : ∀ name, i ≠ .label name) (rest : List Instruction) :
    boundNotes i rest = [] :=
  boundNotes_eq_nil (fun _ => h _) (fun name hn => absurd hn (h name)) rest

theorem noteBounds_straight {seg : List Instruction} (h : Straight seg) (rest : List Instruction) :
    (noteBounds (seg ++ rest)).1 = seg ++ (noteBounds rest).1 := by
  induction seg with
  | nil => rfl
  | cons i seg ih =>
    rw [straight_cons] at h
    rw [List.cons_append, noteBounds_cons, boundNotes_straight h.1, ih h.2]
    rfl

theorem boundNotes_test (n m : Nat) (test : List Instruction) (c : Operand)
    (rest : List Instruction) :
    boundNotes (.label (LabelKind.forTest.name n))
        (test ++ .jumpUnless c (LabelKind.forEnd.name m) :: rest) =
      boundNotes (.label (LabelKind.forTest.name n)) test := by
  cases test <;> rfl

namespace CodeTree

/-- A tree with **notes in front of its loops**. -/
def noted : CodeTree → CodeTree
  | done code => done code
  | branch before n c yes no rest => branch before n c yes.noted no.noted rest.noted
  | loop before n test c body last rest =>
    loop (before ++ boundNotes (.label (LabelKind.forTest.name n)) test) n test c body.noted last
      rest.noted

@[simp] theorem labels_noted (t : CodeTree) : t.noted.labels = t.labels := by
  induction t with
  | done => rfl
  | branch _ _ _ _ _ _ ihy ihn ihr => simp only [noted, labels, ihy, ihn, ihr]
  | loop _ _ _ _ _ _ _ ihb ihr => simp only [noted, labels, ihb, ihr]

theorem boundNotes_comment {i j : Instruction} {rest : List Instruction}
    (h : j ∈ boundNotes i rest) : ∃ text, j = .comment text := by
  obtain ⟨text, -, rfl⟩ := Option.map_eq_some_iff.mp (Option.mem_toList.mp h)
  exact ⟨text, rfl⟩

theorem Straight.noted {t : CodeTree} (h : t.Straight) : t.noted.Straight := by
  induction t with
  | done => exact h
  | branch _ _ _ _ _ _ ihy ihn ihr => exact ⟨h.1, ihy h.2.1, ihn h.2.2.1, ihr h.2.2.2⟩
  | loop _ _ _ _ _ _ _ ihb ihr =>
    refine ⟨TapeCompiler.straight_append.mpr ⟨h.1, fun i hi => ?_⟩, h.2.1, ihb h.2.2.1, h.2.2.2.1,
      ihr h.2.2.2.2⟩
    obtain ⟨text, rfl⟩ := boundNotes_comment hi
    rfl

/-- **Notes on loops** stand where the tree has them. -/
theorem flatten_noted {t : CodeTree} (h : t.Straight) : ∀ rest : List Instruction,
    (noteBounds (t.flatten ++ rest)).1 = t.noted.flatten ++ (noteBounds rest).1 := by
  induction t with
  | done => exact noteBounds_straight h
  | branch before n c yes no tail ihy ihn ihr =>
    intro rest
    simp only [flatten, noted, List.append_assoc, List.cons_append]
    rw [noteBounds_straight h.1, noteBounds_cons, boundNotes_jump (by simp), ihy h.2.1,
      noteBounds_cons, boundNotes_jump (by simp), noteBounds_cons, boundNotes_label (by simp),
      ihn h.2.2.1, noteBounds_cons, boundNotes_label (by simp), ihr h.2.2.2]
    rfl
  | loop before n test c body last tail ihb ihr =>
    intro rest
    simp only [flatten, noted, List.append_assoc, List.cons_append]
    rw [noteBounds_straight h.1, noteBounds_cons, boundNotes_test, noteBounds_straight h.2.1,
      noteBounds_cons, boundNotes_jump (i := .jumpUnless _ _) (by simp), ihb h.2.2.1,
      noteBounds_cons, boundNotes_label (k := .forUpdate) (by simp),
      noteBounds_straight h.2.2.2.1, noteBounds_cons, boundNotes_jump (i := .jump _) (by simp),
      noteBounds_cons, boundNotes_label (k := .forEnd) (by simp), ihr h.2.2.2.2]
    rfl

theorem All.noted {t : CodeTree} {p : Instruction → Prop} (h : t.All p)
    (hp : ∀ text, p (.comment text)) : t.noted.All p := by
  induction t with
  | done => exact h
  | branch _ _ _ _ _ _ ihy ihn ihr =>
    obtain ⟨hb, ht, hy, hj, hl, hn, he, hr⟩ := all_branch.mp h
    exact all_branch.mpr ⟨hb, ht, ihy hy, hj, hl, ihn hn, he, ihr hr⟩
  | loop _ _ _ _ _ _ _ ihb ihr =>
    obtain ⟨hb, hl, ht, hj, hbody, hu, hlast, hback, he, hr⟩ := all_loop.mp h
    refine all_loop.mpr ⟨List.forall_mem_append.mpr ⟨hb, fun i hi => ?_⟩, hl, ht, hj, ihb hbody, hu,
      hlast, hback, he, ihr hr⟩
    obtain ⟨text, rfl⟩ := boundNotes_comment hi
    exact hp text

end CodeTree

/-! ### Operands that name cells -/

section Proper
variable {code : List Instruction}

theorem proper_nil {i : Instruction} (h : i.operands = []) : i.Proper := by
  simp [Instruction.Proper, h]

theorem proper_folded (h : ∀ i ∈ code, i.Proper) :
    ∀ i ∈ code.map fun i => i.folded?.getD i, i.Proper := by
  intro i hi
  obtain ⟨j, hj, rfl⟩ := List.mem_map.mp hi
  cases hf : j.folded? with
  | none => exact h j hj
  | some k => exact (folded_straight hf).2

theorem proper_mergeUpdates (h : ∀ i ∈ code, i.Proper) : ∀ i ∈ (mergeUpdates code).1, i.Proper := by
  intro i hi
  rcases mem_mergeUpdates hi with hi | ⟨j, -, k, hm⟩
  · exact h i hi
  · obtain ⟨a, c, c', -, -, rfl, -⟩ := merged_eq hm
    exact proper_nil rfl

theorem mem_noteBounds {i : Instruction} (hi : i ∈ (noteBounds code).1) :
    i ∈ code ∨ ∃ text, i = .comment text := by
  induction code with
  | nil => exact Or.inl hi
  | cons j code ih =>
    rw [noteBounds_cons] at hi
    rcases List.mem_append.mp hi with hi | hi
    · exact Or.inr (CodeTree.boundNotes_comment hi)
    · rcases List.mem_cons.mp hi with rfl | hi
      · exact Or.inl (by simp)
      · exact (ih hi).imp (List.mem_cons_of_mem _) id

theorem proper_noteBounds (h : ∀ i ∈ code, i.Proper) : ∀ i ∈ (noteBounds code).1, i.Proper := by
  intro i hi
  rcases mem_noteBounds hi with hi | ⟨text, rfl⟩
  · exact h i hi
  · exact proper_nil rfl

theorem proper_noteCalls {candidates : List String} (h : ∀ i ∈ code, i.Proper) :
    ∀ i ∈ code.flatMap (noteCall candidates), i.Proper := by
  intro i hi
  obtain ⟨j, hj, hi⟩ := List.mem_flatMap.mp hi
  rcases mem_noteCall hi with rfl | ⟨text, rfl⟩
  · exact h i hj
  · exact proper_nil rfl

theorem proper_shareResults {memo : List Known} (h : ∀ i ∈ code, i.Proper) :
    ∀ i ∈ (shareResults memo code).1, i.Proper := by
  intro i hi
  rcases mem_shareResults hi with hi | ⟨target, cell, rfl⟩
  · exact h i hi
  · exact proper_nil rfl

end Proper

/-! ### Each pass -/

section Each
variable {p : Program} {t : CodeTree}

theorem isTree_folding (h : p.IsTree t) :
    (folding p).1.IsTree (t.map (List.map fun i => i.folded?.getD i) id) :=
  partByPart_folding.isTree (fun _ => proper_folded) h rfl

theorem isTree_deadStores (h : p.IsTree t) : (deadStores p).1.IsTree
    (t.map (List.filter fun i => !i.isDeadStore (readCells p.instructions)) id) :=
  (partByPart_deadStores _).isTree (fun _ hc i hi => hc i (List.mem_filter.mp hi).1) h rfl

theorem isTree_updatePairs (h : p.IsTree t) :
    (updatePairs p).1.IsTree (t.map (fun seg => (mergeUpdates seg).1) id) :=
  partByPart_mergeUpdates.isTree (fun _ => proper_mergeUpdates) h rfl

theorem isTree_loopNotes (h : p.IsTree t) : (loopNotes p).1.IsTree t.noted where
  code := by
    show (noteBounds p.instructions).1 = _
    have := CodeTree.flatten_noted h.straight []
    rw [List.append_nil] at this
    rw [h.code, this]
    exact List.append_nil _
  straight := h.straight.noted
  proper := h.proper.noted fun _ => proper_nil rfl
  nodup := by rw [CodeTree.labels_noted]; exact h.nodup

theorem isTree_mapAddress (h : p.IsTree t) (f : Nat → Nat) :
    (p.mapAddress f).IsTree (t.mapAddress f) where
  code := by
    rw [CodeTree.flatten_mapAddress, ← h.code]
    rfl
  straight := h.straight.map fun seg hseg i hi => by
    obtain ⟨j, hj, rfl⟩ := List.mem_map.mp hi
    rw [Instruction.isFlow_mapAddress]
    exact hseg j hj
  proper i hi := by
    rw [CodeTree.flatten_mapAddress] at hi
    obtain ⟨j, hj, rfl⟩ := List.mem_map.mp hi
    exact (h.proper j hj).mapAddress f
  nodup := by
    rw [CodeTree.mapAddress, CodeTree.labels_map]
    exact h.nodup

theorem isTree_reordering (h : p.IsTree t) : ∃ t', (reordering p).1.IsTree t' := by
  unfold reordering
  simp only
  split_ifs
  · exact ⟨t, h⟩
  · exact ⟨_, isTree_mapAddress h _⟩

theorem isTree_inlineNotes (h : p.IsTree t) : ∃ candidates,
    (inlineNotes p).1.instructions = p.instructions.flatMap (noteCall candidates) ∧
      (inlineNotes p).1.IsTree (t.map (List.flatMap (noteCall candidates)) id) :=
  ⟨_, rfl, (partByPart_noteCall _).isTree (fun _ => proper_noteCalls) h rfl⟩

theorem isTree_sharing (h : p.IsTree t) :
    (sharing p).1.IsTree (t.map (fun seg => (shareResults [] seg).1) id) :=
  partByPart_shareResults.isTree (fun _ => proper_shareResults) h rfl

end Each

theorem optimize_induction {P : Program → Prop} (hfold : ∀ p, P p → P (folding p).1)
    (hdead : ∀ p, P p → P (deadStores p).1) (hpairs : ∀ p, P p → P (updatePairs p).1)
    (hnotes : ∀ p, P p → P (loopNotes p).1) (horder : ∀ p, P p → P (reordering p).1)
    (hcalls : ∀ p, P p → P (inlineNotes p).1) (hshare : ∀ p, P p → P (sharing p).1) (level : Nat)
    {p : Program} (h : P p) : P (p.optimize level).1 := by
  have hall : ∀ (l : List Pass),
      (∀ f ∈ l, ∀ p, P p → P (f p).1) → ∀ p, P p → P (Pass.all l p).1 := by
    intro l
    induction l with
    | nil => exact fun _ _ h => h
    | cons f l ih =>
      exact fun hl p h => ih (fun g hg => hl g (by simp [hg])) _ (hl f (by simp) p h)
  refine hall _ (fun f hf => ?_) p h
  simp only [passes, List.mem_append] at hf
  rcases hf with (hf | hf) | hf
  all_goals
    split_ifs at hf
    · simp only [List.mem_cons, List.not_mem_nil, or_false] at hf
      rcases hf with rfl | rfl | rfl <;> assumption
    · simp at hf

/-- **The passes of every level** keep that a program is written from a tree. -/
theorem exists_isTree_optimize (level : Nat) {p : Program} {t : CodeTree} (h : p.IsTree t) :
    ∃ t', (p.optimize level).1.IsTree t' := by
  refine optimize_induction (P := fun p => ∃ t, p.IsTree t) ?_ ?_ ?_ ?_ ?_ ?_ ?_ level ⟨t, h⟩
  · exact fun p ⟨t, h⟩ => ⟨_, isTree_folding h⟩
  · exact fun p ⟨t, h⟩ => ⟨_, isTree_deadStores h⟩
  · exact fun p ⟨t, h⟩ => ⟨_, isTree_updatePairs h⟩
  · exact fun p ⟨t, h⟩ => ⟨_, isTree_loopNotes h⟩
  · exact fun p ⟨t, h⟩ => isTree_reordering h
  · exact fun p ⟨t, h⟩ => ⟨_, (isTree_inlineNotes h).choose_spec.2⟩
  · exact fun p ⟨t, h⟩ => ⟨_, isTree_sharing h⟩

theorem proper_optimize (level : Nat) {p : Program} (h : ∀ i ∈ p.instructions, i.Proper) :
    ∀ i ∈ (p.optimize level).1.instructions, i.Proper := by
  refine optimize_induction (P := fun p => ∀ i ∈ p.instructions, i.Proper) ?_ ?_ ?_ ?_ ?_ ?_ ?_
    level h
  · exact fun p => proper_folded
  · exact fun p h i hi => h i (List.mem_filter.mp hi).1
  · exact fun p => proper_mergeUpdates
  · exact fun p => proper_noteBounds
  · intro p h i hi
    unfold reordering at hi
    simp only at hi
    split_ifs at hi
    · exact h i hi
    · obtain ⟨j, hj, rfl⟩ := List.mem_map.mp hi
      exact (h j hj).mapAddress _
  · exact fun p => proper_noteCalls
  · exact fun p => proper_shareResults

end TapeCompiler
