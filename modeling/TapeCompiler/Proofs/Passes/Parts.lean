import TapeCompiler.Passes.Levels
import TapeCompiler.Proofs.Cells.Renaming

/-! # Passes keep the tree

Every pass turns a program that is written from a tree (`Program.IsTree`) into another one. Most
work part by part (`PartByPart`): what stands in front of a label or a jump is changed without
regard to what follows, and the tree only has its straight parts changed (`PartByPart.flatten`).
Reordering maps addresses, and the notes on loops go in front of a loop (`CodeTree.noted`). -/

namespace TapeCompiler

/-- A program **written from a tree** whose operands name cells. -/
structure Program.IsTree (p : Program) (t : CodeTree) : Prop where
  code : p.instructions = t.flatten
  straight : t.Straight
  proper : t.All Instruction.Proper
  nodup : t.labels.Nodup

theorem Program.IsTree.mem {p : Program} {t : CodeTree} (h : p.IsTree t) {i : Instruction}
    (hi : i ∈ p.instructions) : i.Proper :=
  h.proper i (h.code ▸ hi)

/-- A change of instructions **part by part**: a label or a jump stands, and separates what is in
front of it from what is behind. -/
structure PartByPart (f : List Instruction → List Instruction) : Prop where
  nil : f [] = []
  split : ∀ seg i rest, i.isFlow = true → f (seg ++ i :: rest) = f seg ++ i :: f rest
  straight : ∀ seg, Straight seg → Straight (f seg)

namespace PartByPart

variable {f g : List Instruction → List Instruction} {t : CodeTree}

theorem cons (hf : PartByPart f) {i : Instruction} {rest : List Instruction}
    (hi : i.isFlow = true) : f (i :: rest) = i :: f rest := by
  have := hf.split [] i rest hi
  rwa [hf.nil, List.nil_append, List.nil_append] at this

theorem flatten (hf : PartByPart f) (t : CodeTree) : (t.map f id).flatten = f t.flatten := by
  induction t with
  | done => rfl
  | branch before n c yes no rest ihy ihn ihr =>
    simp only [CodeTree.map, CodeTree.flatten, ihy, ihn, ihr, id]
    rw [hf.split _ _ _ rfl, hf.split _ _ _ rfl, hf.cons rfl, hf.split _ _ _ rfl]
  | loop before n test c body last rest ihb ihr =>
    simp only [CodeTree.map, CodeTree.flatten, ihb, ihr, id]
    rw [hf.split _ _ _ rfl, hf.split _ _ _ rfl, hf.split _ _ _ rfl, hf.split _ _ _ rfl,
      hf.cons rfl]

theorem isTree (hf : PartByPart f) (hp : ∀ code, (∀ i ∈ code, i.Proper) → ∀ i ∈ f code, i.Proper)
    {p q : Program} (h : p.IsTree t) (hq : q.instructions = f p.instructions) :
    q.IsTree (t.map f id) where
  code := by rw [hq, h.code, hf.flatten]
  straight := h.straight.map hf.straight
  proper i hi := by
    rw [hf.flatten] at hi
    exact hp _ h.proper i hi
  nodup := by rw [CodeTree.labels_map]; exact h.nodup

theorem flatMap {F : Instruction → List Instruction} (hF : ∀ i, i.isFlow = true → F i = [i])
    (hs : ∀ i, i.isFlow = false → Straight (F i)) : PartByPart (List.flatMap F) where
  nil := rfl
  split seg i rest hi := by
    rw [List.flatMap_append, List.flatMap_cons, hF i hi]
    rfl
  straight seg hseg i hi := by
    obtain ⟨j, hj, hi⟩ := List.mem_flatMap.mp hi
    exact hs j (hseg j hj) i hi

end PartByPart

/-! ### Folding and dead stores -/

theorem folded_isFlow {i j : Instruction} (h : i.folded? = some j) : i.isFlow = false := by
  cases i <;> first | rfl | cases h

theorem folded_straight {i j : Instruction} (h : i.folded? = some j) :
    j.isFlow = false ∧ j.Proper := by
  unfold Instruction.folded? at h
  split at h
  · obtain ⟨v, -, rfl⟩ := Option.map_eq_some_iff.mp h
    exact ⟨rfl, by simp [Instruction.Proper, Instruction.operands]⟩
  · cases h

theorem partByPart_folding :
    PartByPart (List.map fun i : Instruction => i.folded?.getD i) where
  nil := rfl
  split seg i rest hi := by
    cases hf : i.folded? with
    | none => simp [hf]
    | some j =>
      rw [folded_isFlow hf] at hi
      cases hi
  straight seg hseg i hi := by
    obtain ⟨j, hj, rfl⟩ := List.mem_map.mp hi
    cases hf : j.folded? with
    | none => exact hseg j hj
    | some k => exact (folded_straight hf).1

theorem partByPart_deadStores (read : List Nat) :
    PartByPart (List.filter fun i : Instruction => !i.isDeadStore read) where
  nil := rfl
  split seg i rest hi := by
    have : i.isDeadStore read = false := by cases i <;> first | rfl | cases hi
    simp [this]
  straight seg hseg i hi := hseg i (List.mem_filter.mp hi).1

/-! ### Updates -/

theorem merged_eq {i j k : Instruction} (h : i.merged? j = some k) : ∃ a c c',
    i = .update a c ∧ j = .update a c ∧ k = .update a c' ∧
      ((c = .increment ∧ c' = .addBy 2) ∨ (c = .decrement ∧ c' = .subtractBy 2)) := by
  unfold Instruction.merged? at h
  split at h
  · split_ifs at h with hab
    cases h
    subst hab
    exact ⟨_, _, _, rfl, rfl, rfl, Or.inl ⟨rfl, rfl⟩⟩
  · split_ifs at h with hab
    cases h
    subst hab
    exact ⟨_, _, _, rfl, rfl, rfl, Or.inr ⟨rfl, rfl⟩⟩
  · cases h

theorem mergeUpdates_cons (i j : Instruction) (rest : List Instruction) :
    (mergeUpdates (i :: j :: rest)).1 =
      match i.merged? j with
      | some merged => merged :: (mergeUpdates rest).1
      | none => i :: (mergeUpdates (j :: rest)).1 := by
  rw [mergeUpdates]
  split <;> simp_all

theorem mergeUpdates_split (seg : List Instruction) {i : Instruction} (rest : List Instruction)
    (hi : i.isFlow = true) :
    (mergeUpdates (seg ++ i :: rest)).1 = (mergeUpdates seg).1 ++ i :: (mergeUpdates rest).1 := by
  have hnone : ∀ j, Instruction.merged? j i = none ∧ Instruction.merged? i j = none := by
    intro j
    constructor
    · cases h : Instruction.merged? j i with
      | none => rfl
      | some k =>
        obtain ⟨a, c, c', -, rfl, -⟩ := merged_eq h
        cases hi
    · cases h : Instruction.merged? i j with
      | none => rfl
      | some k =>
        obtain ⟨a, c, c', rfl, -⟩ := merged_eq h
        cases hi
  have hhead : (mergeUpdates (i :: rest)).1 = i :: (mergeUpdates rest).1 := by
    cases rest with
    | nil => rfl
    | cons j rest => rw [mergeUpdates_cons, (hnone j).2]
  induction seg using mergeUpdates.induct with
  | case1 j k seg merged hm _ _ _ ih =>
    rw [List.cons_append, List.cons_append, mergeUpdates_cons, mergeUpdates_cons, hm]
    simp only [ih, List.cons_append]
  | case2 j k seg hm _ _ _ ih =>
    rw [List.cons_append, List.cons_append, mergeUpdates_cons, mergeUpdates_cons, hm]
    simp only [List.cons_append] at ih ⊢
    rw [ih]
  | case3 seg hseg =>
    match seg with
    | [] => simpa [mergeUpdates] using hhead
    | [j] =>
      rw [List.cons_append, List.nil_append, mergeUpdates_cons, (hnone j).1]
      simp only [hhead]
      rfl
    | j :: k :: seg => exact absurd rfl (hseg j k seg)

theorem mem_mergeUpdates {seg : List Instruction} {i : Instruction} :
    i ∈ (mergeUpdates seg).1 → i ∈ seg ∨ ∃ j ∈ seg, ∃ k, j.merged? k = some i := by
  induction seg using mergeUpdates.induct with
  | case1 j k seg merged hm _ _ _ ih =>
    rw [mergeUpdates_cons, hm]
    intro hi
    rcases List.mem_cons.mp hi with rfl | hi
    · exact Or.inr ⟨j, by simp, k, hm⟩
    · rcases ih hi with hi | ⟨j', hj', h⟩
      · exact Or.inl (by simp [hi])
      · exact Or.inr ⟨j', by simp [hj'], h⟩
  | case2 j k seg hm _ _ _ ih =>
    rw [mergeUpdates_cons, hm]
    intro hi
    rcases List.mem_cons.mp hi with rfl | hi
    · exact Or.inl (by simp)
    · rcases ih hi with hi | ⟨j', hj', h⟩
      · exact Or.inl (List.mem_cons_of_mem _ hi)
      · exact Or.inr ⟨j', List.mem_cons_of_mem _ hj', h⟩
  | case3 seg hseg =>
    match seg with
    | [] => exact fun hi => Or.inl hi
    | [j] => exact fun hi => Or.inl hi
    | j :: k :: seg => exact absurd rfl (hseg j k seg)

theorem partByPart_mergeUpdates : PartByPart fun code => (mergeUpdates code).1 where
  nil := rfl
  split seg i rest hi := mergeUpdates_split seg rest hi
  straight seg hseg i hi := by
    rcases mem_mergeUpdates hi with hi | ⟨j, -, k, hm⟩
    · exact hseg i hi
    · obtain ⟨a, c, c', -, -, rfl, -⟩ := merged_eq hm
      rfl

/-! ### Calls and results -/

theorem mem_noteCall {candidates : List String} {i j : Instruction}
    (h : j ∈ noteCall candidates i) : j = i ∨ ∃ text, j = .comment text := by
  unfold noteCall at h
  split at h
  · split at h
    · rcases List.mem_cons.mp h with rfl | h
      · exact Or.inr ⟨_, rfl⟩
      · exact Or.inl (List.mem_singleton.mp h)
    · exact Or.inl (List.mem_singleton.mp h)
  · exact Or.inl (List.mem_singleton.mp h)

theorem partByPart_noteCall (candidates : List String) :
    PartByPart (List.flatMap (noteCall candidates)) := by
  refine .flatMap (fun i hi => ?_) fun i hi j hj => ?_
  · cases i <;> first | rfl | cases hi
  · rcases mem_noteCall hj with rfl | ⟨text, rfl⟩
    · exact hi
    · rfl

theorem shareOne_flow {memo : List Known} {i : Instruction} (hi : i.isFlow = true) :
    shareOne memo i = (i, []) := by
  unfold shareOne
  rw [if_pos]
  cases i <;> first | rfl | cases hi

theorem shareResults_cons (memo : List Known) (i : Instruction) (rest : List Instruction) :
    (shareResults memo (i :: rest)).1 =
      (shareOne memo i).1 :: (shareResults (shareOne memo i).2 rest).1 := rfl

theorem shareResults_split (memo : List Known) (seg : List Instruction) {i : Instruction}
    (rest : List Instruction) (hi : i.isFlow = true) :
    (shareResults memo (seg ++ i :: rest)).1 =
      (shareResults memo seg).1 ++ i :: (shareResults [] rest).1 := by
  induction seg generalizing memo with
  | nil => rw [List.nil_append, shareResults_cons, shareOne_flow hi]; rfl
  | cons j seg ih => rw [List.cons_append, shareResults_cons, shareResults_cons, ih]; rfl

theorem shareOne_eq (memo : List Known) (i : Instruction) : (shareOne memo i).1 = i ∨
    ∃ target o l r cell, i = .binary target o l r ∧ known? memo o l r = some cell ∧
      shareOne memo i = (.copyValue target cell, forget memo target) := by
  unfold shareOne
  split_ifs
  · exact Or.inl rfl
  · split
    · next target o l r _ =>
      simp only
      split
      · exact Or.inl rfl
      · next cell hk =>
        by_cases hc : cell = target
        · rw [if_pos hc]
          exact Or.inl rfl
        · rw [if_neg hc]
          exact Or.inr ⟨target, o, l, r, cell, rfl, hk, rfl⟩
    · exact Or.inl rfl

theorem mem_shareResults {memo : List Known} {seg : List Instruction} {i : Instruction}
    (hi : i ∈ (shareResults memo seg).1) : i ∈ seg ∨ ∃ target cell, i = .copyValue target cell := by
  induction seg generalizing memo with
  | nil => exact Or.inl hi
  | cons j seg ih =>
    rw [shareResults_cons] at hi
    rcases List.mem_cons.mp hi with rfl | hi
    · rcases shareOne_eq memo j with h | ⟨target, o, l, r, cell, -, -, h⟩
      · exact Or.inl (by rw [h]; simp)
      · exact Or.inr ⟨target, cell, by rw [h]⟩
    · exact (ih hi).imp (List.mem_cons_of_mem _) id

theorem partByPart_shareResults : PartByPart fun code => (shareResults [] code).1 where
  nil := rfl
  split seg i rest hi := shareResults_split [] seg rest hi
  straight seg hseg i hi := by
    rcases mem_shareResults hi with hi | ⟨target, cell, rfl⟩
    · exact hseg i hi
    · rfl

end TapeCompiler
