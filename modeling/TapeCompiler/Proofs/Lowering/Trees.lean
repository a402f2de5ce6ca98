import TapeCompiler.Proofs.Cells.Joining
import TapeCompiler.Proofs.Lowering.Traversal

/-! # Lowering makes trees

Whatever the program tree, what lowering appends is a tree of instructions with labels of its own,
and what was lowered before is only readdressed (`Session.Grows`). A lowered program is then a tree
written with labels and jumps (`exists_tree_of_lower`). -/

namespace TapeCompiler

/-! ### Readdressing -/

/-- A change of instructions that **leaves control alone**: labels and jumps stay, and conditions
change as operands. -/
structure Readdresses (g : Instruction → Instruction) (h : Operand → Operand) : Prop where
  label : ∀ name, g (.label name) = .label name
  jump : ∀ name, g (.jump name) = .jump name
  jumpUnless : ∀ c name, g (.jumpUnless c name) = .jumpUnless (h c) name
  branch : ∀ c name, g (.branch c name) = .branch (h c) name
  straight : ∀ i, i.isFlow = false → (g i).isFlow = false
  proper : ∀ i, i.Proper → (g i).Proper

namespace Readdresses

variable {g g' : Instruction → Instruction} {h h' : Operand → Operand}

theorem refl : Readdresses id id := ⟨by simp, by simp, by simp, by simp, by simp, by simp⟩

theorem comp (hg : Readdresses g h) (hg' : Readdresses g' h') :
    Readdresses (g' ∘ g) (h' ∘ h) where
  label name := by simp [hg.label, hg'.label]
  jump name := by simp [hg.jump, hg'.jump]
  jumpUnless c name := by simp [hg.jumpUnless, hg'.jumpUnless]
  branch c name := by simp [hg.branch, hg'.branch]
  straight i hi := hg'.straight _ (hg.straight i hi)
  proper i hi := hg'.proper _ (hg.proper i hi)

theorem mapAddress (f : Nat → Nat) :
    Readdresses (Instruction.mapAddress f) (Operand.mapAddress f) where
  label _ := rfl
  jump _ := rfl
  jumpUnless _ _ := rfl
  branch _ _ := rfl
  straight i hi := by rwa [Instruction.isFlow_mapAddress]
  proper _ hi := hi.mapAddress f

theorem widen (block len : Nat) {size : Nat} (hs : 0 < size) :
    Readdresses (Instruction.widen block len size) id where
  label _ := rfl
  jump _ := rfl
  jumpUnless _ _ := rfl
  branch _ _ := rfl
  straight i hi := by cases i <;> first | rfl | exact hi
  proper i hi o ho := by
    have hw : ∀ o : Operand, o.Proper → (o.widen block len size).Proper := by
      rintro (v | ⟨a, n⟩) hp
      · exact hp
      · show (if a = block ∧ n = len then Operand.cells a size else .cells a n).Proper
        split_ifs
        · exact hs
        · exact hp
    have hmap : o ∈ i.operands ∨ o ∈ i.operands.map (Operand.widen block len size) := by
      cases i with
      | print | callFunction | callMethod => exact Or.inr ho
      | ret v => exact Or.inr (by cases v <;> exact ho)
      | _ => exact Or.inl ho
    rcases hmap with ho | ho
    · exact hi o ho
    · obtain ⟨o', ho', rfl⟩ := List.mem_map.mp ho
      exact hw o' (hi o' ho')

/-- Straight instructions readdressed are straight, and name cells as before. -/
theorem segment (hg : Readdresses g h) {a : List Instruction}
    (ha : ∀ i ∈ a, i.isFlow = false ∧ i.Proper) :
    ∀ i ∈ a.map g, i.isFlow = false ∧ i.Proper := by
  intro i hi
  obtain ⟨j, hj, rfl⟩ := List.mem_map.mp hi
  exact ⟨hg.straight j (ha j hj).1, hg.proper j (ha j hj).2⟩

theorem operand (hg : Readdresses g h) {c : Operand} (hc : c.Proper) :
    (h c).Proper := by
  have := hg.proper (.branch c "") (by simpa [Instruction.Proper, Instruction.operands] using hc)
  rw [hg.branch] at this
  simpa [Instruction.Proper, Instruction.operands] using this

theorem flatten (hg : Readdresses g h) (t : CodeTree) :
    (t.map (List.map g) h).flatten = t.flatten.map g := by
  induction t with
  | done => rfl
  | branch _ _ _ _ _ _ ihy ihn ihr =>
    simp [CodeTree.map, CodeTree.flatten, ihy, ihn, ihr, hg.branch, hg.jump, hg.label]
  | loop _ _ _ _ _ _ _ ihb ihr =>
    simp [CodeTree.map, CodeTree.flatten, ihb, ihr, hg.jumpUnless, hg.jump, hg.label]

theorem straight_map (hg : Readdresses g h) {t : CodeTree} (ht : t.Straight) :
    (t.map (List.map g) h).Straight :=
  ht.map fun seg hseg i hi => by
    obtain ⟨j, hj, rfl⟩ := List.mem_map.mp hi
    exact hg.straight j (hseg j hj)

theorem proper_map (hg : Readdresses g h) {t : CodeTree} (ht : t.All Instruction.Proper) :
    (t.map (List.map g) h).All Instruction.Proper := by
  intro i hi
  rw [hg.flatten] at hi
  obtain ⟨j, hj, rfl⟩ := List.mem_map.mp hi
  exact hg.proper j (ht j hj)

end Readdresses

/-! ### Growing -/

/-- What came to a session: **a tree with labels of its own** behind the readdressed rest. -/
structure Session.GrowsBy (g : Instruction → Instruction) (h : Operand → Operand) (u : CodeTree)
    (s t : Session) : Prop where
  readdresses : Readdresses g h
  code : t.program.instructions = s.program.instructions.map g ++ u.flatten
  straight : u.Straight
  proper : u.All Instruction.Proper
  nodup : u.labels.Nodup
  numbers : ∀ p ∈ u.labels, s.labels ≤ p.2 ∧ p.2 < t.labels
  labels : s.labels ≤ t.labels

/-- **A tree came to a session.** -/
def Session.Grows (s t : Session) : Prop := ∃ g h u, Session.GrowsBy g h u s t

/-- **Straight instructions came to a session**, and no label. -/
def Session.Extends (s t : Session) : Prop :=
  (∃ g h seg, Session.GrowsBy g h (.done seg) s t) ∧ s.labels = t.labels

namespace Session

variable {g g' : Instruction → Instruction} {h h' : Operand → Operand} {s t v : Session}
  {u u' : CodeTree}

theorem GrowsBy.trans (h₁ : GrowsBy g h u s t) (h₂ : GrowsBy g' h' u' t v) :
    GrowsBy (g' ∘ g) (h' ∘ h) ((u.map (List.map g') h').append u') s v where
  readdresses := h₁.readdresses.comp h₂.readdresses
  code := by
    rw [h₂.code, h₁.code, CodeTree.flatten_append, h₂.readdresses.flatten, List.map_append,
      List.map_map, List.append_assoc]
  straight :=
    CodeTree.straight_append.mpr ⟨h₂.readdresses.straight_map h₁.straight, h₂.straight⟩
  proper := CodeTree.all_append.mpr ⟨h₂.readdresses.proper_map h₁.proper, h₂.proper⟩
  nodup := by
    rw [CodeTree.labels_append, CodeTree.labels_map]
    refine List.nodup_append.mpr ⟨h₁.nodup, h₂.nodup, fun p hp q hq he => ?_⟩
    have := h₁.numbers p hp
    have := h₂.numbers q hq
    subst he
    omega
  numbers p hp := by
    rw [CodeTree.labels_append, CodeTree.labels_map] at hp
    have := h₁.labels
    have := h₂.labels
    rcases List.mem_append.mp hp with hp | hp
    · have := h₁.numbers p hp
      omega
    · have := h₂.numbers p hp
      omega
  labels := h₁.labels.trans h₂.labels

/-- A session that is only readdressed grows by nothing. -/
theorem GrowsBy.of_map {t : Session} (hg : Readdresses g h)
    (ht : t.program.instructions = s.program.instructions.map g) (hl : s.labels = t.labels) :
    GrowsBy g h (.done []) s t where
  readdresses := hg
  code := by simp [ht, CodeTree.flatten]
  straight := by simp [CodeTree.Straight, Straight]
  proper := by simp [CodeTree.All, CodeTree.flatten]
  nodup := List.nodup_nil
  numbers p hp := by simp [CodeTree.labels] at hp
  labels := hl.le

theorem Extends.of_map {t : Session} (hg : Readdresses g h)
    (ht : t.program.instructions = s.program.instructions.map g) (hl : s.labels = t.labels) :
    s.Extends t :=
  ⟨⟨g, h, [], .of_map hg ht hl⟩, hl⟩

theorem Extends.of_eq {t : Session} (ht : t.program.instructions = s.program.instructions)
    (hl : s.labels = t.labels) : s.Extends t :=
  .of_map .refl (by rw [ht, List.map_id]) hl

theorem Extends.trans (h₁ : s.Extends t) (h₂ : t.Extends v) : s.Extends v := by
  obtain ⟨⟨g₁, h₁, a, hg₁⟩, hl₁⟩ := h₁
  obtain ⟨⟨g₂, h₂, b, hg₂⟩, hl₂⟩ := h₂
  exact ⟨⟨_, _, a.map g₂ ++ b, hg₁.trans hg₂⟩, hl₁.trans hl₂⟩

theorem Extends.grows (hs : s.Extends t) : s.Grows t :=
  let ⟨⟨g, h, seg, hg⟩, _⟩ := hs
  ⟨g, h, .done seg, hg⟩

theorem Grows.trans (h₁ : s.Grows t) (h₂ : t.Grows v) : s.Grows v := by
  obtain ⟨_, _, _, hg₁⟩ := h₁
  obtain ⟨_, _, _, hg₂⟩ := h₂
  exact ⟨_, _, _, hg₁.trans hg₂⟩

theorem instructions_relocate (p : Program) (moves : List Relocation) :
    (p.relocate moves).instructions =
      p.instructions.map (Instruction.mapAddress (relocate moves)) := by
  unfold Program.relocate
  split_ifs with hm
  · have : relocate moves = id := by
      rw [List.isEmpty_iff.mp hm]
      rfl
    rw [this, funext Instruction.mapAddress_id]
    simp
  · rfl

theorem extends_emitted (s : Session) {i : Instruction} (hf : i.isFlow = false) (hi : i.Proper) :
    s.Extends (s.add i) :=
  ⟨⟨id, id, [i], {
    readdresses := .refl
    code := by simp [Session.add, CodeTree.flatten]
    straight := by simpa [CodeTree.Straight, Straight] using hf
    proper := by simpa [CodeTree.All, CodeTree.flatten] using hi
    nodup := List.nodup_nil
    numbers := fun p hp => by simp [CodeTree.labels] at hp
    labels := le_rfl }⟩, rfl⟩

section Parts
variable {g₁ g₂ g₃ : Instruction → Instruction} {h₁ h₂ h₃ : Operand → Operand}
  {a b : List Instruction} {n : Nat} {c : Operand} {yes no body : CodeTree}

theorem not_mem_labels {u : CodeTree} {m k : Nat} {kind : LabelKind}
    (hu : ∀ p ∈ u.labels, m ≤ p.2 ∧ p.2 < k) (hn : n < m) : (kind, n) ∉ u.labels := fun hp => by
  have := (hu _ hp).1
  omega

theorem nodup_branch {before : List Instruction} {m k m' k' : Nat} (hy : yes.labels.Nodup)
    (hn : no.labels.Nodup) (hyn : ∀ p ∈ yes.labels, m ≤ p.2 ∧ p.2 < k)
    (hnn : ∀ p ∈ no.labels, m' ≤ p.2 ∧ p.2 < k') (hm : n < m) (hk : k ≤ m') (hm' : n < m') :
    (CodeTree.branch before n c yes no (.done [])).labels.Nodup := by
  have h₁ : ∀ kind, (kind, n) ∉ yes.labels := fun _ => not_mem_labels hyn hm
  have h₂ : ∀ kind, (kind, n) ∉ no.labels := fun _ => not_mem_labels hnn hm'
  have hrest : ((.ifElse, n) :: (no.labels ++ [(.ifEnd, n)])).Nodup := by
    refine List.nodup_cons.mpr ⟨by simp [h₂], List.nodup_append.mpr ⟨hn, by simp, ?_⟩⟩
    rintro p hp q hq rfl
    rw [List.mem_singleton.mp hq] at hp
    exact h₂ _ hp
  refine List.nodup_append.mpr ⟨hy, hrest, ?_⟩
  rintro p hp q hq rfl
  rcases List.mem_cons.mp hq with rfl | hq
  · exact h₁ _ hp
  rcases List.mem_append.mp hq with hq | hq
  · have := hyn p hp
    have := hnn p hq
    omega
  · rw [List.mem_singleton.mp hq] at hp
    exact h₁ _ hp

theorem nodup_loop {before test last : List Instruction} {m k : Nat} (hb : body.labels.Nodup)
    (hbn : ∀ p ∈ body.labels, m ≤ p.2 ∧ p.2 < k) (hm : n < m) :
    (CodeTree.loop before n test c body last (.done [])).labels.Nodup := by
  have h : ∀ kind, (kind, n) ∉ body.labels := fun _ => not_mem_labels hbn hm
  refine List.nodup_cons.mpr ⟨by simp [CodeTree.labels, h], List.nodup_append.mpr ⟨hb, ?_, ?_⟩⟩
  · simp [CodeTree.labels]
  · rintro p hp q hq rfl
    simp only [CodeTree.labels, List.mem_cons, List.not_mem_nil, or_false] at hq
    rcases hq with rfl | rfl
    · exact h _ hp
    · exact h _ hp

theorem growsBy_branch {t v x : Session}
    (ht : GrowsBy g₁ h₁ (.done a) { s with labels := s.labels + 1 } t) (hc : c.Proper)
    (hv : GrowsBy g₂ h₂ yes (t.add (.branch c (LabelKind.ifElse.name s.labels))) v)
    (hx : GrowsBy g₃ h₃ no ((v.add (.jump (LabelKind.ifEnd.name s.labels))).add
      (.label (LabelKind.ifElse.name s.labels))) x) :
    GrowsBy (g₃ ∘ g₂ ∘ g₁) (h₃ ∘ h₂ ∘ h₁)
      (.branch ((a.map g₂).map g₃) s.labels (h₃ (h₂ c)) (yes.map (List.map g₃) h₃) no (.done [])) s
      (x.add (.label (LabelKind.ifEnd.name s.labels))) := by
  have hst : s.labels + 1 ≤ t.labels := ht.labels
  have htv : t.labels ≤ v.labels := hv.labels
  have hvx : v.labels ≤ x.labels := hx.labels
  have hyes : ∀ p ∈ yes.labels, t.labels ≤ p.2 ∧ p.2 < v.labels := hv.numbers
  have hno : ∀ p ∈ no.labels, v.labels ≤ p.2 ∧ p.2 < x.labels := hx.numbers
  have hseg := hx.readdresses.segment
    (hv.readdresses.segment fun i hi => ⟨ht.straight i hi, ht.proper i hi⟩)
  refine ⟨(ht.readdresses.comp hv.readdresses).comp hx.readdresses, ?_, ?_, ?_, ?_, ?_, ?_⟩
  · simp only [Session.add, hx.code, hv.code, ht.code, CodeTree.flatten, hx.readdresses.flatten,
      List.map_append, List.map_cons, List.map_nil, List.map_map, List.append_assoc,
      List.cons_append, List.nil_append, hv.readdresses.branch, hx.readdresses.branch,
      hx.readdresses.jump, hx.readdresses.label]
  · exact ⟨fun i hi => (hseg i hi).1, hx.readdresses.straight_map hv.straight, hx.straight,
      by simp [CodeTree.Straight, Straight]⟩
  · have hcond : (h₃ (h₂ c)).Proper := hx.readdresses.operand (hv.readdresses.operand hc)
    refine CodeTree.all_branch.mpr ⟨fun i hi => (hseg i hi).2, ?_,
      hx.readdresses.proper_map hv.proper, ?_, ?_, hx.proper, ?_,
      by simp [CodeTree.All, CodeTree.flatten]⟩
    · simpa [Instruction.Proper, Instruction.operands] using hcond
    all_goals simp [Instruction.Proper, Instruction.operands]
  · exact nodup_branch (by simpa using hv.nodup) hx.nodup (by simpa using hyes) hno
      (Nat.lt_of_lt_of_le (Nat.lt_succ_self _) hst) le_rfl (by omega)
  · intro p hp
    simp only [CodeTree.labels, CodeTree.labels_map, List.mem_append, List.mem_cons,
      List.not_mem_nil, or_false] at hp
    show s.labels ≤ p.2 ∧ p.2 < x.labels
    rcases hp with hp | rfl | hp | rfl
    · have := hyes p hp
      omega
    · dsimp only
      omega
    · have := hno p hp
      omega
    · dsimp only
      omega
  · show s.labels ≤ x.labels
    omega

theorem growsBy_loop {t v x : Session}
    (ht : GrowsBy g₁ h₁ (.done a)
      (Session.add { s with labels := s.labels + 1 } (.label (LabelKind.forTest.name s.labels))) t)
    (hc : c.Proper)
    (hv : GrowsBy g₂ h₂ body (t.add (.jumpUnless c (LabelKind.forEnd.name s.labels))) v)
    (hx : GrowsBy g₃ h₃ (.done b) (v.add (.label (LabelKind.forUpdate.name s.labels))) x) :
    GrowsBy (g₃ ∘ g₂ ∘ g₁) (h₃ ∘ h₂ ∘ h₁)
      (.loop [] s.labels ((a.map g₂).map g₃) (h₃ (h₂ c)) (body.map (List.map g₃) h₃) b (.done [])) s
      ((x.add (.jump (LabelKind.forTest.name s.labels))).add
        (.label (LabelKind.forEnd.name s.labels))) := by
  have hst : s.labels + 1 ≤ t.labels := ht.labels
  have htv : t.labels ≤ v.labels := hv.labels
  have hvx : v.labels ≤ x.labels := hx.labels
  have hbody : ∀ p ∈ body.labels, t.labels ≤ p.2 ∧ p.2 < v.labels := hv.numbers
  have hseg := hx.readdresses.segment
    (hv.readdresses.segment fun i hi => ⟨ht.straight i hi, ht.proper i hi⟩)
  refine ⟨(ht.readdresses.comp hv.readdresses).comp hx.readdresses, ?_, ?_, ?_, ?_, ?_, ?_⟩
  · simp only [Session.add, hx.code, hv.code, ht.code, CodeTree.flatten, hx.readdresses.flatten,
      List.map_append, List.map_cons, List.map_nil, List.map_map, List.append_assoc,
      List.cons_append, List.nil_append, hv.readdresses.jumpUnless, hx.readdresses.jumpUnless,
      hx.readdresses.label, hv.readdresses.label, ht.readdresses.label]
  · exact ⟨by simp [Straight], fun i hi => (hseg i hi).1, hx.readdresses.straight_map hv.straight,
      hx.straight, by simp [CodeTree.Straight, Straight]⟩
  · have hcond : (h₃ (h₂ c)).Proper := hx.readdresses.operand (hv.readdresses.operand hc)
    refine CodeTree.all_loop.mpr ⟨by simp, ?_, fun i hi => (hseg i hi).2, ?_,
      hx.readdresses.proper_map hv.proper, ?_, hx.proper, ?_, ?_,
      by simp [CodeTree.All, CodeTree.flatten]⟩
    · simp [Instruction.Proper, Instruction.operands]
    · simpa [Instruction.Proper, Instruction.operands] using hcond
    all_goals simp [Instruction.Proper, Instruction.operands]
  · refine nodup_loop (by simpa using hv.nodup) (by simpa using hbody) ?_
    omega
  · intro p hp
    simp only [CodeTree.labels, CodeTree.labels_map, List.mem_append, List.mem_cons,
      List.not_mem_nil, or_false] at hp
    show s.labels ≤ p.2 ∧ p.2 < x.labels
    rcases hp with rfl | hp | rfl | rfl
    · dsimp only
      omega
    · have := hbody p hp
      omega
    · dsimp only
      omega
    · dsimp only
      omega
  · show s.labels ≤ x.labels
    omega

end Parts

/-- **Lowering grows a session by trees**, and straight pieces by instructions alone. -/
theorem stable_grows : Lowering.Stable Session.Extends Session.Grows where
  refl s := .of_eq rfl rfl
  trans₀ := Extends.trans
  trans := Grows.trans
  straight := Extends.grows
  notes s _ _ _ := .of_eq rfl rfl
  asked s := .of_eq rfl rfl
  warned s _ _ := .of_eq rfl rfl
  symbols s _ _ := .of_eq rfl rfl
  declared s _ _ _ _ := .of_eq rfl rfl
  parameter s _ _ _ _ _ := .of_eq rfl rfl
  referenced s _ := .of_eq rfl rfl
  entered s _ := .of_eq rfl rfl
  left s := .of_eq rfl rfl
  allocated {s _ _ _ p} _ _ :=
    .of_map (.mapAddress _) (instructions_relocate s.program p.moves) rfl
  grown {s _ size moved p} _ hp := by
    obtain ⟨old, -, -, hsize, -⟩ := Planner.resize_eq_ok hp
    let f address := (moved.newAddress? address).getD (relocate p.moves address)
    have hg := (Readdresses.widen moved.source moved.size
      (Nat.lt_of_le_of_lt (Nat.zero_le _) hsize)).comp (.mapAddress f)
    exact .of_map hg (List.map_map ..) rfl
  emitted s _ hf hi := extends_emitted s hf hi
  branch := by
    rintro s t u v c ⟨⟨g₁, h₁, a, ht⟩, -⟩ hc ⟨g₂, h₂, yes, hu⟩ ⟨g₃, h₃, no, hv⟩
    exact ⟨_, _, _, growsBy_branch ht hc hu hv⟩
  loop := by
    rintro s t u v c ⟨⟨g₁, h₁, a, ht⟩, -⟩ hc ⟨g₂, h₂, body, hu⟩ ⟨⟨g₃, h₃, b, hv⟩, -⟩
    exact ⟨_, _, _, growsBy_loop ht hc hu hv⟩

end Session

/-- **A lowered program is a tree** written with labels and jumps. -/
theorem exists_tree_of_lower {script : Script} {p : Planner} {schedule : Schedule} {s : Session}
    (h : script.lower p schedule = (.ok (), s)) (hp : p.Held) :
    ∃ t : CodeTree, s.program.instructions = t.flatten ∧ t.Straight ∧ t.All Instruction.Proper ∧
      t.labels.Nodup := by
  have hstart : (Lowering.start p schedule).planner.Held := hp
  obtain ⟨⟨g, _, t, ht⟩, -⟩ :=
    (Lowering.keeps_statements Session.stable_grows script.body hstart (by simp)).2 h
  refine ⟨t, ?_, ht.straight, ht.proper, ht.nodup⟩
  rw [ht.code]
  rfl

end TapeCompiler
