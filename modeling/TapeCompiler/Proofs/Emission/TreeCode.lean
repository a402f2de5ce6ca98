import TapeCompiler.Proofs.Emission.Brackets
import TapeCompiler.Proofs.Emission.Layout

/-! # The code of a tree

Emission writes the instructions of a tree as code that does what the tree does (`exists_codeOf`).
`CodeOf` says what was written for instructions that stand in others, between two states of
emission. For a tree that stands in code (`CodeTree.StandsAt`) the code of its parts is put
together, by one lemma for each kind of tree (`CodeTree.Emitted.branch`, `CodeTree.Emitted.loop`).
-/

namespace TapeCompiler

/-! ### Trees that stand in code -/

namespace CodeTree

/-- A tree **stands at an index** of code whose plan holds its shapes. -/
structure StandsAt (code : List Instruction) (k : Nat) (t : CodeTree) : Prop where
  straight : t.Straight
  stands : Stands code k t.flatten
  loops : t.loops k ⊆ (ControlPlan.of code).loops
  branches : t.branches k ⊆ (ControlPlan.of code).branches

/-- A tree with unique labels stands in **its own instructions**. -/
theorem standsAt_self {t : CodeTree} (hs : t.Straight) (hd : t.labels.Nodup) :
    t.StandsAt t.flatten 0 where
  straight := hs
  stands := stands_self
  loops := by rw [planOf_flatten hs hd]; exact List.Subset.refl _
  branches := by rw [planOf_flatten hs hd]; exact List.Subset.refl _

theorem stop_flatten {t : CodeTree} (hs : t.Straight) (hd : t.labels.Nodup) :
    ∀ s ∈ (ControlPlan.of t.flatten).branches,
      ∃ n, t.flatten[s.stop]? = some (.label (LabelKind.ifEnd.name n)) := by
  rw [planOf_flatten hs hd]
  exact stop_at stands_self

namespace StandsAt

variable {code before test last : List Instruction} {k n : Nat} {cond : Operand}
  {yes no body rest : CodeTree}

/-- The sides of a branch and what follows it **stand in their places**, and the plan holds the
branch. -/
theorem of_branch (h : (branch before n cond yes no rest).StandsAt code k) :
    TapeCompiler.Straight before ∧ yes.StandsAt code (k + before.length + 1) ∧
      no.StandsAt code (k + before.length + 1 + yes.flatten.length + 1 + 1) ∧
      rest.StandsAt code
        (k + before.length + 1 + yes.flatten.length + 1 + 1 + no.flatten.length + 1) ∧
      ⟨k + before.length, k + before.length + 1 + yes.flatten.length,
        k + before.length + 1 + yes.flatten.length + 1,
        k + before.length + 1 + yes.flatten.length + 1 + 1 + no.flatten.length⟩ ∈
          (ControlPlan.of code).branches := by
  obtain ⟨⟨hs, hsy, hsn, hsr⟩, hstands, hloops, hbranches⟩ := h
  obtain ⟨-, -, hy, -, -, hn, -, hr⟩ := stands_branch.mp hstands
  simp only [CodeTree.loops, List.append_subset] at hloops
  simp only [CodeTree.branches, List.cons_subset, List.append_subset] at hbranches
  obtain ⟨⟨hly, hln⟩, hlr⟩ := hloops
  obtain ⟨hown, ⟨hby, hbn⟩, hbr⟩ := hbranches
  exact ⟨hs, ⟨hsy, hy, hly, hby⟩, ⟨hsn, hn, hln, hbn⟩, ⟨hsr, hr, hlr, hbr⟩, hown⟩

/-- The body of a loop and what follows it **stand in their places**, and the plan holds the
loop. -/
theorem of_loop (h : (loop before n test cond body last rest).StandsAt code k) :
    (TapeCompiler.Straight before ∧ TapeCompiler.Straight test ∧ TapeCompiler.Straight last) ∧
      body.StandsAt code (k + before.length + 1 + test.length + 1) ∧
      rest.StandsAt code
        (k + before.length + 1 + test.length + 1 + body.flatten.length + 1 + last.length + 1 + 1) ∧
      ⟨k + before.length, k + before.length + 1 + test.length,
        k + before.length + 1 + test.length + 1 + body.flatten.length + 1 + last.length,
        k + before.length + 1 + test.length + 1 + body.flatten.length + 1 + last.length + 1⟩ ∈
          (ControlPlan.of code).loops := by
  obtain ⟨⟨hs, hst, hsb, hsl, hsr⟩, hstands, hloops, hbranches⟩ := h
  obtain ⟨-, -, -, -, hbody, -, -, -, -, hr⟩ := stands_loop.mp hstands
  simp only [CodeTree.loops, List.cons_subset, List.append_subset] at hloops
  simp only [CodeTree.branches, List.append_subset] at hbranches
  obtain ⟨hlb, hown, hlr⟩ := hloops
  obtain ⟨hbb, hbr⟩ := hbranches
  exact ⟨⟨hs, hst, hsl⟩, ⟨hsb, hbody, hlb, hbb⟩, ⟨hsr, hr, hlr, hbr⟩, hown⟩

end StandsAt

end CodeTree

section Passing
variable {e : Emitter} {code : List Instruction} {k : Nat} {seg seg' : List Instruction}
  {st st₁ st₂ : Emission}

/-- Emission goes **from one state to another** over instructions at an index. -/
def Emitter.Passes (e : Emitter) (code : List Instruction) (k : Nat) (seg : List Instruction)
    (st st' : Emission) : Prop :=
  ∀ rest, e.run (.of code) code ((seg ++ rest).zipIdx k) st =
    e.run (.of code) code (rest.zipIdx (k + seg.length)) st'

theorem passes_one {i : Instruction} (h : e.step (.of code) code k i st = .ok st₁) :
    e.Passes code k [i] st (st₁.write (.text "\n")) := fun rest => by
  simp only [List.cons_append, List.nil_append, List.zipIdx_cons, Emitter.run, h]
  rfl

theorem Emitter.Passes.append (h : e.Passes code k seg st st₁)
    (h' : e.Passes code (k + seg.length) seg' st₁ st₂) : e.Passes code k (seg ++ seg') st st₂ :=
  fun rest => by
    rw [List.append_assoc, h, h', List.length_append, Nat.add_assoc]

end Passing

/-! ### Code between two states -/

/-- Emission of `code` has room, and knows what printing is. -/
structure Emitter.Fits (e : Emitter) (P N : Nat → Prop) (depth : Nat) (code : List Instruction) :
    Prop where
  room : e.Room P N depth
  known : e.library.Known
  below : ∀ i ∈ code, i.Below e.scratch.base
  deep : ((ControlPlan.of code).depthAt code.length).2 ≤ depth

/-- A state of emission **in front of an index**: the pointer is on a cell that may be named, and as
many frames are open as the plan says. -/
structure Placed (P : Nat → Prop) (code : List Instruction) (k : Nat) (st : Emission) : Prop where
  pointer : P st.writer.pointer
  depth : st.frames.length = ((ControlPlan.of code).depthAt k).1

/-- **Code written for instructions** at an index, from one state to another. -/
structure CodeOf (e : Emitter) (P N : Nat → Prop) (code : List Instruction) (k : Nat)
    (seg : List Instruction) (st st' : Emission) (c : Code) : Prop where
  passes : e.Passes code k seg st st'
  frames : st'.frames = st.frames
  writer : st'.writer = c.write st.writer
  within : c.Within P N
  placed : Placed P code (k + seg.length) st'

section CodeOf
variable {e : Emitter} {P N : Nat → Prop} {code : List Instruction} {depth k : Nat}
  {seg seg' : List Instruction} {st st₁ st₂ : Emission} {c c' : Code}

theorem Code.pointer_write (hc : c.Within P N) {v : Writer} (hv : P v.pointer) :
    P (c.write v).pointer := by
  rw [(opsOf_write hc v).2]
  exact Code.last_within hc hv

theorem CodeOf.append (h : CodeOf e P N code k seg st st₁ c)
    (h' : CodeOf e P N code (k + seg.length) seg' st₁ st₂ c') :
    CodeOf e P N code k (seg ++ seg') st st₂ (c ++ c') where
  passes := h.passes.append h'.passes
  frames := h'.frames.trans h.frames
  writer := by rw [h'.writer, h.writer]; rfl
  within := ⟨h.within, h'.within⟩
  placed := by
    rw [List.length_append, ← Nat.add_assoc]
    exact h'.placed

theorem codeOf_nil (h : Placed P code k st) : CodeOf e P N code k [] st st .skip :=
  ⟨fun _ => rfl, rfl, rfl, trivial, h⟩

theorem codeOf_step {i : Instruction} (hi : code[k]? = some i) (h : Placed P code k st)
    (hs : e.step (.of code) code k i st = .ok st₁) (hf : st₁.frames = st.frames)
    (hw : st₁.writer = c.write st.writer) (hc : c.Within P N) :
    CodeOf e P N code k [i] st (st₁.write (.text "\n")) (c ++ .text "\n") where
  passes := passes_one hs
  frames := hf
  writer := by
    simp only [Emission.write, hw]
    rfl
  within := ⟨hc, Code.within_newline⟩
  placed := by
    refine ⟨?_, (depth_step hi hs h.depth).1⟩
    have := Code.pointer_write hc h.pointer
    rwa [← hw] at this

theorem does_newline (e : Emitter) : Code.Does e [] (.text "\n") := fun _ _ => rfl

theorem exists_codeOf_straight (hfit : e.Fits P N depth code) (hstand : Stands code k seg)
    (hs : Straight seg) (h : Placed P code k st) :
    ∃ st' c, CodeOf e P N code k seg st st' c ∧ c.Does e seg := by
  induction seg generalizing k st with
  | nil => exact ⟨st, .skip, codeOf_nil h, fun _ _ => rfl⟩
  | cons i seg ih =>
    obtain ⟨hi, hstand⟩ := stands_cons.mp hstand
    obtain ⟨hsi, hs⟩ := straight_cons.mp hs
    have hb := hfit.below i (List.mem_of_getElem? hi)
    have hw := hfit.room.within_plain h.pointer hb
    have h₁ := codeOf_step (c := (e.plain st.writer.pointer i).1) hi h
      (CodeTree.step_straight e st hsi) rfl rfl hw
    obtain ⟨st', c, h₂, hd⟩ := ih hstand hs h₁.placed
    have hone : ((e.plain st.writer.pointer i).1 ++ .text "\n" : Code).Does e [i] :=
      fun σ hσ => ⟨_, Emitter.runs_plain hfit.known hσ _ hb, rfl⟩
    exact ⟨st', _, h₁.append h₂, hone.append hd (by simpa using hb)⟩

theorem exists_codeOf_label (st : Emission) {name : String} (hi : code[k]? = some (.label name))
    (hstop : ∀ s ∈ (ControlPlan.of code).branches, s.stop ≠ k) (h : Placed P code k st) :
    ∃ st' c, CodeOf e P N code k [.label name] st st' c ∧ c.Does e [] := by
  obtain ⟨d, hd, hs⟩ := CodeTree.step_label e st name hstop
  have hw : d.Within P N := by rcases hd with rfl | rfl <;> simp
  have hr : d.Does e [] := by rcases hd with rfl | rfl <;> exact fun _ _ => rfl
  exact ⟨_, _, codeOf_step hi h hs rfl rfl hw, hr.append (does_newline e) (by simp)⟩

theorem exists_rewritten (hfit : e.Fits P N depth code) (st : Emission) {test : List Instruction}
    (ht : ∀ i ∈ test, i.Below e.scratch.base) (hp : P st.writer.pointer) :
    ∃ c : Code, (test.foldl e.writePlain st).writer = c.write st.writer ∧ c.Within P N ∧
      c.Does e test := by
  induction test generalizing st with
  | nil => exact ⟨.skip, rfl, trivial, fun _ _ => rfl⟩
  | cons i test ih =>
    have hb := ht i (by simp)
    have hw := hfit.room.within_plain hp hb
    obtain ⟨c, hc, hcw, hd⟩ := ih (e.writePlain st i) (fun j hj => ht j (by simp [hj]))
      (Code.pointer_write hw hp)
    have hone : (e.plain st.writer.pointer i).1.Does e [i] :=
      fun σ hσ => Emitter.runs_plain hfit.known hσ _ hb
    exact ⟨(e.plain st.writer.pointer i).1 ++ c, hc, ⟨hw, hcw⟩,
      hone.append hd (by simpa using hb)⟩

/-! ### Trees -/

theorem Stands.mem (h : Stands code k seg) {i : Instruction} (hi : i ∈ seg) : i ∈ code := by
  obtain ⟨j, hj⟩ := List.mem_iff_getElem?.mp hi
  exact List.mem_of_getElem? (h j i hj)

theorem stop_ne_of_kind
    (hstop : ∀ s ∈ (ControlPlan.of code).branches,
      ∃ n, code[s.stop]? = some (.label (LabelKind.ifEnd.name n)))
    {kind : LabelKind} {n : Nat} (hk : kind ≠ .ifEnd)
    (hi : code[k]? = some (.label (kind.name n))) :
    ∀ s ∈ (ControlPlan.of code).branches, s.stop ≠ k := by
  rintro s hs rfl
  obtain ⟨m, hm⟩ := hstop s hs
  rw [hi] at hm
  exact hk (LabelKind.name_inj.mp (Instruction.label.inj (Option.some.inj hm))).1

/-- Emission writes a tree, wherever it stands, **as code that does what the tree does**. -/
def CodeTree.Emitted (e : Emitter) (P N : Nat → Prop) (code : List Instruction) (t : CodeTree) :
    Prop :=
  ∀ (k : Nat) (st : Emission), t.StandsAt code k → Placed P code k st →
    ∃ st' c, CodeOf e P N code k t.flatten st st' c ∧ c.DoesTree e st.frames.length t

namespace CodeTree.Emitted

variable {before test last : List Instruction} {n : Nat} {cond : Operand}
  {t yes no body rest : CodeTree}

theorem done (hfit : e.Fits P N depth code) : (CodeTree.done seg).Emitted e P N code := by
  intro k st ht h
  obtain ⟨st', c, hc, hd⟩ := exists_codeOf_straight hfit ht.stands ht.straight h
  exact ⟨st', c, hc, fun σ τ hσ => (hd σ hσ.clean).iff_eq⟩

variable (hfit : e.Fits P N depth code)
  (hstop : ∀ s ∈ (ControlPlan.of code).branches,
    ∃ n, code[s.stop]? = some (.label (LabelKind.ifEnd.name n)))
include hfit hstop

/-- **A branch** opens its flags behind what stands in front of it, turns, and closes. -/
theorem branch (hy : yes.Emitted e P N code) (hn : no.Emitted e P N code)
    (hr : rest.Emitted e P N code) :
    (CodeTree.branch before n cond yes no rest).Emitted e P N code := by
  intro k st ht h
  have hall : (CodeTree.branch before n cond yes no rest).All
      (Instruction.Below e.scratch.base) := fun i hi => hfit.below i (ht.stands.mem hi)
  obtain ⟨hb, htest, -, hturn, hother, -, hend, -⟩ := CodeTree.stands_branch.mp ht.stands
  obtain ⟨hs, hty, htn, htr, hown⟩ := ht.of_branch
  -- up to the test
  obtain ⟨st₁, c₁, h₁, d₁⟩ := exists_codeOf_straight hfit hb hs h
  have hopen := CodeTree.step_branch e st₁ cond (LabelKind.ifElse.name n) hown
  have hp₁ := (depth_step htest hopen h₁.placed.depth).1
  obtain ⟨hfirst, hsecond⟩ := flags_allowed hfit.room hfit.deep htest hopen h₁.placed.depth
    (ControlPlan.branch_mem_shapes.mpr hown) rfl
  have hflagAt : e.nextFlag st₁ = e.flagAt st.frames.length := by rw [← h₁.frames]; rfl
  have hc : cond.Below e.scratch.base :=
    (hfit.below _ (List.mem_of_getElem? htest)).operands cond (by simp [Instruction.operands])
  have hset := hfit.room.within_setBool hc hfirst
  -- the first side
  obtain ⟨st₂, c₂, h₂, d₂⟩ := hy _ ((e.openBranch cond st₁).write (.text "\n")) hty
    ⟨hsecond, hp₁⟩
  have hf₂ : st₂.frames = .branch (e.nextFlag st₁) (e.nextFlag st₁ + 1) :: st₁.frames :=
    h₂.frames
  have hswitch := CodeTree.step_turn e st₂ (LabelKind.ifEnd.name n) hown
  simp only [Emitter.switchBranch, hf₂] at hswitch
  have hp₃ := (depth_step hturn hswitch h₂.placed.depth).1
  -- the other side
  obtain ⟨st₄, c₄, h₄, d₄⟩ := exists_codeOf_label (e := e) (N := N)
    ((st₂.write (.clear (e.nextFlag st₁) ++ .closing (e.nextFlag st₁)
      ++ .opening (e.nextFlag st₁ + 1) ++ .sub (e.nextFlag st₁ + 1) 1)).write (.text "\n"))
    hother (stop_ne_of_kind hstop (by decide) hother) ⟨hsecond, hp₃⟩
  obtain ⟨st₅, c₅, h₅, d₅⟩ := hn _ st₄ htn h₄.placed
  have hf₄ : st₄.frames = .branch (e.nextFlag st₁) (e.nextFlag st₁ + 1) :: st₁.frames :=
    h₄.frames.trans hf₂
  have hclose := CodeTree.step_stop e st₅ (LabelKind.ifEnd.name n) hown
  simp only [Emitter.closeBranch, h₅.frames, hf₄] at hclose
  have hp₆ := (depth_step hend hclose h₅.placed.depth).1
  obtain ⟨st', c', h', d'⟩ := hr _
    (({ st₅ with frames := st₁.frames }.write (.closing (e.nextFlag st₁ + 1))).write (.text "\n"))
    htr ⟨hsecond, hp₆⟩
  refine ⟨st', c₁ ++ (.add (e.nextFlag st₁ + 1) 1 ++ .setBool e.scratch (e.nextFlag st₁) cond
    ++ .loop (e.nextFlag st₁) (.sub (e.nextFlag st₁ + 1) 1 ++ (.text "\n" ++ c₂)
      ++ .clear (e.nextFlag st₁))
    ++ .loop (e.nextFlag st₁ + 1) (.sub (e.nextFlag st₁ + 1) 1 ++ (.text "\n" ++ c₄ ++ c₅)))
    ++ (.text "\n" ++ c'), ⟨?_, ?_, ?_, ?_, ?_⟩, ?_⟩
  · exact h₁.passes.append ((passes_one hopen).append (h₂.passes.append
      ((passes_one hswitch).append (h₄.passes.append (h₅.passes.append
        ((passes_one hclose).append h'.passes))))))
  · exact h'.frames.trans h₁.frames
  · rw [h'.writer]
    simp only [Emission.write, h₅.writer, h₄.writer, h₂.writer, Emitter.openBranch, h₁.writer]
    rfl
  · exact ⟨⟨h₁.within, ⟨⟨hsecond, hset⟩, hfirst, ⟨hsecond, Code.within_newline, h₂.within⟩,
      Code.within_clear.mpr hfirst⟩, hsecond, hsecond, ⟨Code.within_newline, h₄.within⟩,
      h₅.within⟩, Code.within_newline, h'.within⟩
  · rw [CodeTree.length_branch]
    exact h'.placed
  · rw [hflagAt]
    have hlen₂ : ((e.openBranch cond st₁).write (.text "\n")).frames.length =
        st.frames.length + 1 := by rw [← h₁.frames]; rfl
    have hlen₅ : st₄.frames.length = st.frames.length + 1 := by rw [hf₄, ← h₁.frames]; rfl
    have hlen' : ({ st₅ with frames := st₁.frames }.write
        (.closing (e.nextFlag st₁ + 1))).frames.length = st.frames.length := by
      rw [← h₁.frames]; rfl
    have hlabel : (Code.text "\n" ++ c₄).Does e ([] ++ []) := (does_newline e).append d₄ (by simp)
    rw [hlen₂] at d₂
    rw [hlen₅] at d₅
    exact doesTree_branch hall d₁ (d₂.behind (does_newline e)) (d₅.behind hlabel)
      (Code.DoesTree.behind (hlen' ▸ d') (does_newline e))

/-- **A loop** opens its flag behind its test, writes the test again, and closes. -/
theorem loop (hbody : body.Emitted e P N code) (hr : rest.Emitted e P N code) :
    (CodeTree.loop before n test cond body last rest).Emitted e P N code := by
  intro k st ht h
  have hall : (CodeTree.loop before n test cond body last rest).All
      (Instruction.Below e.scratch.base) := fun i hi => hfit.below i (ht.stands.mem hi)
  obtain ⟨hb, hhead, hte, hexit, -, hagain, hla, hjump, hend, -⟩ :=
    CodeTree.stands_loop.mp ht.stands
  obtain ⟨⟨hs, hst, hsl⟩, htb, htr, hown⟩ := ht.of_loop
  -- up to the test
  obtain ⟨st₁, c₁, h₁, d₁⟩ := exists_codeOf_straight hfit hb hs h
  obtain ⟨st₂, c₂, h₂, d₂⟩ := exists_codeOf_label (e := e) (N := N) st₁ hhead
    (stop_ne_of_kind hstop (by decide) hhead) h₁.placed
  obtain ⟨st₃, c₃, h₃, d₃⟩ := exists_codeOf_straight hfit hte hst h₂.placed
  have hf₃ : st₃.frames = st.frames := h₃.frames.trans (h₂.frames.trans h₁.frames)
  -- the loop opens
  have hopen := CodeTree.step_test e st₃ hown hexit
  simp only [hte.slice] at hopen
  have hp₄ := (depth_step hexit hopen h₃.placed.depth).1
  have hflag := (flags_allowed hfit.room hfit.deep hexit hopen h₃.placed.depth
    (ControlPlan.loop_mem_shapes.mpr hown) rfl).1
  have hflagAt : e.nextFlag st₃ = e.flagAt st.frames.length := by rw [← hf₃]; rfl
  have hc : cond.Below e.scratch.base :=
    (hfit.below _ (List.mem_of_getElem? hexit)).operands cond (by simp [Instruction.operands])
  have hset := hfit.room.within_setBool hc hflag
  -- the round
  obtain ⟨st₅, c₅, h₅, d₅⟩ := hbody _ ((e.openLoop cond test st₃).write (.text "\n")) htb
    ⟨hflag, hp₄⟩
  obtain ⟨st₆, c₆, h₆, d₆⟩ := exists_codeOf_label (e := e) (N := N) st₅ hagain
    (stop_ne_of_kind hstop (by decide) hagain) h₅.placed
  obtain ⟨st₇, c₇, h₇, d₇⟩ := exists_codeOf_straight hfit hla hsl h₆.placed
  have hf₇ : st₇.frames = .loop (e.nextFlag st₃) test cond :: st₃.frames :=
    h₇.frames.trans (h₆.frames.trans h₅.frames)
  -- the loop closes
  obtain ⟨c₈, hw₈, hc₈, d₈⟩ := exists_rewritten hfit { st₇ with frames := st₃.frames }
    (CodeTree.all_loop.mp hall).2.2.1 h₇.placed.pointer
  have hclose := CodeTree.step_back e st₇ (LabelKind.forTest.name n) hown
  simp only [Emitter.closeLoop, hf₇] at hclose
  have hp₈ := (depth_step hjump hclose h₇.placed.depth).1
  have hf₈ : (test.foldl e.writePlain { st₇ with frames := st₃.frames }).frames = st₃.frames :=
    Emitter.frames_foldl_writePlain _ _
  obtain ⟨st₉, c₉, h₉, d₉⟩ := exists_codeOf_label (e := e) (N := N)
    (((test.foldl e.writePlain { st₇ with frames := st₃.frames }).write
      (.clear (e.nextFlag st₃) ++ .setBool e.scratch (e.nextFlag st₃) cond
        ++ .closing (e.nextFlag st₃))).write (.text "\n"))
    hend (stop_ne_of_kind hstop (by decide) hend) ⟨hflag, hp₈⟩
  obtain ⟨st', c', h', d'⟩ := hr _ st₉ htr h₉.placed
  have hf₉ : st₉.frames = st.frames := h₉.frames.trans (hf₈.trans hf₃)
  refine ⟨st', c₁ ++ (c₂ ++ c₃) ++ .setBool e.scratch (e.nextFlag st₃) cond
    ++ .loop (e.nextFlag st₃) (.text "\n" ++ c₅ ++ (c₆ ++ c₇) ++ c₈
      ++ (.clear (e.nextFlag st₃) ++ .setBool e.scratch (e.nextFlag st₃) cond))
    ++ (.text "\n" ++ c₉ ++ c'), ⟨?_, ?_, ?_, ?_, ?_⟩, ?_⟩
  · exact h₁.passes.append (h₂.passes.append (h₃.passes.append ((passes_one hopen).append
      (h₅.passes.append (h₆.passes.append (h₇.passes.append ((passes_one hclose).append
        (h₉.passes.append h'.passes))))))))
  · exact h'.frames.trans hf₉
  · rw [h'.writer, h₉.writer]
    simp only [Emission.write, hw₈]
    simp only [h₇.writer, h₆.writer, h₅.writer, Emitter.openLoop, Emission.write, h₃.writer,
      h₂.writer, h₁.writer]
    rfl
  · exact ⟨⟨⟨⟨h₁.within, h₂.within, h₃.within⟩, hset⟩, hflag,
      ⟨⟨⟨Code.within_newline, h₅.within⟩, h₆.within, h₇.within⟩, hc₈⟩,
      Code.within_clear.mpr hflag, hset⟩, ⟨Code.within_newline, h₉.within⟩, h'.within⟩
  · rw [CodeTree.length_loop]
    exact h'.placed
  · rw [hflagAt]
    have hlen₅ : ((e.openLoop cond test st₃).write (.text "\n")).frames.length =
        st.frames.length + 1 := by rw [← hf₃]; rfl
    have hfront : (c₁ ++ (c₂ ++ c₃)).Does e (before ++ ([] ++ test)) :=
      d₁.append (d₂.append d₃ (by simp)) (CodeTree.all_loop.mp hall).1
    have hlast : (c₆ ++ c₇).Does e ([] ++ last) := d₆.append d₇ (by simp)
    have hlabel : (Code.text "\n" ++ c₉).Does e ([] ++ []) := (does_newline e).append d₉ (by simp)
    rw [hlen₅] at d₅
    rw [hf₉] at d'
    exact doesTree_loop hall hfront (d₅.behind (does_newline e)) hlast d₈ (d'.behind hlabel)

end CodeTree.Emitted

/-- **The code of a tree** does what the tree does. -/
theorem exists_codeOf (hfit : e.Fits P N depth code)
    (hstop : ∀ s ∈ (ControlPlan.of code).branches,
      ∃ n, code[s.stop]? = some (.label (LabelKind.ifEnd.name n))) (t : CodeTree) :
    t.Emitted e P N code := by
  induction t with
  | done seg => exact .done hfit
  | branch before n cond yes no rest ihy ihn ihr => exact .branch hfit hstop ihy ihn ihr
  | loop before n test cond body last rest ihb ihr => exact .loop hfit hstop ihb ihr

end CodeOf

/-! ### Programs -/

theorem idle_start {e : Emitter} (h : e.scratch.base + scratchCells ≤ e.flags)
    (input : List UInt8) : e.Idle 0 (Store.start input) :=
  ⟨h, fun _ _ => rfl, fun _ _ => rfl⟩

section Tree
variable {p : Program} {t : CodeTree} {library : Library} {w : CellWidth} {size reserved : Nat}
  (hp : ∀ i ∈ p.instructions, i.Proper) (ht : p.instructions = t.flatten) (hs : t.Straight)
  (hd : t.labels.Nodup) (hl : library.Known)
include hp ht hs hd hl

/-- **A program that is a tree is emitted** where there is room, as the text of code that does what
the tree does. -/
theorem Program.emit_tree (hn : p.cellsNeeded reserved ≤ size) :
    ∃ c : Code, (∃ ws, p.emit library w size reserved = (.ok (c.textFrom 0), ws)) ∧
      c.Within (fun a => a < size ∧ a ≠ (p.scratch reserved).guard)
        (fun a => a + 1 = (p.scratch reserved).guard) ∧
      ∀ (input : List UInt8) (τ : Store w),
        c.Runs (Store.start input) τ ↔ t.Runs library (Store.start input) τ := by
  have hroom := p.room hl.builtIn w hn
  have hcode : ∀ i ∈ p.instructions, i.Below (p.scratch reserved).base := fun i hi =>
    Instruction.below_of_le (hp i hi) ((Program.maxAddress_le hi).trans (Nat.le_max_left _ _))
  have hfit : (p.emitterAbove library w reserved).Fits _ _ _ p.instructions :=
    ⟨hroom, hl, hcode, Nat.le_refl _⟩
  have hat : t.StandsAt p.instructions 0 := ht ▸ CodeTree.standsAt_self hs hd
  obtain ⟨u, c, hc, hdoes⟩ := exists_codeOf hfit (ht ▸ CodeTree.stop_flatten hs hd) t 0 .start hat
    ⟨hroom.zero, rfl⟩
  have hrun := hc.passes []
  rw [List.append_nil, ← ht] at hrun
  simp only [List.zipIdx_nil, Emitter.run, hc.frames, List.isEmpty_nil, Emission.start, if_true]
    at hrun
  have hemit := Program.emit_eq_ok.mpr ⟨hn, _, hrun, rfl, rfl⟩
  rw [hc.writer] at hemit
  exact ⟨c, ⟨_, hemit⟩, hc.within, fun input τ => hdoes _ τ (idle_start (Nat.le_refl _) input)⟩

/-- **The text of a program that is a tree** is that of code that does what the tree does. -/
theorem Program.exists_treeCode {text : String} {ws : List String}
    (h : p.emit library w size reserved = (.ok text, ws)) :
    ∃ c : Code, c.Within (fun a => a < size ∧ a ≠ (p.scratch reserved).guard)
      (fun a => a + 1 = (p.scratch reserved).guard) ∧ text = c.textFrom 0 ∧
        ∀ (input : List UInt8) (τ : Store w),
          c.Runs (Store.start input) τ ↔ t.Runs library (Store.start input) τ := by
  obtain ⟨c, ⟨ws', hemit⟩, hc, hruns⟩ :=
    Program.emit_tree hp ht hs hd hl (w := w) (Program.emit_eq_ok.mp h).1
  rw [h] at hemit
  cases hemit
  exact ⟨c, hc, rfl, hruns⟩

end Tree

end TapeCompiler
