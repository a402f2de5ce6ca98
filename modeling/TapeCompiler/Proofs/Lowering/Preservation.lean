import TapeCompiler.Proofs.Cells.Joining
import TapeCompiler.Proofs.Lowering.Performing

/-! # Lowering keeps what a program means

Blocks, branches and loops, and with them all statements, are realized by the trees that they are
lowered to (`compiles_statements`). What a block binds is gone behind it, and the names around it
have the spots they had (`Confined`), so a loop starts each round from where the one before it
started. -/

namespace TapeCompiler

open Lowering

variable {w : CellWidth} {l : Library} {s t u : Session} {z : Spot} {σ τ : Store w} {v : Unit}
  {seg : List Instruction} {x name : String} {n : Nat} {m m' : Lowering Unit}
  {ρ ρ' : Env Nat} {D D' : Progress → Progress → Prop} {r r' : Env Nat → Option (Env Nat)}

/-! ### Scopes -/

/-- A scope that is opened **binds nothing yet**. -/
theorem Session.Ready.enter (h : s.Ready ρ) (name : String) :
    (s.withPlanner (s.planner.enter name).2).Ready ([] :: ρ) :=
  ⟨⟨h.steady.held.enter name, h.steady.settled, h.steady.fresh⟩, h.rooms.enter name, h.kinds⟩

theorem Planner.Shows.enter {p : Planner} {a : Progress} (h : p.Shows σ a) (name : String) :
    (p.enter name).2.Shows σ { a with env := [] :: a.env } :=
  ⟨h.env.enter name, h.output⟩

/-- What is **bound in a scope that was opened** has its tag, and what was bound before has others.
-/
theorem Session.Opens.inside (h : s.Ready ρ)
    (ho : (s.withPlanner (s.planner.enter name).2).Opens t) :
    t.planner.openScopes = s.planner.openScopes ++ [t.planner.scope] ∧
      t.planner.openScopes.Nodup ∧ ∀ y, Ordinary y →
        ((t.planner.spots y).filter fun z => z.scope ≠ t.planner.scope) = s.planner.spots y := by
  have hopen : t.planner.openScopes = s.planner.openScopes ++ [(s.planner.enter name).1] := by
    rw [ho.scopes]
    simp [Session.withPlanner, Planner.openScopes, Planner.enter]
  have hnodup : t.planner.openScopes.Nodup := by
    rw [ho.scopes]
    exact (h.enter name).steady.held.sound.indexed.scopes
  have hscope : t.planner.scope = (s.planner.enter name).1 := by
    have hl := t.planner.scope_eq_getLast
    rw [hopen, List.getLast?_concat] at hl
    exact (Option.some.inj hl).symm
  refine ⟨hscope ▸ hopen, hnodup, fun y hy => ?_⟩
  obtain ⟨new, hnew, htags⟩ := ho.spots y hy
  have hgone : new.filter (fun z => decide (z.scope ≠ t.planner.scope)) = [] :=
    List.filter_eq_nil_iff.mpr fun z hz => by
      rw [htags z hz, ← Planner.scope_congr ho.scopes]
      simp
  have hkept : (s.planner.spots y).filter (fun z => decide (z.scope ≠ t.planner.scope)) =
      s.planner.spots y := List.filter_eq_self.mpr fun z hz => decide_eq_true fun he => by
    have hin := h.steady.held.sound.indexed.scope_mem hz
    rw [hopen, List.nodup_append] at hnodup
    exact hnodup.2.2 _ hin _ (List.mem_singleton_self _) (he.trans hscope)
  rw [hnew, List.filter_append, hgone]
  exact hkept

/-- **Behind a scope**, names have the spots and the rooms they had in front of it. -/
theorem Session.Opens.leave (h : s.Ready ρ)
    (ho : (s.withPlanner (s.planner.enter name).2).Opens t) (ht : t.Ready ρ')
    (hg : Gives leave t v u) :
    u.Ready ρ ∧ s.Restores u ∧ u.program.instructions = t.program.instructions := by
  obtain ⟨bindings, shadowed, rfl⟩ := gives_leave hg
  obtain ⟨hopen, -, hinside⟩ := ho.inside h
  obtain ⟨f, rest, hf, htag, hscopes⟩ :=
    Planner.openScopes_leave (by simp [Planner.openScopes]) hopen
  have hleave : ∀ y, t.planner.leave.2.spots y =
      (t.planner.spots y).filter fun z => z.scope ≠ t.planner.scope := fun y =>
    (ht.steady.held.sound.spots_leave hf y).trans (by rw [htag])
  have hspots : ∀ y, Ordinary y → t.planner.leave.2.spots y = s.planner.spots y := fun y hy =>
    (hleave y).trans (hinside y hy)
  have hmoves : t.planner.leave.2.moves = [] := by
    unfold Planner.leave
    rw [hf]
    exact ht.steady.settled
  refine ⟨⟨⟨ht.steady.held.leave, hmoves, fun k hk => ?_⟩, ?_, fun y hy z hz => ?_⟩,
    ⟨hscopes, hspots⟩, rfl⟩
  · exact (hleave _).trans (by rw [ht.steady.fresh k hk]; rfl)
  · exact h.rooms.congr hscopes hspots fun _ _ _ _ _ => id
  · exact ht.kinds y hy z (List.mem_of_mem_filter ((hleave y) ▸ hz))

/-- What is shown inside a scope is shown behind it, **without the names of the scope**. -/
theorem Session.Opens.shows (h : s.Ready ρ)
    (ho : (s.withPlanner (s.planner.enter name).2).Opens t) (hu : s.Restores u) {b : Progress}
    (hb : t.planner.Shows τ b) : u.planner.Shows τ { b with env := b.env.tail } := by
  obtain ⟨hopen, hnodup, hinside⟩ := ho.inside h
  exact ⟨hb.env.leave hnodup (hu.scopes ▸ hopen) fun y hy =>
    (hu.spots y hy).trans (hinside y hy).symm, hb.output⟩

/-! ### Parts of a program -/

/-- **A part of a program compiles**: lowered in a session that is ready and stays calm, it becomes
a tree that does what the part does. -/
def Compiles (w : CellWidth) (l : Library) (m : Lowering Unit) (r : Env Nat → Option (Env Nat))
    (D : Progress → Progress → Prop) : Prop :=
  ∀ ⦃s t : Session⦄ ⦃ρ ρ' : Env Nat⦄ ⦃v : Unit⦄, s.Ready ρ → r ρ = some ρ' → Gives m s v t →
    t.planner.Calm → s.Realizes w l D t ρ'

/-- **A block compiles**: nothing that it binds is left behind it. -/
def Confined (w : CellWidth) (l : Library) (m : Lowering Unit) (ρ : Env Nat)
    (D : Progress → Progress → Prop) : Prop :=
  ∀ ⦃s t : Session⦄ ⦃v : Unit⦄, s.Ready ρ → Gives m s v t → t.planner.Calm →
    s.Realizes w l D t ρ ∧ s.Restores t

/-- A part of a program that **no collection is undone** by. -/
def Lowering.Forth (m : Lowering Unit) : Prop :=
  ∀ ⦃s t : Session⦄ ⦃v : Unit⦄, s.planner.Held → Gives m s v t →
    s.planner.Precedes t.planner ∧ t.planner.Held

/-- What keeps collections from being undone **goes forth**. -/
theorem Lowering.Forth.of_keeps (hm : Keeps (fun s t => s.planner.Precedes t.planner) [] m) :
    Forth m := fun s _ _ hs hg =>
  have ⟨hst, ht, _⟩ := (hm hs s.sees_nil).2 hg
  ⟨hst, ht⟩

theorem Lowering.Forth.step (hm : Forth m) (hs : s.planner.Held) (hg : Gives m s v t)
    (hc : t.planner.Calm) : s.planner.Calm :=
  (hm hs hg).1.calm hc

theorem Lowering.Forth.held (hm : Forth m) (hs : s.planner.Held) (hg : Gives m s v t) :
    t.planner.Held :=
  (hm hs hg).2

theorem forth_leave : Forth leave := .of_keeps (keeps_leave stable_precedes)

theorem forth_statements (ss : List Statement) : Forth (statements ss) :=
  .of_keeps (keeps_statements stable_precedes ss)

theorem forth_within (ss : List Statement) (name : String) :
    Forth (Lowering.within name (statements ss)) :=
  .of_keeps (keeps_within stable_precedes (keeps_statements stable_precedes ss))

theorem Session.Realizes.refl (h : s.Ready ρ) : s.Realizes w l (fun a b => b = a) s ρ where
  ready := h
  opens := .refl s
  tree := ⟨.done [], (List.append_nil _).symm, by simp [CodeTree.Straight, Straight],
    by simp [CodeTree.All, CodeTree.flatten], fun σ _ _ ha hb => ⟨σ, rfl, hb ▸ ha⟩⟩

theorem Session.Realizes.trans (h : s.Realizes w l D t ρ) (h' : t.Realizes w l D' u ρ') :
    s.Realizes w l (fun a b => ∃ c, D a c ∧ D' c b) u ρ' where
  ready := h'.ready
  opens := h.opens.trans h'.opens
  tree := by
    obtain ⟨t₁, hcode, hstraight, hranged, hrun⟩ := h.tree
    obtain ⟨t₂, hcode', hstraight', hranged', hrun'⟩ := h'.tree
    refine ⟨t₁.append t₂, ?_, CodeTree.straight_append.mpr ⟨hstraight, hstraight'⟩,
      CodeTree.all_append.mpr ⟨hranged, hranged'⟩, fun σ a b ha hb => ?_⟩
    · rw [hcode', hcode, CodeTree.flatten_append, List.append_assoc]
    · obtain ⟨c, hac, hcb⟩ := hb
      obtain ⟨υ, hυ, hc⟩ := hrun σ a c ha hac
      obtain ⟨τ, hτ, hb⟩ := hrun' υ c b hc hcb
      exact ⟨τ, CodeTree.runs_append.mpr ⟨υ, hυ, hτ⟩, hb⟩

theorem compiles_nothing : Compiles w l (pure ()) some fun a b => b = a := by
  intro s t ρ ρ' v h hr hg _
  obtain ⟨-, rfl⟩ := gives_pure.mp hg
  obtain rfl := Option.some.inj hr
  exact .refl h

theorem Compiles.bind (hm : Compiles w l m r D) (hf : Forth m) (hm' : Compiles w l m' r' D')
    (hf' : Forth m') : Compiles w l (do m; m') (fun ρ => (r ρ).bind r')
      fun a b => ∃ c, D a c ∧ D' c b := by
  intro s u ρ ρ' v h hr hg hc
  obtain ⟨_, t, hg, hg'⟩ := gives_bind.mp hg
  obtain ⟨ρ₁, hr, hr'⟩ := Option.bind_eq_some_iff.mp hr
  have hct := hf'.step (hf.held h.steady.held hg) hg' hc
  have hst := hm h hr hg hct
  exact hst.trans (hm' hst.ready hr' hg' hc)

/-- **A scope around a tree**: what the tree leads to is seen from the spots of some session on the
way, and names of the scope are gone behind it. -/
theorem Session.Ready.confines (h : s.Ready ρ) {m : Session}
    (hm : (s.withPlanner (s.planner.enter name).2).Opens m) (hmt : m.Opens t) (ht : t.Ready ρ')
    (hleave : Gives leave t v u) {c : CodeTree}
    (hcode : t.program.instructions = s.program.instructions ++ c.flatten) (hstraight : c.Straight)
    (hranged : c.All (Instruction.Ranged w)) (hrun : ∀ (σ : Store w) a b,
      (s.planner.enter name).2.Shows σ a → D a b → ∃ τ, c.Runs l σ τ ∧ m.planner.Shows τ b) :
    s.Realizes w l (Progress.Scoped D) u ρ ∧ s.Restores u := by
  obtain ⟨hu, hrestores, hcode'⟩ := (hm.trans hmt).leave h ht hleave
  refine ⟨⟨hu, hrestores.opens, c, hcode'.trans hcode, hstraight, hranged, fun σ a b ha hb => ?_⟩,
    hrestores⟩
  obtain ⟨b', hb', rfl⟩ := hb
  obtain ⟨τ, hτ, hshown⟩ := hrun σ _ b' (ha.enter name) hb'
  exact ⟨τ, hτ, hm.shows h hrestores hshown⟩

theorem Compiles.within (hm : Compiles w l m r D) (hf : Forth m) (hr : (r ([] :: ρ)).isSome = true)
    (name : String) : Confined w l (within name m) ρ (Progress.Scoped D) := by
  intro s u v h hg hc
  unfold Lowering.within at hg
  simp only [gives_bind, gives_discard, gives_enter] at hg
  obtain ⟨_, _, ⟨_, rfl, rfl⟩, _, t, hg, hleave⟩ := hg
  obtain ⟨ρ₁, hρ₁⟩ := Option.isSome_iff_exists.mp hr
  have hready := h.enter name
  have hct := forth_leave.step (hf.held hready.steady.held hg) hleave hc
  have hst := hm hready hρ₁ hg hct
  obtain ⟨c, hcode, hstraight, hranged, hrun⟩ := hst.tree
  exact h.confines hst.opens (.refl t) hst.ready hleave hcode hstraight hranged hrun

/-! ### Branches -/

theorem Session.Ready.add (h : s.Ready ρ) (i : Instruction) : (s.add i).Ready ρ :=
  h.of_eq rfl rfl rfl

theorem ranged_of_flow {i : Instruction} (hi : i.isFlow = true) : i.Ranged w := by
  rintro target o a b rfl
  cases hi

/-- **A branch** goes the way that the number of its test says. -/
theorem confined_branch {yes no : Lowering Unit} {test : Expr} (hyes : Confined w l yes ρ D)
    (hno : Confined w l no ρ D') (hfyes : Forth yes) (hfno : Forth no)
    (htest : test.scalar w = true) (hnames : OrdinaryNames test.mentions) :
    Confined w l (do
      let id ← nextLabel
      let condition ← resolve (← operandOf test)
      emit (.branch condition s!"if_else_{id}")
      yes
      emit (.jump s!"if_end_{id}")
      emit (.label s!"if_else_{id}")
      no
      emit (.label s!"if_end_{id}")) ρ
      fun a b => ∃ n, test.number? w a.env.value? = some n ∧ if n ≠ 0 then D a b else D' a b := by
  intro s x v h hg hc
  simp only [gives_bind, gives_nextLabel, gives_emit] at hg
  obtain ⟨_, _, ⟨rfl, rfl⟩, slot, s₁, hslot, c, _, hc', _, _, rfl, _, s₂, hgyes, _, _, rfl, _, _,
    rfl, _, s₃, hgno, rfl⟩ := hg
  obtain rfl := gives_resolve hc'
  -- every session on the way is calm
  have hs : Session.Ready { s with labels := s.labels + 1 } ρ := h.of_eq rfl rfl rfl
  have hheld₁ :=
    ((respects_operandOf stable_precedes hs.steady.held (Session.sees_nil _)).2 hslot).2.1
  have hheld₂ := hfyes.held (s := s₁.add _) hheld₁ hgyes
  have hc₂ := hfno.step (s := (s₂.add _).add _) hheld₂ hgno hc
  have hc₁ := hfyes.step (s := s₁.add _) hheld₁ hgyes hc₂
  have hstorable := Expr.storable_of_scalar htest true
  obtain ⟨seg, op, hadds, hchanges, hat, hsuits, hhas⟩ := delivers_of_lands (w := w) (l := l)
    hstorable hnames (lands hstorable hnames) hs.steady hslot hc₁
  obtain ⟨rfl, -⟩ := hat.resolve hadds.steady hc'
  have hs₁ : s₁.Ready ρ := hs.later hadds.steady hadds.toLater
  obtain ⟨hy, hry⟩ := hyes (hs₁.add _) hgyes hc₂
  obtain ⟨hn, hrn⟩ := hno ((hy.ready.add _).add _) hgno hc
  have hr₁ : s.Restores s₁ := hadds.toLater.restores.of_eq rfl rfl
  have hr₂ : s₁.Restores s₂ := hry.of_eq rfl rfl
  have hr₃ : s₂.Restores s₃ := hrn.of_eq rfl rfl
  have hrestores : s.Restores (s₃.add (.label (LabelKind.ifEnd.name s.labels))) :=
    (hr₁.trans (hr₂.trans hr₃)).of_eq rfl rfl
  obtain ⟨uy, hycode, hystraight, hyranged, hyrun⟩ := hy.tree
  obtain ⟨un, hncode, hnstraight, hnranged, hnrun⟩ := hn.tree
  refine ⟨⟨hn.ready.add _, hrestores.opens, .branch seg s.labels op uy un (.done []), ?_,
    ⟨hadds.straight, hystraight, hnstraight, by simp [CodeTree.Straight, Straight]⟩, ?_,
    fun σ a b ha hD => ?_⟩, hrestores⟩
  · simp only [Session.add, hncode, hycode, hadds.code, CodeTree.flatten, List.append_assoc,
      List.cons_append, List.nil_append]
    rfl
  · exact CodeTree.all_branch.mpr ⟨hadds.ranged, ranged_of_flow rfl, hyranged, ranged_of_flow rfl,
      ranged_of_flow rfl, hnranged, ranged_of_flow rfl, by simp [CodeTree.All, CodeTree.flatten]⟩
  · obtain ⟨n, hnumber, hD⟩ := hD
    obtain ⟨vs, hvs, rfl⟩ := Option.map_eq_some_iff.mp hnumber
    have ha₁ : s₁.planner.Shows (runAll l seg σ) a := hr₁.shows_iff.mpr (hchanges.shows ha)
    have hholds := (hhas σ a.env.value? vs ha.reads hvs).holds hsuits htest
    split_ifs at hD with hzero
    · obtain ⟨τ, hτ, hb⟩ := hyrun _ a b ha₁ hD
      exact ⟨τ, ⟨τ, by rwa [if_pos (hholds.mpr hzero)], rfl⟩, hr₃.shows_iff.mpr hb⟩
    · obtain ⟨τ, hτ, hb⟩ := hnrun _ a b (hr₂.shows_iff.mpr ha₁) hD
      exact ⟨τ, ⟨τ, by rwa [if_neg (hholds.not.mpr hzero)], rfl⟩, hb⟩

/-! ### Loops -/

/-- A loop without a test is one whose test **is a one**. -/
theorem exists_loopTest {test : Option Expr} (htest : test.all (Expr.scalar w) = true)
    (hnames : OrdinaryNames (Expr.mentionsOf? test)) : ∃ e : Expr, e.scalar w = true ∧
      OrdinaryNames e.mentions ∧ loopTest test = loopTest (some e) ∧
      ∀ a : Progress, a.test? w test = e.number? w a.env.value? := by
  cases test with
  | some e => exact ⟨e, htest, hnames, rfl, fun _ => rfl⟩
  | none =>
    refine ⟨.literal (.int 1), by cases w <;> rfl, fun _ hm => (nomatch hm), ?_, fun a => ?_⟩
    · simp only [loopTest, into, literalValue, bind_assoc, pure_bind]
    · cases w <;> rfl

/-- **The test of a loop** leaves, in a cell of its own, whether there is one more round. -/
theorem delivers_loopTest (hs : s.Steady) {test : Option Expr} {c : Operand}
    (htest : test.all (Expr.scalar w) = true) (hnames : OrdinaryNames (Expr.mentionsOf? test))
    (hg : Gives (loopTest test) s c t) (hc : t.planner.Calm) :
    ∃ seg, s.Adds w t seg ∧ Changes w l s.planner (fun _ => False) seg ∧
      ∀ (σ : Store w) a n, s.planner.Shows σ a → a.test? w test = some n →
        ((runAll l seg σ).holds c = true ↔ n ≠ 0) := by
  obtain ⟨e, he, hnames, htest, hnumber⟩ := exists_loopTest htest hnames
  rw [htest, loopTest] at hg
  obtain ⟨flag, u, htmp, hg⟩ := gives_bind.mp hg
  obtain ⟨_, r, hinto, hg⟩ := gives_bind.mp hg
  obtain ⟨a, _, haddr, hg⟩ := gives_bind.mp hg
  obtain ⟨rfl, rfl⟩ := gives_pure.mp hg
  obtain ⟨-, rfl⟩ := gives_address.mp haddr
  obtain ⟨-, hheld, -, hsees⟩ :=
    (respects_temporary stable_precedes hs.held s.sees_nil).2 htmp
  have hcu :=
    (fills_into stable_precedes e flag [flag] (by simp)).calm And.left hheld hsees hinto hc
  obtain ⟨hu, hsu, z, hz, hsize, hfills⟩ := hs.fillsTemporary (w := w) (l := l) htmp hcu
  obtain ⟨seg, hadds, hchanges, hlands⟩ :=
    lands (Expr.storable_of_scalar he true) hnames hu hz (Or.inl he) hinto hc
  obtain ⟨hadds, hchanges, hzt⟩ := hfills hadds hchanges
  obtain ⟨rfl, -⟩ := hadds.steady.address_eq hzt haddr
  refine ⟨seg, hadds, hchanges, fun σ a n ha hn => ?_⟩
  rw [hnumber] at hn
  obtain ⟨vs, hvs, rfl⟩ := Option.map_eq_some_iff.mp hn
  obtain ⟨-, hcells⟩ := hlands σ _ vs (ha.reads.later hsu fun _ _ => rfl) hvs
  have hfirst : ((runAll l seg σ).cells z.address).val = vs.headD 0 :=
    (hcells 0 (hu.room_pos e) (by omega)).trans (by cases vs <;> rfl)
  rw [Operand.cell, Store.holds, decide_eq_true_eq, ← hfirst]
  exact Fin.ext_iff.not

/-- What the rounds of a loop are lowered to, **with the test in front of each**. -/
def rounds (test : Option Expr) (last body : Lowering Unit) : Lowering Unit := do
  let id ← nextLabel
  emit (.label s!"for_test_{id}")
  let condition ← loopTest test
  emit (.jumpUnless condition s!"for_end_{id}")
  body
  emit (.label s!"for_update_{id}")
  last
  emit (.jump s!"for_test_{id}")
  emit (.label s!"for_end_{id}")

/-- **Rounds are run**, if the test says whether there is one more, and the body and the last part
do one: each round starts behind the test, from what is shown in front of it. -/
theorem runs_rounds {p : Planner} {segT segL : List Instruction} {c : Operand} {u : CodeTree}
    {test : Option Expr} (hT : Changes w l p (fun _ => False) segT)
    (hholds : ∀ (σ : Store w) a n, p.Shows σ a → a.test? w test = some n →
      ((runAll l segT σ).holds c = true ↔ n ≠ 0))
    (hround : ∀ (σ : Store w) a b, p.Shows σ a → (∃ c, D a c ∧ D' c b) →
      ∃ υ, u.Runs l σ υ ∧ p.Shows (runAll l segL υ) b) {a b : Progress} (ha : p.Shows σ a)
    (hw : While (fun a => ∃ n, a.test? w test = some n ∧ n ≠ 0)
      (fun a b => ∃ c, D a c ∧ D' c b) a b) (hend : b.test? w test = some 0) :
    ∃ τ, (CodeTree.loop [] n segT c u segL (.done [])).Runs l σ τ ∧ p.Shows τ b := by
  suffices hrounds : ∃ τ, While (fun σ => σ.holds c = true)
      (fun σ τ => ∃ υ, u.Runs l σ υ ∧ τ = runAll l (segL ++ segT) υ) (runAll l segT σ) τ ∧
        p.Shows τ b by
    obtain ⟨τ, hτ, hb⟩ := hrounds
    exact ⟨τ, ⟨τ, hτ, rfl⟩, hb⟩
  induction hw generalizing σ with
  | stop => exact ⟨_, .stop fun hgo => (hholds σ _ 0 ha hend).mp hgo rfl, hT.shows ha⟩
  | step hp hD _ ih =>
    obtain ⟨k, hk, hne⟩ := hp
    obtain ⟨υ, hυ, hb'⟩ := hround _ _ _ (hT.shows ha) hD
    obtain ⟨τ, hτ, hb⟩ := ih hb' hend
    rw [← runAll_append] at hτ
    exact ⟨τ, .step ((hholds σ _ k ha hk).mpr hne) ⟨υ, hυ, rfl⟩ hτ, hb⟩

/-- **Rounds are done** by a loop: each starts from the spots that the first one starts from. The
last clause binds no name, unless the evaluation is stuck in it. -/
theorem realizes_rounds {body last : Lowering Unit} {test : Option Expr} (h : s.Ready ρ)
    (htest : test.all (Expr.scalar w) = true) (hnames : OrdinaryNames (Expr.mentionsOf? test))
    (hbody : Confined w l body ρ D) (hfbody : Forth body)
    (hlast : ∀ ⦃s t : Session⦄ ⦃v : Unit⦄, s.Ready ρ → Gives last s v t → t.planner.Calm →
      s.Performs w l D' t ρ') (hflast : Forth last) (hg : Gives (rounds test last body) s v t)
    (hc : t.planner.Calm) :
    t.Ready ρ' ∧ s.Opens t ∧ ∃ u : CodeTree,
      t.program.instructions = s.program.instructions ++ u.flatten ∧ u.Straight ∧
      u.All (Instruction.Ranged w) ∧ ∀ (σ : Store w) a b, s.planner.Shows σ a →
        While (fun a => ∃ n, a.test? w test = some n ∧ n ≠ 0)
          (fun a b => ∃ c, D a c ∧ D' c b) a b → b.test? w test = some 0 →
        ∃ τ, u.Runs l σ τ ∧ s.planner.Shows τ b := by
  unfold rounds at hg
  simp only [gives_bind, gives_nextLabel, gives_emit] at hg
  obtain ⟨_, _, ⟨rfl, rfl⟩, _, _, rfl, c, s₁, hgtest, _, _, rfl, _, s₂, hgbody, _, _, rfl, _, s₃,
    hglast, _, _, rfl, rfl⟩ := hg
  -- every session on the way is calm
  have hs : (Session.add { s with labels := s.labels + 1 }
      (.label (LabelKind.forTest.name s.labels))).Ready ρ := h.of_eq rfl rfl rfl
  have hheld₁ :=
    ((respects_loopTest stable_precedes hs.steady.held (Session.sees_nil _)).2 hgtest).2.1
  have hheld₂ := hfbody.held (s := s₁.add _) hheld₁ hgbody
  have hc₂ := hflast.step (s := s₂.add _) hheld₂ hglast hc
  have hc₁ := hfbody.step (s := s₁.add _) hheld₁ hgbody hc₂
  obtain ⟨segT, hadds, hchanges, hholds⟩ :=
    delivers_loopTest (w := w) (l := l) hs.steady htest hnames hgtest hc₁
  have hs₁ : s₁.Ready ρ := hs.later hadds.steady hadds.toLater
  obtain ⟨hb, hrb⟩ := hbody (hs₁.add _) hgbody hc₂
  have hl := hlast (hb.ready.add _) hglast hc
  have hr₁ : s.Restores s₁ := hadds.toLater.restores.of_eq rfl rfl
  have hr₂ : s₁.Restores s₂ := hrb.of_eq rfl rfl
  obtain ⟨ub, hbcode, hbstraight, hbranged, hbrun⟩ := hb.tree
  obtain ⟨segL, hlcode, hlstraight, hlranged, hlrun⟩ := hl.segment
  refine ⟨hl.ready.of_eq rfl rfl rfl, (hr₁.trans hr₂).opens.trans ⟨hl.opens.scopes, hl.opens.spots⟩,
    .loop [] s.labels segT c ub segL (.done []), ?_,
    ⟨by simp [Straight], hadds.straight, hbstraight, hlstraight,
      by simp [CodeTree.Straight, Straight]⟩,
    ?_, fun σ a b ha hw hend => ?_⟩
  · simp only [Session.add, hlcode, hbcode, hadds.code, CodeTree.flatten, List.append_assoc,
      List.cons_append, List.nil_append]
    rfl
  · exact CodeTree.all_loop.mpr ⟨by simp, ranged_of_flow rfl, hadds.ranged, ranged_of_flow rfl,
      hbranged, ranged_of_flow rfl, hlranged, ranged_of_flow rfl, ranged_of_flow rfl,
      by simp [CodeTree.All, CodeTree.flatten]⟩
  · have hr : s.Restores s₂ := hr₁.trans hr₂
    refine runs_rounds hchanges hholds (fun σ a b ha hD => ?_) ha hw hend
    obtain ⟨c', hD, hD'⟩ := hD
    obtain ⟨υ, hυ, hc'⟩ := hbrun σ a c' (hr₁.shows_iff.mpr ha) hD
    exact ⟨υ, hυ, hr.shows_iff.mp (hl.back υ _ c' b hc' hD' (hlrun υ c' b hc' hD'))⟩

theorem forth_rounds {body last : Lowering Unit} (test : Option Expr) (hbody : Forth body)
    (hlast : Forth last) : Forth (rounds test last body) := by
  intro s v x hs hg
  unfold rounds at hg
  simp only [gives_bind, gives_nextLabel, gives_emit] at hg
  obtain ⟨_, _, ⟨rfl, rfl⟩, _, _, rfl, c, t, ht, _, _, rfl, _, u, hu, _, _, rfl, _, v, hv, _, _,
    rfl, rfl⟩ := hg
  have hlabelled : (Session.add { s with labels := s.labels + 1 }
      (.label (LabelKind.forTest.name s.labels))).planner.Held := hs
  obtain ⟨hst, ht, -⟩ :=
    (respects_loopTest stable_precedes hlabelled (Session.sees_nil _)).2 ht
  obtain ⟨htu, hu⟩ := hbody (s := t.add _) ht hu
  obtain ⟨huv, hv⟩ := hlast (s := u.add _) hu hv
  exact ⟨hst.1.trans (htu.trans huv), hv⟩

/-- **A loop** is its first clause and its rounds, in a scope of their own. -/
theorem confined_loop {first body last : Lowering Unit} {test : Option Expr}
    {D₀ : Progress → Progress → Prop} {inside : Env Nat}
    (hfirst : Compiles w l first r D₀) (hffirst : Forth first) (hinside : r ([] :: ρ) = some inside)
    (htest : test.all (Expr.scalar w) = true) (hnames : OrdinaryNames (Expr.mentionsOf? test))
    (hbody : Confined w l body inside D) (hfbody : Forth body)
    (hlast : ∀ ⦃s t : Session⦄ ⦃v : Unit⦄, s.Ready inside → Gives last s v t → t.planner.Calm →
      s.Performs w l D' t ρ') (hflast : Forth last) :
    Confined w l (within "for" (do first; rounds test last body)) ρ
      (Progress.Scoped fun a b => ∃ c, D₀ a c ∧
        While (fun a => ∃ n, a.test? w test = some n ∧ n ≠ 0) (fun a b => ∃ c, D a c ∧ D' c b) c b ∧
          b.test? w test = some 0) := by
  intro s u v h hg hc
  unfold Lowering.within at hg
  simp only [gives_bind, gives_discard, gives_enter] at hg
  obtain ⟨_, _, ⟨_, rfl, rfl⟩, _, t, ⟨_, m, hgfirst, hgrounds⟩, hleave⟩ := hg
  have hready := h.enter "for"
  have hfrounds := forth_rounds test hfbody hflast
  have hheld := hffirst.held hready.steady.held hgfirst
  have hct := forth_leave.step (hfrounds.held hheld hgrounds) hleave hc
  have hcm := hfrounds.step hheld hgrounds hct
  have hm := hfirst hready hinside hgfirst hcm
  obtain ⟨ht, hmt, ur, hrcode, hrstraight, hrranged, hrrun⟩ :=
    realizes_rounds (l := l) hm.ready htest hnames hbody hfbody hlast hflast hgrounds hct
  obtain ⟨uf, hfcode, hfstraight, hfranged, hfrun⟩ := hm.tree
  refine h.confines hm.opens hmt ht hleave (c := uf.append ur) ?_
    (CodeTree.straight_append.mpr ⟨hfstraight, hrstraight⟩)
    (CodeTree.all_append.mpr ⟨hfranged, hrranged⟩) fun σ a b ha hD => ?_
  · rw [hrcode, hfcode, CodeTree.flatten_append, List.append_assoc]
    rfl
  · obtain ⟨c, hac, hcb, hend⟩ := hD
    obtain ⟨υ, hυ, hc⟩ := hfrun σ a c ha hac
    obtain ⟨τ, hτ, hb⟩ := hrrun υ c b hc hcb hend
    exact ⟨τ, CodeTree.runs_append.mpr ⟨υ, hυ, hτ⟩, hb⟩

/-! ### Statements -/

theorem statement_loop (init : Option Statement) (test last : Option Expr) (body : List Statement) :
    statement (.loop init test last body) = within "for" (do
      firstClause init
      rounds test (last.elim (pure ()) effect) (within "loop" (statements body))) := by
  unfold statement
  cases last <;> simp only [Lowering.within, rounds, bind_assoc, pure_bind, Option.elim]

theorem performs_last {last : Option Expr} {texts : Bool}
    (hlast : last.all (fun e => e.performable w texts) = true)
    (hnames : OrdinaryNames (Expr.mentionsOf? last))
    (hrooms : last.elim (some ρ) (Expr.rooms? ρ) = some ρ') ⦃s t : Session⦄ ⦃v : Unit⦄
    (h : s.Ready ρ) (hg : Gives (last.elim (pure ()) effect) s v t) (hc : t.planner.Calm) :
    s.Performs w l (fun a b => a.last? w last = some b) t ρ' := by
  cases last with
  | some e => exact performs_effect h hlast hnames hrooms hg hc
  | none =>
    obtain ⟨-, rfl⟩ := gives_pure.mp hg
    obtain rfl := Option.some.inj hrooms
    exact (Session.Adds.refl h.steady).performs h fun σ a b ha hb => Option.some.inj hb ▸ ha

theorem forth_last (last : Option Expr) : Forth (last.elim (pure ()) effect) := by
  cases last with
  | some e => exact .of_keeps (keeps_effect stable_precedes).loosely
  | none => exact .of_keeps (respects_pure stable_precedes trivial (by simp)).loosely

mutual
theorem compiles_statement {texts : Bool} : ∀ s : Statement, s.plain w texts = true →
    OrdinaryNames s.mentions → Compiles w l (statement s) s.rooms? (s.Does w)
  | .declare kind x init, hs, hnames => by
    intro s t ρ ρ' v h hr hg hc
    obtain ⟨hx, hnames⟩ := ordinaryNames_cons.mp hnames
    unfold statement at hg
    rw [Statement.rooms?] at hr
    exact (leads_declare h (hx x rfl) hs hnames hr hg hc).realizes
  | .branch test yes no, hs, hnames => by
    intro s t ρ ρ' v h hr hg hc
    simp only [Statement.plain, Bool.and_eq_true] at hs
    obtain ⟨⟨htest, hyes⟩, hno⟩ := hs
    rw [Statement.mentions, ordinaryNames_append, ordinaryNames_append,
      ordinaryNames_inScope] at hnames
    obtain ⟨hntest, hnyes, hnno⟩ := hnames
    rw [Statement.rooms?] at hr
    obtain ⟨_, hryes, hr⟩ := Option.bind_eq_some_iff.mp hr
    obtain ⟨_, hrno, hr⟩ := Option.bind_eq_some_iff.mp hr
    obtain rfl := Option.some.inj hr
    unfold statement at hg
    have hcyes := (compiles_statements yes hyes hnyes).within (forth_statements yes)
      (Option.isSome_of_eq_some hryes) "if"
    have hcno := confined_otherwise no hno hnno (Option.isSome_of_eq_some hrno)
    rw [Statement.Does]
    exact (confined_branch hcyes hcno (forth_within yes "if")
      (.of_keeps (keeps_otherwise stable_precedes no)) htest hntest h hg hc).1
  | .loop init test last body, hs, hnames => by
    intro s t ρ ρ' v h hr hg hc
    simp only [Statement.plain, Bool.and_eq_true] at hs
    obtain ⟨⟨⟨hinit, htest⟩, hbody⟩, hlast⟩ := hs
    rw [Statement.mentions, ordinaryNames_inScope, ordinaryNames_append, ordinaryNames_append,
      ordinaryNames_append, ordinaryNames_inScope] at hnames
    obtain ⟨hninit, hntest, hnbody, hnlast⟩ := hnames
    rw [Statement.rooms?] at hr
    obtain ⟨inside, hrinit, hr⟩ := Option.bind_eq_some_iff.mp hr
    obtain ⟨_, hrbody, hr⟩ := Option.bind_eq_some_iff.mp hr
    obtain ⟨_, hrlast, hr⟩ := Option.bind_eq_some_iff.mp hr
    obtain rfl := Option.some.inj hr
    have hcbody := (compiles_statements body hbody hnbody).within (forth_statements body)
      (Option.isSome_of_eq_some hrbody) "loop"
    rw [statement_loop] at hg
    rw [Statement.Does]
    exact (confined_loop (compiles_firstClause init hinit hninit)
      (.of_keeps (keeps_firstClause stable_precedes init)) hrinit htest hntest hcbody
      (forth_within body "loop") (performs_last hlast hnlast hrlast) (forth_last last) h hg hc).1
  | .effect e, hs, hnames => by
    intro s t ρ ρ' v h hr hg hc
    unfold statement at hg
    rw [Statement.rooms?] at hr
    exact (performs_effect h hs hnames hr hg hc).toLeads.realizes
  | .function .., hs, _ | .ret _, hs, _ => by cases hs

theorem compiles_statements {texts : Bool} : ∀ ss : List Statement,
    Statement.plainAll w texts ss = true → OrdinaryNames (Statement.mentionsOf ss) →
    Compiles w l (statements ss) (Statement.roomsAll? ss) (Statement.DoesAll w ss)
  | [], _, _ => by
    unfold statements
    rw [Statement.roomsAll?, Statement.DoesAll]
    exact compiles_nothing
  | s :: rest, hs, hnames => by
    simp only [Statement.plainAll, Bool.and_eq_true] at hs
    rw [Statement.mentionsOf, ordinaryNames_append] at hnames
    unfold statements
    rw [Statement.roomsAll?, Statement.DoesAll]
    exact (compiles_statement s hs.1 hnames.1).bind (.of_keeps (keeps_statement stable_precedes s))
      (compiles_statements rest hs.2 hnames.2) (forth_statements rest)

theorem confined_otherwise {texts : Bool} : ∀ (o : Option (List Statement)) {ρ : Env Nat},
    Statement.plainElse w texts o = true → OrdinaryNames (Statement.mentionsOfElse o) →
    (Statement.roomsElse? o ρ).isSome = true →
    Confined w l (otherwise o) ρ (Statement.DoesElse w o)
  | none, _, _, _, _ => by
    intro s t v h hg _
    unfold otherwise at hg
    obtain ⟨rfl, rfl⟩ := gives_pure.mp hg
    rw [Statement.DoesElse]
    exact ⟨.refl h, .refl s⟩
  | some body, _, hs, hnames, hr => by
    rw [Statement.mentionsOfElse, ordinaryNames_inScope] at hnames
    rw [Statement.roomsElse?] at hr
    unfold otherwise
    rw [Statement.DoesElse]
    exact (compiles_statements body hs hnames).within (forth_statements body) hr "else"

theorem compiles_firstClause {texts : Bool} : ∀ o : Option Statement,
    Statement.plainInit w texts o = true → OrdinaryNames (Statement.mentionsOfInit o) →
    Compiles w l (firstClause o) (Statement.roomsInit? o) (Statement.DoesInit w o)
  | none, _, _ => by
    unfold firstClause
    rw [Statement.roomsInit?, Statement.DoesInit]
    exact compiles_nothing
  | some s, hs, hnames => by
    unfold firstClause
    rw [Statement.roomsInit?, Statement.DoesInit]
    exact compiles_statement s hs hnames
end

end TapeCompiler
