import TapeCompiler.Proofs.Lowering.Storing

/-! # Effects

Assignments, steps and printing are straight code in which no name is bound: what they do is seen in
the spots there were before (`Session.Performs`), so they may stand at the end of each round of a
loop. The one exception is an assignment to a name without a binding, which binds the name; there
the evaluation is stuck, and what is claimed of the code holds of no run. -/

namespace TapeCompiler

open Lowering

variable {w : CellWidth} {l : Library} {s t u : Session} {z : Spot} {σ τ : Store w} {v : Unit}
  {seg : List Instruction} {x : String} {n : Nat} {o : Operator} {vs : List Nat}
  {p : Planner} {ρ ρ' : Env Nat} {D : Progress → Progress → Prop}

/-- **Straight code for a program part** in which no name is bound: what is so behind the part is
seen from the spots before it too. -/
structure Session.Performs (w : CellWidth) (l : Library) (D : Progress → Progress → Prop)
    (s t : Session) (ρ : Env Nat) : Prop extends s.Leads w l D t ρ where
  back : ∀ (σ τ : Store w) a b, s.planner.Shows σ a → D a b → t.planner.Shows τ b →
    s.planner.Shows τ b

namespace Session

theorem Performs.of_eq (h : u.Performs w l D t ρ) (hp : u.planner = s.planner)
    (hc : u.program.instructions = s.program.instructions) : s.Performs w l D t ρ where
  toLeads := h.toLeads.of_eq hp hc
  back := hp ▸ h.back

theorem Restores.shows_iff (hst : s.Restores t) {a : Progress} :
    t.planner.Shows σ a ↔ s.planner.Shows σ a := by
  constructor
  · exact fun h => ⟨h.env.congr hst.scopes.symm (fun x hx => (hst.spots x hx).symm)
      fun _ _ _ _ _ => id, h.output⟩
  · exact fun h => ⟨h.env.congr hst.scopes hst.spots fun _ _ _ _ _ => id, h.output⟩

theorem Adds.performs (hadds : s.Adds w t seg) (h : s.Ready ρ)
    (hrun : ∀ (σ : Store w) a b, s.planner.Shows σ a → D a b →
      s.planner.Shows (runAll l seg σ) b) : s.Performs w l D t ρ where
  ready := h.later hadds.steady hadds.toLater
  opens := hadds.toLater.restores.opens
  segment := ⟨seg, hadds.code, hadds.straight, hadds.ranged, fun σ a b ha hb =>
    hadds.toLater.restores.shows_iff.mpr (hrun σ a b ha hb)⟩
  back _ _ _ _ _ _ := hadds.toLater.restores.shows_iff.mp

/-- **A name is assigned** by code that leaves its new value in its innermost spot. -/
theorem Adds.assigns (hadds : s.Adds w t seg) (h : s.Ready ρ)
    (hz : (s.planner.spots x).head? = some z) (hc : Changes w l s.planner z.Holds seg)
    (hrun : ∀ (σ : Store w) a b, s.planner.Shows σ a → D a b →
      ∃ vs, b = { a with env := a.env.assign x vs } ∧ z.Shows (runAll l seg σ) vs) :
    s.Performs w l D t ρ := by
  refine hadds.performs h fun σ a b ha hb => ?_
  obtain ⟨vs, rfl, hvs⟩ := hrun σ a b ha hb
  exact ⟨ha.env.assign rfl (fun _ _ => rfl) hz hvs fun y _ z' hz' vs =>
    hc.beside h.steady.held.sound hz hz', (hc.output σ).trans ha.output⟩

end Session

/-- **Another first number** in a spot. -/
theorem Spot.Shows.combine (h : z.Shows σ vs) (hpos : 0 < z.size) {r : Nat}
    (hfirst : (τ.cells z.address).val = r)
    (hrest : ∀ c, c ≠ z.address → z.Holds c → τ.cells c = σ.cells c) :
    z.Shows τ (r :: vs.tail) := by
  refine ⟨?_, fun k hk => ?_⟩
  · rw [List.length_cons, List.length_tail]
    have := h.1
    omega
  · cases k with
    | zero => exact hfirst
    | succ k =>
      rw [hrest _ (by omega) (Spot.holds_add hk), h.2 _ hk]
      cases vs <;> rfl

theorem Planner.Shows.value {a : Progress} (h : p.Shows σ a) (hx : Ordinary x)
    (hz : (p.spots x).head? = some z) (hv : a.env.value? x = some vs) : z.Shows σ vs := by
  have hrel := h.env.head hx
  rw [hz, hv] at hrel
  cases hrel with
  | some hshows => exact hshows

theorem Planner.Shows.reads {a : Progress} (h : p.Shows σ a) : p.Reads σ a.env.value? :=
  fun _ _ _ hx hv hz => h.value hx hz hv

/-- **An operator applied in place** puts its result into the first cell. -/
theorem Session.Adds.combines (hadds : s.Adds w t seg) (h : s.Ready ρ) (hx : Ordinary x)
    (hz : (s.planner.spots x).head? = some z)
    (hc : Changes w l s.planner (fun c => c = z.address) seg)
    (hrun : ∀ (σ : Store w) a b, s.planner.Shows σ a → D a b →
      ∃ k, a.combine? w x o k = some b ∧
        ∀ r, o.result? w.modulus (σ.cells z.address).val k = some r →
          ((runAll l seg σ).cells z.address).val = r) : s.Performs w l D t ρ := by
  have hpos := h.steady.held.sound.size_pos (List.mem_of_head? hz)
  refine hadds.assigns h hz (hc.mono fun c _ hcz => hcz ▸ Spot.holds_add (k := 0) hpos)
    fun σ a b ha hb => ?_
  obtain ⟨k, hk, hvalue⟩ := hrun σ a b ha hb
  obtain ⟨vs, hvs, hk⟩ := Option.bind_eq_some_iff.mp hk
  obtain ⟨r, hr, hk⟩ := Option.bind_eq_some_iff.mp hk
  have hshows := ha.value hx hz hvs
  rw [← hshows.head hpos] at hr
  refine ⟨_, (Option.some.inj hk).symm, hshows.combine hpos (hvalue r hr) fun c hne hin => ?_⟩
  exact hc.cells σ c ⟨x, z, List.mem_of_head? hz, hin⟩ hne

/-- **A change of a cell** is an operator with a known number. -/
theorem performs_change (change : Change) (h : s.Ready ρ) (hx : Ordinary x)
    (hz : (s.planner.spots x).head? = some z) {k : Int64}
    (hchange : ∀ c : w.Cell, c + w.literal change.delta = o.onCells c (w.literal k)) :
    s.Performs w l (fun a b => a.combine? w x o (w.literal k).val = some b)
      (s.add (.update z.address change)) ρ := by
  have hadds := (Session.Adds.refl (w := w) h.steady).add (i := .update z.address change) rfl
    (by simp [Instruction.Ranged])
  refine hadds.combines h hx hz (.of_silent trivial fun c hc _ => List.mem_singleton.mp hc)
    fun σ a b _ hb => ⟨_, hb, fun r hr => ?_⟩
  show ((σ.set z.address (σ.cells z.address + w.literal change.delta)).cells z.address).val = r
  rw [Store.cells_set_self, hchange]
  exact o.val_onCells _ _ hr

theorem add_literal_neg (c : w.Cell) (k : Int64) :
    c + w.literal (-k) = Operator.sub.onCells c (w.literal k) := by
  rw [← Int64.zero_sub, CellWidth.literal_sub, literal_zero, zero_sub, ← sub_eq_add_neg]
  rfl

theorem performs_update (h : s.Ready ρ) (hx : Ordinary x) {step : Step} {before : Bool}
    (hg : Gives (update step x) s v t) :
    s.Performs w l (fun a b => a.perform? w (.update step x before) = some b) t ρ := by
  have hone : (w.literal 1).val = 1 := by cases w <;> rfl
  unfold update at hg
  simp only [gives_bind, gives_liveKind?] at hg
  obtain ⟨_, _, ⟨-, rfl⟩, hg⟩ := hg
  split at hg
  · exact absurd hg gives_throw
  · exact absurd hg gives_throw
  · simp only [gives_bind, gives_emit] at hg
    obtain ⟨a, _, ha, rfl⟩ := hg
    obtain ⟨⟨z, hz, rfl⟩, rfl⟩ := h.steady.address ha
    cases step with
    | increment =>
      have hadd := performs_change (w := w) (l := l) (o := .add) (k := 1) .increment h hx
        hz fun _ => rfl
      rwa [hone] at hadd
    | decrement =>
      have hsub := performs_change (w := w) (l := l) (o := .sub) (k := 1) .decrement h hx
        hz fun c => add_literal_neg c 1
      rwa [hone] at hsub

theorem performs_operator (h : s.Ready ρ) (hx : Ordinary x)
    (hz : (s.planner.spots x).head? = some z) {e : Expr} (he : e.scalar w = true)
    (hnames : OrdinaryNames e.mentions)
    (hg : Gives (operator o (pure (.named x 1)) (operandOf e) x) s v t) (hc : t.planner.Calm) :
    s.Performs w l (fun a b => (e.number? w a.env.value?).bind (a.combine? w x o) = some b) t
      ρ := by
  obtain ⟨slotL, sL, slotR, sR, hl, hr, hplanner, hg⟩ := gives_operator hg
  obtain ⟨rfl, rfl⟩ := gives_pure.mp hl
  have hpos := h.steady.held.sound.size_pos (List.mem_of_head? hz)
  have hstorable := Expr.storable_of_scalar he true
  obtain ⟨segR, opR, hR, hRc, hRat, hRw, hRhas⟩ := delivers_of_lands (w := w) (l := l) hstorable
    hnames (lands hstorable hnames) h.steady hr (hplanner ▸ hc)
  have hat : (Slot.named x 1).At s (.cells z.address 1) := ⟨z, hz, Nat.one_pos, hpos, rfl⟩
  obtain ⟨hadds, hchanges, hcell⟩ := adds_binary (w := w) (l := l) h.steady hz (.refl h.steady) hat
    .nil hR hRat hRc (fun _ _ hv => nomatch hv) hg
  refine hadds.combines (o := o) h hx hz hchanges fun σ a b ha hb => ?_
  obtain ⟨k, hk, hb⟩ := Option.bind_eq_some_iff.mp hb
  refine ⟨k, hb, fun r hr => ?_⟩
  obtain ⟨ys, hys, rfl⟩ := Option.map_eq_some_iff.mp hk
  rw [hcell σ]
  refine o.val_onCells _ _ ?_
  rw [runAll_nil, (hRhas σ a.env.value? ys ha.reads hys).first]
  exact hr

theorem performs_store (h : s.Ready ρ) (hx : Ordinary x)
    (hz : (s.planner.spots x).head? = some z) {e : Expr} {texts : Bool}
    (he : e.storable w texts = true) (hnames : OrdinaryNames e.mentions)
    (hclaim : ρ.claim? x (e.room ρ.value?) (ρ.value? x) = some ρ') (hg : Gives (do
      let written ← sizeOf e
      let address ← ensureCapacity x written
      let size := ((← block? x).map Block.size).getD written
      modify fun s => { s with program := { s.program with
        bindings := s.program.bindings.modify x fun v =>
          { v with address := address, size := size } } }
      into e x
      clearTail x written) s v t) (hc : t.planner.Calm) :
    s.Performs w l (fun a b => a.assign? w x e = some b) t ρ' := by
  simp only [gives_bind, gives_block?, gives_modify] at hg
  obtain ⟨n, _, hsize, a, _, hroom, _, _, ⟨rfl, rfl⟩, _, _, rfl, _, u, hinto, hclear⟩ := hg
  obtain ⟨hn, rfl⟩ := h.steady.sizeOf he hsize
  have hpos := ((respects_sizeOf stable_precedes h.steady.held s.sees_nil).2 hsize).2.2.1
  have hbound : ρ.value? x = some z.size := by
    rw [← h.room?_eq hx, Session.room?, hz, Option.map_some]
  rw [hbound, Env.claim?] at hclaim
  split_ifs at hclaim with hle
  obtain rfl := Option.some.inj hclaim
  rw [← h.room_eq hnames, ← hn] at hle
  obtain ⟨-, rfl⟩ := h.fits hx hbound hle hroom
  -- only the symbol of the name is another one in the session that the value is stored in
  generalize hs₂ : Session.mk _ _ _ _ _ _ _ _ = s₂ at hinto
  obtain ⟨hplanner, hcode, hready⟩ : s₂.planner = s.planner ∧
      s₂.program.instructions = s.program.instructions ∧ s₂.Ready ρ := by
    subst hs₂
    exact ⟨rfl, rfl, h.of_eq rfl rfl rfl⟩
  have hz₂ : (s₂.planner.spots x).head? = some z := hplanner ▸ hz
  have hn₂ : n = e.room s₂.room? := hn.trans (by unfold Session.room?; rw [hplanner])
  obtain ⟨seg, hadds, hchanges, hshows⟩ := hready.steady.stores (l := l) hz₂ he hnames
    (Or.inr (hn₂ ▸ hle)) hpos (gives_bind.mpr ⟨_, u, hinto, hclear⟩) hc
  refine (hadds.assigns hready hz₂ hchanges fun σ a b ha hb => ?_).of_eq hplanner hcode
  obtain ⟨vs, hvs, hb⟩ := Option.bind_eq_some_iff.mp hb
  obtain ⟨_, -, hb⟩ := Option.bind_eq_some_iff.mp hb
  exact ⟨vs, (Option.some.inj hb).symm, hshows σ _ vs ha.reads hvs hn₂ hle⟩

theorem performs_compound (h : s.Ready ρ) (hx : Ordinary x)
    (hz : (s.planner.spots x).head? = some z) {e : Expr} (he : e.scalar w = true)
    (hnames : OrdinaryNames e.mentions) (hg : Gives (do
      let cell ← address x
      match o, e with
      | .add, .literal (.int n) => emit (.update cell (.addBy n))
      | .sub, .literal (.int n) => emit (.update cell (.subtractBy n))
      | _, _ => operator o (pure (.named x 1)) (operandVia e (into e)) x) s v t)
    (hc : t.planner.Calm) :
    s.Performs w l (fun a b => (e.number? w a.env.value?).bind (a.combine? w x o) = some b) t
      ρ := by
  rw [gives_bind] at hg
  obtain ⟨a, _, ha, hg⟩ := hg
  obtain ⟨rfl, rfl⟩ := h.steady.address_eq hz ha
  split at hg
  · next n =>
    obtain rfl := gives_emit.mp hg
    exact performs_change (.addBy n) h hx hz fun _ => rfl
  · next n =>
    obtain rfl := gives_emit.mp hg
    exact performs_change (.subtractBy n) h hx hz fun c => add_literal_neg c n
  · exact performs_operator h hx hz he hnames hg hc

/-- A name **has a kind** exactly if it has a spot. -/
theorem Session.Ready.isSome_kind (h : s.Ready ρ) (hx : Ordinary x) :
    ((s.planner.visible? x).bind fun b => s.kinds.lookup (x, b.scope)).isSome =
      (s.planner.spots x).head?.isSome := by
  have hkind := h.kinds x hx
  cases hv : s.planner.visible? x with
  | none => rw [h.steady.head?_spots, hv]; rfl
  | some b =>
    have hz : (s.planner.spots x).head? = some b.spot := by
      rw [h.steady.head?_spots, hv, Option.map_some]
    rw [hz]
    exact hkind _ (List.mem_of_head? hz)

/-- **An assignment to a name without a binding** binds it; the evaluation is stuck there. -/
theorem performs_unbound (h : s.Ready ρ) (hx : Ordinary x)
    (hz : (s.planner.spots x).head? = none) {e : Expr} {texts : Bool}
    (he : e.storable w texts = true) (hnames : OrdinaryNames e.mentions)
    (hclaim : ρ.claim? x (e.room ρ.value?) (ρ.value? x) = some ρ')
    (hg : Gives (declare .var x (some (e, into e))) s v t) (hc : t.planner.Calm) :
    s.Performs w l (fun a b => a.assign? w x e = some b) t ρ' := by
  have hvalue : ρ.value? x = none := by rw [← h.room?_eq hx, Session.room?, hz, Option.map_none]
  have hown : ρ.own? x = none := by
    cases hown : ρ.own? x with
    | none => rfl
    | some k => exact absurd ((Env.value?_of_own? hown).symm.trans hvalue) (by simp)
  have hleads : s.Leads w l (fun a b => a.declare? w x (some e) = some b) t ρ' :=
    leads_declare h hx he hnames (by rwa [hown, ← hvalue]) hg hc
  have hstuck : ∀ (σ : Store w) a b, s.planner.Shows σ a → ¬ a.assign? w x e = some b := by
    intro σ a b ha hb
    obtain ⟨_, -, hb⟩ := Option.bind_eq_some_iff.mp hb
    obtain ⟨vs, hvs, -⟩ := Option.bind_eq_some_iff.mp hb
    have hrel := ha.env.head hx
    rw [hz, hvs] at hrel
    cases hrel
  obtain ⟨seg, hcode, hstraight, hranged, -⟩ := hleads.segment
  exact ⟨⟨hleads.ready, hleads.opens, seg, hcode, hstraight, hranged, fun σ a b ha hb =>
    absurd hb (hstuck σ a b ha)⟩, fun σ _ a b ha hb => absurd hb (hstuck σ a b ha)⟩

theorem performs_assign (h : s.Ready ρ) (hx : Ordinary x) {op : AssignOp} {e : Expr} {texts : Bool}
    (he : (Expr.assign op x e).performable w texts = true) (hnames : OrdinaryNames e.mentions)
    (hrooms : (Expr.assign op x e).rooms? ρ = some ρ')
    (hg : Gives (assign op x e (into e)) s v t) (hc : t.planner.Calm) :
    s.Performs w l (fun a b => a.perform? w (.assign op x e) = some b) t ρ' := by
  have hspot := h.isSome_kind hx
  unfold assign at hg
  dsimp only at hg
  simp only [gives_bind, gives_liveKind?] at hg
  obtain ⟨_, _, ⟨hkind, rfl⟩, hg⟩ := hg
  rw [← hkind] at hspot
  split at hg
  · -- the name has no binding
    split at hg
    · simp at hg
    · next hop =>
      obtain rfl := not_not.mp hop
      simp only [gives_bind, gives_warn] at hg
      obtain ⟨_, u, hu, hg⟩ := hg
      have hz : (u.planner.spots x).head? = none := by
        rw [hu]
        exact Option.not_isSome_iff_eq_none.mp (hspot ▸ by simp)
      have hready : u.Ready ρ := h.of_eq (by rw [hu]) (by rw [hu]) (by rw [hu])
      exact (performs_unbound hready hx hz he hnames hrooms hg hc).of_eq (by rw [hu]) (by rw [hu])
  · exact absurd hg gives_throw
  · obtain ⟨z, hz⟩ := Option.isSome_iff_exists.mp hspot.symm
    unfold Expr.performable at he
    unfold Progress.perform?
    cases op with
    | assign => exact performs_store h hx hz (by simpa using he) hnames hrooms hg hc
    | _ =>
      obtain rfl := Option.some.inj hrooms
      exact performs_compound h hx hz (by simpa using he) hnames hg hc

/-- A piece that changes no cell that is taken **leaves everything as it is**. -/
theorem Changes.shows (hc : Changes w l p (fun _ => False) seg) {a : Progress}
    (ha : p.Shows σ a) : p.Shows (runAll l seg σ) a where
  env := ha.env.congr rfl (fun _ _ => rfl) fun x _ z hz _ hvs =>
    hvs.congr fun c hin => hc.cells σ c ⟨x, z, hz, hin⟩ id
  output := (hc.output σ).trans ha.output

theorem Planner.Shows.write {a : Progress} (ha : p.Shows σ a) (us : List w.Cell) :
    p.Shows (σ.write us) { a with output := a.output ++ us.map Fin.val } where
  env := ha.env.congr rfl (fun _ _ => rfl) fun _ _ _ _ _ hvs => hvs.congr fun _ _ => rfl
  output := congrArg (· ++ us.map Fin.val) ha.output

theorem performs_print (h : s.Ready ρ) {callee e : Expr} {texts : Bool}
    (hcallee : callee.qualifiedName? = some printCallee) (he : e.storable w texts = true)
    (hnames : OrdinaryNames e.mentions) (hg : Gives (call callee (slotsOf [e]) none) s v t)
    (hc : t.planner.Calm) : s.Performs w l (fun a b => a.print? w e = some b) t ρ := by
  unfold call at hg
  simp only [hcallee, slotsOf, if_true, gives_bind, gives_pure, gives_emit] at hg
  obtain ⟨_, _, ⟨slot, u, hslot, _, _, ⟨rfl, rfl⟩, rfl, rfl⟩, ops, _, hops, _, _, rfl, -, rfl⟩ := hg
  simp only [List.mapM_cons, List.mapM_nil, gives_bind, gives_pure] at hops
  obtain ⟨op, _, hop, _, _, ⟨rfl, rfl⟩, rfl, rfl⟩ := hops
  obtain rfl := gives_resolve hop
  obtain ⟨seg, op', hadds, hchanges, hat, hsuits, hhas⟩ := delivers_of_lands (w := w) (l := l) he
    hnames (lands he hnames) h.steady hslot hc
  obtain ⟨rfl, -⟩ := hat.resolve hadds.steady hop
  refine (hadds.add (i := .print [op']) rfl (by simp [Instruction.Ranged])).performs h
    fun σ a b ha hb => ?_
  obtain ⟨vs, hvs, hb⟩ := Option.bind_eq_some_iff.mp hb
  obtain rfl := Option.some.inj hb
  have hshown := (hhas σ a.env.value? vs ha.reads hvs).shown hsuits
  rw [runAll_append, runAll_cons, runAll_nil, ← hshown, Instruction.effect, Store.print,
    List.flatMap_singleton]
  exact (hchanges.shows ha).write _

theorem performs_effect (h : s.Ready ρ) : ∀ {e : Expr} {texts : Bool},
    e.performable w texts = true → OrdinaryNames e.mentions → e.rooms? ρ = some ρ' →
    Gives (effect e) s v t → t.planner.Calm →
    s.Performs w l (fun a b => a.perform? w e = some b) t ρ'
  | .assign op x e, _, he, hnames, hrooms, hg, hc => by
    obtain ⟨hx, hnames⟩ := ordinaryNames_cons.mp hnames
    exact performs_assign h (hx x (by split_ifs <;> rfl)) he hnames hrooms hg hc
  | .update step x before, _, _, hnames, hrooms, hg, _ => by
    obtain rfl := Option.some.inj hrooms
    exact performs_update h (hnames (.step x) (by simp [Expr.mentions]) x rfl) hg
  | .call callee [e], _, he, hnames, hrooms, hg, hc => by
    obtain rfl := Option.some.inj hrooms
    simp only [Expr.performable, Bool.and_eq_true, decide_eq_true_eq] at he
    rw [Expr.mentions, if_pos (by rw [he.1]; rfl)] at hnames
    unfold Progress.perform?
    simp only [he.1, if_true]
    exact performs_print h he.1 he.2 (by simpa [Expr.mentionsOf] using hnames) hg hc
  | .call _ [], _, he, _, _, _, _ | .call _ (_ :: _ :: _), _, he, _, _, _, _
  | .literal _, _, he, _, _, _, _ | .name _, _, he, _, _, _, _ | .binary .., _, he, _, _, _, _
  | .logical .., _, he, _, _, _, _ | .member .., _, he, _, _, _, _
  | .array _, _, he, _, _, _, _ => by cases he

end TapeCompiler
