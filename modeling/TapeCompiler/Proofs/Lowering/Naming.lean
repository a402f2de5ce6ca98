import TapeCompiler.Proofs.Lowering.Following

/-! # Lowering follows the scope rule

One part of lowering after the other, up to whole programs (`follows_statements`): each does with
names what the mentions of its part say, in their order. A request for a block binds its name in the
innermost scope, and the symbol table is told of it at once; until then the planner is ahead of the
table (`Session.allocated`). -/

namespace TapeCompiler

/-! ### Blocks and their symbols -/

theorem Program.bindings_relocate (p : Program) (moves : List Relocation) :
    (p.relocate moves).bindings =
      p.bindings.mapValues (VariableInfo.mapAddress (TapeCompiler.relocate moves)) := by
  unfold Program.relocate
  split_ifs with hm
  · rw [List.isEmpty_iff.mp hm]
    exact (List.map_id p.bindings).symm
  · rfl

namespace Session

open Lowering

variable {s u : Session} {o o' : Tagged} {t x : String} {sc : Scope} {k : DeclKind} {size a : Nat}

/-- **A request for a block** binds the name for the planner; the symbols follow the moves. -/
theorem allocated (howns : s.planner.Owns ((t, sc) :: o)) (htracks : s.Tracks o') (k : DeclKind)
    (hg : Gives (allocate x size) s a u) : u.planner.Owns ((t, (x, k) :: sc) :: o) ∧ u.Tracks o' ∧
      (t, a) ∈ u.planner.owned x := by
  obtain ⟨p, hp, rfl⟩ := gives_allocate.mp hg
  obtain ⟨howns, ha, hmaps⟩ := howns.allocate k hp
  exact ⟨howns, htracks.mapped rfl (Program.bindings_relocate _ _) hmaps, ha⟩

theorem Agrees.room (h : s.Agrees o) (hv : s.Sees x) (hg : Gives (ensureCapacity x size) s a u) :
    u.Agrees o ∧ ∃ b, u.planner.visible? x = some b ∧ a = b.address := by
  rcases gives_ensureCapacity hg with ⟨hn, -⟩ | ⟨b, hb, -, ha, rfl⟩ | ⟨moved, p, b, hp, rfl, hb, ha⟩
  · obtain ⟨b, hb⟩ := hv
    rw [hb] at hn
    cases hn
  · exact ⟨⟨h.owns, h.tracks.congr rfl rfl fun _ => rfl⟩, b, hb, ha⟩
  · obtain ⟨howns, hmaps⟩ := h.owns.resize hp
    exact ⟨⟨howns, h.tracks.mapped rfl rfl hmaps⟩, b, hb, ha⟩

/-- **A name has a block** exactly if an open scope binds it. -/
theorem Agrees.sees (h : s.Agrees o) (hx : Ordinary x) :
    s.Sees x ↔ (o.scopes.kind? x).isSome := by
  rw [Option.isSome_iff_ne_none, ne_eq, ← h.owns.visible?_eq_none hx]
  exact Option.ne_none_iff_exists'.symm

/-- **A temporary** is no name of the program. -/
theorem Agrees.temporary {tmp : String} (h : s.Agrees o) (hg : Gives (temporary size) s tmp u) :
    u.Agrees o := by
  obtain ⟨rfl, n, hg⟩ := gives_temporary.mp hg
  obtain ⟨sc, rest, rfl⟩ := h.owns.exists_cons
  let named : Session := { s with temporaries := s.temporaries + 1 }
  have hnamed : named.Tracks ((s.planner.scope, sc) :: rest) :=
    h.tracks.congr rfl rfl fun _ => rfl
  obtain ⟨howns, htracks, -⟩ := allocated (s := named) h.owns hnamed .block hg
  exact ⟨howns.forget fun hx => hx s.temporaries rfl, htracks⟩

/-- **A name is a constant of the innermost scope** if its block is the scope's and its kind says
so. -/
theorem Agrees.own? (h : s.Agrees o) (hx : Ordinary x) :
    o.scopes.own? x = some .const ↔
      (s.planner.visible? x).any (fun b => b.scope = s.planner.scope) = true ∧
        ((s.planner.visible? x).bind fun b => s.kinds.lookup (x, b.scope)) = some .const := by
  obtain ⟨sc, rest, rfl⟩ := h.owns.exists_cons
  rw [h.liveKind? hx, h.owns.any_visible hx]
  show sc.lookup x = some .const ↔ _
  rw [Tagged.scopes_cons, Scopes.kind?_cons]
  cases sc.lookup x <;> simp

end Session

namespace Lowering

variable {s t u : Session} {o : Tagged} {x target : String} {k : DeclKind} {size a : Nat}
  {known : List String} {ms ms' : List Mention} {e : Expr} {fill : String → Lowering Unit}

theorem discard_bind {α β : Type} (m : Lowering α) (f : Unit → Lowering β) :
    discard m >>= f = m >>= fun _ => f () := bind_map_left ..

/-! ### Reading and stepping -/

theorem follows_readVariable : Follows known (readVariable x) [.read x] := fun hord s o hag _ => by
  have hx : Ordinary x := hord _ List.mem_cons_self x rfl
  unfold readVariable
  refine .step (gives_block?.mpr ⟨rfl, rfl⟩) ?_
  cases hv : s.planner.visible? x with
  | none =>
    refine .fault ?_
    rw [Scopes.run_cons, Scopes.mention, (hag.owns.visible?_eq_none hx).mp hv]
    rfl
  | some b =>
    have hbound := (hag.sees hx).mp ⟨b, hv⟩
    refine .mention_same (by rw [Scopes.mention, if_pos hbound]) ?_
    refine .step (a := ()) (gives_modify.mpr rfl) (.pure ⟨hag.owns.addReference x, ?_⟩)
    exact hag.tracks.congr rfl rfl fun y => hag.owns.held.owned_addReference x y

theorem follows_copyVariable {source : String} (hs : source ∈ known) (ht : target ∈ known) :
    Follows known (copyVariable source target) [] := fun hord s o hag hk => by
  obtain ⟨b, hb⟩ := hk source hs
  obtain ⟨c, hc⟩ := hk target ht
  unfold copyVariable
  refine .step (gives_block?.mpr ⟨rfl, rfl⟩) (.step (gives_block?.mpr ⟨rfl, rfl⟩) ?_)
  rw [hb, hc]
  exact Follows.quiet (quiet_forM (fun _ => quiet_emit) _) hord hag hk

theorem follows_update {step : Step} : Follows known (update step x) [.step x] :=
  fun hord s o hag hk => by
  have hx : Ordinary x := hord _ List.mem_cons_self x rfl
  unfold update
  refine .step (gives_liveKind?.mpr ⟨rfl, rfl⟩) ?_
  rw [hag.liveKind? hx]
  split
  · next hkind => exact .fault (by simp [Scopes.mention, hkind, Except.bind])
  · next hkind => exact .fault (by simp [Scopes.mention, hkind, Except.bind])
  · next k hk' hkind =>
    refine .mention_same (Scopes.mention_of_kind hkind hk').2 ?_
    exact Follows.quiet (quiet_address.bind fun _ => quiet_emit) (by simp [OrdinaryNames]) hag hk

/-! ### Declaring -/

theorem followsFrom_declared {tag : String} {sc : Scope} {m : Lowering Unit}
    (howns : u.planner.Owns ((tag, (x, k) :: sc) :: o)) (htracks : u.Tracks ((tag, sc) :: o))
    (ha : (tag, a) ∈ u.planner.owned x) (hx : Ordinary x) (hord : OrdinaryNames ms)
    (hm : Follows [x] m ms) :
    FollowsFrom u ((tag, (x, k) :: sc) :: o) (do
      setKind x tag k
      Lowering.bind x ⟨a, size, k⟩
      m) ms := by
  refine .step (a := ()) (gives_setKind.mpr rfl) (.step (a := ()) (gives_modify.mpr rfl) ?_)
  have hsees : u.Sees x := Option.ne_none_iff_exists'.mp fun hn => by
    rw [howns.held.sound.indexed.owned_eq_nil.mpr hn] at ha
    cases ha
  have hfresh := (List.nodup_cons.mp howns.nodup).1
  refine hm hord ⟨howns, ?_⟩ fun n hn => List.mem_singleton.mp hn ▸ hsees
  exact htracks.declared hx hfresh ha rfl rfl rfl

/-- Behind a request for room, the planner has **bound the name** in the innermost scope. -/
theorem followsFrom_room {tag : String} {sc : Scope} {o' : Tagged} {c : Prop} [Decidable c]
    {K : Nat → Lowering Unit} (hag : s.Agrees ((tag, sc) :: o)) (hx : Ordinary x)
    (hc : c ↔ (sc.lookup x).isSome)
    (hK : ∀ a t, t.planner.Owns ((tag, (x, k) :: sc) :: o) → t.Tracks ((tag, sc) :: o) →
      (tag, a) ∈ t.planner.owned x → FollowsFrom t o' (K a) ms) :
    FollowsFrom s o' (if c then ensureCapacity x size >>= K else allocate x size >>= K) ms := by
  split_ifs with h
  · refine .request foreign_ensureCapacity fun a t hg => ?_
    have hsc := hc.mp h
    obtain ⟨b, hb, -⟩ := (hag.owns.owned_scope hx).mpr hsc
    obtain ⟨hag', b', hb', rfl⟩ := hag.room ⟨b, hb⟩ hg
    obtain ⟨b'', hb'', hscope⟩ := (hag'.owns.owned_scope hx).mpr hsc
    obtain rfl := Option.some.inj (hb'.symm.trans hb'')
    have hmem := hag'.owns.held.sound.indexed.mem_owned hb'
    rw [hscope, hag'.owns.scope] at hmem
    exact hK _ t (hag'.owns.rebind (fun _ => hsc) k) hag'.tracks hmem
  · refine .request foreign_allocate fun a t hg => ?_
    obtain ⟨howns, htracks, hmem⟩ := Session.allocated hag.owns hag.tracks k hg
    exact hK a t howns htracks hmem

theorem follows_declare {init : Option (Expr × (String → Lowering Unit))}
    (hinit : ∀ p ∈ init, ∀ n, Follows [n] (p.2 n) ms) (hnone : init = none → ms = []) :
    Follows known (declare k x init) (.declare k x :: ms) := fun hord s o hag _ => by
  obtain ⟨hx, hord⟩ := ordinaryNames_cons.mp hord
  replace hx : Ordinary x := hx x rfl
  have hconst := hag.own? hx
  obtain ⟨sc, rest, rfl⟩ := hag.owns.exists_cons
  unfold declare
  dsimp only
  refine .step (gives_scope.mpr ⟨rfl, rfl⟩) (.step (gives_block?.mpr ⟨rfl, rfl⟩)
    (.step (gives_liveKind?.mpr ⟨rfl, rfl⟩) ?_))
  refine .guard (fun hc => ?_) fun hc => ?_
  · rw [Scopes.run_cons, Scopes.mention, if_pos (hconst.mpr (by simpa using hc))]
    rfl
  -- what is done once there is room
  have hbound : ∀ {t : Session} {a first : Nat} {m : Lowering Unit},
      t.planner.Owns ((s.planner.scope, (x, k) :: sc) :: rest) →
      t.Tracks ((s.planner.scope, sc) :: rest) → (s.planner.scope, a) ∈ t.planner.owned x →
      Follows [x] m ms →
      FollowsFrom t ((s.planner.scope, (x, k) :: sc) :: rest) (do
        let found ← block? x
        setKind x s.planner.scope k
        Lowering.bind x ⟨a, (found.map Block.size).getD first, k⟩
        m
        clearTail x first) ms := fun howns htracks ha hm =>
    .step (gives_block?.mpr ⟨rfl, rfl⟩) (followsFrom_declared howns htracks ha hx hord
      (hm.bind_quiet fun _ => quiet_clearTail))
  have hroom := hag.owns.any_visible hx
  have hmention : Scopes.mention (Tagged.scopes ((s.planner.scope, sc) :: rest)) (.declare k x) =
      .ok (Tagged.scopes ((s.planner.scope, (x, k) :: sc) :: rest)) := by
    rw [Scopes.mention, if_neg fun h => hc (by simpa using hconst.mp h)]
    rfl
  refine .mention hmention rfl ?_
  cases init with
  | none =>
    rw [pure_bind]
    refine followsFrom_room hag hx hroom fun a t howns htracks ha => hbound howns htracks ha ?_
    rw [hnone rfl]
    exact .quiet quiet_emit
  | some p =>
    refine .request (quiet_sizeOf s).1 fun size t hg => ?_
    have hlike := (quiet_sizeOf s).2 size t hg
    exact followsFrom_room (hlike.agrees hag) hx hroom fun a t howns htracks ha =>
      hbound howns htracks ha (hinit p rfl x)

/-! ### Operators, assignments and calls -/

theorem follows_temporary {α : Type} {K : String → Lowering α}
    (hK : ∀ tmp, Follows [tmp] (K tmp) ms) : Follows known (temporary size >>= K) ms :=
  fun hord s o hag hk => by
  refine .request foreign_temporary fun tmp t hg => ?_
  have hsees := ((respects_temporary stable_true hag.owns.held hk).2 hg).2.2.2
  exact hK tmp hord (hag.temporary hg) hsees

theorem follows_operandVia (hfill : ∀ n, Follows [n] (fill n) e.mentions) :
    Follows known (operandVia e fill) e.mentions := by
  unfold operandVia
  split
  · exact Follows.quiet quiet_literalValue.map
  · exact follows_readVariable.map
  · exact Follows.quiet quiet_memberValue.map
  · exact .quiet_bind quiet_sizeOf fun len => follows_temporary fun tmp =>
      (hfill tmp).bind_quiet fun _ => quiet_pure

theorem follows_operator {o : Operator} {left right : Lowering Slot} (hl : Follows known left ms)
    (hr : Follows [] right ms') : Follows known (operator o left right target) (ms ++ ms') := by
  unfold operator
  refine hl.bind fun l => hr.bind_quiet fun r => ?_
  exact quiet_resolve.bind fun _ => quiet_resolve.bind fun _ => quiet_address.bind fun _ =>
    quiet_emit

/-- **A name that has a block is assigned**: its block gets the room, its symbol the address, and
then the value is lowered. -/
theorem follows_store {value : Expr} (hx : Ordinary x)
    (hfill : Follows [x] (fill x) value.mentions) :
    Follows [x] (do
      let written ← sizeOf value
      let address ← ensureCapacity x written
      let size := ((← block? x).map Block.size).getD written
      modify fun s => { s with program := { s.program with
        bindings := s.program.bindings.modify x fun v =>
          { v with address := address, size := size } } }
      fill x
      clearTail x written) value.mentions := by
  refine .quiet_bind quiet_sizeOf fun written hord s o hag hk => ?_
  refine .request foreign_ensureCapacity fun a t hg => ?_
  obtain ⟨hag', b, hb, rfl⟩ := hag.room (hk x (by simp)) hg
  refine .step (gives_block?.mpr ⟨rfl, rfl⟩) (.step (a := ()) (gives_modify.mpr rfl) ?_)
  refine hfill.bind_quiet (fun _ => quiet_clearTail) hord ⟨hag'.owns, ?_⟩ ?_
  · refine hag'.tracks.assigned (fun tag htag => ?_) rfl rfl rfl
    have hscope := hag'.owns.scope_of_visible hx
    rw [hb, htag] at hscope
    obtain rfl := Option.some.inj hscope
    exact hag'.owns.held.sound.indexed.mem_owned hb
  · intro n hn
    obtain rfl := List.mem_singleton.mp hn
    exact ⟨b, hb⟩

/-- An assignment **asks for the kind** of the name before anything else. -/
theorem follows_assign {op : AssignOp} {value : Expr}
    (hfill : ∀ n, Follows [n] (fill n) value.mentions) :
    Follows known (assign op x value fill)
      ((if op = .assign then .assign x else .step x) :: value.mentions) :=
  fun hord s o hag hk => by
  obtain ⟨hx, hord'⟩ := ordinaryNames_cons.mp hord
  replace hx : Ordinary x := hx x (by split_ifs <;> rfl)
  unfold assign
  dsimp only
  refine .step (gives_liveKind?.mpr ⟨rfl, rfl⟩) ?_
  rw [hag.liveKind? hx]
  split
  · next hkind =>
    refine .guard (fun hop => ?_) fun hop => ?_
    · rw [if_neg hop]
      simp [Scopes.mention, hkind, Except.bind]
    · rw [if_pos (not_not.mp hop)]
      have hdeclare : Follows known (declare .var x (some (value, fill)))
          (.declare .var x :: value.mentions) :=
        follows_declare (fun p hp n => by cases hp; exact hfill n) (by simp)
      refine (Follows.quiet_bind quiet_warn (fun _ => hdeclare) ?_ hag hk).congr ?_
      · exact ordinaryNames_cons.mpr ⟨fun y hy => by cases hy; exact hx, hord'⟩
      · rw [Scopes.run_cons, Scopes.run_cons, Scopes.mention_assign_of_none hkind]
  · next hkind => exact .fault (by split_ifs <;> simp [Scopes.mention, hkind, Except.bind])
  · next k hk' hkind =>
    obtain ⟨hassign, hstep⟩ := Scopes.mention_of_kind hkind hk'
    refine .mention_same (by split_ifs <;> assumption) ?_
    split
    · have hsees : s.Sees x := (hag.sees hx).mpr (by rw [hkind]; rfl)
      exact follows_store hx (hfill x) hord' hag (by simpa using hsees)
    · refine Follows.quiet_bind quiet_address (fun cell => ?_) hord' hag hk
      split
      · exact Follows.quiet quiet_emit
      · exact Follows.quiet quiet_emit
      · exact follows_operator (Follows.quiet quiet_pure) (follows_operandVia hfill)

/-- The value of an assignment is copied from the name, **which is bound now**. -/
theorem follows_assigned {op : AssignOp} {value : Expr}
    (hfill : ∀ n, Follows [n] (fill n) value.mentions) (hfills : Fills (fun _ _ => True) fill) :
    Follows [target] (do
      assign op x value fill
      copyVariable x target) ((if op = .assign then .assign x else .step x) :: value.mentions) :=
  fun hord s o hag hk => by
  have hx : Ordinary x := (ordinaryNames_cons.mp hord).1 x (by split_ifs <;> rfl)
  have hkeep : Keeps (Straightly fun _ _ => True) [target] (assign op x value fill) :=
    keeps_assign stable_true hfills
  refine (follows_assign hfill hord hag hk).behind fun _ t o' hg hag' htags hrun => ?_
  have htarget : t.Sees target := ((hkeep hag.owns.held hk).2 hg).1.2 target (hk target (by simp))
  have hsees : t.Sees x := by
    obtain ⟨σ, hmention, hrun⟩ := Scopes.run_cons_eq_ok.mp hrun
    have hne : o.scopes ≠ [] := fun h => hag.ne_nil (List.map_eq_nil_iff.mp h)
    have hbound : (σ.kind? x).isSome :=
      Scopes.isSome_kind?_assigned hne (by split_ifs <;> simp) hmention
    exact (hag'.sees hx).mpr (Scopes.isSome_kind?_run value.straight_mentions hbound hrun)
  have hcopy : Follows [x, target] (copyVariable x target) [] :=
    follows_copyVariable (by simp) (by simp)
  exact hcopy (by simp [OrdinaryNames]) hag' (by simp [hsees, htarget])

/-- The value of a step is copied **before or behind** it. -/
theorem follows_updated {step : Step} {before : Bool} :
    Follows [target] (do
      discard (readVariable x)
      if before then
        update step x
        copyVariable x target
      else
        copyVariable x target
        update step x) [.step x] := by
  have hread : Respects (Straightly fun _ _ => True) [target] (readVariable x) (0 < ·)
      fun _ => [x] := respects_readVariable stable_true
  have hcopy : Follows [x, target] (copyVariable x target) [] :=
    follows_copyVariable (by simp) (by simp)
  have hboth : Follows [target] (do
      discard (readVariable x)
      if before then
        update step x
        copyVariable x target
      else
        copyVariable x target
        update step x) ([.read x] ++ [.step x]) := by
    rw [discard_bind]
    refine follows_readVariable.on hread fun _ => ?_
    split_ifs
    · exact follows_update.on (keeps_update stable_true) fun _ => hcopy
    · exact hcopy.bind fun _ => follows_update
  refine hboth.congr (fun h => ?_) fun σ => (Scopes.run_read_step x σ).symm
  exact ordinaryNames_cons.mpr ⟨h (.step x) List.mem_cons_self, h⟩

theorem follows_call {callee : Expr} {arguments : Lowering (List Slot)} {into : Option String}
    (ha : Follows known arguments ms) : Follows known (call callee arguments into)
      (if callee.qualifiedName?.isSome then ms else []) := by
  unfold call
  cases callee.qualifiedName? with
  | none => exact Follows.quiet quiet_warn
  | some called =>
    refine ha.bind_quiet fun slots => ?_
    refine (quiet_mapM (fun _ => quiet_resolve) slots).bind fun args => ?_
    split_ifs
    · refine quiet_emit.bind fun _ => ?_
      cases into with
      | none => exact quiet_pure
      | some t => exact quiet_address.bind fun _ => quiet_emit
    · have hcell : Quiet (into.mapM address) := by
        cases into with
        | none => exact quiet_pure
        | some t => exact quiet_address.map
      refine hcell.bind fun cell => quiet_receiver?.bind fun r => ?_
      cases r with
      | none => exact quiet_emit
      | some r => exact quiet_address.bind fun _ => quiet_emit

/-! ### Expressions -/

mutual
/-- **Expressions** into the block of a name that has one. -/
theorem follows_into : ∀ (e : Expr) (target : String), Follows [target] (into e target) e.mentions
  | .literal lit, target => by
    unfold into Expr.mentions
    exact Follows.quiet (quiet_literalValue.bind fun _ => quiet_address.bind fun _ => quiet_emit)
  | .name x, target => by
    unfold into Expr.mentions
    rw [discard_bind]
    exact follows_readVariable.on (respects_readVariable stable_true) fun _ =>
      follows_copyVariable (by simp) (by simp)
  | .binary o l r, target => by
    unfold into Expr.mentions
    exact follows_operator (follows_operandVia (follows_into l))
      (follows_operandVia (follows_into r))
  | .logical o l r, target => by
    unfold into Expr.mentions
    exact follows_operator (follows_operandVia (follows_into l))
      (follows_operandVia (follows_into r))
  | .array es, target => by
    unfold into Expr.mentions
    exact (follows_slotsOf es _).bind_quiet fun slots =>
      (quiet_mapM (fun _ => quiet_resolve) slots).bind fun _ => quiet_address.bind fun _ =>
        quiet_emit
  | .call callee args, target => by
    unfold into Expr.mentions
    exact follows_call (follows_slotsOf args _)
  | .member object property, target => by
    unfold into Expr.mentions
    exact Follows.quiet (quiet_memberValue.bind fun _ => quiet_address.bind fun _ => quiet_emit)
  | .assign op x value, target => by
    unfold into Expr.mentions
    exact follows_assigned (follows_into value) (fills_into stable_true value)
  | .update step x before, target => by
    unfold into Expr.mentions
    exact follows_updated

theorem follows_slotsOf : ∀ (es : List Expr) (known : List String),
    Follows known (slotsOf es) (Expr.mentionsOf es)
  | [], known => by
    unfold slotsOf Expr.mentionsOf
    exact Follows.quiet quiet_pure
  | e :: es, known => by
    unfold slotsOf Expr.mentionsOf
    refine (follows_operandVia (follows_into e)).bind fun slot => ?_
    exact (follows_slotsOf es []).bind_quiet fun _ => quiet_pure
end

theorem follows_operandOf : Follows known (operandOf e) e.mentions :=
  follows_operandVia (follows_into e)

theorem follows_effect : Follows known (effect e) e.mentions := by
  unfold effect
  split
  · unfold Expr.mentions
    exact follows_call (follows_slotsOf _ _)
  · unfold Expr.mentions
    exact follows_assign (follows_into _)
  · unfold Expr.mentions
    exact follows_update
  · rw [show discard (operandOf e) = (fun _ => ()) <$> operandOf e from rfl]
    exact follows_operandOf.map

theorem follows_loopTest {test : Option Expr} :
    Follows known (loopTest test) (Expr.mentionsOf? test) := by
  unfold loopTest
  refine follows_temporary fun flag => ?_
  have hcell : Quiet (do return Operand.cell (← address flag)) :=
    quiet_address.bind fun _ => quiet_pure
  cases test with
  | some e => exact (follows_into e flag).bind_quiet fun _ => hcell
  | none => exact Follows.quiet (quiet_address.bind fun _ => quiet_emit.bind fun _ => hcell)

/-! ### Scopes -/

theorem gives_left {v : Unit} : Gives leave s v t ↔ t = s.left := gives_modify

theorem foreign_leave : Foreign leave s := foreign_of_gives (a := ()) (gives_left.mpr rfl)

/-- **A scope around some lowering** is one around its mentions. -/
theorem FollowsFrom.scoped {scope : String} {m : Lowering Unit} (ho : o ≠ [])
    (hm : FollowsFrom (s.withPlanner (s.planner.enter scope).2)
      (((s.planner.enter scope).1, []) :: o) m ms) :
    FollowsFrom s o (do discard (enter scope); m; leave) (Mention.inScope ms) := by
  have henter : Gives (enter scope) s _ (s.withPlanner (s.planner.enter scope).2) :=
    gives_enter.mpr ⟨rfl, rfl⟩
  have hrun : ∀ σ, Scopes.run (Mention.inScope ms) σ =
      (Scopes.run ms ([] :: σ)).bind (Scopes.run [.leave]) := fun σ => Scopes.run_append ms _ _
  rw [discard_bind]
  constructor
  · intro v u hu
    obtain ⟨tag, t, hg, hu⟩ := gives_bind.mp hu
    obtain ⟨rfl, rfl⟩ := gives_enter.mp hg
    obtain ⟨v', w, hg, hu⟩ := gives_bind.mp hu
    obtain rfl := gives_left.mp hu
    obtain ⟨o', htags, hag, hok⟩ := hm.gives v' w hg
    obtain ⟨sc, rest, rfl⟩ : ∃ sc, ∃ rest : Tagged,
        o' = ((s.planner.enter scope).1, sc) :: rest := by
      cases o' with
      | nil => cases htags
      | cons p rest => exact ⟨p.2, rest, by rw [← (List.cons.inj htags).1]⟩
    have htags : rest.tags = o.tags := (List.cons.inj htags).2
    have hrest : rest ≠ [] := by
      rintro rfl
      exact ho (List.map_eq_nil_iff.mp htags.symm)
    refine ⟨rest, htags, Session.agrees_left hag.owns hag.tracks hrest, ?_⟩
    rw [hrun]
    exact congrArg (Except.bind · (Scopes.run [.leave])) hok
  · intro e u hu
    rw [hrun]
    rcases fails_bind hu with he | ⟨tag, t, hg, hu⟩
    · exact Or.inr (foreign_of_gives henter e u he)
    · obtain ⟨rfl, rfl⟩ := gives_enter.mp hg
      rcases fails_bind hu with he | ⟨v, w, -, he⟩
      · refine (hm.fails e u he).imp_left fun h => ?_
        exact congrArg (Except.bind · (Scopes.run [.leave])) h
      · exact Or.inr (foreign_leave e u he)

theorem follows_within (scope : String) {m : Lowering Unit} (hm : Follows [] m ms) :
    Follows [] (within scope m) (Mention.inScope ms) := fun hord s o hag _ => by
  have hord' : OrdinaryNames ms :=
    (ordinaryNames_append.mp (ordinaryNames_cons.mp hord).2).1
  refine .scoped hag.ne_nil (hm hord' ⟨hag.owns.enter scope, ?_⟩ (by simp))
  exact (hag.tracks.enter _).congr rfl rfl fun _ => rfl

/-! ### Functions -/

/-- **Parameters are bound in the scope of their function**; the symbols know nothing of them. -/
theorem parameters_bound {function tag : String} (params : List String) {sc : Scope}
    (howns : s.planner.Owns ((tag, sc) :: o)) (htracks : s.Tracks ((tag, []) :: o)) :
    Foreign (parameters function tag params) s ∧
      ∀ v u, Gives (parameters function tag params) s v u →
        ∃ sc', u.planner.Owns ((tag, sc') :: o) ∧ u.Tracks ((tag, []) :: o) := by
  induction params generalizing s sc with
  | nil =>
    refine ⟨foreign_of_gives (gives_pure.mpr ⟨rfl, rfl⟩), fun v u hg => ?_⟩
    obtain ⟨-, rfl⟩ := gives_pure.mp hg
    exact ⟨sc, howns, htracks⟩
  | cons param rest ih =>
    -- the session behind the first parameter
    have hfirst : ∀ {a t t₁ t₂}, Gives (allocate param 1) s a t →
        t₁ = { t with kinds := ((param, tag), .block) :: t.kinds } → t₁.Alike t₂ →
        t₂.planner.Owns ((tag, (param, .block) :: sc) :: o) ∧ t₂.Tracks ((tag, []) :: o) := by
      rintro a t _ t₂ hg rfl hlike
      obtain ⟨howns, htracks, -⟩ := Session.allocated howns htracks .block hg
      have hfresh := (List.nodup_cons.mp howns.nodup).1
      exact ⟨hlike.planner ▸ howns, hlike.tracks (htracks.noted hfresh rfl rfl rfl)⟩
    unfold parameters
    constructor
    · refine foreign_bind foreign_allocate fun a t hg => ?_
      refine foreign_bind (foreign_of_gives (a := ()) (gives_setKind.mpr rfl)) fun _ t₁ h₁ => ?_
      refine foreign_bind (foreign_of_gives (a := ()) (gives_modify.mpr rfl)) fun _ t₂ h₂ => ?_
      rw [gives_modify] at h₂
      have hlike : t₁.Alike t₂ := h₂ ▸ ⟨rfl, rfl, rfl⟩
      obtain ⟨howns, htracks⟩ := hfirst hg (gives_setKind.mp h₁) hlike
      exact (ih howns htracks).1
    · intro v u hg
      simp only [gives_bind, gives_setKind, gives_modify] at hg
      obtain ⟨a, t, hg, _, t₁, h₁, _, t₂, h₂, hrest⟩ := hg
      have hlike : t₁.Alike t₂ := h₂ ▸ ⟨rfl, rfl, rfl⟩
      obtain ⟨howns, htracks⟩ := hfirst hg h₁ hlike
      exact (ih howns htracks).2 v u hrest

theorem follows_parameters {function scope : String} {params : List String} :
    Follows known (do
      let tag ← enter scope
      parameters function tag params
      leave) [] := fun _ s o hag _ => by
  let entered := s.withPlanner (s.planner.enter scope).2
  have htracks : entered.Tracks (((s.planner.enter scope).1, []) :: o) :=
    (hag.tracks.enter _).congr rfl rfl fun _ => rfl
  have howns : entered.planner.Owns _ := hag.owns.enter scope
  obtain ⟨hforeign, hbound⟩ := parameters_bound params howns htracks
  refine .step (gives_enter.mpr ⟨rfl, rfl⟩) (.request hforeign fun v t hg => ?_)
  obtain ⟨sc, howns, htracks⟩ := hbound v t hg
  have hleft := Session.agrees_left howns htracks hag.ne_nil
  exact ⟨fun w u hu => ⟨o, rfl, gives_left.mp hu ▸ hleft, rfl⟩, fun e u he =>
    Or.inr (foreign_leave e u he)⟩

/-- **A function is declared** whatever else the scope binds its name to. -/
theorem follows_declareFunction {params : List String} {body : List Statement} :
    Follows known (declareFunction x params body) [.function x] := fun hord s o hag _ => by
  have hx : Ordinary x := hord _ List.mem_cons_self x rfl
  unfold declareFunction
  refine .request (quiet_nextFunction s).1 fun id s' hg => ?_
  replace hag := ((quiet_nextFunction s).2 id s' hg).agrees hag
  obtain ⟨sc, rest, rfl⟩ := hag.owns.exists_cons
  refine .request foreign_allocate fun a t hg => ?_
  obtain ⟨howns, htracks, hmem⟩ := Session.allocated hag.owns hag.tracks .function hg
  refine .step (gives_scope.mpr ⟨rfl, rfl⟩) ?_
  rw [howns.scope]
  have hmention : Scopes.mention (Tagged.scopes ((s'.planner.scope, sc) :: rest)) (.function x) =
      .ok (Tagged.scopes ((s'.planner.scope, (x, .function) :: sc) :: rest)) := rfl
  refine .mention hmention rfl
    (followsFrom_declared howns htracks hmem hx (by simp [OrdinaryNames]) ?_)
  exact .quiet_bind quiet_emit fun _ => .quiet_bind (quiet_modify fun _ => ⟨rfl, rfl, rfl⟩) fun _ =>
    follows_parameters

/-! ### Statements -/

theorem follows_branch {test : Expr} {yes no : Lowering Unit} (hyes : Follows [] yes ms)
    (hno : Follows [] no ms') :
    Follows [] (do
      let id ← nextLabel
      let condition ← resolve (← operandOf test)
      emit (.branch condition s!"if_else_{id}")
      yes
      emit (.jump s!"if_end_{id}")
      emit (.label s!"if_else_{id}")
      no
      emit (.label s!"if_end_{id}")) (test.mentions ++ (ms ++ ms')) := by
  refine .quiet_bind quiet_nextLabel fun id => follows_operandOf.bind fun slot => ?_
  refine .quiet_bind quiet_resolve fun _ => .quiet_bind quiet_emit fun _ => ?_
  refine hyes.bind fun _ => .quiet_bind quiet_emit fun _ => .quiet_bind quiet_emit fun _ => ?_
  exact hno.bind_quiet fun _ => quiet_emit

theorem follows_loop (test : Option Expr) {first last body : Lowering Unit}
    {before after inside : List Mention} (hfirst : Follows [] first before)
    (hlast : Follows [] last after) (hbody : Follows [] body inside) :
    Follows [] (do
      discard (enter "for")
      first
      let id ← nextLabel
      emit (.label s!"for_test_{id}")
      let condition ← loopTest test
      emit (.jumpUnless condition s!"for_end_{id}")
      body
      emit (.label s!"for_update_{id}")
      last
      emit (.jump s!"for_test_{id}")
      emit (.label s!"for_end_{id}")
      leave) (Mention.inScope (before ++ (Expr.mentionsOf? test ++ (inside ++ after)))) := by
  have hinside : Follows [] (do
      first
      let id ← nextLabel
      emit (.label s!"for_test_{id}")
      let condition ← loopTest test
      emit (.jumpUnless condition s!"for_end_{id}")
      body
      emit (.label s!"for_update_{id}")
      last
      emit (.jump s!"for_test_{id}")
      emit (.label s!"for_end_{id}"))
      (before ++ (Expr.mentionsOf? test ++ (inside ++ after))) := by
    refine hfirst.bind fun _ => .quiet_bind quiet_nextLabel fun id => .quiet_bind quiet_emit
      fun _ => follows_loopTest.bind fun c => .quiet_bind quiet_emit fun _ => ?_
    refine hbody.bind fun _ => .quiet_bind quiet_emit fun _ => hlast.bind_quiet fun _ => ?_
    exact quiet_emit.bind fun _ => quiet_emit
  have hscoped := follows_within "for" hinside
  simpa only [within, bind_assoc] using hscoped

mutual
theorem follows_statement : ∀ s : Statement, Follows [] (statement s) s.mentions
  | .declare kind x init => by
    unfold statement Statement.mentions
    refine follows_declare (fun p hp n => ?_) fun h => ?_
    · obtain ⟨e, rfl, rfl⟩ := Option.map_eq_some_iff.mp hp
      exact follows_into e n
    · rw [Option.map_eq_none_iff.mp h]
      rfl
  | .function x params body => by
    unfold statement Statement.mentions
    exact follows_declareFunction
  | .branch test yes no => by
    unfold statement Statement.mentions
    exact follows_branch (follows_within _ (follows_statements yes)) (follows_otherwise no)
  | .loop init test last body => by
    unfold statement Statement.mentions
    have hbody : Follows [] (within "loop" (statements body))
        (Mention.inScope (Statement.mentionsOf body)) := follows_within _ (follows_statements body)
    cases last with
    | some e => exact follows_loop test (follows_firstClause init) follows_effect hbody
    | none =>
      have hlast : Follows [] (pure ()) (Expr.mentionsOf? none) := .quiet quiet_pure
      have hloop := follows_loop test (follows_firstClause init) hlast hbody
      simpa only [pure_bind] using hloop
  | .ret argument => by
    unfold statement Statement.mentions
    cases argument with
    | some e =>
      exact follows_operandOf.bind_quiet fun _ => quiet_resolve.bind fun _ => quiet_emit
    | none => exact Follows.quiet quiet_emit
  | .effect e => by
    unfold statement Statement.mentions
    exact follows_effect

theorem follows_statements : ∀ l : List Statement,
    Follows [] (statements l) (Statement.mentionsOf l)
  | [] => by
    unfold statements Statement.mentionsOf
    exact Follows.quiet quiet_pure
  | s :: rest => by
    unfold statements Statement.mentionsOf
    exact (follows_statement s).bind fun _ => follows_statements rest

theorem follows_otherwise : ∀ o : Option (List Statement),
    Follows [] (otherwise o) (Statement.mentionsOfElse o)
  | none => by
    unfold otherwise Statement.mentionsOfElse
    exact Follows.quiet quiet_pure
  | some body => by
    unfold otherwise Statement.mentionsOfElse
    exact follows_within _ (follows_statements body)

theorem follows_firstClause : ∀ o : Option Statement,
    Follows [] (firstClause o) (Statement.mentionsOfInit o)
  | none => by
    unfold firstClause Statement.mentionsOfInit
    exact Follows.quiet quiet_pure
  | some s => by
    unfold firstClause Statement.mentionsOfInit
    exact follows_statement s
end

end Lowering

end TapeCompiler
