import TapeCompiler.Proofs.Lowering.Owners
import TapeCompiler.Proofs.Lowering.Traversal

/-! # What follows the scope rule

Lowering goes through the mentions of a program as the scope rule does (`FollowsFrom`). From a
session that agrees with the open scopes, a step that succeeds is one for which the rule succeeds
too, and leaves a session that agrees with the scopes then open; a step that fails has the fault of
the rule, unless there was no room.

A step that changes code, warnings and numbers alone is `Quiet`: it mentions nothing. A step may
rely on some names having a block (`Follows`). -/

namespace TapeCompiler

/-- A fault that is **none of names**: there was no room, or the compiler is wrong. -/
def Fault.Foreign : Fault → Prop
  | .outOfMemory .. | .defect _ => True
  | _ => False

namespace Lowering

variable {α β : Type} {s t u : Session} {o o' : Tagged} {m : Lowering α} {f : α → Lowering β}
  {a : α} {name : String} {size n : Nat} {known : List String} {ms ms' : List Mention} {e : Fault}

/-! ### Failures -/

/-- A step of lowering made in a session **fails by no fault of names**. -/
def Foreign (m : Lowering α) (s : Session) : Prop := ∀ e t, m.run.run s = (.error e, t) → e.Foreign

theorem fails_bind (h : (m >>= f).run.run s = (.error e, u)) :
    m.run.run s = (.error e, u) ∨ ∃ a t, Gives m s a t ∧ (f a).run.run t = (.error e, u) := by
  rw [run_bind] at h
  cases hm : m.run.run s with
  | mk r t =>
    rw [hm] at h
    cases r with
    | error e' => exact Or.inl (by cases h; rfl)
    | ok a => exact Or.inr ⟨a, t, hm, h⟩

theorem gives_unique {b : α} (h : Gives m s a t) (h' : Gives m s b u) : a = b ∧ t = u := by
  unfold Gives at h h'
  rw [h] at h'
  cases h'
  exact ⟨rfl, rfl⟩

theorem foreign_of_gives (h : Gives m s a t) : Foreign m s := fun e u hu => by
  unfold Gives at h
  rw [h] at hu
  cases hu

theorem foreign_bind (hm : Foreign m s) (hf : ∀ a t, Gives m s a t → Foreign (f a) t) :
    Foreign (m >>= f) s := fun e u h => by
  rcases fails_bind h with h | ⟨a, t, hg, h⟩
  · exact hm e u h
  · exact hf a t hg e u h

theorem foreign_throw (h : e.Foreign) : Foreign (throw e : Lowering α) s := fun e' t he => by
  cases he
  exact h

theorem foreign_request {g : Planner → Int → Except Fault α × Planner}
    (h : ∀ e p, g s.planner (s.schedule 0) = (.error e, p) → e.Foreign) :
    Foreign (request g) s := by
  unfold request
  refine foreign_bind (foreign_of_gives (gives_get.mpr ⟨rfl, rfl⟩)) fun x t hx => ?_
  obtain ⟨rfl, rfl⟩ := gives_get.mp hx
  cases hr : g x.planner (x.schedule 0) with
  | mk r p =>
    refine foreign_bind (foreign_of_gives (a := ()) (gives_modify.mpr rfl)) fun _ u _ => ?_
    cases r with
    | ok a => exact foreign_of_gives (gives_pure.mpr ⟨rfl, rfl⟩)
    | error e => exact foreign_throw (h e p hr)

theorem foreign_address : Foreign (address name) s := by
  unfold address
  refine foreign_bind (foreign_of_gives (gives_block?.mpr ⟨rfl, rfl⟩)) fun o t _ => ?_
  cases o with
  | none => exact foreign_throw trivial
  | some b => exact foreign_of_gives (gives_pure.mpr ⟨rfl, rfl⟩)

theorem foreign_allocate : Foreign (allocate name size) s := by
  unfold allocate
  refine foreign_bind (foreign_request fun e p he => ?_) fun a t _ => ?_
  · obtain rfl := Planner.allocate_eq_error he
    trivial
  · refine foreign_bind (foreign_of_gives (gives_modifyGet.mpr rfl)) fun moves t _ => ?_
    exact foreign_bind (foreign_of_gives (a := ()) (gives_modify.mpr rfl)) fun _ t _ =>
      foreign_of_gives (gives_pure.mpr ⟨rfl, rfl⟩)

theorem foreign_ensureCapacity : Foreign (ensureCapacity name size) s := by
  unfold ensureCapacity
  refine foreign_bind (foreign_of_gives (gives_block?.mpr ⟨rfl, rfl⟩)) fun o t _ => ?_
  split
  · exact foreign_allocate
  · refine foreign_bind (foreign_request fun e p he => ?_) fun r t _ => ?_
    · obtain rfl := Planner.resize_eq_error he
      trivial
    · cases r with
      | none => exact foreign_address
      | some moved =>
        refine foreign_bind (foreign_of_gives (gives_modifyGet.mpr rfl)) fun moves t _ => ?_
        exact foreign_bind (foreign_of_gives (a := ()) (gives_modify.mpr rfl)) fun _ t _ =>
          foreign_address

theorem foreign_temporary : Foreign (temporary size) s := by
  unfold temporary
  refine foreign_bind (foreign_of_gives (gives_modifyGet.mpr rfl)) fun n t _ => ?_
  refine foreign_bind ?_ fun _ _ _ => foreign_of_gives (gives_pure.mpr ⟨rfl, rfl⟩)
  exact foreign_bind foreign_allocate fun _ _ _ => foreign_of_gives (gives_pure.mpr ⟨rfl, rfl⟩)

end Lowering

/-! ### Quiet steps -/

/-- Two sessions that differ in **code, warnings and numbers** alone. -/
structure Session.Alike (s t : Session) : Prop where
  planner : t.planner = s.planner
  kinds : t.kinds = s.kinds
  bindings : t.program.bindings = s.program.bindings

namespace Session

variable {s t u : Session} {o : Tagged}

theorem Alike.refl (s : Session) : s.Alike s := ⟨rfl, rfl, rfl⟩

theorem Alike.trans (h : s.Alike t) (h' : t.Alike u) : s.Alike u :=
  ⟨h'.planner.trans h.planner, h'.kinds.trans h.kinds, h'.bindings.trans h.bindings⟩

theorem Alike.tracks (h : s.Alike t) (ht : s.Tracks o) : t.Tracks o :=
  ht.congr h.kinds h.bindings fun x => by rw [h.planner]

theorem Alike.agrees (h : s.Alike t) (ha : s.Agrees o) : t.Agrees o :=
  ⟨h.planner ▸ ha.owns, h.tracks ha.tracks⟩

theorem Alike.sees {x : String} (h : s.Alike t) (hx : s.Sees x) : t.Sees x := by
  obtain ⟨b, hb⟩ := hx
  exact ⟨b, h.planner ▸ hb⟩

end Session

namespace Lowering

variable {α β : Type} {s t u : Session} {o o' : Tagged} {m : Lowering α} {f : α → Lowering β}
  {a : α} {name : String} {size n : Nat} {known : List String} {ms ms' : List Mention} {e : Fault}

/-- A step of lowering that **touches no name**. -/
def Quiet (m : Lowering α) : Prop :=
  ∀ s, Foreign m s ∧ ∀ a t, Gives m s a t → s.Alike t

theorem quiet_of_gives (h : ∀ s, ∃ a t, Gives m s a t ∧ s.Alike t) : Quiet m := fun s => by
  obtain ⟨a, t, hg, ht⟩ := h s
  refine ⟨foreign_of_gives hg, fun b u hu => ?_⟩
  obtain ⟨-, rfl⟩ := gives_unique hg hu
  exact ht

theorem Quiet.bind (hm : Quiet m) (hf : ∀ a, Quiet (f a)) : Quiet (m >>= f) := fun s => by
  refine ⟨foreign_bind (hm s).1 fun a t _ => (hf a t).1, fun b u hu => ?_⟩
  obtain ⟨a, t, h, h'⟩ := gives_bind.mp hu
  exact ((hm s).2 a t h).trans ((hf a t).2 b u h')

theorem quiet_pure : Quiet (pure a) := quiet_of_gives fun s =>
  ⟨a, s, gives_pure.mpr ⟨rfl, rfl⟩, .refl s⟩

theorem Quiet.map {g : α → β} (hm : Quiet m) : Quiet (g <$> m) := by
  rw [← bind_pure_comp]
  exact hm.bind fun _ => quiet_pure

theorem quiet_modify {g : Session → Session} (h : ∀ s : Session, s.Alike (g s)) :
    Quiet (modify g) := quiet_of_gives fun s => ⟨(), g s, gives_modify.mpr rfl, h s⟩

theorem quiet_warn {message : String} : Quiet (warn message) :=
  quiet_modify fun _ => ⟨rfl, rfl, rfl⟩

theorem quiet_emit {i : Instruction} : Quiet (emit i) := quiet_modify fun _ => ⟨rfl, rfl, rfl⟩

theorem quiet_nextLabel : Quiet nextLabel := quiet_of_gives fun _ =>
  ⟨_, _, gives_nextLabel.mpr ⟨rfl, rfl⟩, ⟨rfl, rfl, rfl⟩⟩

theorem quiet_nextFunction : Quiet nextFunction := quiet_of_gives fun _ =>
  ⟨_, _, gives_nextFunction.mpr ⟨rfl, rfl⟩, ⟨rfl, rfl, rfl⟩⟩

theorem quiet_block? : Quiet (block? name) := quiet_of_gives fun s =>
  ⟨_, s, gives_block?.mpr ⟨rfl, rfl⟩, .refl s⟩

theorem quiet_address : Quiet (address name) := fun s =>
  ⟨foreign_address, fun a t hg => by rw [(gives_address.mp hg).2]; exact .refl t⟩

theorem quiet_resolve {slot : Slot} : Quiet (resolve slot) := by
  cases slot with
  | value v => exact quiet_pure
  | named name len => exact quiet_address.bind fun _ => quiet_pure

theorem quiet_forM {g : α → Lowering Unit} (hg : ∀ x, Quiet (g x)) (l : List α) :
    Quiet (l.forM g) := by
  induction l with
  | nil => exact quiet_pure
  | cons x l ih => exact (hg x).bind fun _ => ih

theorem quiet_mapM {g : α → Lowering β} (hg : ∀ x, Quiet (g x)) (l : List α) :
    Quiet (l.mapM g) := by
  induction l with
  | nil =>
    rw [List.mapM_nil]
    exact quiet_pure
  | cons x l ih =>
    rw [List.mapM_cons]
    exact (hg x).bind fun y => ih.bind fun ys => quiet_pure

theorem quiet_literalValue {lit : Literal} : Quiet (literalValue lit) := by
  unfold literalValue
  split
  case h_2 => exact quiet_warn.bind fun _ => quiet_pure
  all_goals exact quiet_pure

theorem quiet_memberValue {object : Expr} {property : String} :
    Quiet (memberValue object property) := by
  have hnone : ∀ name : String, Quiet (do
      warn ("member expression '" ++ name ++ "' has no value; using null")
      return Value.null) := fun _ => quiet_warn.bind fun _ => quiet_pure
  unfold memberValue
  dsimp only
  split
  · split_ifs
    · refine quiet_block?.bind fun found => ?_
      cases found with
      | some b => exact quiet_pure
      | none => exact hnone _
    · exact hnone _
  · exact hnone _

theorem quiet_sizeOf {e : Expr} : Quiet (sizeOf e) := by
  unfold sizeOf
  split
  case h_3 => exact quiet_block?.map
  all_goals exact quiet_pure

theorem quiet_clearTail {first : Nat} : Quiet (clearTail name first) := by
  unfold clearTail
  refine quiet_block?.bind fun found => ?_
  cases found with
  | none => exact quiet_pure
  | some b => exact quiet_forM (fun _ => quiet_emit) _

theorem quiet_receiver? {callee : Expr} : Quiet (receiver? callee) := by
  unfold receiver?
  split
  · exact quiet_block?.map
  · exact quiet_pure

/-! ### Following -/

/-- From a session, a step **does what the scope rule says** about the mentions, starting with some
open scopes. -/
structure FollowsFrom (s : Session) (o : Tagged) (m : Lowering α) (ms : List Mention) : Prop where
  gives : ∀ a t, Gives m s a t → ∃ o' : Tagged, o'.tags = o.tags ∧ t.Agrees o' ∧
    Scopes.run ms o.scopes = .ok o'.scopes
  fails : ∀ e t, m.run.run s = (.error e, t) → Scopes.run ms o.scopes = .error e ∨ e.Foreign

namespace FollowsFrom

theorem pure (h : s.Agrees o) : FollowsFrom s o (pure a : Lowering α) [] where
  gives b t hg := by
    obtain ⟨-, rfl⟩ := gives_pure.mp hg
    exact ⟨o, rfl, h, rfl⟩
  fails e t he := Or.inr (foreign_of_gives (gives_pure.mpr ⟨rfl, rfl⟩) e t he)

theorem fault (h : Scopes.run ms o.scopes = .error e) :
    FollowsFrom s o (throw e : Lowering α) ms where
  gives _ _ hg := absurd hg gives_throw
  fails e' t he := by
    cases he
    exact Or.inl h

theorem bind (hm : FollowsFrom s o m ms) (hf : ∀ a t o', Gives m s a t → t.Agrees o' →
      o'.tags = o.tags → Scopes.run ms o.scopes = .ok o'.scopes → FollowsFrom t o' (f a) ms') :
    FollowsFrom s o (m >>= f) (ms ++ ms') where
  gives b u hu := by
    obtain ⟨a, t, hg, hg'⟩ := gives_bind.mp hu
    obtain ⟨o₁, htags, hag, hrun⟩ := hm.gives a t hg
    obtain ⟨o₂, htags', hag', hrun'⟩ := (hf a t o₁ hg hag htags hrun).gives b u hg'
    exact ⟨o₂, htags'.trans htags, hag', Scopes.run_append_eq_ok.mpr ⟨_, hrun, hrun'⟩⟩
  fails e u hu := by
    rw [Scopes.run_append]
    rcases fails_bind hu with he | ⟨a, t, hg, he⟩
    · exact (hm.fails e u he).imp_left fun h => by rw [h]; rfl
    · obtain ⟨o₁, htags, hag, hrun⟩ := hm.gives a t hg
      rw [hrun]
      exact (hf a t o₁ hg hag htags hrun).fails e u he

theorem behind (hm : FollowsFrom s o m ms) (hf : ∀ a t o', Gives m s a t → t.Agrees o' →
      o'.tags = o.tags → Scopes.run ms o.scopes = .ok o'.scopes → FollowsFrom t o' (f a) []) :
    FollowsFrom s o (m >>= f) ms := by
  have h := hm.bind hf
  rwa [List.append_nil] at h

theorem request (hm : Foreign m s) (hf : ∀ a t, Gives m s a t → FollowsFrom t o (f a) ms) :
    FollowsFrom s o (m >>= f) ms where
  gives b u hu := by
    obtain ⟨a, t, hg, hg'⟩ := gives_bind.mp hu
    exact (hf a t hg).gives b u hg'
  fails e u hu := by
    rcases fails_bind hu with he | ⟨a, t, hg, he⟩
    · exact Or.inr (hm e u he)
    · exact (hf a t hg).fails e u he

theorem step (h : Gives m s a t) (hf : FollowsFrom t o (f a) ms) :
    FollowsFrom s o (m >>= f) ms :=
  request (foreign_of_gives h) fun b u hu => by
    obtain ⟨rfl, rfl⟩ := gives_unique h hu
    exact hf

theorem mention {x : Mention} (hx : o.scopes.mention x = .ok o'.scopes) (ht : o'.tags = o.tags)
    (h : FollowsFrom s o' m ms) : FollowsFrom s o m (x :: ms) where
  gives a t hg := by
    obtain ⟨o₁, htags, hag, hrun⟩ := h.gives a t hg
    exact ⟨o₁, htags.trans ht, hag, Scopes.run_cons_eq_ok.mpr ⟨_, hx, hrun⟩⟩
  fails e t he := by
    rw [Scopes.run_cons, hx]
    exact h.fails e t he

theorem mention_same {x : Mention} (hx : o.scopes.mention x = .ok o.scopes)
    (h : FollowsFrom s o m ms) : FollowsFrom s o m (x :: ms) := mention hx rfl h

/-- Only what the rule makes of the mentions counts. -/
theorem congr (h : FollowsFrom s o m ms) (hms : Scopes.run ms' o.scopes = Scopes.run ms o.scopes) :
    FollowsFrom s o m ms' :=
  ⟨fun a t hg => hms ▸ h.gives a t hg, fun e t he => hms ▸ h.fails e t he⟩

theorem guard {c : Prop} [Decidable c] {K : Lowering β}
    (hc : c → Scopes.run ms o.scopes = .error e) (hK : ¬ c → FollowsFrom s o K ms) :
    FollowsFrom s o (if c then (throw e : Lowering PUnit) >>= fun _ => K else K) ms := by
  split_ifs with h
  · exact ⟨fun a t hg => by simp at hg, fun e' t he => by cases he; exact Or.inl (hc h)⟩
  · exact hK h

end FollowsFrom

/-- A step follows mentions of ordinary names **from every session** that agrees with the open
scopes and in which some names are known to have a block. -/
def Follows (known : List String) (m : Lowering α) (ms : List Mention) : Prop :=
  OrdinaryNames ms → ∀ {s o}, s.Agrees o → (∀ n ∈ known, s.Sees n) → FollowsFrom s o m ms

/-- Nothing is asked of the relation between the sessions. -/
theorem stable_true : Stable (fun _ _ => True) fun _ _ => True := by
  constructor <;> intros <;> trivial

namespace Follows

theorem bind (hm : Follows known m ms) (hf : ∀ a, Follows [] (f a) ms') :
    Follows known (m >>= f) (ms ++ ms') := fun hord s o hag hk => by
  obtain ⟨hord, hord'⟩ := ordinaryNames_append.mp hord
  exact (hm hord hag hk).bind fun a t o' _ hag' _ _ => hf a hord' hag' (by simp)

theorem on {P : α → Prop} {seen : α → List String} (hm : Follows known m ms)
    (hr : Respects (Straightly fun _ _ => True) known m P seen)
    (hf : ∀ a, Follows (seen a ++ known) (f a) ms') :
    Follows known (m >>= f) (ms ++ ms') := fun hord s o hag hk => by
  obtain ⟨hord, hord'⟩ := ordinaryNames_append.mp hord
  refine (hm hord hag hk).bind fun a t o' hg hag' _ _ => hf a hord' hag' fun n hn => ?_
  obtain ⟨⟨-, hkeep⟩, -, -, hseen⟩ := (hr hag.owns.held hk).2 hg
  exact (List.mem_append.mp hn).elim (hseen n) fun hn => hkeep n (hk n hn)

theorem congr (hm : Follows known m ms) (hord : OrdinaryNames ms' → OrdinaryNames ms)
    (hrun : ∀ σ, Scopes.run ms' σ = Scopes.run ms σ) : Follows known m ms' :=
  fun h _ o hag hk => (hm (hord h) hag hk).congr (hrun o.scopes)

theorem quiet (hm : Quiet m) : Follows known m [] := fun _ s o hag _ =>
  ⟨fun a t hg => ⟨o, rfl, ((hm s).2 a t hg).agrees hag, rfl⟩, fun e t he =>
    Or.inr ((hm s).1 e t he)⟩

theorem quiet_bind (hm : Quiet m) (hf : ∀ a, Follows known (f a) ms) :
    Follows known (m >>= f) ms := fun hord s o hag hk => by
  refine .request (hm s).1 fun a t hg => ?_
  have hlike := (hm s).2 a t hg
  exact hf a hord (hlike.agrees hag) fun n hn => hlike.sees (hk n hn)

theorem bind_quiet (hm : Follows known m ms) (hf : ∀ a, Quiet (f a)) :
    Follows known (m >>= f) ms := by
  have h := hm.bind fun a => .quiet (hf a)
  rwa [List.append_nil] at h

theorem map {g : α → β} (hm : Follows known m ms) : Follows known (g <$> m) ms := by
  rw [← bind_pure_comp]
  exact hm.bind_quiet fun _ => quiet_pure

end Follows

end Lowering

end TapeCompiler
