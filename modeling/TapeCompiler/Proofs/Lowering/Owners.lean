import TapeCompiler.Proofs.Lowering.Gives
import TapeCompiler.Proofs.Lowering.Scopes
import TapeCompiler.Proofs.Memory.Owned

/-! # Scopes and their blocks

A session agrees with the open scopes (`Session.Agrees`) when the planner has a block for each name
in exactly the scopes that bind it (`Planner.Owns`), and the symbol table has the address and the
kind of the innermost one (`Session.Tracks`). Each request to the planner keeps the first, and what
is done to the symbol table with it keeps the second.

Temporaries have blocks too; the agreement is about **ordinary names** only. -/

namespace TapeCompiler

/-! ### Scopes with tags -/

/-- The open scopes with their tags, **innermost first**. -/
abbrev Tagged := List (String × Scope)

namespace Tagged

variable {o : Tagged} {t x y : String} {sc : Scope} {k : DeclKind}

/-- The tags. -/
def tags (o : Tagged) : List String := o.map Prod.fst

/-- The scopes without their tags. -/
def scopes (o : Tagged) : Scopes := o.map Prod.snd

/-- The tags of the scopes that bind a name, innermost first. -/
def owners (o : Tagged) (x : String) : List String :=
  (o.filter fun sc => (sc.2.lookup x).isSome).map Prod.fst

@[simp] theorem tags_cons (t : String) (sc : Scope) (o : Tagged) :
    tags ((t, sc) :: o) = t :: o.tags := rfl

@[simp] theorem scopes_cons (t : String) (sc : Scope) (o : Tagged) :
    scopes ((t, sc) :: o) = sc :: o.scopes := rfl

theorem owners_cons (t : String) (sc : Scope) (o : Tagged) (x : String) :
    owners ((t, sc) :: o) x = if (sc.lookup x).isSome then t :: o.owners x else o.owners x := by
  unfold owners
  rw [List.filter_cons]
  split_ifs <;> rfl

@[simp] theorem owners_enter (t : String) (o : Tagged) (x : String) :
    owners ((t, []) :: o) x = o.owners x := by
  simp [owners_cons]

theorem owners_bind_self (t : String) (sc : Scope) (o : Tagged) (x : String) (k : DeclKind) :
    owners ((t, (x, k) :: sc) :: o) x = t :: o.owners x := by
  simp [owners_cons]

theorem owners_bind_of_ne (h : y ≠ x) :
    owners ((t, (x, k) :: sc) :: o) y = owners ((t, sc) :: o) y := by
  rw [owners_cons, owners_cons, List.lookup_cons, beq_eq_false_iff_ne.mpr h]

theorem mem_tags_of_owners (h : t ∈ o.owners x) : t ∈ o.tags :=
  (List.filter_sublist.map Prod.fst).subset h

/-- **The innermost scope that binds a name** gives its kind. -/
theorem exists_of_head?_owners (h : (o.owners x).head? = some t) :
    ∃ sc k, (t, sc) ∈ o ∧ sc.lookup x = some k ∧ o.scopes.kind? x = some k := by
  induction o with
  | nil => cases h
  | cons p o ih =>
    obtain ⟨t', sc⟩ := p
    rw [owners_cons] at h
    split_ifs at h with hsc
    · cases h
      obtain ⟨k, hk⟩ := Option.isSome_iff_exists.mp hsc
      exact ⟨sc, k, by simp, hk, by rw [scopes_cons, Scopes.kind?_cons, hk]; rfl⟩
    · obtain ⟨sc', k, hmem, hk, hkind⟩ := ih h
      refine ⟨sc', k, List.mem_cons_of_mem _ hmem, hk, ?_⟩
      rw [scopes_cons, Scopes.kind?_cons, Option.not_isSome_iff_eq_none.mp hsc]
      exact hkind

theorem kind?_eq_none_of_owners (h : o.owners x = []) : o.scopes.kind? x = none := by
  induction o with
  | nil => rfl
  | cons p o ih =>
    obtain ⟨t', sc⟩ := p
    rw [owners_cons] at h
    split_ifs at h with hsc
    rw [scopes_cons, Scopes.kind?_cons, Option.not_isSome_iff_eq_none.mp hsc]
    exact ih h

end Tagged

/-! ### Blocks -/

/-- The planner has a block for each name **in the scopes that bind it**, and no moves are
pending. -/
structure Planner.Owns (p : Planner) (o : Tagged) : Prop where
  held : p.Held
  settled : p.moves = []
  tags : o.tags = p.openScopes.reverse
  owners : ∀ x, Ordinary x → ((p.owned x).map Prod.fst).reverse = o.owners x

namespace Planner

/-- The blocks of every name are mapped, and new ones may stand behind. -/
def Maps (p q : Planner) (f : Nat → Nat) : Prop :=
  ∀ x, ∃ new, q.owned x = (p.owned x).map (Prod.map id f) ++ new

namespace Owns

variable {p q : Planner} {o : Tagged} {t x : String} {sc : Scope} {k : DeclKind} {size a : Nat}
  {idle : Int}

theorem nodup (h : p.Owns o) : o.tags.Nodup :=
  h.tags ▸ List.nodup_reverse.mpr h.held.sound.indexed.scopes

theorem scope (h : p.Owns ((t, sc) :: o)) : p.scope = t := by
  have hl := p.scope_eq_getLast
  rw [← List.head?_reverse, ← h.tags] at hl
  exact (Option.some.inj hl).symm

theorem exists_cons (h : p.Owns o) : ∃ sc rest, o = (p.scope, sc) :: rest := by
  cases o with
  | nil =>
    have := congrArg List.length h.tags
    simp [Tagged.tags, openScopes] at this
  | cons q rest => exact ⟨q.2, rest, by rw [h.scope]⟩

/-- **The block of a name** is that of the innermost scope that binds it. -/
theorem scope_of_visible (h : p.Owns o) (hx : Ordinary x) :
    (p.visible? x).map Block.scope = (o.owners x).head? := by
  rw [← h.owners x hx, List.head?_reverse, List.getLast?_map,
    h.held.sound.indexed.getLast?_owned, Option.map_map]
  rfl

/-- **A name has a block** exactly if an open scope binds it. -/
theorem visible?_eq_none (h : p.Owns o) (hx : Ordinary x) :
    p.visible? x = none ↔ o.scopes.kind? x = none := by
  rw [← Option.map_eq_none_iff (f := Block.scope), h.scope_of_visible hx]
  constructor
  · exact fun hn => Tagged.kind?_eq_none_of_owners (List.head?_eq_none_iff.mp hn)
  · intro hn
    cases hh : (o.owners x).head? with
    | none => rfl
    | some t =>
      obtain ⟨-, k, -, -, hk⟩ := Tagged.exists_of_head?_owners hh
      rw [hn] at hk
      cases hk

/-- **The block of a name is the innermost scope's** exactly if this scope binds it. -/
theorem owned_scope (h : p.Owns ((t, sc) :: o)) (hx : Ordinary x) :
    (∃ b, p.visible? x = some b ∧ b.scope = p.scope) ↔ (sc.lookup x).isSome := by
  have hv := h.scope_of_visible hx
  rw [h.scope, Tagged.owners_cons] at *
  constructor
  · rintro ⟨b, hb, hs⟩
    rw [hb, Option.map_some, hs] at hv
    split_ifs at hv with hsc
    · exact hsc
    · exact absurd (Tagged.mem_tags_of_owners (List.mem_of_head? hv.symm))
        (List.nodup_cons.mp h.nodup).1
  · intro hsc
    rw [if_pos hsc] at hv
    exact Option.map_eq_some_iff.mp hv

theorem any_visible (h : p.Owns ((t, sc) :: o)) (hx : Ordinary x) :
    (p.visible? x).any (fun b => b.scope = p.scope) = true ↔ (sc.lookup x).isSome := by
  rw [← h.owned_scope hx, Option.any_eq_true]
  simp

theorem rebind (h : p.Owns ((t, sc) :: o)) (hx : Ordinary x → (sc.lookup x).isSome)
    (k : DeclKind) :
    p.Owns ((t, (x, k) :: sc) :: o) where
  held := h.held
  settled := h.settled
  tags := h.tags
  owners y hy := by
    rw [h.owners y hy]
    by_cases hyx : y = x
    · subst hyx
      rw [Tagged.owners_bind_self, Tagged.owners_cons, if_pos (hx hy)]
    · rw [Tagged.owners_bind_of_ne hyx]

theorem forget (h : p.Owns ((t, (x, k) :: sc) :: o)) (hx : ¬ Ordinary x) :
    p.Owns ((t, sc) :: o) where
  held := h.held
  settled := h.settled
  tags := h.tags
  owners y hy := by
    have hyx : y ≠ x := fun he => hx (he ▸ hy)
    rw [h.owners y hy, Tagged.owners_bind_of_ne hyx]

theorem map_owned {p : Planner} (f : Nat → Nat) (x : String) :
    ((p.owned x).map (Prod.map id f)).map Prod.fst = (p.owned x).map Prod.fst := by
  rw [List.map_map]
  rfl

theorem allocate (h : p.Owns ((t, sc) :: o)) (k : DeclKind)
    (hq : p.allocate x size idle = (.ok a, q)) :
    q.takeMoves.2.Owns ((t, (x, k) :: sc) :: o) ∧ (t, a) ∈ q.owned x ∧
      p.Maps q (relocate q.moves) := by
  have hheld := (h.held.allocate hq).1.takeMoves
  rcases h.held.owned_allocate hq with ⟨b, hb, hs, rfl, rfl⟩ | ⟨hnot, hframes, moves, hmoves, hall⟩
  · -- the scope has a block of the name already
    have hsame := h.rebind (fun hx => (h.owned_scope hx).mp ⟨b, hb, hs⟩) k
    refine ⟨⟨hheld, rfl, h.tags, hsame.owners⟩, ?_, fun y => ⟨[], ?_⟩⟩
    · rw [← h.scope, ← hs]
      exact h.held.sound.indexed.mem_owned hb
    · have hid : relocate [] = id := rfl
      rw [h.settled, hid, Prod.map_id, List.map_id, List.append_nil]
  · -- it gets one, behind those of the scopes around
    have hopen : q.takeMoves.2.openScopes = p.openScopes := by
      unfold openScopes
      rw [← hframes]
      rfl
    rw [h.settled, List.nil_append] at hmoves
    rw [hmoves]
    refine ⟨⟨hheld, rfl, hopen ▸ h.tags, fun y hy => ?_⟩, ?_, fun y => ⟨_, hall y⟩⟩
    · show ((q.owned y).map Prod.fst).reverse = _
      rw [hall y, List.map_append, map_owned]
      by_cases hyx : y = x
      · subst hyx
        have hsc : ¬ (sc.lookup y).isSome := fun hsc => by
          obtain ⟨b, hb, hs⟩ := (h.owned_scope hy).mpr hsc
          exact hnot b hb hs
        rw [if_pos rfl, List.reverse_append, h.owners y hy, Tagged.owners_bind_self,
          Tagged.owners_cons, if_neg hsc, h.scope]
        rfl
      · rw [if_neg hyx, List.map_nil, List.append_nil, h.owners y hy,
          Tagged.owners_bind_of_ne hyx]
    · rw [hall x, if_pos rfl, h.scope]
      exact List.mem_append_right _ (List.mem_singleton_self _)

theorem resize (h : p.Owns o) {moved : Relocation}
    (hq : p.resize x size idle = (.ok (some moved), q)) :
    q.takeMoves.2.Owns o ∧
      p.Maps q fun c => (moved.newAddress? c).getD (relocate q.moves c) := by
  obtain ⟨hframes, moves, hmoves, hall⟩ := h.held.owned_resize hq
  have hopen : q.takeMoves.2.openScopes = p.openScopes := by
    unfold openScopes
    rw [← hframes]
    rfl
  rw [h.settled, List.nil_append] at hmoves
  rw [hmoves]
  refine ⟨⟨(h.held.resize hq).1.takeMoves, rfl, hopen ▸ h.tags, fun y hy => ?_⟩, fun y =>
    ⟨[], (hall y).trans (List.append_nil _).symm⟩⟩
  show ((q.owned y).map Prod.fst).reverse = _
  rw [hall y, map_owned, h.owners y hy]

theorem addReference (h : p.Owns o) (x : String) : (p.addReference x).2.Owns o where
  held := (h.held.addReference x).1
  settled := by
    unfold Planner.addReference refer
    split <;> exact h.settled
  tags := by
    unfold Planner.addReference refer
    split <;> exact h.tags
  owners y hy := by rw [h.held.owned_addReference, h.owners y hy]

theorem enter (h : p.Owns o) (name : String) :
    (p.enter name).2.Owns (((p.enter name).1, []) :: o) where
  held := h.held.enter name
  settled := h.settled
  tags := by
    rw [Tagged.tags_cons, h.tags]
    simp [openScopes, Planner.enter]
  owners y hy := (h.owners y hy).trans (Tagged.owners_enter _ _ _).symm

theorem exists_frame (h : p.Owns ((t, sc) :: o)) (ho : o ≠ []) :
    ∃ f rest, p.frames = f :: rest ∧ f.tag = t ∧
      o.tags = (rootScope :: (rest.map Frame.tag).reverse).reverse := by
  have htags := h.tags
  cases hf : p.frames with
  | nil =>
    obtain ⟨-, hnil⟩ := List.cons.inj (show t :: o.tags = [rootScope] by
      rw [← Tagged.tags_cons t sc, htags]
      simp [openScopes, hf])
    exact absurd (List.map_eq_nil_iff.mp hnil) ho
  | cons f rest =>
    have hopen : p.openScopes = (rootScope :: (rest.map Frame.tag).reverse) ++ [f.tag] := by
      simp [openScopes, hf]
    rw [hopen, List.reverse_append] at htags
    obtain ⟨hhead, htail⟩ := List.cons.inj htags
    exact ⟨f, rest, rfl, hhead.symm, htail⟩

theorem leave (h : p.Owns ((t, sc) :: o)) (ho : o ≠ []) : p.leave.2.Owns o ∧
    ∀ x, p.leave.2.owned x = (p.owned x).filter fun y => y.1 ≠ t := by
  obtain ⟨f, rest, hf, htag, htags⟩ := h.exists_frame ho
  have howned := h.held.sound.owned_leave hf
  rw [htag] at howned
  refine ⟨⟨h.held.leave, ?_, ?_, fun y hy => ?_⟩, howned⟩
  · unfold Planner.leave
    rw [hf]
    exact h.settled
  · unfold Planner.leave openScopes
    rw [hf]
    exact htags
  · have hnot := (List.nodup_cons.mp h.nodup).1
    have hfilter : ((p.owned y).filter fun z => z.1 ≠ t).map Prod.fst =
        ((p.owned y).map Prod.fst).filter fun z => z ≠ t := by
      rw [List.filter_map]
      rfl
    have hrest : (o.owners y).filter (fun z => z ≠ t) = o.owners y :=
      List.filter_eq_self.mpr fun z hz =>
        decide_eq_true fun he => hnot (Tagged.mem_tags_of_owners (he ▸ hz))
    rw [howned, hfilter, ← List.filter_reverse, h.owners y hy, Tagged.owners_cons]
    split_ifs
    · rw [List.filter_cons_of_neg (by simp), hrest]
    · exact hrest

end Owns

end Planner

/-! ### Symbols -/

theorem Names.find?_map {α β : Type} (m : Names α) (g : String → α → β) (x : String) :
    find? (m.map fun p => (p.1, g p.1 p.2)) x = (m.find? x).map (g x) := by
  unfold find?
  induction m with
  | nil => rfl
  | cons p m ih =>
    rw [List.map_cons, List.lookup_cons, List.lookup_cons]
    cases hx : x == p.1 with
    | false => exact ih
    | true => rw [beq_iff_eq.mp hx]; rfl

namespace Session

theorem lookup_kinds_of_ne {ks : List ((String × String) × DeclKind)} {x y t t' : String}
    (k : DeclKind) (h : y ≠ x ∨ t' ≠ t) :
    List.lookup (y, t') (((x, t), k) :: ks) = ks.lookup (y, t') := by
  have hbeq : ((y, t') == (x, t)) = false := beq_eq_false_iff_ne.mpr fun he => by
    obtain ⟨rfl, rfl⟩ := Prod.mk.inj he
    simp at h
  rw [List.lookup_cons, hbeq]

/-- The symbol table has the address and the kind of **the innermost binding** of each name. -/
structure Tracks (s : Session) (o : Tagged) : Prop where
  ordinary : ∀ x info, s.program.bindings.find? x = some info → Ordinary x
  kinds : ∀ sc ∈ o, ∀ x k, sc.2.lookup x = some k → s.kinds.lookup (x, sc.1) = some k
  bound : ∀ x t, Ordinary x → (o.owners x).head? = some t →
    ∃ info, s.program.bindings.find? x = some info ∧ (t, info.address) ∈ s.planner.owned x ∧
      s.kinds.lookup (x, t) = some info.kind

/-- **A session agrees** with the open scopes. -/
structure Agrees (s : Session) (o : Tagged) : Prop where
  owns : s.planner.Owns o
  tracks : s.Tracks o

variable {s u : Session} {o : Tagged} {t x : String} {sc : Scope} {k : DeclKind} {size a : Nat}

/-- **The kind of a name** is the one the scopes say. -/
theorem Agrees.liveKind? (h : s.Agrees o) (hx : Ordinary x) :
    ((s.planner.visible? x).bind fun b => s.kinds.lookup (x, b.scope)) = o.scopes.kind? x := by
  cases hv : s.planner.visible? x with
  | none => exact ((h.owns.visible?_eq_none hx).mp hv).symm
  | some b =>
    have hs := h.owns.scope_of_visible hx
    rw [hv] at hs
    obtain ⟨sc, k, hmem, hk, hkind⟩ := Tagged.exists_of_head?_owners hs.symm
    rw [hkind, Option.bind_some]
    exact h.tracks.kinds _ hmem x k hk

namespace Tracks

theorem congr (h : s.Tracks o) (hk : u.kinds = s.kinds)
    (hb : u.program.bindings = s.program.bindings)
    (ho : ∀ x, u.planner.owned x = s.planner.owned x) : u.Tracks o where
  ordinary x info hx := h.ordinary x info (hb ▸ hx)
  kinds sc hsc x k hx := hk ▸ h.kinds sc hsc x k hx
  bound x t hx ht := by
    rw [hb, hk, ho]
    exact h.bound x t hx ht

theorem mapped (h : s.Tracks o) {f : Nat → Nat} (hk : u.kinds = s.kinds)
    (hb : u.program.bindings = s.program.bindings.mapValues (VariableInfo.mapAddress f))
    (ho : s.planner.Maps u.planner f) : u.Tracks o := by
  have hfind : ∀ x, u.program.bindings.find? x =
      (s.program.bindings.find? x).map (VariableInfo.mapAddress f) := fun x => by
    rw [hb]
    exact Names.find?_map _ (fun _ => VariableInfo.mapAddress f) x
  refine ⟨fun x info hx => ?_, fun sc hsc x k hx => hk ▸ h.kinds sc hsc x k hx,
    fun x t hx ht => ?_⟩
  · rw [hfind] at hx
    obtain ⟨info', hx, -⟩ := Option.map_eq_some_iff.mp hx
    exact h.ordinary x info' hx
  · obtain ⟨info, hi, hmem, hkind⟩ := h.bound x t hx ht
    obtain ⟨new, hnew⟩ := ho x
    refine ⟨info.mapAddress f, by rw [hfind, hi]; rfl, ?_, hk ▸ hkind⟩
    rw [hnew]
    exact List.mem_append_left _ (List.mem_map.mpr ⟨_, hmem, rfl⟩)

theorem enter (h : s.Tracks o) (t : String) : s.Tracks ((t, []) :: o) where
  ordinary := h.ordinary
  kinds sc hsc y k hy := by
    rcases List.mem_cons.mp hsc with rfl | hsc
    · cases hy
    · exact h.kinds sc hsc y k hy
  bound y t' hy ht' := h.bound y t' hy (Tagged.owners_enter t o y ▸ ht')

/-- Kinds noted **in a scope that binds nothing** are no matter of the symbols. -/
theorem noted (h : s.Tracks ((t, []) :: o)) (ht : t ∉ o.tags)
    (hk : u.kinds = ((x, t), k) :: s.kinds) (hb : u.program.bindings = s.program.bindings)
    (hp : u.planner.owned = s.planner.owned) : u.Tracks ((t, []) :: o) := by
  have hkinds : ∀ y, ∀ t' ∈ o.tags, u.kinds.lookup (y, t') = s.kinds.lookup (y, t') :=
    fun y t' ht' => hk ▸ lookup_kinds_of_ne k (Or.inr fun he => ht (he ▸ ht'))
  refine ⟨fun y info hy => h.ordinary y info (hb ▸ hy), fun sc hsc y k' hy => ?_,
    fun y t' hy ht' => ?_⟩
  · have hold := h.kinds sc hsc y k' hy
    rcases List.mem_cons.mp hsc with rfl | hsc
    · cases hy
    · rwa [hkinds y sc.1 (List.mem_map_of_mem hsc)]
  · have hold := h.bound y t' hy ht'
    rw [Tagged.owners_enter] at ht'
    rwa [hb, hp, hkinds y t' (Tagged.mem_tags_of_owners (List.mem_of_head? ht'))]

/-- **A name is declared** in the innermost scope, whose block it has. -/
theorem declared (h : s.Tracks ((t, sc) :: o)) (hx : Ordinary x) (ht : t ∉ o.tags)
    (ha : (t, a) ∈ s.planner.owned x) (hp : u.planner.owned = s.planner.owned)
    (hk : u.kinds = ((x, t), k) :: s.kinds)
    (hb : u.program.bindings = s.program.bindings.insert x ⟨a, size, k⟩) :
    u.Tracks ((t, (x, k) :: sc) :: o) := by
  have hself : u.program.bindings.find? x = some ⟨a, size, k⟩ := by
    rw [hb, Names.find?_insert_self]
  have hother : ∀ y, y ≠ x → u.program.bindings.find? y = s.program.bindings.find? y :=
    fun y hy => by rw [hb, Names.find?_insert_of_ne _ _ hy]
  have hkinds : ∀ y t', (y ≠ x ∨ t' ≠ t) → u.kinds.lookup (y, t') = s.kinds.lookup (y, t') :=
    fun y t' hne => hk ▸ lookup_kinds_of_ne k hne
  have hkind : u.kinds.lookup (x, t) = some k := by rw [hk, List.lookup_cons_self]
  refine ⟨fun y info hy => ?_, fun sc' hsc y k' hy => ?_, fun y t' hy ht' => ?_⟩
  · by_cases hyx : y = x
    · exact hyx ▸ hx
    · exact h.ordinary y info (hother y hyx ▸ hy)
  · rcases List.mem_cons.mp hsc with rfl | hsc
    · by_cases hyx : y = x
      · subst hyx
        rw [List.lookup_cons_self] at hy
        cases hy
        exact hkind
      · rw [List.lookup_cons, beq_eq_false_iff_ne.mpr hyx] at hy
        rw [hkinds y t (Or.inl hyx)]
        exact h.kinds _ List.mem_cons_self y k' hy
    · rw [hkinds y sc'.1 (Or.inr fun he => ht (he ▸ List.mem_map_of_mem hsc))]
      exact h.kinds _ (List.mem_cons_of_mem _ hsc) y k' hy
  · by_cases hyx : y = x
    · subst hyx
      rw [Tagged.owners_bind_self] at ht'
      cases ht'
      exact ⟨_, hself, hp ▸ ha, hkind⟩
    · rw [Tagged.owners_bind_of_ne hyx] at ht'
      obtain ⟨info, hi, hmem, hki⟩ := h.bound y t' hy ht'
      exact ⟨info, (hother y hyx).trans hi, hp ▸ hmem, (hkinds y t' (Or.inl hyx)).trans hki⟩

/-- **A name is assigned**: its symbol gets the address of its block. -/
theorem assigned (h : s.Tracks o) (ht : ∀ t, (o.owners x).head? = some t →
      (t, a) ∈ s.planner.owned x) (hp : u.planner.owned = s.planner.owned)
    (hk : u.kinds = s.kinds) (hb : u.program.bindings = s.program.bindings.modify x fun v =>
      ⟨a, size, v.kind⟩) : u.Tracks o := by
  have hfind : ∀ y, u.program.bindings.find? y = (s.program.bindings.find? y).map fun v =>
      if y = x then ⟨a, size, v.kind⟩ else v := fun y => by
    rw [hb]
    have hmodify : (s.program.bindings.modify x fun v => ⟨a, size, v.kind⟩) =
        s.program.bindings.map fun p =>
          (p.1, if p.1 = x then (⟨a, size, p.2.kind⟩ : VariableInfo) else p.2) :=
      List.map_congr_left fun p _ => by
        simp only
        split_ifs <;> rfl
    rw [hmodify]
    exact Names.find?_map _
      (fun z v => if z = x then (⟨a, size, v.kind⟩ : VariableInfo) else v) y
  refine ⟨fun y info hy => ?_, fun sc hsc y k hy => hk ▸ h.kinds sc hsc y k hy,
    fun y t hy hyt => ?_⟩
  · rw [hfind] at hy
    obtain ⟨info', hy, -⟩ := Option.map_eq_some_iff.mp hy
    exact h.ordinary y info' hy
  · obtain ⟨info, hi, hmem, hkind⟩ := h.bound y t hy hyt
    rw [hfind, hi, hk, hp]
    refine ⟨_, rfl, ?_, ?_⟩
    · split_ifs with hyx
      · subst hyx
        exact ht t hyt
      · exact hmem
    · rw [hkind]
      split_ifs <;> rfl

end Tracks

/-- The session after the innermost scope was closed. -/
def left (s : Session) : Session :=
  let s := s.withPlanner s.planner.leave.2
  let hidden := s.program.bindings.filter fun (name, info) =>
    (Lowering.uncovered? s name info).isSome
  { s with program := { s.program with
      bindings := s.program.bindings.map fun (name, info) =>
        (name, (Lowering.uncovered? s name info).getD info)
      shadowed := s.program.shadowed ++ hidden } }

/-- **A scope is closed**: a name that it shadowed has its outer block and kind again. -/
theorem Tracks.left {sc' : Scope} (h : s.Tracks ((t, sc') :: o))
    (hs : s.planner.Owns ((t, sc) :: o)) (ho : o ≠ []) : s.left.Tracks o := by
  obtain ⟨howns, howned⟩ := hs.leave ho
  have hfind : ∀ x, s.left.program.bindings.find? x = (s.program.bindings.find? x).map fun info =>
      (Lowering.uncovered? (s.withPlanner s.planner.leave.2) x info).getD info := fun x =>
    Names.find?_map s.program.bindings
      (fun x info => (Lowering.uncovered? (s.withPlanner s.planner.leave.2) x info).getD info) x
  have hkinds : ∀ sc ∈ o, ∀ x k, sc.2.lookup x = some k → s.kinds.lookup (x, sc.1) = some k :=
    fun sc hsc => h.kinds sc (List.mem_cons_of_mem _ hsc)
  refine ⟨fun x info hx => ?_, hkinds, fun x t' hx ht' => ?_⟩
  · rw [hfind] at hx
    obtain ⟨info', hx, -⟩ := Option.map_eq_some_iff.mp hx
    exact h.ordinary x info' hx
  · -- the block that the name has now
    have hvisible := howns.scope_of_visible hx
    rw [ht'] at hvisible
    obtain ⟨b, hb, rfl⟩ := Option.map_eq_some_iff.mp hvisible
    have hmem := howns.held.sound.indexed.mem_owned hb
    have hbefore : (b.scope, b.address) ∈ s.planner.owned x := by
      rw [howned] at hmem
      exact (List.mem_filter.mp hmem).1
    obtain ⟨sc₁, k, hmem₁, hk, -⟩ := Tagged.exists_of_head?_owners ht'
    have hkind := hkinds _ hmem₁ x k hk
    -- the block that its symbol had
    obtain ⟨t₀, info, hi, hin, hik⟩ : ∃ t₀ info, s.program.bindings.find? x = some info ∧
        (t₀, info.address) ∈ s.planner.owned x ∧ s.kinds.lookup (x, t₀) = some info.kind := by
      have hhead : ∃ t₀, (Tagged.owners ((t, sc') :: o) x).head? = some t₀ := by
        rw [Tagged.owners_cons]
        split_ifs
        · exact ⟨t, rfl⟩
        · exact ⟨_, ht'⟩
      obtain ⟨t₀, ht₀⟩ := hhead
      exact ⟨t₀, h.bound x t₀ hx ht₀⟩
    rw [hfind, hi]
    by_cases hab : b.address = info.address
    · have hsame : (t₀, info.address) = (b.scope, b.address) :=
        List.inj_on_of_nodup_map (hs.held.sound.nodup_owned x) hin hbefore hab.symm
      have huncovered :
          Lowering.uncovered? (s.withPlanner s.planner.leave.2) x info = none := by
        simp [Lowering.uncovered?, Session.withPlanner, hb, hab]
      refine ⟨info, by rw [Option.map_some, huncovered]; rfl, hab ▸ hmem, ?_⟩
      rw [← (Prod.mk.inj hsame).1]
      exact hik
    · have huncovered : Lowering.uncovered? (s.withPlanner s.planner.leave.2) x info =
          some ⟨b.address, b.size, k⟩ := by
        simp [Lowering.uncovered?, Session.withPlanner, hb, hab, hkind]
      exact ⟨⟨b.address, b.size, k⟩, by rw [Option.map_some, huncovered]; rfl, hmem, hkind⟩

/-- **A session agrees again** with the scopes around one that was closed. -/
theorem agrees_left {sc' : Scope} (howns : s.planner.Owns ((t, sc) :: o))
    (htracks : s.Tracks ((t, sc') :: o)) (ho : o ≠ []) : s.left.Agrees o :=
  ⟨(howns.leave ho).1, htracks.left howns ho⟩

theorem Agrees.ne_nil (h : s.Agrees o) : o ≠ [] := by
  obtain ⟨sc, rest, rfl⟩ := h.owns.exists_cons
  exact List.cons_ne_nil _ _

end Session

end TapeCompiler
