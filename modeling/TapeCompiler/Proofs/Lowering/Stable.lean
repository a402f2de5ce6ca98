import TapeCompiler.Proofs.Cells.Bounds
import TapeCompiler.Proofs.Cells.Tree
import TapeCompiler.Proofs.Lowering.Gives
import TapeCompiler.Proofs.Memory.Referred
import TapeCompiler.Proofs.Warnings

/-! # What lowering can do to a session

`Stable R₀ R` lists the changes that lowering is made of: `R₀` holds across each change that a
straight piece makes, and `R` also across branches and loops. Lowering a whole program then keeps
`R` (`keeps_statements`), whatever `R` is.

A step of lowering is described by `Respects`: from a session whose planner holds on to its blocks,
and in which some names are known to have one, it does not fail by a defect and leads to such a
session again, in relation to the first; its result has a property, and more names have a block. A
straight step keeps the names that have one (`Straightly`). Operands name at least one cell
(`Slot.Proper`). -/

namespace TapeCompiler

/-- A name **has a block**. -/
def Session.Sees (s : Session) (name : String) : Prop := ∃ b, s.planner.visible? name = some b

/-- A slot **names a cell**, if it stands for cells. -/
def Slot.Proper : Slot → Prop
  | value _ => True
  | named _ len => 0 < len

/-- The names of a slot. -/
def Slot.names : Slot → List String
  | value _ => []
  | named name _ => [name]

namespace Lowering

/-- How the warnings of lowering **open**. -/
def openings : List String :=
  ["float literal ", "member expression '", "assignment to undeclared variable '",
    "call on a computed callee"]

/-- The relations between sessions that **lowering keeps**: the first over straight pieces, the
second over all. -/
structure Stable (R₀ R : Session → Session → Prop) : Prop where
  refl : ∀ s, R₀ s s
  trans₀ : ∀ {s t u}, R₀ s t → R₀ t u → R₀ s u
  trans : ∀ {s t u}, R s t → R t u → R s u
  straight : ∀ {s t}, R₀ s t → R s t
  /-- Kinds and numbers. -/
  notes : ∀ s ks fs ts, R₀ s { s with kinds := ks, functions := fs, temporaries := ts }
  /-- A request that changes nothing. -/
  asked : ∀ s, R₀ s s.asked
  warned : ∀ s message, OpensAs openings message →
    R₀ s { s with warnings := s.warnings ++ [message] }
  /-- Bindings and what they displace. -/
  symbols : ∀ s bs sh, R₀ s { s with program := { s.program with bindings := bs, shadowed := sh } }
  /-- A new function, without parameters at first. -/
  declared : ∀ s name id params body, R₀ s { s with program := { s.program with
    functions := s.program.functions.insert name ⟨id, params, body, [], false⟩ } }
  /-- A parameter in its block. -/
  parameter : ∀ s function param b, s.planner.Sound → s.planner.visible? param = some b →
    R₀ s { s with program := { s.program with
      functions := s.program.functions.modify function fun f =>
        { f with locals := f.locals.insert param ⟨b.address, 1, .block⟩ } } }
  referenced : ∀ s name, R₀ s (s.withPlanner (s.planner.addReference name).2)
  entered : ∀ s name, R₀ s (s.withPlanner (s.planner.enter name).2)
  left : ∀ s, R₀ s (s.withPlanner s.planner.leave.2)
  allocated : ∀ {s name size a p}, s.planner.Sound →
    s.planner.allocate name size (s.schedule 0) = (.ok a, p) → R₀ s (s.relocated p)
  grown : ∀ {s name size moved p}, s.planner.Sound →
    s.planner.resize name size (s.schedule 0) = (.ok (some moved), p) → R₀ s (s.grown p moved size)
  emitted : ∀ s i, i.isFlow = false → i.Proper → R₀ s (s.add i)
  branch : ∀ {s t u v : Session} {c : Operand}, R₀ { s with labels := s.labels + 1 } t → c.Proper →
    R (t.add (.branch c (LabelKind.ifElse.name s.labels))) u →
    R ((u.add (.jump (LabelKind.ifEnd.name s.labels))).add
      (.label (LabelKind.ifElse.name s.labels))) v →
    R s (v.add (.label (LabelKind.ifEnd.name s.labels)))
  loop : ∀ {s t u v : Session} {c : Operand},
    R₀ (Session.add { s with labels := s.labels + 1 }
      (.label (LabelKind.forTest.name s.labels))) t →
    c.Proper → R (t.add (.jumpUnless c (LabelKind.forEnd.name s.labels))) u →
    R₀ (u.add (.label (LabelKind.forUpdate.name s.labels))) v →
    R s ((v.add (.jump (LabelKind.forTest.name s.labels))).add
      (.label (LabelKind.forEnd.name s.labels)))

/-! ### Steps that respect a relation -/

/-- A step **respects a relation**: from a session whose planner holds on to its blocks and where
known names have one, it does not fail by a defect, and leads to such a session in relation to the
first, with a result that has a property and names that have a block now. -/
def Respects {α : Type} (R : Session → Session → Prop) (known : List String) (m : Lowering α)
    (Q : α → Prop) (seen : α → List String) : Prop :=
  ∀ ⦃s⦄, s.planner.Held → (∀ n ∈ known, s.Sees n) → Flawless m s ∧ ∀ ⦃a t⦄, Gives m s a t →
    R s t ∧ t.planner.Held ∧ Q a ∧ ∀ n ∈ seen a, t.Sees n

/-- A step without a result respects a relation. -/
abbrev Keeps (R : Session → Session → Prop) (known : List String) (m : Lowering Unit) : Prop :=
  Respects R known m (fun _ => True) fun _ => []

/-- A relation that also **keeps the names that have a block**. -/
def Straightly (R : Session → Session → Prop) (s t : Session) : Prop :=
  R s t ∧ ∀ n, s.Sees n → t.Sees n

namespace Respects

variable {α β : Type} {R R' : Session → Session → Prop} {known : List String} {m : Lowering α}
  {P : α → Prop} {seen : α → List String} {Q : β → Prop} {seen' : β → List String}

theorem bind (hm : Respects R known m P seen) (ht : ∀ {s t u}, R s t → R t u → R s u)
    {f : α → Lowering β} (hf : ∀ a, P a → Respects R (seen a) (f a) Q seen') :
    Respects R known (m >>= f) Q seen' := by
  intro s hs hk
  obtain ⟨hflaw, hgives⟩ := hm hs hk
  refine ⟨flawless_bind hflaw fun a t h => ?_, fun b u h => ?_⟩
  · obtain ⟨-, ht', hp, hseen⟩ := hgives h
    exact (hf a hp ht' hseen).1
  · obtain ⟨a, t, h₁, h₂⟩ := gives_bind.mp h
    obtain ⟨hst, ht', hp, hseen⟩ := hgives h₁
    obtain ⟨htu, hrest⟩ := (hf a hp ht' hseen).2 h₂
    exact ⟨ht hst htu, hrest⟩

theorem on (hm : Respects (Straightly R) known m P seen)
    (ht : ∀ {s t u}, R s t → R t u → R s u) {f : α → Lowering β}
    (hf : ∀ a, P a → Respects (Straightly R) (seen a ++ known) (f a) Q seen') :
    Respects (Straightly R) known (m >>= f) Q seen' := by
  intro s hs hk
  obtain ⟨hflaw, hgives⟩ := hm hs hk
  have hnow : ∀ {a t}, Gives m s a t → ∀ n ∈ seen a ++ known, t.Sees n := fun h n hn => by
    obtain ⟨hst, -, -, hseen⟩ := hgives h
    exact (List.mem_append.mp hn).elim (hseen n) fun hn => hst.2 n (hk n hn)
  refine ⟨flawless_bind hflaw fun a t h => ?_, fun b u h => ?_⟩
  · obtain ⟨-, ht', hp, -⟩ := hgives h
    exact (hf a hp ht' (hnow h)).1
  · obtain ⟨a, t, h₁, h₂⟩ := gives_bind.mp h
    obtain ⟨hst, ht', hp, -⟩ := hgives h₁
    obtain ⟨htu, hrest⟩ := (hf a hp ht' (hnow h₁)).2 h₂
    exact ⟨⟨ht hst.1 htu.1, fun n hn => htu.2 n (hst.2 n hn)⟩, hrest⟩

theorem map (hm : Respects R known m P seen) {f : α → β} (hf : ∀ a, P a → Q (f a))
    (hseen : ∀ a, ∀ n ∈ seen' (f a), n ∈ seen a) : Respects R known (f <$> m) Q seen' := by
  intro s hs hk
  obtain ⟨hflaw, hgives⟩ := hm hs hk
  refine ⟨?_, fun b t h => ?_⟩
  · rw [← bind_pure_comp]
    exact flawless_bind hflaw fun a t _ => flawless_of_gives (gives_pure.mpr ⟨rfl, rfl⟩)
  · obtain ⟨a, h', rfl⟩ := gives_map.mp h
    obtain ⟨hst, ht, hp, hsa⟩ := hgives h'
    exact ⟨hst, ht, hf a hp, fun n hn => hsa n (hseen a n hn)⟩

theorem mono (hm : Respects R known m P seen) {known' : List String}
    (hk : ∀ n ∈ known, n ∈ known') (hR : ∀ {s t}, R s t → R' s t) : Respects R' known' m P seen :=
  fun _ hs hk' =>
    have ⟨hflaw, hgives⟩ := hm hs fun n hn => hk' n (hk n hn)
    ⟨hflaw, fun _ _ h => have ⟨hst, hrest⟩ := hgives h; ⟨hR hst, hrest⟩⟩

theorem discard (hm : Respects R known m P seen) : Keeps R known (discard m) :=
  hm.map (fun _ _ => trivial) (by simp)

end Respects

section Straight
variable {R₀ R : Session → Session → Prop} (h : Stable R₀ R) {α β : Type} {name target : String}
  {known : List String}
include h

omit h in
/-- A step that **leaves the planner's blocks to their names** is straight. -/
theorem straightly {s t : Session} (hst : R₀ s t)
    (hp : ∀ n, t.planner.visible? n = s.planner.visible? n) : Straightly R₀ s t :=
  ⟨hst, fun n ⟨b, hb⟩ => ⟨b, (hp n).trans hb⟩⟩

theorem respects_pure {a : α} {Q : α → Prop} {seen : α → List String} (hq : Q a)
    (hs : ∀ n ∈ seen a, n ∈ known) : Respects (Straightly R₀) known (pure a) Q seen := by
  refine fun s hheld hk => ⟨flawless_of_gives (gives_pure.mpr ⟨rfl, rfl⟩), fun b t hg => ?_⟩
  obtain ⟨rfl, rfl⟩ := gives_pure.mp hg
  exact ⟨⟨h.refl _, fun _ => id⟩, hheld, hq, fun n hn => hk n (hs n hn)⟩

omit h in
theorem respects_throw {f : Fault} (hf : ∀ d, f ≠ .defect d) {R : Session → Session → Prop}
    {Q : α → Prop} {seen : α → List String} :
    Respects R known (throw f : Lowering α) Q seen :=
  fun _ _ _ => ⟨flawless_throw hf, fun _ _ hg => absurd hg gives_throw⟩

theorem keeps_warn {message : String} (hm : OpensAs openings message) :
    Keeps (Straightly R₀) known (warn message) := by
  refine fun s hs hk => ⟨flawless_of_gives (a := ()) (gives_warn.mpr rfl), fun x t hg => ?_⟩
  rw [gives_warn] at hg
  subst hg
  exact ⟨straightly (h.warned s _ hm) fun _ => rfl, hs, trivial, by simp⟩

theorem keeps_emit {i : Instruction} (hf : i.isFlow = false) (hi : i.Proper) :
    Keeps (Straightly R₀) known (emit i) := by
  refine fun s hs hk => ⟨flawless_of_gives (a := ()) (gives_emit.mpr rfl), fun x t hg => ?_⟩
  rw [gives_emit] at hg
  subst hg
  exact ⟨straightly (h.emitted s i hf hi) fun _ => rfl, hs, trivial, by simp⟩

theorem respects_block? : Respects (Straightly R₀) known (block? name)
    (fun o => ∀ b ∈ o, 0 < b.size) fun o => (o.map fun _ => name).toList := by
  refine fun s hs hk => ⟨flawless_of_gives (gives_block?.mpr ⟨rfl, rfl⟩), fun o t hg => ?_⟩
  obtain ⟨rfl, rfl⟩ := gives_block?.mp hg
  refine ⟨⟨h.refl _, fun _ => id⟩, hs, fun b hb => ?_, fun n hn => ?_⟩
  · exact hs.sound.laid.sized b (hs.sound.indexed.visible?_mem hb)
  · obtain ⟨b, hb, rfl⟩ := Option.map_eq_some_iff.mp (Option.mem_toList.mp hn)
    exact ⟨b, hb⟩

theorem respects_scope : Respects (Straightly R₀) known scope (fun _ => True) fun _ => [] := by
  refine fun s hs hk => ⟨flawless_of_gives (gives_scope.mpr ⟨rfl, rfl⟩), fun o t hg => ?_⟩
  obtain ⟨rfl, rfl⟩ := gives_scope.mp hg
  exact ⟨⟨h.refl _, fun _ => id⟩, hs, trivial, by simp⟩

theorem respects_address (hn : name ∈ known) :
    Respects (Straightly R₀) known (address name) (fun _ => True) fun _ => [] := by
  intro s hs hk
  obtain ⟨b, hb⟩ := hk name hn
  refine ⟨flawless_of_gives (gives_address.mpr ⟨⟨b, hb, rfl⟩, rfl⟩), fun a t hg => ?_⟩
  obtain ⟨-, rfl⟩ := gives_address.mp hg
  exact ⟨⟨h.refl _, fun _ => id⟩, hs, trivial, by simp⟩

omit h in
theorem sees_iff {s : Session} (hs : s.planner.Held) : s.Sees name ↔ s.planner.bound name ≠ [] :=
  hs.sound.exists_visible_iff

omit h in
theorem flawless_allocate {s : Session} (size : Nat) : Flawless (allocate name size) s := by
  unfold allocate takeMoves
  refine flawless_bind (flawless_request fun d p hd => ?_) fun a t _ => ?_
  · cases Planner.allocate_eq_error hd
  · refine flawless_bind (flawless_of_gives (gives_modifyGet.mpr rfl)) fun moves t _ => ?_
    refine flawless_bind (flawless_of_gives (a := ()) (gives_modify.mpr rfl)) fun _ t _ => ?_
    exact flawless_of_gives (gives_pure.mpr ⟨rfl, rfl⟩)

theorem respects_allocate {size : Nat} : Respects (Straightly R₀) known (allocate name size)
    (fun _ => True) fun _ => [name] := by
  refine fun s hs hk => ⟨flawless_allocate size, fun a t hg => ?_⟩
  obtain ⟨p, hp, rfl⟩ := gives_allocate.mp hg
  obtain ⟨hheld, hkept, b, hb, -⟩ := hs.allocate hp
  have ht : (s.relocated p).planner.Held := hheld.takeMoves
  refine ⟨⟨h.allocated hs.sound hp, fun n hn => ?_⟩, ht, trivial, fun n hn => ?_⟩
  · rw [sees_iff ht]
    exact hkept n ((sees_iff hs).mp hn)
  · rw [List.mem_singleton.mp hn]
    exact ⟨b, hb⟩

theorem respects_ensureCapacity {size : Nat} :
    Respects (Straightly R₀) known (ensureCapacity name size) (fun _ => True) fun _ => [name] := by
  refine fun s hs hk => ⟨?_, fun a t hg => ?_⟩
  · unfold ensureCapacity
    refine flawless_bind (flawless_of_gives (gives_block?.mpr ⟨rfl, rfl⟩)) fun o t ho => ?_
    obtain ⟨rfl, rfl⟩ := gives_block?.mp ho
    split
    · exact flawless_allocate size
    · next hn =>
      have hsees : s.Sees name := Option.ne_none_iff_exists'.mp (by simpa using hn)
      refine flawless_bind (flawless_request fun d p hd => ?_) fun r t hr => ?_
      · cases Planner.resize_eq_error hd
      · obtain ⟨p, hp, rfl⟩ := gives_request.mp hr
        have haddress : ∀ {u : Session}, u.Sees name → Flawless (address name) u :=
          fun ⟨b, hb⟩ => flawless_of_gives (gives_address.mpr ⟨⟨b, hb, rfl⟩, rfl⟩)
        cases r with
        | none =>
          obtain ⟨b, hb⟩ := hsees
          obtain ⟨-, rfl⟩ := resize_eq_none hp hb
          exact haddress ⟨b, hb⟩
        | some moved =>
          obtain ⟨hheld, hkept⟩ := hs.resize hp
          refine flawless_bind (flawless_of_gives (gives_modifyGet.mpr rfl)) fun moves t ht => ?_
          rw [takeMoves, gives_modifyGet] at ht
          refine flawless_bind (flawless_of_gives (a := ()) (gives_modify.mpr rfl)) fun _ u hu => ?_
          rw [gives_modify] at hu
          subst hu
          cases ht
          have htaken := hheld.takeMoves
          exact haddress (htaken.sound.exists_visible_iff.mpr (hkept name ((sees_iff hs).mp hsees)))
  · rcases gives_ensureCapacity hg with ⟨-, hg⟩ | ⟨b, hb, -, -, rfl⟩ | ⟨moved, p, b, hp, rfl, hb, -⟩
    · exact (respects_allocate h hs hk).2 hg
    · exact ⟨⟨h.asked _, fun _ => id⟩, hs, trivial, fun n hn => List.mem_singleton.mp hn ▸ ⟨b, hb⟩⟩
    · obtain ⟨hheld, hkept⟩ := hs.resize hp
      have ht : (s.grown p moved size).planner.Held := hheld.takeMoves
      refine ⟨⟨h.grown hs.sound hp, fun n hn => ?_⟩, ht, trivial, fun n hn => ?_⟩
      · rw [sees_iff ht]
        exact hkept n ((sees_iff hs).mp hn)
      · exact List.mem_singleton.mp hn ▸ ⟨b, hb⟩

theorem respects_temporary {size : Nat} : Respects (Straightly R₀) known (temporary size)
    (fun _ => True) fun tmp => [tmp] := by
  refine fun s hs hk => ⟨?_, fun tmp t hg => ?_⟩
  · unfold temporary
    refine flawless_bind (flawless_of_gives (gives_modifyGet.mpr rfl)) fun n t _ => ?_
    refine flawless_bind ?_ fun _ _ _ => flawless_of_gives (gives_pure.mpr ⟨rfl, rfl⟩)
    exact flawless_bind (flawless_allocate size) fun _ _ _ =>
      flawless_of_gives (gives_pure.mpr ⟨rfl, rfl⟩)
  · obtain ⟨rfl, n, hg⟩ := gives_temporary.mp hg
    have hnone : ∀ n ∈ ([] : List String), s.Sees n := by simp
    have hheld : ({ s with temporaries := s.temporaries + 1 } : Session).planner.Held := hs
    obtain ⟨hst, ht, -, hseen⟩ := (respects_allocate h hheld hnone).2 hg
    exact ⟨⟨h.trans₀ (h.notes s s.kinds s.functions _) hst.1, hst.2⟩, ht, trivial, hseen⟩

theorem respects_liveKind? : Respects (Straightly R₀) known (liveKind? name) (fun _ => True)
    fun k => (k.map fun _ => name).toList := by
  refine fun s hs hk => ⟨flawless_of_gives (gives_liveKind?.mpr ⟨rfl, rfl⟩), fun k t hg => ?_⟩
  obtain ⟨rfl, rfl⟩ := gives_liveKind?.mp hg
  refine ⟨⟨h.refl _, fun _ => id⟩, hs, trivial, fun n hn => ?_⟩
  obtain ⟨k, hkind, rfl⟩ := Option.map_eq_some_iff.mp (Option.mem_toList.mp hn)
  obtain ⟨b, hb, -⟩ := Option.bind_eq_some_iff.mp hkind
  exact ⟨b, hb⟩

theorem keeps_setKind {scope : String} {kind : DeclKind} :
    Keeps (Straightly R₀) known (setKind name scope kind) := by
  refine fun s hs hk => ⟨flawless_of_gives (a := ()) (gives_setKind.mpr rfl), fun x t hg => ?_⟩
  rw [gives_setKind] at hg
  subst hg
  exact ⟨straightly (h.notes s _ _ _) fun _ => rfl, hs, trivial, by simp⟩

theorem respects_readVariable : Respects (Straightly R₀) known (readVariable name) (0 < ·)
    fun _ => [name] := by
  refine fun s hs hk => ⟨?_, fun n t hg => ?_⟩
  · unfold readVariable
    refine flawless_bind (flawless_of_gives (gives_block?.mpr ⟨rfl, rfl⟩)) fun o t _ => ?_
    cases o with
    | none => exact flawless_throw (by simp)
    | some b =>
      exact flawless_bind (flawless_of_gives (a := ()) (gives_modify.mpr rfl)) fun _ _ _ =>
        flawless_of_gives (gives_pure.mpr ⟨rfl, rfl⟩)
  · obtain ⟨⟨b, hb, rfl⟩, rfl⟩ := gives_readVariable.mp hg
    obtain ⟨hheld, hbound⟩ := hs.addReference name
    have hsees : ∀ n, s.Sees n → (s.withPlanner (s.planner.addReference name).2).Sees n :=
      fun n hn => hheld.sound.exists_visible_iff.mpr (by
        rw [hbound]
        exact (sees_iff hs).mp hn)
    refine ⟨⟨h.referenced s name, hsees⟩, hheld, ?_, fun n hn => ?_⟩
    · exact hs.sound.laid.sized b (hs.sound.indexed.visible?_mem hb)
    · exact List.mem_singleton.mp hn ▸ hsees name ⟨b, hb⟩

theorem keeps_symbols (f : Session → Names VariableInfo × List (String × VariableInfo)) :
    Keeps (Straightly R₀) known (modify fun s =>
      { s with program := { s.program with bindings := (f s).1, shadowed := (f s).2 } }) := by
  refine fun s hs hk => ⟨flawless_of_gives (a := ()) (gives_modify.mpr rfl), fun x t hg => ?_⟩
  rw [gives_modify] at hg
  subst hg
  exact ⟨straightly (h.symbols s _ _) fun _ => rfl, hs, trivial, by simp⟩

theorem keeps_bindName {info : VariableInfo} :
    Keeps (Straightly R₀) known (Lowering.bind name info) := by
  refine fun s hs hk => ⟨flawless_of_gives (a := ()) (gives_modify.mpr rfl), fun x t hg => ?_⟩
  obtain ⟨bs, sh, rfl⟩ := gives_bindName hg
  exact ⟨straightly (h.symbols s bs sh) fun _ => rfl, hs, trivial, by simp⟩

theorem keeps_enter : Keeps R₀ known (discard (enter name)) := by
  refine fun s hs hk => ⟨flawless_of_gives (a := ())
    (gives_discard.mpr ⟨_, gives_enter.mpr ⟨rfl, rfl⟩⟩),
    fun a t hg => ?_⟩
  obtain ⟨_, hg⟩ := gives_discard.mp hg
  obtain ⟨-, rfl⟩ := gives_enter.mp hg
  exact ⟨h.entered s name, hs.enter name, trivial, by simp⟩

theorem keeps_leave : Keeps R₀ known leave := by
  refine fun s hs hk => ⟨flawless_of_gives (a := ()) (gives_modify.mpr rfl), fun a t hg => ?_⟩
  obtain ⟨bs, sh, rfl⟩ := gives_leave hg
  exact ⟨h.trans₀ (h.left s) (h.symbols (s.withPlanner s.planner.leave.2) bs sh), hs.leave, trivial,
    by simp⟩

theorem respects_resolve {slot : Slot} (hslot : slot.Proper) (hn : ∀ n ∈ slot.names, n ∈ known) :
    Respects (Straightly R₀) known (resolve slot) Operand.Proper fun _ => [] := by
  cases slot with
  | value v => exact respects_pure h trivial (by simp)
  | named name len =>
    exact (respects_address h (hn name (by simp [Slot.names]))).on h.trans₀ fun a _ =>
      respects_pure h hslot (by simp)

theorem keeps_forM {f : β → Lowering Unit} (hf : ∀ x, Keeps (Straightly R₀) known (f x))
    (l : List β) : Keeps (Straightly R₀) known (l.forM f) := by
  induction l with
  | nil => exact respects_pure h trivial (by simp)
  | cons x l ih => exact (hf x).on h.trans₀ fun _ _ => ih

theorem respects_mapM {f : β → Lowering α} {Q : α → Prop} {l : List β}
    (hf : ∀ x ∈ l, Respects (Straightly R₀) known (f x) Q fun _ => []) :
    Respects (Straightly R₀) known (l.mapM f) (fun ys => ∀ y ∈ ys, Q y) fun _ => [] := by
  induction l with
  | nil =>
    rw [List.mapM_nil]
    exact respects_pure h (by simp) (by simp)
  | cons x l ih =>
    rw [List.mapM_cons]
    refine (hf x (by simp)).on h.trans₀ fun y hy => ?_
    refine (ih fun z hz => hf z (by simp [hz])).on h.trans₀ fun ys hys => ?_
    exact respects_pure h (by simpa using ⟨hy, hys⟩) (by simp)

end Straight

end Lowering

end TapeCompiler
