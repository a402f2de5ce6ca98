import TapeCompiler.Proofs.Memory.Requests
import Mathlib.Data.List.Nodup
import Std.Data.String.ToNat

/-! # The stacks of names

`Planner.Indexed` says that the numbers of blocks are unique and that the stack of a name lists its
active blocks, each once, **the owning scopes nested strictly and the innermost last**. Then the
block a name stands for is the last one on its stack (`Indexed.visible?_iff`), and the last of its
layers (`Indexed.getLast?_layers`).

A change that only gives blocks up keeps it (`Indexed.shrink`), and so does a new block on top of
the stack of its name (`Indexed.add`), if its scope lies inside those of the blocks below it. -/

namespace TapeCompiler

/-! ### Stacks -/

namespace Stacks

variable (m : Stacks) (name other : String)

theorem of_insert (stack : List Nat) :
    of (m.insert name stack) other = if other = name then stack else m.of other := by
  unfold of
  split_ifs with h
  · rw [h, Names.find?_insert_self]
    rfl
  · rw [Names.find?_insert_of_ne m stack h]

theorem of_without (id : Nat) :
    of (m.without name id) other = if other = name then (m.of name).erase id else m.of other := by
  unfold without
  rw [List.erase_eq_eraseIdx]
  split
  · next h => split_ifs with hn <;> simp [h, hn]
  · next k h => rw [of_insert, h]

theorem of_foldl_without (l : List Block) (h : (m.of other).Nodup) :
    of (l.foldl (fun m b => m.without b.name b.id) m) other =
      (m.of other).filter fun i => ∀ b ∈ l, b.name = other → b.id ≠ i := by
  induction l generalizing m with
  | nil => simp
  | cons b l ih =>
    have hb : of (m.without b.name b.id) other =
        (m.of other).filter fun i => b.name = other → b.id ≠ i := by
      rw [of_without]
      split_ifs with hn
      · subst hn
        rw [h.erase_eq_filter]
        refine List.filter_congr fun i _ => ?_
        rw [Bool.eq_iff_iff, bne_iff_ne, decide_eq_true_iff]
        exact ⟨fun hi _ => hi.symm, fun hi => (hi rfl).symm⟩
      · rw [List.filter_eq_self.mpr]
        intro i _
        exact decide_eq_true fun h => absurd h.symm hn
    rw [List.foldl_cons, ih _ (hb ▸ h.filter _), hb, List.filter_filter]
    exact List.filter_congr fun i _ => by simp [Bool.and_comm]

end Stacks

/-- What a block can become **without being handed out anew**. -/
structure Block.Becomes (a b : Block) : Prop where
  id : b.id = a.id
  name : b.name = a.name
  size : b.size = a.size
  scope : b.scope = a.scope
  active : b.active = true → a.active = true

theorem Block.Becomes.trans {a b c : Block} (h : a.Becomes b) (h' : b.Becomes c) : a.Becomes c :=
  ⟨h'.id.trans h.id, h'.name.trans h.name, h'.size.trans h.size, h'.scope.trans h.scope,
    fun hc => h.active (h'.active hc)⟩

namespace Planner

variable {p q : Planner}

/-! ### Scopes -/

/-- The tags of the open scopes, **outermost first**. -/
def openScopes (p : Planner) : List String := rootScope :: (p.frames.map Frame.tag).reverse

/-- Both scopes are open, and the second **inside the first**. -/
def Encloses (p : Planner) (outer inner : String) : Prop := [outer, inner].Sublist p.openScopes

/-- The tag of a scope, by the name and number it was opened with. -/
def scopeTag (name : String) (n : Nat) : String := name ++ "#" ++ toString n

theorem toList_scopeTag (name : String) (n : Nat) :
    (scopeTag name n).toList = name.toList ++ '#' :: (toString n).toList := by
  simp [scopeTag]

theorem not_mem_digits (n : Nat) : '#' ∉ (toString n).toList := by
  intro h
  have hdigit : ('#' : Char).isDigit = true :=
    Nat.isDigit_of_mem_toDigits (b := 10) (n := n) (by decide) (by decide) (by simpa using h)
  revert hdigit
  decide

/-- **Tags of different numbers are different.** -/
theorem scopeTag_inj {a b : String} {m n : Nat} (h : scopeTag a m = scopeTag b n) : m = n := by
  have hl := congrArg (fun s => (String.toList s).reverse.takeWhile (· ≠ '#')) h
  have hdigits : ∀ n : Nat, ∀ c ∈ (toString n).toList.reverse, (decide (c ≠ '#')) = true :=
    fun n c hc => by
      rw [List.mem_reverse] at hc
      exact decide_eq_true fun he => not_mem_digits n (he ▸ hc)
  simp only [toList_scopeTag, List.reverse_append, List.reverse_cons, List.append_assoc] at hl
  rw [List.takeWhile_append_of_pos (hdigits m), List.takeWhile_append_of_pos (hdigits n)] at hl
  simp only [List.singleton_append, List.takeWhile_cons, ne_eq, not_true_eq_false, decide_false,
    Bool.false_eq_true, if_false, List.append_nil, List.reverse_inj] at hl
  exact Nat.repr_injective (String.toList_inj.mp hl)

theorem scopeTag_ne_root (name : String) (n : Nat) : scopeTag name n ≠ rootScope := by
  intro h
  have hmem : '#' ∈ (scopeTag name n).toList := by simp [toList_scopeTag]
  rw [h] at hmem
  revert hmem
  decide

theorem scope_eq_getLast (p : Planner) : p.openScopes.getLast? = some p.scope := by
  unfold openScopes scope
  cases p.frames <;> simp [List.getLast?_cons]

theorem encloses_scope {s : String} (hs : s ∈ p.openScopes)
    (hne : s ≠ p.scope) : p.Encloses s p.scope := by
  obtain ⟨l, hl⟩ := List.getLast?_eq_some_iff.mp p.scope_eq_getLast
  unfold Encloses
  rw [hl] at hs ⊢
  rcases List.mem_append.mp hs with hs | hs
  · exact (List.singleton_sublist.mpr hs).append (List.Sublist.refl [p.scope])
  · exact absurd (List.mem_singleton.mp hs) hne

theorem not_encloses_scope (hn : p.openScopes.Nodup) {s : String} : ¬ p.Encloses p.scope s := by
  intro h
  obtain ⟨l, hl⟩ := List.getLast?_eq_some_iff.mp p.scope_eq_getLast
  unfold Encloses at h
  rw [hl] at h hn
  obtain ⟨l₁, l₂, he, h₁, h₂⟩ := List.sublist_append_iff.mp h
  have hmem : p.scope ∉ l := fun hm =>
    (List.nodup_append.mp hn).2.2 _ hm _ (List.mem_singleton_self _) rfl
  match l₁, he, h₁ with
  | [], he, _ =>
    have := h₂.length_le
    rw [← (List.nil_append l₂ ▸ he : _ = l₂)] at this
    simp at this
  | a :: l₁, he, h₁ =>
    obtain rfl : p.scope = a := (List.cons.inj he).1
    exact hmem (h₁.subset List.mem_cons_self)

theorem scope_notMem_around (hn : p.openScopes.Nodup) {f : Frame} {rest : List Frame}
    (hsuf : f :: rest <:+ p.frames) : p.scope ∉ rootScope :: rest.map Frame.tag := by
  unfold openScopes at hn
  unfold scope
  cases hframes : p.frames with
  | nil => simp [hframes] at hsuf
  | cons g gs =>
    rw [hframes] at hn hsuf
    have hsub : rest ⊆ gs := by
      rcases List.suffix_cons_iff.mp hsuf with heq | hsuf
      · exact (List.cons.inj heq).2 ▸ List.Subset.refl _
      · exact fun x hx => hsuf.subset (List.mem_cons_of_mem _ hx)
    have hroot := (List.nodup_cons.mp hn).1
    have htags := List.nodup_reverse.mp (List.nodup_cons.mp hn).2
    rintro hmem
    rcases List.mem_cons.mp hmem with hg | hg
    · exact hroot (by simp [← hg])
    · exact (List.nodup_cons.mp htags).1 (List.map_subset _ hsub hg)

/-! ### The stack of a name -/

/-- **The stacks list the active blocks.** -/
structure Indexed (p : Planner) : Prop where
  numbered : (p.blocks.map Block.id).Nodup
  created : ∀ b ∈ p.blocks, b.id < p.created
  nodup : ∀ name, (p.bound name).Nodup
  mem : ∀ name id, id ∈ p.bound name ↔
    ∃ b ∈ p.blocks, b.id = id ∧ b.active = true ∧ b.name = name
  opened : ∀ b ∈ p.blocks, b.active = true → b.scope ∈ p.openScopes
  nested : ∀ name, (p.bound name).Pairwise fun i j =>
    ∀ a ∈ p.blocks, ∀ b ∈ p.blocks, a.id = i → b.id = j → p.Encloses a.scope b.scope
  scopes : p.openScopes.Nodup
  tags : ∀ f ∈ p.frames, ∃ name n, n ≤ p.opened ∧ f.tag = scopeTag name n

/-- The blocks of a name, **innermost last**. -/
def layers (p : Planner) (name : String) : List Block := (p.bound name).filterMap p.numbered?

namespace Indexed

variable {a b : Block} {name : String}

theorem eq_of_id (h : p.Indexed) (ha : a ∈ p.blocks) (hb : b ∈ p.blocks) (hid : a.id = b.id) :
    a = b :=
  List.inj_on_of_nodup_map h.numbered ha hb hid

theorem numbered?_eq (h : p.Indexed) (hb : b ∈ p.blocks) : p.numbered? b.id = some b := by
  unfold numbered?
  cases hf : p.blocks.find? fun c => c.id = b.id with
  | none => exact absurd (List.find?_eq_none.mp hf b hb) (by simp)
  | some c =>
    have hid : c.id = b.id := by simpa using List.find?_some hf
    rw [h.eq_of_id (List.mem_of_find?_eq_some hf) hb hid]

/-- **The block a name stands for** is the last one on its stack. -/
theorem visible?_iff (h : p.Indexed) :
    p.visible? name = some b ↔ b ∈ p.blocks ∧ (p.bound name).getLast? = some b.id := by
  unfold visible?
  rw [Option.bind_eq_some_iff]
  constructor
  · rintro ⟨id, hid, hb⟩
    have hf := (Option.filter_eq_some_iff.mp hb).1
    have : b.id = id := by simpa using List.find?_some hf
    exact ⟨List.mem_of_find?_eq_some hf, this ▸ hid⟩
  · rintro ⟨hb, hid⟩
    obtain ⟨c, hc, hcid, hact, -⟩ := (h.mem name b.id).mp (List.mem_of_getLast? hid)
    obtain rfl := h.eq_of_id hc hb hcid
    exact ⟨_, hid, Option.filter_eq_some_iff.mpr ⟨h.numbered?_eq hb, hact⟩⟩

theorem visible?_eq_none (h : p.Indexed) : p.visible? name = none ↔ p.bound name = [] := by
  constructor
  · intro hv
    by_contra hne
    have hl := List.getLast?_eq_some_getLast hne
    obtain ⟨b, hb, hid, -, -⟩ := (h.mem name _).mp (List.getLast_mem hne)
    rw [← hid] at hl
    rw [h.visible?_iff.mpr ⟨hb, hl⟩] at hv
    cases hv
  · intro hb
    simp [visible?, hb]

theorem visible?_mem (h : p.Indexed) (hv : p.visible? name = some b) : b ∈ p.blocks :=
  (h.visible?_iff.mp hv).1

theorem visible?_active (h : p.Indexed) (hv : p.visible? name = some b) :
    b.active = true ∧ b.name = name := by
  obtain ⟨hb, hl⟩ := h.visible?_iff.mp hv
  obtain ⟨c, hc, hid, hact⟩ := (h.mem name b.id).mp (List.mem_of_getLast? hl)
  exact h.eq_of_id hc hb hid ▸ hact

/-- The stack of a name **ends with the block it stands for**, which is on it once. -/
theorem bound_eq_concat (h : p.Indexed) (hv : p.visible? name = some b) :
    p.bound name = (p.bound name).dropLast ++ [b.id] ∧ b.id ∉ (p.bound name).dropLast := by
  obtain ⟨l, hl⟩ := List.getLast?_eq_some_iff.mp (h.visible?_iff.mp hv).2
  have hn := h.nodup name
  rw [hl] at hn ⊢
  rw [List.dropLast_concat]
  exact ⟨rfl, fun hm => (List.nodup_append.mp hn).2.2 _ hm _ (List.mem_singleton_self _) rfl⟩

theorem encloses_visible (h : p.Indexed) (hv : p.visible? name = some b) {i : Nat}
    (hi : i ∈ p.bound name) (hne : i ≠ b.id) (ha : a ∈ p.blocks) (hid : a.id = i) :
    p.Encloses a.scope b.scope := by
  have hn := h.nested name
  rw [(h.bound_eq_concat hv).1] at hi hn
  have hmem : i ∈ (p.bound name).dropLast := by simpa [hne] using hi
  exact (List.pairwise_append.mp hn).2.2 i hmem b.id (by simp) a ha b (h.visible?_mem hv) hid rfl

/-! ### The blocks of a name -/

theorem mem_layers (h : p.Indexed) :
    b ∈ p.layers name ↔ b ∈ p.blocks ∧ b.active = true ∧ b.name = name := by
  unfold layers
  rw [List.mem_filterMap]
  constructor
  · rintro ⟨id, hid, hb⟩
    obtain ⟨c, hc, rfl, hact, hname⟩ := (h.mem name id).mp hid
    rw [h.numbered?_eq hc] at hb
    cases hb
    exact ⟨hc, hact, hname⟩
  · rintro ⟨hb, hact, hname⟩
    exact ⟨b.id, (h.mem name b.id).mpr ⟨b, hb, rfl, hact, hname⟩, h.numbered?_eq hb⟩

theorem ids_layers (h : p.Indexed) (name : String) :
    (p.layers name).map Block.id = p.bound name := by
  unfold layers
  rw [List.map_filterMap]
  refine (List.filterMap_congr fun id hid => ?_).trans List.filterMap_some
  obtain ⟨b, hb, rfl, -⟩ := (h.mem name id).mp hid
  rw [h.numbered?_eq hb]
  rfl

/-- The block a name stands for goes **behind its other blocks**. -/
theorem layers_eq_concat (h : p.Indexed) (hv : p.visible? name = some b) :
    p.layers name = (p.layers name).dropLast ++ [b] := by
  unfold layers
  rw [(h.bound_eq_concat hv).1, List.filterMap_append,
    List.filterMap_cons_some (h.numbered?_eq (h.visible?_mem hv))]
  simp

theorem getLast?_layers (h : p.Indexed) (name : String) :
    (p.layers name).getLast? = p.visible? name := by
  cases hv : p.visible? name with
  | none => rw [layers, h.visible?_eq_none.mp hv]; rfl
  | some b => rw [h.layers_eq_concat hv, List.getLast?_append]; rfl

end Indexed

/-! ### Giving blocks up -/

/-- A planner with the same scopes and **no more blocks**: those there are were there before, and
were active if they are. -/
structure Shrinks (p q : Planner) : Prop where
  settings : q.settings = p.settings
  created : q.created = p.created
  opened : q.opened = p.opened
  frames : q.frames = p.frames
  numbers : (q.blocks.map Block.id).Sublist (p.blocks.map Block.id)
  blocks : ∀ b ∈ q.blocks, ∃ a ∈ p.blocks, a.Becomes b
  bound : ∀ name, (q.bound name).Sublist (p.bound name)

theorem Shrinks.refl (p : Planner) : p.Shrinks p :=
  ⟨rfl, rfl, rfl, rfl, .refl _, fun b hb => ⟨b, hb, rfl, rfl, rfl, rfl, id⟩, fun _ => .refl _⟩

theorem Shrinks.trans {r : Planner} (h : p.Shrinks q) (h' : q.Shrinks r) : p.Shrinks r where
  settings := h'.settings.trans h.settings
  created := h'.created.trans h.created
  opened := h'.opened.trans h.opened
  frames := h'.frames.trans h.frames
  numbers := h'.numbers.trans h.numbers
  blocks c hc := by
    obtain ⟨b, hb, hbc⟩ := h'.blocks c hc
    obtain ⟨a, ha, hab⟩ := h.blocks b hb
    exact ⟨a, ha, hab.trans hbc⟩
  bound name := (h'.bound name).trans (h.bound name)

theorem Shrinks.encloses (h : p.Shrinks q) {s t : String} : q.Encloses s t ↔ p.Encloses s t := by
  unfold Encloses openScopes
  rw [h.frames]

namespace Indexed

variable {name : String}

/-- **Giving up blocks keeps the stacks right**, if exactly the numbers of active blocks stay. -/
theorem shrink (h : p.Indexed) (hq : p.Shrinks q)
    (hstay : ∀ name, ∀ id ∈ p.bound name,
      id ∈ q.bound name ↔ ∃ b ∈ q.blocks, b.id = id ∧ b.active = true) : q.Indexed where
  numbered := h.numbered.sublist hq.numbers
  created b hb := by
    obtain ⟨a, ha, hab⟩ := hq.blocks b hb
    rw [hab.id, hq.created]
    exact h.created a ha
  nodup name := (h.nodup name).sublist (hq.bound name)
  mem name id := by
    constructor
    · intro hid
      have hp := (hq.bound name).subset hid
      obtain ⟨b, hb, hbid, hact⟩ := (hstay name id hp).mp hid
      obtain ⟨c, hc, hcid, -, hcname⟩ := (h.mem name id).mp hp
      obtain ⟨a, ha, hab⟩ := hq.blocks b hb
      obtain rfl := h.eq_of_id ha hc (by rw [← hab.id, hbid, hcid])
      exact ⟨b, hb, hbid, hact, hab.name.trans hcname⟩
    · rintro ⟨b, hb, rfl, hact, rfl⟩
      obtain ⟨a, ha, hab⟩ := hq.blocks b hb
      have hp : b.id ∈ p.bound b.name :=
        (h.mem _ _).mpr ⟨a, ha, hab.id.symm, hab.active hact, hab.name.symm⟩
      exact (hstay _ _ hp).mpr ⟨b, hb, rfl, hact⟩
  opened b hb hact := by
    obtain ⟨a, ha, hab⟩ := hq.blocks b hb
    unfold openScopes
    rw [hab.scope, hq.frames]
    exact h.opened a ha (hab.active hact)
  nested name := by
    refine ((h.nested name).sublist (hq.bound name)).imp fun {i j} hij b hb c hc hi hj => ?_
    obtain ⟨a, ha, hab⟩ := hq.blocks b hb
    obtain ⟨a', ha', hac⟩ := hq.blocks c hc
    rw [hq.encloses, hab.scope, hac.scope]
    exact hij a ha a' ha' (hab.id.symm.trans hi) (hac.id.symm.trans hj)
  scopes := by
    unfold openScopes
    rw [hq.frames]
    exact h.scopes
  tags f hf := by
    rw [hq.frames] at hf
    rw [hq.opened]
    exact h.tags f hf

theorem mem_unbindAll (h : p.Indexed) {l : List Block} (hl : ∀ b ∈ l, b ∈ p.blocks) {id : Nat} :
    id ∈ (p.unbindAll l).bound name ↔ id ∈ p.bound name ∧ ∀ b ∈ l, b.id ≠ id := by
  unfold bound unbindAll
  rw [Stacks.of_foldl_without _ _ _ (h.nodup name), List.mem_filter, decide_eq_true_iff]
  refine and_congr_right fun hid => forall₂_congr fun b hb => ⟨fun hne he => ?_, fun hne _ => hne⟩
  obtain ⟨c, hc, hcid, -, hcname⟩ := (h.mem name id).mp hid
  obtain rfl := h.eq_of_id (hl b hb) hc (he.trans hcid.symm)
  exact hne hcname he

/-- Blocks that become inactive **and are taken off their stacks**. -/
theorem giveUp (h : p.Indexed) {l : List Block} (hl : ∀ b ∈ l, b ∈ p.blocks)
    (hsettings : q.settings = p.settings) (hcreated : q.created = p.created)
    (hopened : q.opened = p.opened) (hframes : q.frames = p.frames)
    (hnumbers : (q.blocks.map Block.id).Sublist (p.blocks.map Block.id))
    (hblocks : ∀ b ∈ q.blocks, ∃ a ∈ p.blocks, a.Becomes b)
    (hbound : q.bindings = (p.unbindAll l).bindings)
    (hstay : ∀ a ∈ p.blocks, a.active = true →
      (a ∉ l ↔ ∃ b ∈ q.blocks, b.id = a.id ∧ b.active = true)) :
    p.Shrinks q ∧ q.Indexed := by
  have heq : ∀ name, q.bound name = (p.unbindAll l).bound name := fun name => by
    unfold bound
    rw [hbound]
  have hq : p.Shrinks q := by
    refine ⟨hsettings, hcreated, hopened, hframes, hnumbers, hblocks, fun name => ?_⟩
    rw [heq]
    unfold bound unbindAll
    rw [Stacks.of_foldl_without _ _ _ (h.nodup name)]
    exact List.filter_sublist
  refine ⟨hq, h.shrink hq fun name id hid => ?_⟩
  obtain ⟨a, ha, rfl, hact, -⟩ := (h.mem name id).mp hid
  rw [heq, h.mem_unbindAll hl, ← hstay a ha hact]
  refine ⟨fun ⟨_, hne⟩ hal => hne a hal rfl, fun hal => ⟨hid, fun b hb he => ?_⟩⟩
  exact hal (h.eq_of_id (hl b hb) ha he ▸ hb)

end Indexed

/-! ### New blocks and scopes -/

theorem bound_add {name : String} {place : Option Nat}
    (hplace : ∀ k ∈ place, (p.bound name).length ≤ k) (address size : Nat) (scope : String)
    (references : Nat) (other : String) :
    (p.add place name address size scope references).bound other =
      if other = name then p.bound name ++ [p.created] else p.bound other := by
  have hk : (place.elim (p.bound name).length fun k => min k (p.bound name).length) =
      (p.bound name).length := by
    cases place with
    | none => rfl
    | some k => exact Nat.min_eq_right (hplace k rfl)
  unfold bound Planner.add
  simp only
  rw [hk, Stacks.of_insert]
  split_ifs with hn
  · simp [List.insertIdx_length_self, bound]
  · rfl

namespace Indexed

variable {name : String}

theorem add (h : p.Indexed) {place : Option Nat} {address size references : Nat} {scope : String}
    (hplace : ∀ k ∈ place, (p.bound name).length ≤ k) (hopen : scope ∈ p.openScopes)
    (hin : ∀ a ∈ p.blocks, a.id ∈ p.bound name → p.Encloses a.scope scope) :
    (p.add place name address size scope references).Indexed := by
  have hbound := bound_add (p := p) hplace address size scope references
  have hfresh : ∀ a ∈ p.blocks, a.id ≠ p.created := fun a ha => Nat.ne_of_lt (h.created a ha)
  have hnew : ∀ other, p.created ∉ p.bound other := fun other hm => by
    obtain ⟨a, ha, hid, -⟩ := (h.mem _ _).mp hm
    exact hfresh a ha hid
  constructor
  case numbered =>
    refine List.nodup_cons.mpr ⟨fun hm => ?_, h.numbered⟩
    obtain ⟨a, ha, hid⟩ := List.mem_map.mp hm
    exact hfresh a ha hid
  case created =>
    intro b hb
    rcases List.mem_cons.mp hb with rfl | hb
    · exact Nat.lt_succ_self _
    · exact Nat.lt_succ_of_lt (h.created b hb)
  case nodup =>
    intro other
    rw [hbound]
    split_ifs
    · exact List.nodup_append.mpr ⟨h.nodup name, List.nodup_singleton _, fun a ha b hb hab =>
        hnew name (List.mem_singleton.mp hb ▸ hab ▸ ha)⟩
    · exact h.nodup other
  case mem =>
    intro other id
    have hold : (∃ b ∈ p.blocks, b.id = id ∧ b.active = true ∧ b.name = other) ↔
        id ∈ p.bound other := (h.mem other id).symm
    rw [hbound other, show (p.add place name address size scope references).blocks =
      ⟨p.created, name, address, size, true, scope, references⟩ :: p.blocks from rfl]
    simp only [List.mem_cons, exists_eq_or_imp, true_and, hold]
    split_ifs with hn
    · subst hn
      simp only [List.mem_append, List.mem_singleton, and_true]
      exact or_comm.trans (or_congr_left eq_comm)
    · simp [Ne.symm hn]
  case opened =>
    intro b hb hact
    rcases List.mem_cons.mp hb with rfl | hb
    · exact hopen
    · exact h.opened b hb hact
  case nested =>
    intro other
    have hold : ∀ other, (p.bound other).Pairwise fun i j =>
        ∀ a ∈ (p.add place name address size scope references).blocks,
          ∀ b ∈ (p.add place name address size scope references).blocks,
            a.id = i → b.id = j → p.Encloses a.scope b.scope := fun other => by
      refine (h.nested other).imp_of_mem fun {i j} hi hj hij a ha b hb hai hbj => ?_
      rcases List.mem_cons.mp ha with rfl | ha
      · exact absurd ((show p.created = i from hai) ▸ hi) (hnew other)
      rcases List.mem_cons.mp hb with rfl | hb
      · exact absurd ((show p.created = j from hbj) ▸ hj) (hnew other)
      exact hij a ha b hb hai hbj
    rw [hbound]
    split_ifs
    · refine List.pairwise_append.mpr ⟨hold name, List.pairwise_singleton _ _,
        fun i hi j hj a ha b hb hai hbj => ?_⟩
      obtain rfl := List.mem_singleton.mp hj
      rcases List.mem_cons.mp ha with rfl | ha
      · exact absurd ((show p.created = i from hai) ▸ hi) (hnew name)
      rcases List.mem_cons.mp hb with rfl | hb
      · exact hin a ha (hai ▸ hi)
      · exact absurd hbj (hfresh b hb)
    · exact hold other
  case scopes => exact h.scopes
  case tags => exact h.tags

theorem enter (h : p.Indexed) (name : String) : (p.enter name).2.Indexed := by
  have hopen : (p.enter name).2.openScopes = p.openScopes ++ [scopeTag name (p.opened + 1)] := by
    simp [openScopes, Planner.enter, scopeTag]
  constructor
  case numbered => exact h.numbered
  case created => exact h.created
  case nodup => exact h.nodup
  case mem => exact h.mem
  case opened =>
    intro b hb hact
    rw [hopen]
    exact List.mem_append_left _ (h.opened b hb hact)
  case nested =>
    intro other
    refine (h.nested other).imp fun {i j} hij a ha b hb hi hj => ?_
    unfold Encloses
    rw [hopen]
    exact (hij a ha b hb hi hj).trans (List.sublist_append_left _ _)
  case scopes =>
    rw [hopen]
    refine List.nodup_append.mpr ⟨h.scopes, List.nodup_singleton _, fun s hs t ht hst => ?_⟩
    rw [List.mem_singleton.mp ht] at hst
    rcases List.mem_cons.mp hs with rfl | hs
    · exact scopeTag_ne_root _ _ hst.symm
    · obtain ⟨f, hf, rfl⟩ := List.mem_map.mp (List.mem_reverse.mp hs)
      obtain ⟨name', n, hn, htag⟩ := h.tags f hf
      have := scopeTag_inj (htag.symm.trans hst)
      omega
  case tags =>
    intro f hf
    rcases List.mem_cons.mp hf with rfl | hf
    · exact ⟨name, _, Nat.le_refl _, rfl⟩
    · obtain ⟨name', n, hn, htag⟩ := h.tags f hf
      exact ⟨name', n, Nat.le_succ_of_le hn, htag⟩

theorem pop (h : p.Indexed) {f : Frame} {rest : List Frame} (hf : p.frames = f :: rest)
    (hq : q.blocks = p.blocks ∧ q.bindings = p.bindings ∧ q.created = p.created ∧
      q.opened = p.opened ∧ q.frames = rest)
    (hown : ∀ b ∈ p.blocks, b.active = true → b.scope ≠ f.tag) : q.Indexed := by
  obtain ⟨hblocks, hbindings, hcreated, hopened, hframes⟩ := hq
  have hbound : ∀ name, q.bound name = p.bound name := fun name => by
    unfold bound
    rw [hbindings]
  have hopen : p.openScopes = q.openScopes ++ [f.tag] := by
    simp [openScopes, hf, hframes]
  constructor
  case numbered => rw [hblocks]; exact h.numbered
  case created => rw [hblocks, hcreated]; exact h.created
  case nodup => intro name; rw [hbound]; exact h.nodup name
  case mem => intro name id; rw [hbound, hblocks]; exact h.mem name id
  case opened =>
    intro b hb hact
    rw [hblocks] at hb
    have := h.opened b hb hact
    rw [hopen] at this
    exact (List.mem_append.mp this).resolve_right fun hm =>
      hown b hb hact (List.mem_singleton.mp hm)
  case nested =>
    intro name
    rw [hbound, hblocks]
    refine (h.nested name).imp_of_mem fun {i j} _ hj hij a ha b hb hai hbj => ?_
    have hab := hij a ha b hb hai hbj
    unfold Encloses at hab
    rw [hopen] at hab
    obtain ⟨c, hc, hcid, hact, -⟩ := (h.mem name j).mp hj
    obtain rfl := h.eq_of_id hb hc (hbj.trans hcid.symm)
    obtain ⟨l₁, l₂, he, h₁, h₂⟩ := List.sublist_append_iff.mp hab
    -- the inner scope is not the one that is closed
    rcases List.eq_nil_or_concat l₂ with rfl | ⟨l, x, rfl⟩
    · rw [List.append_nil] at he
      rwa [← he] at h₁
    · rw [List.concat_eq_append, ← List.append_assoc] at he
      have he' : [a.scope] ++ [b.scope] = (l₁ ++ l) ++ [x] := he
      have hx : [b.scope] = [x] := (List.append_inj' he' rfl).2
      have : x = f.tag := List.mem_singleton.mp (h₂.subset (show x ∈ l.concat x by simp))
      exact absurd ((List.cons.inj hx).1.trans this) (hown b hb hact)
  case scopes =>
    have := h.scopes
    rw [hopen] at this
    exact this.sublist (List.sublist_append_left _ _)
  case tags =>
    intro g hg
    rw [hframes] at hg
    rw [hopened]
    exact h.tags g (by rw [hf]; exact List.mem_cons_of_mem _ hg)

end Indexed

end Planner

end TapeCompiler
