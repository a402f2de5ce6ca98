import TapeCompiler.Proofs.Lowering.Pieces
import Mathlib.Data.List.Forall2

/-! # Names and their spots

A planner is aligned with an environment (`Planner.Aligned`) when each ordinary name has one spot
for each scope that binds it, innermost first, in a relation to what the environment has there. The
relation may be that the spot shows a value, or that it has some room. Names that are bound,
assigned or gone keep the two aligned. -/

namespace TapeCompiler

variable {α : Type} {η : Env α} {x y : String} {v : α}

namespace Env

/-- What the scopes have for a name, **each with its tag**, innermost first. -/
def bindings (tags : List String) (η : Env α) (x : String) : List (String × α) :=
  (tags.zip η).filterMap fun f => (f.2.lookup x).map fun v => (f.1, v)

variable {tag : String} {tags : List String} {f : List (String × α)}

theorem bindings_cons : bindings (tag :: tags) (f :: η) x =
    ((f.lookup x).map fun v => (tag, v)).toList ++ bindings tags η x := by
  unfold bindings
  rw [List.zip_cons_cons, List.filterMap_cons]
  cases f.lookup x <;> rfl

theorem mem_tags_of_mem_bindings {e : String × α} (h : e ∈ bindings tags η x) : e.1 ∈ tags := by
  obtain ⟨f, hf, he⟩ := List.mem_filterMap.mp h
  obtain ⟨v, -, rfl⟩ := Option.map_eq_some_iff.mp he
  exact (List.of_mem_zip hf).1

theorem value?_eq (h : η.length ≤ tags.length) :
    η.value? x = (bindings tags η x).head?.map Prod.snd := by
  induction η generalizing tags with
  | nil => simp [value?, bindings]
  | cons f η ih =>
    obtain _ | ⟨tag, tags⟩ := tags
    · simp at h
    rw [bindings_cons, value?, List.findSome?_cons]
    cases f.lookup x with
    | some v => rfl
    | none => exact ih (Nat.le_of_succ_le_succ h)

theorem bindings_assign_self (h : η.length ≤ tags.length) :
    bindings tags (η.assign x v) x = match bindings tags η x with
      | [] => []
      | e :: rest => (e.1, v) :: rest := by
  induction η generalizing tags with
  | nil => simp [assign, bindings]
  | cons f η ih =>
    obtain _ | ⟨tag, tags⟩ := tags
    · simp at h
    rw [assign]
    cases hf : f.lookup x with
    | some u => simp [bindings_cons, hf]
    | none =>
      simp only [Option.isSome_none, Bool.false_eq_true, if_false, bindings_cons, hf]
      exact ih (Nat.le_of_succ_le_succ h)

theorem bindings_assign_of_ne (h : y ≠ x) :
    bindings tags (η.assign x v) y = bindings tags η y := by
  induction η generalizing tags with
  | nil => rfl
  | cons f η ih =>
    obtain _ | ⟨tag, tags⟩ := tags
    · rfl
    rw [assign]
    split_ifs
    · rw [bindings_cons, bindings_cons, List.lookup_cons, beq_eq_false_iff_ne.mpr h]
    · rw [bindings_cons, bindings_cons, ih]

@[simp] theorem length_declare : (η.declare x v).length = η.length := by
  cases η <;> rfl

@[simp] theorem length_assign : (η.assign x v).length = η.length := by
  induction η with
  | nil => rfl
  | cons f η ih =>
    rw [assign]
    split_ifs
    · rfl
    · rw [List.length_cons, ih, List.length_cons]

theorem value?_of_own? (h : η.own? x = some v) : η.value? x = some v := by
  cases η with
  | nil => cases h
  | cons f η =>
    have hf : f.lookup x = some v := h
    rw [value?, List.findSome?_cons, hf]

theorem declare_eq_assign (h : (η.own? x).isSome = true) : η.declare x v = η.assign x v := by
  cases η with
  | nil => rfl
  | cons f η => exact (if_pos h).symm

end Env

/-! ### Alignment -/

/-- Each ordinary name has **a spot for each scope that binds it**, in a relation to what it has
there. -/
structure Planner.Aligned (p : Planner) (R : Spot → α → Prop) (η : Env α) : Prop where
  length : η.length = p.openScopes.length
  spots : ∀ x, Ordinary x → List.Forall₂ (fun z e => z.scope = e.1 ∧ R z e.2) (p.spots x)
    (η.bindings p.openScopes.reverse x)

/-- A name **gets a spot in the innermost scope**: the one it has there, or a new one in front of
its spots. -/
structure Planner.Gets (p : Planner) (x : String) (z : Spot) (q : Planner) : Prop where
  scopes : q.openScopes = p.openScopes
  head : (q.spots x).head? = some z
  scope : z.scope = p.scope
  spots : q.spots = p.spots ∨ (∀ z' ∈ (p.spots x).head?, z'.scope ≠ p.scope) ∧
    q.spots x = z :: p.spots x ∧ ∀ y, y ≠ x → q.spots y = p.spots y

namespace Planner.Aligned

variable {p q : Planner} {R R' : Spot → α → Prop} {z : Spot}

theorem tags (p : Planner) : ∃ tags, p.openScopes.reverse = p.scope :: tags := by
  have h := p.scope_eq_getLast
  rw [← List.head?_reverse] at h
  exact List.head?_eq_some_iff.mp h

theorem exists_cons (h : p.Aligned R η) : ∃ f rest, η = f :: rest := by
  cases η with
  | nil => exact absurd h.length (by simp [openScopes])
  | cons f rest => exact ⟨f, rest, rfl⟩

theorem length_le (h : p.Aligned R η) : η.length ≤ p.openScopes.reverse.length := by
  rw [h.length, List.length_reverse]

theorem head (h : p.Aligned R η) (hx : Ordinary x) :
    Option.Rel R (p.spots x).head? (η.value? x) := by
  rw [Env.value?_eq h.length_le]
  have hspots := h.spots x hx
  generalize p.spots x = zs, η.bindings p.openScopes.reverse x = es at hspots ⊢
  cases hspots with
  | nil => exact .none
  | cons he _ => exact .some he.2

/-- **The innermost spot is of the innermost scope** exactly if this scope binds the name. -/
theorem own (h : p.Aligned R η) (hn : p.openScopes.Nodup) (hx : Ordinary x) :
    (∃ z, (p.spots x).head? = some z ∧ z.scope = p.scope) ↔ (η.own? x).isSome = true := by
  obtain ⟨f, rest, rfl⟩ := h.exists_cons
  obtain ⟨tags, htags⟩ := Aligned.tags p
  have hspots := h.spots x hx
  rw [← List.nodup_reverse, htags, List.nodup_cons] at hn
  rw [htags, Env.bindings_cons] at hspots
  show _ ↔ (f.lookup x).isSome = true
  cases hf : f.lookup x with
  | some v =>
    rw [hf] at hspots
    generalize p.spots x = zs at hspots
    cases hspots with
    | cons he _ => exact iff_of_true ⟨_, rfl, he.1⟩ rfl
  | none =>
    rw [hf] at hspots
    refine iff_of_false ?_ (by simp)
    rintro ⟨z, hz, hscope⟩
    generalize p.spots x = zs, hes : Env.bindings tags rest x = es at hspots hz
    cases hspots with
    | nil => cases hz
    | cons he _ =>
      cases hz
      exact hn.1 (by
        rw [← hscope, he.1]
        exact Env.mem_tags_of_mem_bindings (hes ▸ List.mem_cons_self))

theorem imp_mem {zs : List Spot} {es : List (String × α)}
    (h : List.Forall₂ (fun z e => z.scope = e.1 ∧ R z e.2) zs es)
    (hR : ∀ z ∈ zs, ∀ v, R z v → R' z v) :
    List.Forall₂ (fun z e => z.scope = e.1 ∧ R' z e.2) zs es :=
  ((List.forall₂_and_left zs es).mpr ⟨fun _ => id, h⟩).imp fun z e ⟨hz, hscope, he⟩ =>
    ⟨hscope, hR z hz e.2 he⟩

theorem congr (h : p.Aligned R η) (hscopes : q.openScopes = p.openScopes)
    (hspots : ∀ x, Ordinary x → q.spots x = p.spots x)
    (hR : ∀ x, Ordinary x → ∀ z ∈ p.spots x, ∀ v, R z v → R' z v) : q.Aligned R' η where
  length := by rw [hscopes, h.length]
  spots x hx := by
    rw [hspots x hx, hscopes]
    exact imp_mem (h.spots x hx) (hR x hx)

/-- **A new spot in front** goes with a name declared in the innermost scope. -/
theorem declare (h : p.Aligned R η) (hscopes : q.openScopes = p.openScopes)
    (hown : η.own? x = none) (hnew : q.spots x = z :: p.spots x) (hscope : z.scope = p.scope)
    (hother : ∀ y, Ordinary y → y ≠ x → q.spots y = p.spots y) (hz : R' z v)
    (hR : ∀ y, Ordinary y → ∀ z ∈ p.spots y, ∀ v, R z v → R' z v) :
    q.Aligned R' (η.declare x v) where
  length := by rw [Env.length_declare, hscopes, h.length]
  spots y hy := by
    have hspots := imp_mem (h.spots y hy) (hR y hy)
    obtain ⟨f, rest, rfl⟩ := h.exists_cons
    obtain ⟨tags, htags⟩ := Aligned.tags p
    rw [htags, Env.bindings_cons] at hspots
    rw [hscopes, htags, Env.declare, Env.bindings_cons]
    by_cases hyx : y = x
    · obtain rfl := hyx
      rw [show f.lookup y = none from hown] at hspots
      rw [hnew, List.lookup_cons_self]
      exact .cons ⟨hscope, hz⟩ hspots
    · rw [hother y hy hyx, List.lookup_cons, beq_eq_false_iff_ne.mpr hyx]
      exact hspots

theorem assign (h : p.Aligned R η) (hscopes : q.openScopes = p.openScopes)
    (hspots : ∀ y, Ordinary y → q.spots y = p.spots y) (hhead : (p.spots x).head? = some z)
    (hz : R' z v) (hR : ∀ y, Ordinary y → ∀ z ∈ p.beside x y, ∀ v, R z v → R' z v) :
    q.Aligned R' (η.assign x v) where
  length := by rw [Env.length_assign, hscopes, h.length]
  spots y hy := by
    have hold := h.spots y hy
    have hkept := hR y hy
    rw [hspots y hy, hscopes]
    unfold Planner.beside at hkept
    by_cases hyx : y = x
    · obtain rfl := hyx
      rw [if_pos rfl] at hkept
      rw [Env.bindings_assign_self h.length_le]
      generalize p.spots y = zs, η.bindings p.openScopes.reverse y = es at hold hhead hkept
      cases hold with
      | nil => cases hhead
      | cons he hrest =>
        cases hhead
        exact .cons ⟨he.1, hz⟩ (imp_mem hrest hkept)
    · rw [if_neg hyx] at hkept
      rw [Env.bindings_assign_of_ne hyx]
      exact imp_mem hold hkept

theorem declared (h : p.Aligned R η) (hn : p.openScopes.Nodup) (hx : Ordinary x)
    (hgets : p.Gets x z q) (hz : R' z v)
    (hR : ∀ y, Ordinary y → ∀ z ∈ q.beside x y, ∀ v, R z v → R' z v) :
    q.Aligned R' (η.declare x v) := by
  have hown := h.own hn hx
  rcases hgets.spots with hspots | ⟨hnot, hnew, hother⟩
  · have hhead : (p.spots x).head? = some z := hspots ▸ hgets.head
    rw [Env.declare_eq_assign (hown.mp ⟨z, hhead, hgets.scope⟩)]
    unfold Planner.beside at hR
    rw [hspots] at hR
    exact h.assign hgets.scopes (fun y _ => congrFun hspots y) hhead hz hR
  · have hnone : η.own? x = none := by
      rw [← Option.not_isSome_iff_eq_none, ← hown]
      rintro ⟨z', hz', hscope⟩
      exact hnot z' hz' hscope
    refine h.declare hgets.scopes hnone hnew hgets.scope (fun y _ => hother y) hz fun y hy z hz =>
      hR y hy z ?_
    unfold Planner.beside
    split_ifs with hyx
    · rw [hnew]
      exact hyx ▸ hz
    · rwa [hother y hyx]

theorem enter (h : p.Aligned R η) (scope : String) : (p.enter scope).2.Aligned R ([] :: η) where
  length := by
    rw [List.length_cons, h.length]
    simp [openScopes, Planner.enter]
  spots x hx := by
    have htags : (p.enter scope).2.openScopes.reverse =
        (p.enter scope).1 :: p.openScopes.reverse := by
      simp [openScopes, Planner.enter]
    rw [spots_enter, htags, Env.bindings_cons]
    exact h.spots x hx

theorem leave (h : p.Aligned R η) (hn : p.openScopes.Nodup)
    (hscopes : p.openScopes = q.openScopes ++ [p.scope])
    (hspots : ∀ x, Ordinary x → q.spots x = (p.spots x).filter fun z => z.scope ≠ p.scope) :
    q.Aligned R η.tail where
  length := by
    rw [List.length_tail, h.length, hscopes, List.length_append]
    rfl
  spots x hx := by
    have hold := h.spots x hx
    obtain ⟨f, rest, rfl⟩ := h.exists_cons
    have htags : p.openScopes.reverse = p.scope :: q.openScopes.reverse := by
      rw [hscopes, List.reverse_append]
      rfl
    rw [← List.nodup_reverse, htags, List.nodup_cons] at hn
    rw [htags, Env.bindings_cons] at hold
    rw [hspots x hx, List.tail_cons]
    have hkept := List.rel_filter (p := fun z : Spot => decide (z.scope ≠ p.scope))
      (q := fun e : String × α => decide (e.1 ≠ p.scope)) (fun z e he => by simp only [he.1]) hold
    rw [List.filter_append] at hkept
    have hrest : (Env.bindings q.openScopes.reverse rest x).filter
        (fun e => decide (e.1 ≠ p.scope)) = Env.bindings q.openScopes.reverse rest x :=
      List.filter_eq_self.mpr fun e he => decide_eq_true fun heq =>
        hn.1 (heq ▸ Env.mem_tags_of_mem_bindings he)
    rw [hrest] at hkept
    cases hf : f.lookup x with
    | some v =>
      rw [hf] at hkept
      simpa using hkept
    | none =>
      rw [hf] at hkept
      exact hkept

end Planner.Aligned

end TapeCompiler
