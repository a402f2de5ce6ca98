import TapeCompiler.Proofs.Memory.Layers

/-! # What a name owns

`Planner.owned` lists the scopes that own a block of a name, each with the address of the block, the
innermost last; the last one is the block the name stands for (`Indexed.getLast?_owned`). Here is
what each request does to the list of every name: a collection or a move to a larger block maps the
addresses by the moves that were noted, a new block goes to the end, and leaving a scope takes its
blocks out. -/

namespace TapeCompiler

namespace Planner

variable {p q : Planner} {name : String} {size a : Nat} {idle : Int} {b : Block}

/-- The scope that owns the block with a number, and the address of the block. -/
def ownedAt? (p : Planner) (id : Nat) : Option (String × Nat) :=
  (p.numbered? id).map fun b => (b.scope, b.address)

/-- The scopes that own a block of a name, each with its address, **innermost last**. -/
def owned (p : Planner) (name : String) : List (String × Nat) :=
  (p.bound name).filterMap p.ownedAt?

/-- What a name owns is read off its **layers**. -/
theorem owned_eq_map (p : Planner) (name : String) :
    p.owned name = (p.layers name).map fun b => (b.scope, b.address) := by
  unfold owned layers
  rw [List.map_filterMap]
  rfl

theorem Indexed.getLast?_owned (h : p.Indexed) (name : String) :
    (p.owned name).getLast? = (p.visible? name).map fun b => (b.scope, b.address) := by
  rw [owned_eq_map, List.getLast?_map, h.getLast?_layers]

theorem Indexed.mem_owned (h : p.Indexed) (hb : p.visible? name = some b) :
    (b.scope, b.address) ∈ p.owned name := by
  refine List.mem_of_getLast? ?_
  rw [h.getLast?_owned, hb, Option.map_some]

theorem Indexed.owned_eq_nil (h : p.Indexed) : p.owned name = [] ↔ p.visible? name = none := by
  rw [← List.getLast?_eq_none_iff, h.getLast?_owned, Option.map_eq_none_iff]

theorem Sound.nodup_owned (h : p.Sound) (name : String) :
    ((p.owned name).map Prod.snd).Nodup := by
  have hids := h.indexed.nodup name
  rw [← h.indexed.ids_layers name] at hids
  rw [owned_eq_map, List.map_map]
  refine List.pairwise_map.mpr ((List.pairwise_map.mp hids).imp_of_mem fun {b c} hb hc hid => ?_)
  obtain ⟨hb, hact, -⟩ := h.indexed.mem_layers.mp hb
  obtain ⟨hc, hact', -⟩ := h.indexed.mem_layers.mp hc
  have hb' := h.laid.sized b hb
  have hc' := h.laid.sized c hc
  rcases h.laid.apart b hb c hc hid hact hact' with hbc | hbc <;> unfold Block.stop at hbc <;>
    simp only [Function.comp] <;> omega

theorem owned_of_carried {f : Nat → Nat}
    (h : List.Forall₂ (Block.Carried f) (p.layers name) (q.layers name)) :
    q.owned name = (p.owned name).map (Prod.map id f) := by
  rw [owned_eq_map, owned_eq_map]
  generalize p.layers name = l, q.layers name = l' at h
  induction h with
  | nil => rfl
  | cons hbc _ ih =>
    simp only [List.map_cons, Prod.map, id, hbc.scope, hbc.address, List.cons.injEq, true_and]
    exact ih

/-! ### Requests -/

/-- **A request for a block** changes nothing if the innermost scope has one of the name; else the
new block is the last one the name owns. -/
theorem Held.owned_allocate (h : p.Held) (hq : p.allocate name size idle = (.ok a, q)) :
    (∃ b, p.visible? name = some b ∧ b.scope = p.scope ∧ a = b.address ∧ q = p) ∨
    ((∀ b, p.visible? name = some b → b.scope ≠ p.scope) ∧ q.frames = p.frames ∧ ∃ moves,
      q.moves = p.moves ++ moves ∧ ∀ other, q.owned other =
        (p.owned other).map (Prod.map id (relocate moves)) ++
          if other = name then [(p.scope, a)] else []) := by
  rcases h.layers_allocate hq with hown | ⟨hnone, hframes, moves, new, hmoves, hscope, ha, hlayers⟩
  · exact Or.inl hown
  · refine Or.inr ⟨hnone, hframes, moves, hmoves, fun other => ?_⟩
    rw [owned_eq_map, owned_eq_map, hlayers, List.map_append, List.map_map, List.map_map]
    congr 1
    split_ifs
    · simp [hscope, ha]
    · rfl

/-- **A move to a larger block** maps what every name owns: the old block goes to the new one and
the others where the moves take them. -/
theorem Held.owned_resize (h : p.Held) {moved : Relocation}
    (hq : p.resize name size idle = (.ok (some moved), q)) :
    q.frames = p.frames ∧ ∃ moves, q.moves = p.moves ++ moves ∧ ∀ other, q.owned other =
      (p.owned other).map
        (Prod.map id fun c => (moved.newAddress? c).getD (relocate moves c)) := by
  obtain ⟨hframes, moves, hmoves, hlayers⟩ := h.layers_resize hq
  exact ⟨hframes, moves, hmoves, fun other => owned_of_carried (hlayers other)⟩

theorem Held.owned_addReference (h : p.Held) (name other : String) :
    (p.addReference name).2.owned other = p.owned other := by
  rw [owned_of_carried (h.layers_addReference name other), Prod.map_id, List.map_id]

theorem Sound.owned_leave (h : p.Sound) {f : Frame} {rest : List Frame}
    (hf : p.frames = f :: rest) (other : String) :
    p.leave.2.owned other = (p.owned other).filter fun x => x.1 ≠ f.tag := by
  rw [owned_eq_map, owned_eq_map, h.layers_leave hf, List.filter_map]
  rfl

end Planner

end TapeCompiler
