/-! # Names in order

A finite map from names as a list, ordered by name (`Names`). -/

namespace TapeCompiler

/-- A finite map from names, **ordered by name**. -/
abbrev Names (α : Type) := List (String × α)

namespace Names

variable {α : Type}

/-- What a name is bound to. -/
def find? (m : Names α) (name : String) : Option α := m.lookup name

/-- The map with a name bound anew. -/
def insert (m : Names α) (name : String) (a : α) : Names α :=
  match m with
  | [] => [(name, a)]
  | (k, b) :: rest =>
    if name = k then (name, a) :: rest
    else if name < k then (name, a) :: (k, b) :: rest
    else (k, b) :: insert rest name a

/-- The map with what a name is bound to changed, if it is bound. -/
def modify (m : Names α) (name : String) (f : α → α) : Names α :=
  m.map fun (k, a) => if k = name then (k, f a) else (k, a)

/-- The map with everything bound changed. -/
def mapValues {β : Type} (m : Names α) (f : α → β) : Names β := m.map fun (k, a) => (k, f a)

theorem find?_insert_self (m : Names α) (name : String) (a : α) :
    find? (insert m name a) name = some a := by
  induction m with
  | nil => simp [insert, find?]
  | cons p rest ih =>
    obtain ⟨k, b⟩ := p
    simp only [insert]
    split
    · simp [find?]
    · split
      · simp [find?]
      · rename_i h _
        simp only [find?, List.lookup_cons, beq_eq_false_iff_ne.mpr h]
        exact ih

theorem find?_insert_of_ne (m : Names α) {name other : String} (a : α) (h : other ≠ name) :
    find? (insert m name a) other = find? m other := by
  induction m with
  | nil => simp [insert, find?, List.lookup_cons, beq_eq_false_iff_ne.mpr h]
  | cons p rest ih =>
    obtain ⟨k, b⟩ := p
    simp only [insert]
    split
    · rename_i hk
      subst hk
      simp [find?, List.lookup_cons, beq_eq_false_iff_ne.mpr h]
    · split
      · simp [find?, List.lookup_cons, beq_eq_false_iff_ne.mpr h]
      · simp only [find?, List.lookup_cons] at ih ⊢
        rw [ih]

end Names

end TapeCompiler
