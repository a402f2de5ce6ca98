import Mathlib.Tactic.Common

/-! # Warnings

Each stage of a compilation warns in words of its own, and how a warning opens tells what it is
about (`OpensAs`). One that says that a jump was left as a marker opens unlike all others
(`not_announcesMarker`). -/

namespace TapeCompiler

/-- A message **opens as** one of some texts. -/
def OpensAs (openings : List String) (message : String) : Prop :=
  ∃ o ∈ openings, o.toList <+: message.toList

theorem opensAs_append {openings : List String} {o : String} (ho : o ∈ openings) (rest : String) :
    OpensAs openings (o ++ rest) :=
  ⟨o, ho, by rw [String.toList_append]; exact List.prefix_append ..⟩

/-- A warning that **a jump was left as a marker**. -/
def AnnouncesMarker (warning : String) : Prop :=
  ∃ label, warning = "jump to '" ++ label ++ "' emitted as a marker" ∨
    warning = "conditional jump to '" ++ label ++ "' emitted as a marker" ∨
    warning = "branch to '" ++ label ++ "' emitted as a marker"

theorem AnnouncesMarker.take_two {m : String} (h : AnnouncesMarker m) :
    m.toList.take 2 ∈ [['j', 'u'], ['c', 'o'], ['b', 'r']] := by
  obtain ⟨label, rfl | rfl | rfl⟩ := h <;> simp [String.toList_append]

/-- The first two characters tell that **no marker is announced**. -/
theorem not_announcesMarker {l : List String} (hl : ∀ o ∈ l, 2 ≤ o.toList.length ∧
      o.toList.take 2 ∉ [['j', 'u'], ['c', 'o'], ['b', 'r']]) {m : String} (h : OpensAs l m) :
    ¬ AnnouncesMarker m := by
  obtain ⟨o, hmem, rest, hrest⟩ := h
  obtain ⟨hlen, hne⟩ := hl o hmem
  intro hm
  have htwo := hm.take_two
  rw [← hrest, List.take_append_of_le_length hlen] at htwo
  exact hne htwo

end TapeCompiler
