import Mathlib.Tactic.Common

/-! # Repetition

`While p R` relates what a repetition starts from to what it ends with: while `p` holds, one round
of `R` is done. Loops of the tape, of instructions and of the source language are all read through
it, and one law carries a relation between states through two repetitions (`While.simulation`). -/

namespace TapeCompiler

/-- **While** a condition holds, a round is done. -/
inductive While {α : Type} (p : α → Prop) (R : α → α → Prop) : α → α → Prop
  | stop {a : α} : ¬ p a → While p R a a
  | step {a b c : α} : p a → R a b → While p R b c → While p R a c

namespace While

variable {α β : Type} {p : α → Prop} {R : α → α → Prop} {q : β → Prop} {Q : β → β → Prop}

theorem simulation {S : α → β → Prop} (hpq : ∀ a b, S a b → (p a ↔ q b))
    (hround : ∀ a b a', S a b → p a → R a a' → ∃ b', Q b b' ∧ S a' b') {a a' : α}
    (h : While p R a a') : ∀ b, S a b → ∃ b', While q Q b b' ∧ S a' b' := by
  induction h with
  | stop hp => exact fun b hb => ⟨b, .stop fun hq => hp ((hpq _ _ hb).mpr hq), hb⟩
  | step hp hr _ ih =>
    intro b hb
    obtain ⟨b', hq, hb'⟩ := hround _ _ _ hb hp hr
    obtain ⟨b'', hw, hb''⟩ := ih b' hb'
    exact ⟨b'', .step ((hpq _ _ hb).mp hp) hq hw, hb''⟩

theorem invariant {I : α → Prop} (hround : ∀ a b, I a → p a → R a b → I b) {a b : α}
    (h : While p R a b) (ha : I a) : I b ∧ ¬ p b := by
  induction h with
  | stop hp => exact ⟨ha, hp⟩
  | step hp hr _ ih => exact ih (hround _ _ ha hp hr)

theorem unique (hR : ∀ a b c, R a b → R a c → b = c) {a b c : α} (hb : While p R a b)
    (hc : While p R a c) : b = c := by
  induction hb with
  | stop hp =>
    cases hc with
    | stop => rfl
    | step hp' => exact absurd hp' hp
  | step hp hr _ ih =>
    cases hc with
    | stop hp' => exact absurd hp hp'
    | step _ hr' hc => exact ih (hR _ _ _ hr hr' ▸ hc)

end While

end TapeCompiler
