import TapeCompiler.Script.Statement

/-! # What reading ensures

Properties of what a reader gives, if it gives anything (`Ensures`), step by step along the reader.
A reading that gathers notices never drops one, so a property may also be claimed for the case that
none was added (`Reading.Silently`). -/

namespace TapeCompiler

namespace Source

variable {α β : Type} {p : α → Prop} {q : β → Prop}

/-! ### Properties of what is read -/

/-- What a part of reading gives, if it gives anything, **has a property**. -/
def Ensures (x : Except Fault α) (p : α → Prop) : Prop := ∀ a, x = .ok a → p a

/-- The same of a reading, whatever was noted before. -/
def Reading.Ensures (m : Reading α) (p : α → Prop) : Prop :=
  ∀ ns, Source.Ensures (m ns) fun r => p r.1

theorem ensures_ok {a : α} (h : p a) : Ensures (.ok a) p := fun _ ha => by cases ha; exact h

theorem ensures_error (f : Fault) : Ensures (.error f) p := fun _ h => by cases h

theorem Ensures.bind {x : Except Fault α} {g : α → Except Fault β} (hx : Ensures x p)
    (hg : ∀ a, p a → Ensures (g a) q) : Ensures (x >>= g) q := by
  cases x with
  | error f => exact ensures_error f
  | ok a => exact hg a (hx a rfl)

theorem Ensures.mono {x : Except Fault α} {p' : α → Prop} (hx : Ensures x p)
    (h : ∀ a, p a → p' a) : Ensures x p' := fun a ha => h a (hx a ha)

theorem Ensures.map {x : Except Fault α} (hx : Ensures x p) {g : α → β} (h : ∀ a, p a → q (g a)) :
    Ensures (x.map g) q := by
  cases x with
  | error f => exact ensures_error f
  | ok a => exact ensures_ok (h a (hx a rfl))

theorem ensures_any (x : Except Fault α) : Ensures x fun _ => True := fun _ _ => trivial

theorem ensures_mapM {g : β → Except Fault α} (hg : ∀ b, Ensures (g b) p) (l : List β) :
    Ensures (l.mapM g) fun as => ∀ a ∈ as, p a := by
  induction l with
  | nil => exact ensures_ok (by simp)
  | cons b l ih =>
    rw [List.mapM_cons]
    exact (hg b).bind fun a ha => ih.bind fun as has => ensures_ok (by simpa using ⟨ha, has⟩)

namespace Reading

theorem ensures_pure {a : α} (h : p a) : Ensures (pure a : Reading α) p := fun _ => ensures_ok h

theorem Ensures.bind {m : Reading α} {g : α → Reading β} (hm : Ensures m p)
    (hg : ∀ a, p a → Ensures (g a) q) : Ensures (m >>= g) q :=
  fun ns => (hm ns).bind fun r hr => hg r.1 hr r.2

theorem ensures_lift {x : Except Fault α} (hx : Source.Ensures x p) :
    Ensures (liftM x : Reading α) p := fun _ => hx.bind fun _ ha => ensures_ok ha

theorem ensures_notice (l : Line) (message : String) :
    Ensures (notice l message) fun _ => True := fun _ => ensures_ok trivial

/-- A reading **drops no notice**, and what it gives has a property under a condition if it adds
none. -/
def Silently (m : Reading α) (c : Prop) (p : α → Prop) : Prop :=
  ∀ ns, Source.Ensures (m ns) fun r =>
    ns.length ≤ r.2.length ∧ (c → r.2.length = ns.length → p r.1)

variable {c : Prop}

theorem silently_pure {a : α} (h : c → p a) : Silently (pure a) c p :=
  fun _ => ensures_ok ⟨Nat.le_refl _, fun hc _ => h hc⟩

theorem silently_throw (f : Fault) : Silently (throw f : Reading α) c p := fun _ => ensures_error f

/-- Two readings in a row add no notice only if **neither does**. -/
theorem Silently.bind {m : Reading α} {g : α → Reading β} (hm : Silently m c p)
    (hg : ∀ a, Silently (g a) (c ∧ p a) q) : Silently (m >>= g) c q := fun ns =>
  (hm ns).bind fun r hr => (hg r.1 r.2).mono fun r' hr' =>
    ⟨Nat.le_trans hr.1 hr'.1, fun hc hlen =>
      have hnone : r.2.length = ns.length := by have := hr.1; have := hr'.1; omega
      hr'.2 ⟨hc, hr.2 hc hnone⟩ (hlen.trans hnone.symm)⟩

theorem Silently.under {m : Reading α} (hm : Silently m True p) : Silently m c p := fun ns =>
  (hm ns).mono fun _ hr => ⟨hr.1, fun _ => hr.2 trivial⟩

theorem Silently.mono {m : Reading α} {p' : α → Prop} (hm : Silently m c p)
    (h : ∀ a, p a → p' a) : Silently m c p' := fun ns =>
  (hm ns).mono fun r hr => ⟨hr.1, fun hc hlen => h r.1 (hr.2 hc hlen)⟩

theorem silently_lift {x : Except Fault α} (hx : Source.Ensures x p) :
    Silently (liftM x : Reading α) c p := fun _ =>
  hx.bind fun _ ha => ensures_ok ⟨Nat.le_refl _, fun _ _ => ha⟩

theorem silently_notice (l : Line) (message : String) :
    Silently (notice l message) c fun _ => False := fun ns =>
  ensures_ok (a := ((), ns ++ [_])) ⟨by simp, fun _ h => by simp at h⟩

theorem silently_noticed (l : Line) (message : String) (a : α) :
    Silently (notice l message >>= fun _ => pure a) c p :=
  (silently_notice l message).bind fun _ => silently_pure fun h => h.2.elim

end Reading

end Source

end TapeCompiler
