import TapeCompiler.Cells.Instruction
import TapeCompiler.Proofs.Lowering.Scopes
import TapeCompiler.Proofs.Repetition
import TapeCompiler.Proofs.Tape.Results

/-! # What a program means

The block-scoped evaluation of a program tree, without memory, code or tapes: names hold values
scope by scope (`Env`), a value is a list of numbers of the width, one for each cell, and operators
take the first number of each operand. `Statement.Does` relates what was so before a statement to
what is so behind it; it relates nothing where the evaluation is stuck, which it is at a division by
zero, at a name without a binding, and at a name in its own declaration unless the scope bound it
before. A logical operator asks for its right operand only where it needs it.

`Script.Prints` is what a whole program prints; it is one output at most (`Script.Prints.unique`).

`Statement.plain` tells the statements of which the evaluation speaks, and `Statement.rooms?` how
much room each name has, as long as no name takes a value that is longer than its room. In a program
of numbers none does (`Script.fits_of_numbers`). -/

namespace TapeCompiler

/-! ### Environments -/

/-- Something for each name of the open scopes, **innermost first**; in a scope the last one
first. -/
abbrev Env (α : Type) := List (List (String × α))

namespace Env

variable {α : Type}

/-- What the innermost scope that binds a name has for it. -/
def value? (η : Env α) (x : String) : Option α := η.findSome? fun f => f.lookup x

/-- What the innermost scope has for a name. -/
def own? (η : Env α) (x : String) : Option α := η.head?.bind fun f => f.lookup x

/-- What a name has while another is declared, which **is hidden** then, unless the scope bound it
before. -/
def declaring (η : Env α) (x y : String) : Option α :=
  if y = x ∧ (η.own? x).isNone then none else η.value? y

/-- A name is bound **in the innermost scope**. -/
def declare (η : Env α) (x : String) (v : α) : Env α :=
  match η with
  | [] => []
  | f :: rest => ((x, v) :: f) :: rest

/-- A name gets something else **in the innermost scope that binds it**. -/
def assign (η : Env α) (x : String) (v : α) : Env α :=
  match η with
  | [] => []
  | f :: rest => if (f.lookup x).isSome then ((x, v) :: f) :: rest else f :: assign rest x v

end Env

/-! ### Expressions -/

/-- The numbers of a value, one for each cell. -/
def Value.numbers (w : CellWidth) (v : Value) : List Nat := v.cells.map w.wrap

/-- The result of an operator whose right operand may have no number. A logical operator yields one
of its operands, **the right one only if it needs it**. -/
def Operator.choose? (o : Operator) (m x : Nat) (y : Option Nat) : Option Nat :=
  match o with
  | .and => if x = 0 then some 0 else y
  | .or => if x = 0 then y else some x
  | o => y.bind fun y => o.result? m x y

namespace Expr

/-- **The value of an expression**, given those of the names. -/
def eval? (w : CellWidth) (read : String → Option (List Nat)) : Expr → Option (List Nat)
  | .literal (.int n) => some ((Value.int n).numbers w)
  | .literal (.str s) => some ((Value.str s).numbers w)
  | .name x => read x
  | .binary o l r | .logical o l r => do
    let x ← l.eval? w read
    let n ← o.choose? w.modulus (x.headD 0) ((r.eval? w read).map fun y => y.headD 0)
    return [n]
  | _ => none

/-- The first number of the value of an expression. -/
def number? (w : CellWidth) (read : String → Option (List Nat)) (e : Expr) : Option Nat :=
  (e.eval? w read).map fun vs => vs.headD 0

/-- What printing an expression shows of its value: all of a literal; else the first number, and the
others unless they are zero. -/
def shown (e : Expr) (vs : List Nat) : List Nat :=
  match e with
  | .literal _ => vs
  | _ => vs.headD 0 :: vs.tail.filter fun v => v ≠ 0

end Expr

/-! ### Statements -/

/-- What a program has come to: the values that its names hold, and what it has printed. -/
structure Progress where
  env : Env (List Nat)
  output : List Nat

namespace Progress

/-- A declaration; without a value, the name has a zero. -/
def declare? (w : CellWidth) (a : Progress) (x : String) (init : Option Expr) :
    Option Progress := do
  let vs ← match init with
    | none => some [0]
    | some e => e.eval? w (a.env.declaring x)
  return { a with env := a.env.declare x vs }

/-- A plain assignment of a name that is bound. -/
def assign? (w : CellWidth) (a : Progress) (x : String) (e : Expr) : Option Progress := do
  let vs ← e.eval? w a.env.value?
  let _ ← a.env.value? x
  return { a with env := a.env.assign x vs }

/-- An operator applied in place, **to the first number** of a name. -/
def combine? (w : CellWidth) (a : Progress) (x : String) (o : Operator) (n : Nat) :
    Option Progress := do
  let vs ← a.env.value? x
  let r ← o.result? w.modulus (vs.headD 0) n
  return { a with env := a.env.assign x (r :: vs.tail) }

/-- Printing an expression. -/
def print? (w : CellWidth) (a : Progress) (e : Expr) : Option Progress := do
  let vs ← e.eval? w a.env.value?
  return { a with output := a.output ++ e.shown vs }

/-- An expression done for its side effect. -/
def perform? (w : CellWidth) (a : Progress) : Expr → Option Progress
  | .assign o x e =>
    match o.operator? with
    | none => a.assign? w x e
    | some o => (e.number? w a.env.value?).bind fun n => a.combine? w x o n
  | .update .increment x _ => a.combine? w x .add 1
  | .update .decrement x _ => a.combine? w x .sub 1
  | .call callee [e] => if callee.qualifiedName? = some printCallee then a.print? w e else none
  | _ => none

/-- Something done in a scope of its own, whose names are **gone behind it**. -/
def Scoped (D : Progress → Progress → Prop) (a b : Progress) : Prop :=
  ∃ c, D { a with env := [] :: a.env } c ∧ b = { c with env := c.env.tail }

/-- The number of a test; one that is absent always holds. -/
def test? (w : CellWidth) (a : Progress) (test : Option Expr) : Option Nat :=
  test.elim (some 1) fun e => e.number? w a.env.value?

/-- What is done behind each round of a loop, if there is something. -/
def last? (w : CellWidth) (a : Progress) (last : Option Expr) : Option Progress :=
  last.elim (some a) (a.perform? w)

end Progress

mutual
/-- **What a statement does.** -/
def Statement.Does (w : CellWidth) : Statement → Progress → Progress → Prop
  | .declare _ x init => fun a b => a.declare? w x init = some b
  | .branch test yes no => fun a b => ∃ n, test.number? w a.env.value? = some n ∧
      if n ≠ 0 then Progress.Scoped (DoesAll w yes) a b else DoesElse w no a b
  | .loop init test last body => Progress.Scoped fun a b => ∃ c, DoesInit w init a c ∧
      While (fun a => ∃ n, a.test? w test = some n ∧ n ≠ 0)
        (fun a b => ∃ c, Progress.Scoped (DoesAll w body) a c ∧ c.last? w last = some b) c b ∧
      b.test? w test = some 0
  | .effect e => fun a b => a.perform? w e = some b
  | .function .. | .ret _ => fun _ _ => False

/-- What statements do, in order. -/
def Statement.DoesAll (w : CellWidth) : List Statement → Progress → Progress → Prop
  | [] => fun a b => b = a
  | s :: rest => fun a b => ∃ c, s.Does w a c ∧ DoesAll w rest c b

/-- What the block behind an else does, if there is one. -/
def Statement.DoesElse (w : CellWidth) : Option (List Statement) → Progress → Progress → Prop
  | none => fun a b => b = a
  | some body => Progress.Scoped (DoesAll w body)

/-- What the first clause of a loop does, if there is one. -/
def Statement.DoesInit (w : CellWidth) : Option Statement → Progress → Progress → Prop
  | none => fun a b => b = a
  | some s => s.Does w
end

/-- **What a program prints**, as numbers of the width. -/
def Script.Prints (w : CellWidth) (s : Script) (output : List Nat) : Prop :=
  ∃ b, Statement.DoesAll w s.body ⟨[[]], []⟩ b ∧ b.output = output

/-! ### One outcome -/

/-- A relation **with one outcome** at most. -/
def Functional {α : Type} (D : α → α → Prop) : Prop := ∀ a b c, D a b → D a c → b = c

theorem Progress.Scoped.functional {D : Progress → Progress → Prop} (h : Functional D) :
    Functional (Scoped D) := by
  rintro a _ _ ⟨b, hb, rfl⟩ ⟨c, hc, rfl⟩
  rw [h _ b c hb hc]

mutual
theorem Statement.functional_does {w : CellWidth} : ∀ s : Statement, Functional (s.Does w)
  | .declare _ x init => by
    intro a b c hb hc
    rw [Statement.Does] at hb hc
    exact Option.some.inj (hb.symm.trans hc)
  | .branch test yes no => by
    intro a b c hb hc
    rw [Statement.Does] at hb hc
    obtain ⟨n, hn, hb⟩ := hb
    obtain ⟨m, hm, hc⟩ := hc
    obtain rfl := Option.some.inj (hn.symm.trans hm)
    split_ifs at hb hc
    · exact (Progress.Scoped.functional (functional_doesAll yes)) a b c hb hc
    · exact functional_doesElse no a b c hb hc
  | .loop init test last body => by
    rw [Statement.Does]
    refine Progress.Scoped.functional fun a b c hb hc => ?_
    obtain ⟨b₁, hb₁, hb, -⟩ := hb
    obtain ⟨c₁, hc₁, hc, -⟩ := hc
    obtain rfl := functional_doesInit init a b₁ c₁ hb₁ hc₁
    refine hb.unique (fun x y z ⟨y₁, hy₁, hy⟩ ⟨z₁, hz₁, hz⟩ => ?_) hc
    obtain rfl := Progress.Scoped.functional (functional_doesAll body) x y₁ z₁ hy₁ hz₁
    exact Option.some.inj (hy.symm.trans hz)
  | .effect e => by
    intro a b c hb hc
    rw [Statement.Does] at hb hc
    exact Option.some.inj (hb.symm.trans hc)
  | .function .. | .ret _ => by
    intro a b c hb
    rw [Statement.Does] at hb
    exact hb.elim

theorem Statement.functional_doesAll {w : CellWidth} :
    ∀ l : List Statement, Functional (Statement.DoesAll w l)
  | [] => by
    intro a b c hb hc
    rw [Statement.DoesAll] at hb hc
    rw [hb, hc]
  | s :: rest => by
    intro a b c hb hc
    rw [Statement.DoesAll] at hb hc
    obtain ⟨b₁, hb₁, hb⟩ := hb
    obtain ⟨c₁, hc₁, hc⟩ := hc
    obtain rfl := functional_does s a b₁ c₁ hb₁ hc₁
    exact functional_doesAll rest b₁ b c hb hc

theorem Statement.functional_doesElse {w : CellWidth} :
    ∀ o : Option (List Statement), Functional (Statement.DoesElse w o)
  | none => by
    intro a b c hb hc
    rw [Statement.DoesElse] at hb hc
    rw [hb, hc]
  | some body => by
    rw [Statement.DoesElse]
    exact Progress.Scoped.functional (functional_doesAll body)

theorem Statement.functional_doesInit {w : CellWidth} :
    ∀ o : Option Statement, Functional (Statement.DoesInit w o)
  | none => by
    intro a b c hb hc
    rw [Statement.DoesInit] at hb hc
    rw [hb, hc]
  | some s => by
    rw [Statement.DoesInit]
    exact functional_does s
end

theorem Script.Prints.unique {w : CellWidth} {s : Script} {o o' : List Nat} (h : s.Prints w o)
    (h' : s.Prints w o') : o = o' := by
  obtain ⟨b, hb, rfl⟩ := h
  obtain ⟨c, hc, rfl⟩ := h'
  rw [Statement.functional_doesAll s.body _ b c hb hc]

/-! ### The statements that are evaluated -/

namespace Expr

/-- Whether an expression is made of **numbers of the width, names and operators**. -/
def scalar (w : CellWidth) : Expr → Bool
  | .literal (.int n) => 0 ≤ n.toInt && n.toInt < w.modulus
  | .name _ => true
  | .binary _ l r | .logical _ l r => l.scalar w && r.scalar w
  | _ => false

/-- Whether an expression may be stored or printed: one of numbers, or a text if `texts` are
allowed. -/
def storable (w : CellWidth) (texts : Bool) : Expr → Bool
  | .literal (.str _) => texts
  | e => e.scalar w

/-- Whether an expression is an assignment, a step, or prints one thing. -/
def performable (w : CellWidth) (texts : Bool) : Expr → Bool
  | .assign o _ e => if o = .assign then e.storable w texts else e.scalar w
  | .update .. => true
  | .call callee [e] => callee.qualifiedName? = some printCallee && e.storable w texts
  | _ => false

end Expr

mutual
/-- Whether a statement is made of **declarations, assignments, steps, branches, loops and
printing**. -/
def Statement.plain (w : CellWidth) (texts : Bool) : Statement → Bool
  | .declare _ _ init => init.all fun e => e.storable w texts
  | .branch test yes no => test.scalar w && plainAll w texts yes && plainElse w texts no
  | .loop init test last body => plainInit w texts init && test.all (Expr.scalar w)
      && plainAll w texts body && last.all fun e => e.performable w texts
  | .effect e => e.performable w texts
  | .function .. | .ret _ => false

/-- Whether all statements are plain. -/
def Statement.plainAll (w : CellWidth) (texts : Bool) : List Statement → Bool
  | [] => true
  | s :: rest => s.plain w texts && plainAll w texts rest

/-- Whether the block behind an else is plain, if there is one. -/
def Statement.plainElse (w : CellWidth) (texts : Bool) : Option (List Statement) → Bool
  | none => true
  | some body => plainAll w texts body

/-- Whether the first clause of a loop is plain, if there is one. -/
def Statement.plainInit (w : CellWidth) (texts : Bool) : Option Statement → Bool
  | none => true
  | some s => s.plain w texts
end

/-! ### Rooms -/

/-- The cells that the value of an expression takes, given **the room of each name**. -/
def Expr.room (room? : String → Option Nat) : Expr → Nat
  | .literal (.str s) => max s.length 1
  | .name x => (room? x).getD 1
  | _ => 1

/-- The rooms behind a request for `n` cells, given the room there is already: a value that does not
fit has none. -/
def Env.claim? (ρ : Env Nat) (x : String) (n : Nat) : Option Nat → Option (Env Nat)
  | none => some (ρ.declare x n)
  | some k => if n ≤ k then some ρ else none

/-- The rooms behind an expression done for its side effect. -/
def Expr.rooms? (ρ : Env Nat) : Expr → Option (Env Nat)
  | .assign .assign x e => ρ.claim? x (e.room ρ.value?) (ρ.value? x)
  | _ => some ρ

mutual
/-- **The rooms behind a statement**, if every value in it fits. -/
def Statement.rooms? : Statement → Env Nat → Option (Env Nat)
  | .declare _ x init => fun ρ => ρ.claim? x ((init.map (Expr.room ρ.value?)).getD 1) (ρ.own? x)
  | .branch _ yes no => fun ρ => do
    let _ ← roomsAll? yes ([] :: ρ)
    let _ ← roomsElse? no ρ
    return ρ
  | .loop init _ last body => fun ρ => do
    let inside ← roomsInit? init ([] :: ρ)
    let _ ← roomsAll? body ([] :: inside)
    let _ ← last.elim (some inside) (Expr.rooms? inside)
    return ρ
  | .effect e => fun ρ => e.rooms? ρ
  | .function .. | .ret _ => some

/-- The rooms behind statements, in order. -/
def Statement.roomsAll? : List Statement → Env Nat → Option (Env Nat)
  | [] => some
  | s :: rest => fun ρ => (s.rooms? ρ).bind (roomsAll? rest)

/-- The rooms in the block behind an else, if there is one. -/
def Statement.roomsElse? : Option (List Statement) → Env Nat → Option (Env Nat)
  | none => some
  | some body => fun ρ => roomsAll? body ([] :: ρ)

/-- The rooms behind the first clause of a loop, if there is one. -/
def Statement.roomsInit? : Option Statement → Env Nat → Option (Env Nat)
  | none => some
  | some s => s.rooms?
end

/-- Every value of a program **fits the room** of the name that takes it. -/
def Script.Fits (s : Script) : Prop := (Statement.roomsAll? s.body [[]]).isSome = true

/-! ### Programs of numbers -/

/-- Every name has **a single cell**. -/
def Env.Single (ρ : Env Nat) : Prop := ∀ x, ∀ k ∈ ρ.value? x, k = 1

namespace Env.Single

variable {ρ : Env Nat} {x : String}

theorem enter (h : ρ.Single) : Env.Single ([] :: ρ) := fun y k hk => h y k hk

theorem declare (h : ρ.Single) : (ρ.declare x 1).Single := by
  intro y k hk
  cases ρ with
  | nil => exact h y k hk
  | cons f rest =>
    rw [Env.declare, Env.value?, List.findSome?_cons, List.lookup_cons] at hk
    by_cases hyx : y = x
    · rw [beq_iff_eq.mpr hyx] at hk
      exact (Option.some.inj hk).symm
    · rw [beq_eq_false_iff_ne.mpr hyx] at hk
      exact h y k (by rwa [Env.value?, List.findSome?_cons])

/-- A number **has room** where every name has a single cell. -/
theorem claim? (h : ρ.Single) {found : Option Nat} (hfound : ∀ k ∈ found, k = 1) :
    ∃ ρ', ρ.claim? x 1 found = some ρ' ∧ ρ'.Single := by
  cases found with
  | none => exact ⟨_, rfl, h.declare⟩
  | some k =>
    obtain rfl := hfound k rfl
    exact ⟨ρ, rfl, h⟩

theorem own? (h : ρ.Single) : ∀ k ∈ ρ.own? x, k = 1 := by
  intro k hk
  cases ρ with
  | nil => cases hk
  | cons f rest =>
    have hf : f.lookup x = some k := hk
    exact h x k (by rw [Env.value?, List.findSome?_cons, hf]; rfl)

theorem room (h : ρ.Single) {w : CellWidth} {e : Expr} (he : e.storable w false = true) :
    e.room ρ.value? = 1 := by
  unfold Expr.room
  split
  · cases he
  · next x =>
    cases hx : ρ.value? x with
    | none => rfl
    | some k => exact h x k hx
  · rfl

theorem rooms? (h : ρ.Single) {w : CellWidth} {e : Expr} (he : e.performable w false = true) :
    ∃ ρ', e.rooms? ρ = some ρ' ∧ ρ'.Single := by
  unfold Expr.rooms?
  split
  · rw [h.room (by simpa [Expr.performable] using he)]
    exact h.claim? fun k hk => h _ k hk
  · exact ⟨ρ, rfl, h⟩

end Env.Single

section Numbers
variable {w : CellWidth}

mutual
theorem Statement.rooms?_of_numbers : ∀ {s : Statement} {ρ : Env Nat}, s.plain w false = true →
    ρ.Single → ∃ ρ', s.rooms? ρ = some ρ' ∧ ρ'.Single
  | .declare _ x init, ρ, hs, h => by
    have hroom : (init.map (Expr.room ρ.value?)).getD 1 = 1 := by
      cases init with
      | none => rfl
      | some e => exact h.room hs
    rw [Statement.rooms?]
    dsimp only
    rw [hroom]
    exact h.claim? h.own?
  | .branch _ yes no, ρ, hs, h => by
    simp only [Statement.plain, Bool.and_eq_true] at hs
    obtain ⟨ρy, hy, -⟩ := roomsAll?_of_numbers hs.1.2 h.enter
    obtain ⟨ρn, hn⟩ := roomsElse?_of_numbers hs.2 h
    exact ⟨ρ, by simp [Statement.rooms?, hy, hn], h⟩
  | .loop init _ last body, ρ, hs, h => by
    simp only [Statement.plain, Bool.and_eq_true] at hs
    obtain ⟨⟨⟨hinit, -⟩, hbody⟩, hlast⟩ := hs
    obtain ⟨inside, hi, hin⟩ := roomsInit?_of_numbers hinit h.enter
    obtain ⟨ρb, hb, -⟩ := roomsAll?_of_numbers hbody hin.enter
    obtain ⟨ρl, hl⟩ : ∃ ρl, last.elim (some inside) (Expr.rooms? inside) = some ρl := by
      cases last with
      | none => exact ⟨_, rfl⟩
      | some e =>
        obtain ⟨ρl, hl, -⟩ := hin.rooms? hlast
        exact ⟨ρl, hl⟩
    exact ⟨ρ, by simp [Statement.rooms?, hi, hb, hl], h⟩
  | .effect e, ρ, hs, h => by
    rw [Statement.rooms?]
    exact h.rooms? hs
  | .function .., _, hs, _ | .ret _, _, hs, _ => by cases hs

theorem Statement.roomsAll?_of_numbers : ∀ {l : List Statement} {ρ : Env Nat},
    Statement.plainAll w false l = true → ρ.Single →
      ∃ ρ', Statement.roomsAll? l ρ = some ρ' ∧ ρ'.Single
  | [], ρ, _, h => ⟨ρ, by rw [Statement.roomsAll?], h⟩
  | s :: rest, ρ, hs, h => by
    simp only [Statement.plainAll, Bool.and_eq_true] at hs
    obtain ⟨ρ₁, h₁, hsingle⟩ := rooms?_of_numbers hs.1 h
    obtain ⟨ρ₂, h₂, hsingle⟩ := roomsAll?_of_numbers hs.2 hsingle
    exact ⟨ρ₂, by simp [Statement.roomsAll?, h₁, h₂], hsingle⟩

theorem Statement.roomsElse?_of_numbers : ∀ {o : Option (List Statement)} {ρ : Env Nat},
    Statement.plainElse w false o = true → ρ.Single → ∃ ρ', Statement.roomsElse? o ρ = some ρ'
  | none, ρ, _, _ => ⟨ρ, by rw [Statement.roomsElse?]⟩
  | some body, ρ, hs, h => by
    obtain ⟨ρ', hb, -⟩ := roomsAll?_of_numbers (l := body) hs h.enter
    exact ⟨ρ', by simp [Statement.roomsElse?, hb]⟩

theorem Statement.roomsInit?_of_numbers : ∀ {o : Option Statement} {ρ : Env Nat},
    Statement.plainInit w false o = true → ρ.Single →
      ∃ ρ', Statement.roomsInit? o ρ = some ρ' ∧ ρ'.Single
  | none, ρ, _, h => ⟨ρ, by rw [Statement.roomsInit?], h⟩
  | some s, ρ, hs, h => by
    rw [Statement.roomsInit?]
    exact rooms?_of_numbers (s := s) hs h
end

theorem Script.fits_of_numbers {s : Script} (hs : Statement.plainAll w false s.body = true) :
    s.Fits := by
  have hempty : Env.Single [[]] := fun x k hk => by cases hk
  obtain ⟨ρ, hρ, -⟩ := Statement.roomsAll?_of_numbers hs hempty
  rw [Script.Fits, hρ, Option.isSome_some]

end Numbers

end TapeCompiler
