import TapeCompiler.Proofs.Script.Printing
import Mathlib.Tactic.Common

/-! # Simple programs

A simple program (`Statement.Plain`) is built of declarations, functions, branches, loops, returns,
assignments, steps and calls, nested to any depth; its expressions are numbers, strings and
identifiers (`Expr.Atomic`). `Statement.levels` counts the levels of nesting that reading a
statement takes: each block and each expression inside of another is one level. -/

namespace TapeCompiler

open Source

/-- A number, a string or an identifier. -/
inductive Expr.Atomic : Expr → Prop
  | int (n : Int64) : Atomic (.literal (.int n))
  | str (s : String) : Atomic (.literal (.str s))
  | name {id : String} (h : isIdentifier id = true) : Atomic (.name id)

/-- An expression that is a statement of its own: an assignment, a step or the call of a **dotted
name**. -/
inductive Expr.Action : Expr → Prop
  | assign (o : AssignOp) {target : String} {value : Expr} (ht : isIdentifier target = true)
    (hv : value.Atomic) : Action (.assign o target value)
  | update (step : Step) {target : String} (ht : isIdentifier target = true) (before : Bool) :
    Action (.update step target before)
  | call {first : String} {more : List String} {args : List Expr}
    (hf : isIdentifier first = true) (hm : ∀ name ∈ more, isName name.toList = true)
    (ha : ∀ e ∈ args, e.Atomic) : Action (.call (more.foldl .member (.name first)) args)

/-- A statement of one line. -/
inductive Statement.OneLine : Statement → Prop
  | declare {kind : DeclKind} {name : String} {init : Option Expr} (hk : kind ≠ .function)
    (hn : isIdentifier name = true) (hi : ∀ e ∈ init, e.Atomic) : OneLine (.declare kind name init)
  | ret {argument : Option Expr} (ha : ∀ e ∈ argument, e.Atomic) : OneLine (.ret argument)
  | effect {e : Expr} (he : e.Action) : OneLine (.effect e)

/-- **A simple statement.** -/
inductive Statement.Plain : Statement → Prop
  | line {s : Statement} (h : s.OneLine) : Plain s
  | function {name : String} {params : List String} {body : List Statement}
    (hn : isIdentifier name = true) (hp : ∀ p ∈ params, isIdentifier p = true)
    (hb : ∀ s ∈ body, Plain s) : Plain (.function name params body)
  | branch {test : Expr} {consequent : List Statement} {alternate : Option (List Statement)}
    (ht : test.Atomic) (hc : ∀ s ∈ consequent, Plain s)
    (ha : ∀ body ∈ alternate, ∀ s ∈ body, Plain s) : Plain (.branch test consequent alternate)
  | loop {init : Option Statement} {test last : Option Expr} {body : List Statement}
    (hi : ∀ s ∈ init, s.OneLine) (ht : ∀ e ∈ test, e.Atomic)
    (hl : ∀ e ∈ last, e.Atomic ∨ e.Action) (hb : ∀ s ∈ body, Plain s) :
    Plain (.loop init test last body)

/-! ### Levels of nesting -/

mutual
/-- The levels that reading an expression takes; a dotted name takes **one**, however long it is. -/
def Expr.levels : Expr → Nat
  | .literal _ | .name _ | .member .. | .update .. => 1
  | .binary _ l r | .logical _ l r =>
    1 + max (if l.isOperation then l.levels + 1 else l.levels) r.levels
  | .call _ args => 1 + Expr.levelsOf args
  | .array es => 1 + Expr.levelsOf es
  | .assign _ _ value => 1 + value.levels

/-- The levels of expressions side by side. -/
def Expr.levelsOf : List Expr → Nat
  | [] => 0
  | e :: es => max e.levels (Expr.levelsOf es)
end

/-- The levels of an expression that may be absent. -/
def Expr.levelsOf? (e : Option Expr) : Nat := (e.map Expr.levels).getD 0

mutual
/-- The levels that reading a statement takes. -/
def Statement.levels : Statement → Nat
  | .declare _ _ e | .ret e => 1 + Expr.levelsOf? e
  | .function _ _ body => 1 + Statement.levelsOf body
  | .branch test yes no =>
    1 + max test.levels (max (Statement.levelsOf yes) (Statement.levelsOfElse no))
  | .loop init test last body =>
    1 + max (max (Statement.levelsOfInit init) (Expr.levelsOf? test))
      (max (Expr.levelsOf? last) (Statement.levelsOf body))
  | .effect e => e.levels

/-- The levels of a block; an empty one takes a level too. -/
def Statement.levelsOf : List Statement → Nat
  | [] => 1
  | s :: ss => max s.levels (Statement.levelsOf ss)

/-- The levels of an else branch. -/
def Statement.levelsOfElse : Option (List Statement) → Nat
  | none => 0
  | some ss => Statement.levelsOf ss

/-- The levels of a loop's first clause. -/
def Statement.levelsOfInit : Option Statement → Nat
  | none => 0
  | some s => s.levels
end

theorem Expr.levelsOf_le {es : List Expr} {room : Nat} :
    Expr.levelsOf es ≤ room ↔ ∀ e ∈ es, e.levels ≤ room := by
  induction es with
  | nil => simp [Expr.levelsOf]
  | cons e es ih => simp only [Expr.levelsOf, Nat.max_le, ih, List.forall_mem_cons]

theorem Statement.levelsOf_le {ss : List Statement} {room : Nat} :
    Statement.levelsOf ss ≤ room ↔ 1 ≤ room ∧ ∀ s ∈ ss, s.levels ≤ room := by
  induction ss with
  | nil => simp [Statement.levelsOf]
  | cons s ss ih =>
    simp only [Statement.levelsOf, Nat.max_le, ih, List.forall_mem_cons]
    tauto

theorem Expr.Atomic.levels {e : Expr} (h : e.Atomic) : e.levels = 1 := by
  cases h <;> rfl

end TapeCompiler
