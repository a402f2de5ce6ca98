import TapeCompiler.Number
import TapeCompiler.Script.Token

/-! # The program tree

Expressions and statements as they are read. `Script` is a whole program with the notices on the
lines that were skipped; `nodeCount` counts its nodes. -/

namespace TapeCompiler

/-- A literal as written. -/
inductive Literal
  | int (n : Int64)
  | float (x : Binary64)
  | str (s : String)
  | bool (b : Bool)
  | null
  deriving DecidableEq, Repr

/-- An expression. -/
inductive Expr
  | literal (value : Literal)
  | name (id : String)
  | binary (operator : Operator) (left right : Expr)
  /-- An operator that yields one of its operands. -/
  | logical (operator : Operator) (left right : Expr)
  | call (callee : Expr) (arguments : List Expr)
  | member (object : Expr) (property : String)
  | array (elements : List Expr)
  | assign (operator : AssignOp) (target : String) (value : Expr)
  /-- A step; `before` tells whether it is written in front of the name. -/
  | update (step : Step) (target : String) (before : Bool)
  deriving Repr, Inhabited

/-- A statement. -/
inductive Statement
  | declare (kind : DeclKind) (name : String) (init : Option Expr)
  | function (name : String) (params : List String) (body : List Statement)
  | branch (test : Expr) (consequent : List Statement) (alternate : Option (List Statement))
  | loop (init : Option Statement) (test update : Option Expr) (body : List Statement)
  | ret (argument : Option Expr)
  | effect (e : Expr)
  deriving Repr, Inhabited

/-! ### Counting nodes -/

mutual
/-- The nodes of an expression. -/
def Expr.nodeCount : Expr → Nat
  | .literal _ | .name _ | .update .. => 1
  | .binary _ l r | .logical _ l r => 1 + l.nodeCount + r.nodeCount
  | .call c args => 1 + c.nodeCount + nodesOf args
  | .member o _ => 1 + o.nodeCount
  | .array es => 1 + nodesOf es
  | .assign _ _ v => 1 + v.nodeCount

/-- The nodes of a list of expressions. -/
def Expr.nodesOf : List Expr → Nat
  | [] => 0
  | e :: es => e.nodeCount + nodesOf es
end

/-- The nodes of an expression that may be absent. -/
def Expr.nodesOf? (e : Option Expr) : Nat := (e.map Expr.nodeCount).getD 0

mutual
/-- The nodes of a statement. -/
def Statement.nodeCount : Statement → Nat
  | .declare _ _ init => 1 + Expr.nodesOf? init
  | .function _ _ body => 1 + Statement.nodesOf body
  | .branch test yes no => 1 + test.nodeCount + Statement.nodesOf yes + Statement.nodesOfElse no
  | .loop init test update body =>
    1 + Statement.nodesOfInit init + Expr.nodesOf? test + Expr.nodesOf? update
      + Statement.nodesOf body
  | .ret argument => 1 + Expr.nodesOf? argument
  | .effect e => 1 + e.nodeCount

/-- The nodes of a list of statements. -/
def Statement.nodesOf : List Statement → Nat
  | [] => 0
  | s :: ss => s.nodeCount + Statement.nodesOf ss

/-- The nodes of an else branch. -/
def Statement.nodesOfElse : Option (List Statement) → Nat
  | none => 0
  | some ss => Statement.nodesOf ss

/-- The nodes of a loop's first clause. -/
def Statement.nodesOfInit : Option Statement → Nat
  | none => 0
  | some s => s.nodeCount
end

/-- The dotted name of an identifier or a chain of members. -/
def Expr.qualifiedName? : Expr → Option String
  | .name id => some id
  | .member object property => object.qualifiedName?.map fun base => base ++ "." ++ property
  | _ => none

/-- A line that was skipped, and why. -/
structure Notice where
  line : Nat
  text : String
  message : String
  deriving DecidableEq, Repr

/-- The wording of a notice. -/
def Notice.display (n : Notice) : String := s!"line {n.line}: {n.message} ({n.text})"

/-- A whole program. -/
structure Script where
  body : List Statement
  notices : List Notice
  deriving Repr, Inhabited

/-- The nodes of a program, itself included. -/
def Script.nodeCount (s : Script) : Nat := 1 + Statement.nodesOf s.body

end TapeCompiler
