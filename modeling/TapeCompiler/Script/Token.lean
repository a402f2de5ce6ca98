/-! # Words and operators of the source language

Declaration keywords, the thirteen binary operators with their spellings (`Operator.tokens`, longest
first), assignment operators and the two steps `++` and `--`. -/

namespace TapeCompiler

/-- How a name was declared. -/
inductive DeclKind
  | var
  /-- Declared by `let`. -/
  | block
  | const
  | function
  deriving DecidableEq, Repr

/-- The kind a declaration keyword stands for. -/
def DeclKind.ofKeyword? : String → Option DeclKind
  | "var" => some var
  | "let" => some block
  | "const" => some const
  | _ => none

/-- The name used in listings. -/
def DeclKind.name : DeclKind → String
  | var => "Var"
  | block => "Let"
  | const => "Const"
  | function => "Function"

/-- A binary operator. -/
inductive Operator
  | add
  | sub
  | mul
  | div
  | mod
  | eq
  | notEq
  | lt
  | gt
  | ltEq
  | gtEq
  | and
  | or
  deriving DecidableEq, Repr

namespace Operator

/-- The spellings of the operators; a longer one comes before its own beginnings. -/
def tokens : List (String × Operator) :=
  [("===", eq), ("!==", notEq), ("==", eq), ("!=", notEq), ("<=", ltEq), (">=", gtEq),
    ("&&", and), ("||", or), ("+", add), ("-", sub), ("*", mul), ("/", div), ("%", mod),
    ("<", lt), (">", gt)]

/-- The spelling used in listings. -/
def symbol : Operator → String
  | add => "+"
  | sub => "-"
  | mul => "*"
  | div => "/"
  | mod => "%"
  | eq => "=="
  | notEq => "!="
  | lt => "<"
  | gt => ">"
  | ltEq => "<="
  | gtEq => ">="
  | and => "&&"
  | or => "||"

/-- Whether the operator yields one of its operands. -/
def isLogical : Operator → Bool
  | and | or => true
  | _ => false

end Operator

/-- An assignment operator. -/
inductive AssignOp
  | assign
  | add
  | sub
  | mul
  | div
  | mod
  deriving DecidableEq, Repr

namespace AssignOp

/-- The operator of a spelling. -/
def ofToken? : String → Option AssignOp
  | "=" => some assign
  | "+=" => some add
  | "-=" => some sub
  | "*=" => some mul
  | "/=" => some div
  | "%=" => some mod
  | _ => none

/-- The binary operator a compound assignment applies. -/
def operator? : AssignOp → Option Operator
  | assign => none
  | add => some .add
  | sub => some .sub
  | mul => some .mul
  | div => some .div
  | mod => some .mod

end AssignOp

/-- The two in-place steps. -/
inductive Step
  | increment
  | decrement
  deriving DecidableEq, Repr

end TapeCompiler
