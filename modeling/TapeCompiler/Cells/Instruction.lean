import TapeCompiler.Cells.Operand

/-! # Instructions

The instructions on cells that a program is lowered to. `reads`, `writes` and `blocks` list the
cells an instruction touches, `mapAddress` maps every address and `widen` stretches the operands
that stand for a whole value. -/

namespace TapeCompiler

/-- The numbers that a machine word holds. -/
def wordSize : Nat := UInt64.size

/-- A change of a cell in place. -/
inductive Change
  | increment
  | decrement
  | addBy (n : Int64)
  | subtractBy (n : Int64)
  deriving DecidableEq, Repr

/-- The signed amount of a change; negation wraps at 64 bits. -/
def Change.delta : Change → Int64
  | increment => 1
  | decrement => -1
  | addBy n => n
  | subtractBy n => -n

/-- An instruction on cells. -/
inductive Instruction
  /-- Writes a value from a cell on. -/
  | setValue (address : Nat) (value : Value)
  | copyValue (target source : Nat)
  | binary (target : Nat) (operator : Operator) (left right : Operand)
  | print (operands : List Operand)
  | callFunction (name : String) (args : List Operand) (target : Option Nat)
  /-- A call of a method of a variable. -/
  | callMethod (object : Nat) (objectName method : String) (args : List Operand)
      (target : Option Nat)
  | createArray (address : Nat) (elements : List Operand)
  | createObject (address : Nat) (fields : List (String × Operand))
  | label (name : String)
  | jump (label : String)
  /-- Jumps when the condition is zero. -/
  | jumpUnless (condition : Operand) (label : String)
  /-- Goes on when the condition holds, else jumps. -/
  | branch (condition : Operand) (elseLabel : String)
  | ret (value : Option Operand)
  | update (address : Nat) (change : Change)
  | comment (text : String)
  | importModule (name : String)
  | exportCell (name : String) (address : Nat)
  deriving DecidableEq, Repr, Inhabited

/-- The callee that prints. -/
def printCallee : String := "console.log"

namespace Instruction

/-- The name of an instruction's kind. -/
def kind : Instruction → String
  | setValue .. => "SetValue"
  | copyValue .. => "CopyValue"
  | binary .. => "BinaryOperation"
  | print _ => "Print"
  | callFunction .. => "CallFunction"
  | callMethod .. => "CallMethod"
  | createArray .. => "CreateArray"
  | createObject .. => "CreateObject"
  | label _ => "Label"
  | jump _ => "Jump"
  | jumpUnless .. => "ConditionalJump"
  | branch .. => "IfCondition"
  | ret _ => "Return"
  | update .. => "UpdateVariable"
  | comment _ => "Comment"
  | importModule _ => "Import"
  | exportCell .. => "Export"

/-- The operands, in order. -/
def operands : Instruction → List Operand
  | binary _ _ l r => [l, r]
  | print ops => ops
  | callFunction _ args _ | callMethod _ _ _ args _ => args
  | createArray _ elements => elements
  | createObject _ fields => fields.map Prod.snd
  | jumpUnless condition _ | branch condition _ => [condition]
  | ret value => value.toList
  | _ => []

/-- The cells read besides the operands. -/
def readsBeside : Instruction → List Nat
  | copyValue _ source => [source]
  | callMethod object .. => [object]
  | update address _ | exportCell _ address => [address]
  | _ => []

/-- The cells read, in order. -/
def reads (i : Instruction) : List Nat := i.operands.flatMap Operand.span ++ i.readsBeside

/-- The cells written, in order. -/
def writes : Instruction → List Nat
  | setValue address value => List.range' address value.size
  | copyValue target _ | binary target .. => [target]
  | callFunction _ _ target | callMethod _ _ _ _ target => target.toList
  | createArray address elements => List.range' address (max elements.length 1)
  | createObject address fields => List.range' address (max fields.length 1)
  | update address _ => [address]
  | _ => []

/-- The block of one cell. -/
def single (cell : Nat) : Nat × Nat := (cell, cell + 1)

/-- The blocks named besides the operands. -/
def blocksBeside : Instruction → List (Nat × Nat)
  | setValue address value => [(address, address + value.size)]
  | createArray address elements => [(address, address + max elements.length 1)]
  | createObject address fields => [(address, address + max fields.length 1)]
  | copyValue target source => [single target, single source]
  | binary target .. => [single target]
  | callFunction _ _ target => target.toList.map single
  | callMethod object _ _ _ target => single object :: target.toList.map single
  | update address _ | exportCell _ address => [single address]
  | _ => []

/-- The **blocks of cells named**, as first cell and the one past the last; a value of several
cells stays whole. -/
def blocks (i : Instruction) : List (Nat × Nat) :=
  (i.operands.map Operand.bounds).filter (fun b => b.1 < b.2) ++ i.blocksBeside

/-- One past the highest cell read or written. -/
def maxAddress (i : Instruction) : Nat :=
  (i.reads ++ i.writes).foldl (fun top cell => max top (cell + 1)) 0

/-- One past the highest cell named, in machine words: **a block that passes the last one** is taken
for an empty one. -/
def maxAddressWrapping (i : Instruction) : Nat :=
  i.blocks.foldl (fun top b => if b.2 < wordSize then max top b.2 else top) 0

/-- The instruction with **every address mapped**. -/
def mapAddress (f : Nat → Nat) : Instruction → Instruction
  | setValue address value => setValue (f address) value
  | copyValue target source => copyValue (f target) (f source)
  | binary target operator l r => binary (f target) operator (l.mapAddress f) (r.mapAddress f)
  | print ops => print (ops.map (Operand.mapAddress f))
  | callFunction name args target =>
    callFunction name (args.map (Operand.mapAddress f)) (target.map f)
  | callMethod object objectName method args target =>
    callMethod (f object) objectName method (args.map (Operand.mapAddress f)) (target.map f)
  | createArray address elements =>
    createArray (f address) (elements.map (Operand.mapAddress f))
  | createObject address fields =>
    createObject (f address) (fields.map fun (key, op) => (key, op.mapAddress f))
  | label name => label name
  | jump target => jump target
  | jumpUnless condition target => jumpUnless (condition.mapAddress f) target
  | branch condition elseLabel => branch (condition.mapAddress f) elseLabel
  | ret value => ret (value.map (Operand.mapAddress f))
  | update address change => update (f address) change
  | comment text => comment text
  | importModule name => importModule name
  | exportCell name address => exportCell name (f address)

/-- The instruction with the operands that stand for the whole block of `len` cells at `block`
stretched to `newLen` cells. Operands of operators keep their width. -/
def widen (block len newLen : Nat) : Instruction → Instruction
  | print ops => print (ops.map (Operand.widen block len newLen))
  | callFunction name args target =>
    callFunction name (args.map (Operand.widen block len newLen)) target
  | callMethod object objectName method args target =>
    callMethod object objectName method (args.map (Operand.widen block len newLen)) target
  | ret value => ret (value.map (Operand.widen block len newLen))
  | i => i

/-- Whether control can enter or leave here other than by going on. -/
def isBoundary : Instruction → Bool
  | label _ | jump _ | jumpUnless .. | branch .. | callFunction .. | callMethod .. | ret _ => true
  | _ => false

end Instruction

end TapeCompiler
