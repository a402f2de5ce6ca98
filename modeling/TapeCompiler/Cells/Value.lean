import TapeCompiler.Number
import TapeCompiler.Script.Token
import TapeCompiler.Text.Classes

/-! # Values

A value known before the program runs: an integer of 64 bits, a text, a truth value or null. A
value occupies cells (`Value.cells`, never none), has a truth and sometimes a number, and two values
under an operator may fold into one (`fold`). -/

namespace TapeCompiler

/-- A value known before the program runs. -/
inductive Value
  | int (n : Int64)
  | str (s : String)
  | bool (b : Bool)
  | null
  deriving DecidableEq, Repr, Inhabited

namespace Value

/-- A truth value as a number. -/
def ofBool (b : Bool) : Int64 := if b then 1 else 0

/-- The truth of a value. -/
def truthy : Value → Bool
  | int n => n ≠ 0
  | str s => !s.isEmpty
  | bool b => b
  | null => false

/-- The number of a value; a text has one when it is blank or writes an integer between blanks. -/
def number? : Value → Option Int64
  | int n => some n
  | bool b => some (ofBool b)
  | null => some 0
  | str s =>
    let digits := Text.trim s.toList
    if digits.isEmpty then some 0 else readInt64 digits

/-- The cells of a value before they are wrapped; a text takes **one cell for each character**. -/
def cells : Value → List Int64
  | int n => [n]
  | bool b => [ofBool b]
  | null => [0]
  | str s => if s.isEmpty then [0] else s.toList.map fun c => Int64.ofNat c.toNat

/-- The number of cells of a value. -/
def size (v : Value) : Nat := v.cells.length

/-- The first cell of a value. -/
def firstCell (v : Value) : Int64 := v.cells.headD 0

/-- The text of a value. -/
def text : Value → String
  | int n => toString n.toInt
  | str s => s
  | bool b => if b then "true" else "false"
  | null => "null"

theorem cells_ne_nil (v : Value) : v.cells ≠ [] := by
  cases v with
  | str s =>
    simp only [cells]
    split
    · simp
    · rename_i h; simpa [String.isEmpty_iff, String.toList_eq_nil_iff] using h
  | _ => simp [cells]

theorem size_pos (v : Value) : 0 < v.size :=
  List.length_pos_iff.mpr v.cells_ne_nil

/-! ### Folding -/

/-- Equality across types: texts as texts, null with null only, all else by number. -/
def looseEq : Value → Value → Bool
  | str a, str b => a = b
  | null, null => true
  | null, _ | _, null => false
  | l, r =>
    match l.number?, r.number? with
    | some a, some b => a = b
    | _, _ => false

/-- Order across types: texts by code points, all else by number. -/
def order? : Value → Value → Option Ordering
  | str a, str b => some (compare a b)
  | l, r =>
    match l.number?, r.number? with
    | some a, some b => some (compare a.toInt b.toInt)
    | _, _ => none

/-- An operation on the numbers of two values. -/
def arith (f : Int64 → Int64 → Option Int64) (l r : Value) : Option Value :=
  match l.number?, r.number? with
  | some a, some b => (f a b).map int
  | _, _ => none

/-- The value of an operator on two values, **unless it is undefined** (a division by zero, a text
without a number). Integers wrap at 64 bits and division goes toward zero. -/
def fold (o : Operator) (l r : Value) : Option Value :=
  match o with
  | .and => some (if l.truthy then r else l)
  | .or => some (if l.truthy then l else r)
  | .add =>
    match l, r with
    | str _, _ | _, str _ => some (str (l.text ++ r.text))
    | _, _ => arith (fun a b => some (a + b)) l r
  | .sub => arith (fun a b => some (a - b)) l r
  | .mul => arith (fun a b => some (a * b)) l r
  | .div => arith (fun a b => if b = 0 then none else some (a / b)) l r
  | .mod => arith (fun a b => if b = 0 then none else some (a % b)) l r
  | .eq => some (bool (looseEq l r))
  | .notEq => some (bool (!looseEq l r))
  | .lt => (order? l r).map fun c => bool (c = .lt)
  | .gt => (order? l r).map fun c => bool (c = .gt)
  | .ltEq => (order? l r).map fun c => bool (c ≠ .gt)
  | .gtEq => (order? l r).map fun c => bool (c ≠ .lt)

end Value

end TapeCompiler
