import TapeCompiler.Fault
import TapeCompiler.Number
import TapeCompiler.Script.Pattern
import TapeCompiler.Script.Tree

/-! # Reading expressions

An expression is a text in parentheses, a string, a number, a word, two expressions around the
**first operator** outside of quotes and brackets, a call, a chain of members, an array, or else a
name (`readExpr`). Operators have no precedence. The first argument of the reader is the number of
levels of nesting that are left. -/

namespace TapeCompiler.Source

open Text

/-! ### Strings -/

/-- The character an escape stands for. -/
def unescape (c : Char) : Char :=
  if c = 'n' then '\n' else if c = 't' then '\t' else if c = 'r' then '\r'
  else if c = '0' then '\x00' else c

/-- The characters a quotation stands for; a quote or a lone backslash in it spoils it. -/
def decode (quote : Char) : List Char → Option (List Char)
  | [] => some []
  | '\\' :: c :: r => (decode quote r).map (unescape c :: ·)
  | c :: r => if c = '\\' ∨ c = quote then none else (decode quote r).map (c :: ·)

/-- The characters of a text that is one quotation. -/
def quotation? (cs : List Char) : Option (List Char) :=
  match cs with
  | q :: c :: r => if isQuote q then (before? q (c :: r)).bind (decode q) else none
  | _ => none

/-! ### Numbers and words -/

/-- The literal of a number text: an integer if it fits 64 bits, else a floating-point number. -/
def readNumber (t : NumberText) (text : List Char) : Except Fault Literal :=
  let fraction := Binary64.ofDigits? t.negative t.whole (t.places.getD [])
  match if t.places.isNone then readInt64 text else none, fraction with
  | some n, _ => .ok (.int n)
  | none, some x => .ok (.float x)
  | none, none => .error (.invalidNumber (String.ofList text))

/-- The literal of a reserved word. -/
def word? (cs : List Char) : Option Literal :=
  match String.ofList cs with
  | "true" => some (.bool true)
  | "false" => some (.bool false)
  | "null" | "undefined" => some .null
  | _ => none

/-! ### Operators -/

/-- Whether a sign behind this character belongs to the operand that follows. -/
def beforeSign : Option Char → Bool
  | none => true
  | some c => "([,+-*/%<>=!&|".toList.contains c

/-- Whether a character counts as a gap between operand and sign. -/
def isGap (c : Char) : Bool := c = ' ' || c = '\t' || c = '\n' || c = '\x0c' || c = '\r'

/-- The state of the search for an operator. -/
structure Search where
  /-- The text passed, backwards. -/
  passed : List Char
  depth : Int
  /-- The last character that is no gap. -/
  previous : Option Char
  deriving DecidableEq, Repr

/-- The operator that starts a text. -/
def tokenAt? (cs : List Char) : Option (List Char × Operator) :=
  (Operator.tokens.map fun (token, o) => (token.toList, o)).find? fun (token, _) =>
    (after? token cs).isSome

/-- Whether an operator token splits here: a sign does not if it is **doubled or unary**. -/
def splits (k : Search) (token : List Char) (c : Char) (r : List Char) : Bool :=
  let sign := token = ['+'] || token = ['-']
  let doubled := r.head? = some c || k.passed.head? = some c
  !(sign && (doubled || beforeSign k.previous))

/-- The first operator outside of quotes at depth zero, with the texts before and behind it. -/
def findOperator (k : Search) : Marked → Option (List Char × Operator × List Char)
  | [] => none
  | (c, isPlain) :: r =>
    let depth := deeper k.depth (c, isPlain)
    -- no token is longer than three characters
    let ahead := chars (r.take 2)
    let next : Search := ⟨c :: k.passed, depth, if isGap c then k.previous else some c⟩
    match if isPlain ∧ depth = 0 then tokenAt? (c :: ahead) else none with
    | some (token, o) =>
      if splits k token c ahead then some (k.passed.reverse, o, chars (r.drop (token.length - 1)))
      else findOperator next r
    | none => findOperator next r

/-- The two sides of an expression around its first operator, if neither is blank. -/
def operation? (cs : List Char) : Option (List Char × Operator × List Char) :=
  (findOperator ⟨[], 0, none⟩ (plain cs)).bind fun (left, o, right) =>
    let left := trim left
    let right := trim right
    if left.isEmpty ∨ right.isEmpty then none else some (left, o, right)

/-- Two expressions under an operator. -/
def operation (o : Operator) (left right : Expr) : Expr :=
  if o.isLogical then .logical o left right else .binary o left right

/-! ### Calls and members -/

/-- The expression of a dotted name. -/
def chain : List (List Char) → Expr
  | [] => .name ""
  | first :: rest =>
    rest.foldl (fun object property => .member object (String.ofList property))
      (.name (String.ofList first))

/-- The chain of members that a text is. -/
def members? (cs : List Char) : Option Expr :=
  match dotted? cs with
  | some (names, []) => if names.length > 1 then some (chain names) else none
  | _ => none

/-- The texts between commas; a blank text has none. -/
def items (cs : List Char) : List (List Char) :=
  if (trim cs).isEmpty then [] else splitTop ',' cs

/-- The callee and the argument texts of a call whose **last character closes the arguments**. -/
def callParts? (cs : List Char) : Option (List (List Char) × List (List Char)) := do
  let (names, r) ← dotted? cs
  let r ← oneLine? (trimFront r)
  let inner ← enclosed? '(' ')' r
  return (names, items inner)

/-- A call, with a reader for its arguments. -/
def readCall (arg : List Char → Except Fault Expr) (cs : List Char) :
    Except Fault (Option Expr) :=
  match callParts? cs with
  | none => .ok none
  | some (names, args) => do return some (.call (chain names) (← args.mapM arg))

/-! ### Expressions -/

/-- Reads an expression; the first argument is the number of levels of nesting left. -/
def readExpr : Nat → List Char → Except Fault Expr
  | 0, _ => .error (.exceeded .expressionNesting)
  | room + 1, cs =>
    let text := trim cs
    match enclosed? '(' ')' text with
    | some inner => readExpr room inner
    | none =>
    match quotation? text with
    | some s => .ok (.literal (.str (String.ofList s)))
    | none =>
    match numberText? text with
    | some t => (readNumber t text).map .literal
    | none =>
    match word? text with
    | some w => .ok (.literal w)
    | none =>
    match operation? text with
    | some (left, o, right) => do
      let left ← readExpr room left
      let right ← readExpr room right
      return operation o left right
    | none => do
      match ← readCall (readExpr room) text with
      | some call => return call
      | none =>
      match members? text with
      | some e => return e
      | none =>
      match enclosed? '[' ']' text with
      | some inner => return .array (← (items inner).mapM (readExpr room))
      | none => return .name (String.ofList text)

/-- The number of levels of nesting left at a depth. -/
def roomAt (depth : Nat) : Nat := nestingLimit + 1 - depth

end TapeCompiler.Source
