import TapeCompiler.Script.Expression
import TapeCompiler.Script.Line

/-! # Reading statements

Statement lines are read one after another; a line that is no statement is skipped with a notice.
The lines of a block are those up to the brace that closes it (`block?`). A reader of blocks and of
the branch behind an `else` is built for every level of nesting from the one below it
(`levels`). -/

namespace TapeCompiler.Source

open Text

/-! ### Statements of one line -/

/-- The readers of the expressions in a statement: those directly in it, and those one level
deeper. -/
structure Readers where
  direct : List Char → Except Fault Expr
  nested : List Char → Except Fault Expr

/-- The readers of expressions with some levels of nesting left around the statement. -/
def Readers.withRoom (room : Nat) : Readers := ⟨readExpr (room - 1), readExpr (room - 2)⟩

/-- A declaration keyword in front, and what follows it and the blanks behind it. -/
def declKind? (cs : List Char) : Option (DeclKind × List Char) :=
  ["var", "let", "const"].findSome? fun word => do
    let r ← keyword? word cs
    let r ← blanks? r
    let kind ← DeclKind.ofKeyword? word
    return (kind, r)

/-- A declaration: its kind, name and, behind an equals sign, the text of its value. -/
def declaration? (cs : List Char) : Option (DeclKind × List Char × Option (List Char)) := do
  let (kind, r) ← declKind? cs
  let (name, r) ← name? r
  match trimFront r with
  | '=' :: r => do return (kind, name, some (← content? (trimFront r)))
  | _ => if r.isEmpty then some (kind, name, none) else none

/-- A return: the text of its value, if there is one. -/
def return? (cs : List Char) : Option (Option (List Char)) := do
  let r ← keyword? "return" cs
  if r.isEmpty then return none
  let r ← blanks? r
  return some (← content? r)

/-- A step written as two signs. -/
def step? (cs : List Char) : Option (Step × List Char) :=
  match cs with
  | '+' :: '+' :: r => some (.increment, r)
  | '-' :: '-' :: r => some (.decrement, r)
  | _ => none

/-- A name with a step behind or in front of it. -/
def update? (cs : List Char) : Option Expr :=
  match name? cs with
  | some (name, r) =>
    match step? (trimFront r) with
    | some (s, []) => some (.update s (String.ofList name) false)
    | _ => none
  | none => do
    let (s, r) ← step? cs
    let (name, r) ← name? (trimFront r)
    if r.isEmpty then some (.update s (String.ofList name) true) else none

/-- An assignment operator in front, and what follows it. -/
def assignOp? (cs : List Char) : Option (AssignOp × List Char) :=
  match cs with
  | '=' :: r => some (.assign, r)
  | c :: '=' :: r => (AssignOp.ofToken? (String.ofList [c, '='])).map fun o => (o, r)
  | _ => none

/-- An assignment: operator, name and the text of the value; **a comparison is none**. -/
def assignment? (cs : List Char) : Option (AssignOp × List Char × List Char) := do
  let (name, r) ← name? cs
  let (o, r) ← assignOp? (trimFront r)
  let value ← content? (trimFront r)
  if value.head? = some '=' then none else some (o, name, trimBack value)

/-- An assignment, with a reader for its value. -/
def readAssignment (value : List Char → Except Fault Expr) (cs : List Char) :
    Except Fault (Option Expr) :=
  match assignment? cs with
  | none => .ok none
  | some (o, name, text) => do return some (.assign o (String.ofList name) (← value text))

/-- A statement of one line, with a reader for its expressions: a declaration, a return, a step, an
assignment or a call. -/
def readSimple (expr : List Char → Except Fault Expr) (cs : List Char) :
    Except Fault (Option Statement) := do
  match declaration? cs with
  | some (kind, name, some text) =>
    return some (.declare kind (String.ofList name) (some (← expr text)))
  | some (kind, name, none) => return some (.declare kind (String.ofList name) none)
  | none =>
  match return? cs with
  | some (some text) => return some (.ret (some (← expr text)))
  | some none => return some (.ret none)
  | none =>
  match update? cs with
  | some e => return some (.effect e)
  | none =>
  match ← readAssignment expr cs with
  | some e => return some (.effect e)
  | none => return (← readCall expr cs).map .effect

/-- The last clause of a loop header: a step, an assignment or any expression. -/
def readClause (expr : Readers) (cs : List Char) : Except Fault Expr := do
  match update? cs with
  | some e => return e
  | none =>
  match ← readAssignment expr.nested cs with
  | some e => return e
  | none => expr.direct cs

/-! ### Blocks -/

/-- The depth of braces behind a text, unless it falls to zero in it. -/
def depthBehind : Nat → Marked → Option Nat
  | depth, [] => some depth
  | depth, (c, isPlain) :: r =>
    if isPlain ∧ c = '\x7b' then depthBehind (depth + 1) r
    else if isPlain ∧ c = '\x7d' then
      if depth ≤ 1 then none else depthBehind (depth - 1) r
    else depthBehind depth r

/-- The lines up to the one in which the brace open at a depth is closed, that line, and the lines
behind it. -/
def block? : Nat → List Line → Option (List Line × Line × List Line)
  | _, [] => none
  | depth, l :: ls =>
    match depthBehind depth (plain l.text) with
    | none => some ([], l, ls)
    | some d => (block? d ls).map fun (block, close, rest) => (l :: block, close, rest)

/-- The block that a header line opens. -/
def blockOf (header : Line) (lines : List Line) : Except Fault (List Line × Line × List Line) :=
  match block? 1 lines with
  | some b => .ok b
  | none => .error (.unclosedBlock header.number (String.ofList header.text))

/-! ### Statements of several lines -/

/-- A reading that gathers notices. -/
abbrev Reading := StateT (List Notice) (Except Fault)

/-- Adds a notice on a line. -/
def notice (l : Line) (message : String) : Reading Unit :=
  modify (· ++ [⟨l.number, String.ofList l.text, message⟩])

/-- The readers of one level: a block, and a branch with its header, its condition and the lines
behind the header. -/
structure Level where
  block : List Line → Reading (List Statement)
  branch : Line → List Char → List Line → Reading (Statement × List Line)

/-- A function header: the name and the parameters. -/
def functionHeader? (cs : List Char) : Option (List Char × List (List Char)) := do
  let r ← keyword? "function" cs
  let r ← blanks? r
  let (name, r) ← name? r
  let r ← after? ['('] (trimFront r)
  let params := r.takeWhile (· ≠ ')')
  let r ← after? [')'] (r.dropWhile (· ≠ ')'))
  if trimFront r = ['\x7b'] then
    some (name, ((splitOn ',' params).map trim).filter fun p => !p.isEmpty)
  else none

/-- The condition of a branch. -/
def branchHeader? (cs : List Char) : Option (List Char) := do header? (← keyword? "if" cs)

/-- The three clauses of a loop, as one text. -/
def loopHeader? (cs : List Char) : Option (List Char) := do header? (← keyword? "for" cs)

/-- The condition of a branch behind an else. -/
def elseIf? (cs : List Char) : Option (List Char) := do
  let r ← keyword? "else" (afterBrace cs)
  let r ← blanks? r
  branchHeader? r

/-- Whether a line is an else without a condition. -/
def isElse (cs : List Char) : Bool :=
  match keyword? "else" (afterBrace cs) with
  | some r => trimFront r = ['\x7b']
  | none => false

/-- The line an else stands on, behind the line that closes the block before it: that line itself,
or the next one; and the lines behind it. -/
def elseLine? (close : Line) (rest : List Line) : Option (Line × List Line) :=
  if close.text ≠ ['\x7d'] then some (close, rest)
  else match rest with
    | l :: ls => if (keyword? "else" l.text).isSome then some (l, ls) else none
    | [] => none

/-- Reads a branch, with readers for what is one level deeper. -/
def readBranch (inner : Level) (expr : List Char → Except Fault Expr) (header : Line)
    (condition : List Char) (lines : List Line) : Reading (Statement × List Line) := do
  let test ← expr condition
  let (block, close, rest) ← blockOf header lines
  let consequent ← inner.block block
  match elseLine? close rest with
  | none => return (.branch test consequent none, rest)
  | some (l, behind) =>
  match elseIf? l.text with
  | some condition =>
    let (nested, behind) ← inner.branch l condition behind
    return (.branch test consequent (some [nested]), behind)
  | none =>
  if isElse l.text then
    let (block, _, behind) ← blockOf l behind
    let alternate ← inner.block block
    return (.branch test consequent (some alternate), behind)
  else
    notice l "malformed else clause"
    return (.branch test consequent none, rest)

/-- A part of a loop header, unless it is blank. -/
def clause {α : Type} (read : List Char → Reading α) (cs : List Char) : Reading (Option α) :=
  if cs.isEmpty then return none else return some (← read cs)

/-- Reads a loop, with readers for what is one level deeper. -/
def readLoop (inner : Level) (expr : Readers) (header : Line) (clauses : List Char)
    (lines : List Line) : Reading (Option Statement × List Line) := do
  let (block, _, rest) ← blockOf header lines
  match splitTop ';' clauses with
  | [first, test, last] =>
    let init ← clause (fun cs => readSimple expr.nested cs) first
    if (init.map Option.isNone).getD false then
      notice header "unrecognized for-statement initializer"
    let test ← clause (fun cs => expr.direct cs) test
    let update ← clause (fun cs => readClause expr cs) last
    let body ← inner.block block
    return (some (.loop (init.getD none) test update body), rest)
  | _ =>
    notice header "for-statement header needs exactly three clauses"
    return (none, rest)

/-- Reads the statement of a line, with the lines behind it and readers for what is one level
deeper. -/
def readStatement (inner : Level) (expr : Readers) (l : Line) (lines : List Line) :
    Reading (Option Statement × List Line) := do
  match functionHeader? l.text with
  | some (name, params) =>
    let (block, _, rest) ← blockOf l lines
    let body ← inner.block block
    return (some (.function (String.ofList name) (params.map String.ofList) body), rest)
  | none =>
  match branchHeader? l.text with
  | some condition =>
    let (s, rest) ← readBranch inner expr.direct l condition lines
    return (some s, rest)
  | none =>
  match loopHeader? l.text with
  | some clauses => readLoop inner expr l clauses lines
  | none =>
  match ← readSimple expr.direct l.text with
  | some s => return (some s, lines)
  | none =>
    let delimiter := l.text.head? = some '\x7d' || (keyword? "else" l.text).isSome
    notice l (if delimiter then "unexpected block delimiter" else "unrecognized statement")
    return (none, lines)

/-- Reads statements while there are lines; a statement takes one line at least. -/
def readAll (statement : Line → List Line → Reading (Option Statement × List Line)) :
    Nat → List Line → Reading (List Statement)
  | _, [] | 0, _ => return []
  | fuel + 1, l :: lines => do
    let (s, rest) ← statement l lines
    return s.toList ++ (← readAll statement fuel rest)

/-- The readers with some levels of nesting left. -/
def levels : Nat → Level
  | 0 =>
    let full {α : Type} : Reading α := throw (.exceeded .blockNesting)
    ⟨fun _ => full, fun _ _ _ => full⟩
  | room + 1 =>
    let inner := levels room
    let expr := Readers.withRoom (room + 1)
    { block := fun lines => readAll (readStatement inner expr) lines.length lines
      branch := readBranch inner expr.direct }

/-- Reads a whole program. -/
def readScript (source : String) : Except Fault Script := do
  let (body, notices) ← ((levels (roomAt 0)).block (normalize source)).run []
  return ⟨body, notices⟩

end TapeCompiler.Source
