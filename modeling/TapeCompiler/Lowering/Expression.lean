import TapeCompiler.Lowering.Session

/-! # Lowering of expressions

`into` lowers an expression so that its value lands in the block of a name, `operandOf` makes it an
operand, by way of a temporary when it is neither a literal nor a name, and `effect` lowers it for
its side effects alone. An assignment or declaration first makes room for the value
(`sizeOf`) and clears what is left of a longer one (`clearTail`). -/

namespace TapeCompiler

/-- The value of an expression made of literals and operators. -/
def Expr.constant? : Expr → Option Value
  | .literal (.int n) => some (.int n)
  | .literal (.float x) => some (.int x.truncate)
  | .literal (.str s) => some (.str s)
  | .literal (.bool b) => some (.bool b)
  | .literal .null => some .null
  | .binary o l r | .logical o l r =>
    match l.constant?, r.constant? with
    | some a, some b => Value.fold o a b
    | _, _ => none
  | _ => none

namespace Lowering

/-! ### Values and sizes -/

/-- The value of a literal; a fraction is cut off with a warning. -/
def literalValue : Literal → Lowering Value
  | .int n => return .int n
  | .float x => do
    warn s!"float literal {x.text} truncated to {x.truncate.toInt}"
    return .int x.truncate
  | .str s => return .str s
  | .bool b => return .bool b
  | .null => return .null

/-- The value of `object.property`: the size of a variable is its length, nothing else is known. -/
def memberValue (object : Expr) (property : String) : Lowering Value := do
  let known ← match object with
    | .name id => if property = "length" then block? id else pure none
    | _ => pure none
  match known with
  | some b => return .int (Int64.ofNat b.size)
  | none =>
    let name := ((Expr.member object property).qualifiedName?).getD "<member>"
    warn ("member expression '" ++ name ++ "' has no value; using null")
    return .null

/-- The cells that the value of an expression takes. -/
def sizeOf (e : Expr) : Lowering Nat := do
  match e with
  | .literal (.str s) => return max s.length 1
  | .array es => return max es.length 1
  | .name id => return ((← block? id).map Block.size).getD 1
  | .binary .. | .logical .. => return (e.constant?.map Value.size).getD 1
  | _ => return 1

/-! ### Storing -/

/-- Clears the cells of a name from an offset on. -/
def clearTail (name : String) (first : Nat) : Lowering Unit := do
  match ← block? name with
  | none => return
  | some b =>
    let first := max first 1
    (List.range' (b.address + first) (b.size - first)).forM fun cell =>
      emit (.setValue cell (.int 0))

/-- Copies the cells that two blocks have in common. -/
def copyVariable (source target : String) : Lowering Unit := do
  match ← block? source, ← block? target with
  | some s, some t =>
    (List.range (min s.size t.size)).forM fun offset =>
      emit (.copyValue (t.address + offset) (s.address + offset))
  | _, _ => throw (.undefinedVariable source)

/-- Declares a name in the innermost scope, with its value and how that is lowered into a block. A
binding of an outer scope is shadowed, not reused. -/
def declare (kind : DeclKind) (name : String) (init : Option (Expr × (String → Lowering Unit))) :
    Lowering Unit := do
  let scope ← scope
  let redeclared := (← block? name).any fun b => b.scope = scope
  if redeclared && (← liveKind? name) = some .const then throw (.constantReassigned name)
  let written ← match init with
    | some (e, _) => sizeOf e
    | none => pure 1
  let address ← if redeclared then ensureCapacity name written else allocate name written
  let size := ((← block? name).map Block.size).getD written
  setKind name scope kind
  bind name ⟨address, size, kind⟩
  match init with
  | some (_, into) => into name
  | none => emit (.setValue address .null)
  clearTail name written

/-- Steps a name. -/
def update (step : Step) (target : String) : Lowering Unit := do
  match ← liveKind? target with
  | none => throw (.undefinedVariable target)
  | some .const => throw (.constantReassigned target)
  | some _ =>
    let change := match step with
      | .increment => Change.increment
      | .decrement => Change.decrement
    emit (.update (← address target) change)

/-! ### Operators and calls -/

/-- An expression as an operand, given how it is lowered into a block. -/
def operandVia (e : Expr) (into : String → Lowering Unit) : Lowering Slot := do
  match e with
  | .literal lit => return .value (← literalValue lit)
  | .name id => return .named id (← readVariable id)
  | .member object property => return .value (← memberValue object property)
  | _ =>
    let len ← sizeOf e
    let name ← temporary len
    into name
    return .named name len

/-- An operator into a block. -/
def operator (o : Operator) (left right : Lowering Slot) (target : String) : Lowering Unit := do
  let left ← left
  let right ← right
  let left ← resolve left
  let right ← resolve right
  emit (.binary (← address target) o left right)

/-- An assignment, given how its value is lowered into a block. A name without a binding is declared
by a plain assignment. -/
def assign (o : AssignOp) (target : String) (value : Expr) (into : String → Lowering Unit) :
    Lowering Unit := do
  match ← liveKind? target with
  | none =>
    if o ≠ .assign then throw (.undefinedVariable target)
    warn ("assignment to undeclared variable '" ++ target ++ "' declares it")
    declare .var target (some (value, into))
  | some .const => throw (.constantReassigned target)
  | some _ =>
  match o.operator? with
  | none =>
    let written ← sizeOf value
    let address ← ensureCapacity target written
    let size := ((← block? target).map Block.size).getD written
    modify fun s => { s with program := { s.program with
      bindings := s.program.bindings.modify target fun v =>
        { v with address := address, size := size } } }
    into target
    clearTail target written
  | some op =>
    let cell ← address target
    match op, value with
    | .add, .literal (.int n) => emit (.update cell (.addBy n))
    | .sub, .literal (.int n) => emit (.update cell (.subtractBy n))
    | _, _ => operator op (pure (.named target 1)) (operandVia value into) target

/-- The variable and the method that a callee names. -/
def receiver? (callee : Expr) : Lowering (Option (String × String)) := do
  match callee with
  | .member (.name object) method =>
    return if (← block? object).isSome then some (object, method) else none
  | _ => return none

/-- A call, given its arguments as operands; printing is an instruction of its own. -/
def call (callee : Expr) (arguments : Lowering (List Slot)) (target : Option String) :
    Lowering Unit := do
  match callee.qualifiedName? with
  | none => warn "call on a computed callee is not supported; skipped"
  | some name =>
    let args ← (← arguments).mapM resolve
    if name = printCallee then
      emit (.print args)
      match target with
      | some t => emit (.setValue (← address t) .null)
      | none => return
    else
      let cell ← target.mapM address
      match ← receiver? callee with
      | some (object, method) => emit (.callMethod (← address object) object method args cell)
      | none => emit (.callFunction name args cell)

/-! ### Expressions -/

mutual
/-- Lowers an expression so that **its value lands in the block of a name**. -/
def into : Expr → String → Lowering Unit
  | .literal lit, target => do
    let value ← literalValue lit
    emit (.setValue (← address target) value)
  | .name id, target => do
    discard (readVariable id)
    copyVariable id target
  | .binary o l r, target => operator o (operandVia l (into l)) (operandVia r (into r)) target
  | .logical o l r, target => operator o (operandVia l (into l)) (operandVia r (into r)) target
  | .array es, target => do
    let slots ← slotsOf es
    let elements ← slots.mapM resolve
    emit (.createArray (← address target) elements)
  | .call callee args, target => call callee (slotsOf args) (some target)
  | .member object property, target => do
    let value ← memberValue object property
    emit (.setValue (← address target) value)
  | .assign o assigned value, target => do
    assign o assigned value (into value)
    copyVariable assigned target
  | .update step updated before, target => do
    discard (readVariable updated)
    if before then
      update step updated
      copyVariable updated target
    else
      copyVariable updated target
      update step updated

/-- Expressions as operands, in order. -/
def slotsOf : List Expr → Lowering (List Slot)
  | [] => return []
  | e :: es => do
    let slot ← operandVia e (into e)
    return slot :: (← slotsOf es)
end

/-- An expression as an operand. -/
def operandOf (e : Expr) : Lowering Slot := operandVia e (into e)

/-- Lowers an expression for its side effects. -/
def effect (e : Expr) : Lowering Unit :=
  match e with
  | .call callee args => call callee (slotsOf args) none
  | .assign o target value => assign o target value (into value)
  | .update step target _ => update step target
  | _ => discard (operandOf e)

end Lowering

end TapeCompiler
