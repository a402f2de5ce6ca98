import TapeCompiler.Cells.Program
import TapeCompiler.Text.Pieces

/-! # Listings

The text of an instruction (`Instruction.text`) and of a whole program (`Program.listing`): its
variables and functions by name, then one numbered line for each instruction. -/

namespace TapeCompiler

/-- The texts of operands, separated by commas. -/
def operandTexts (ops : List Operand) : String := ", ".intercalate (ops.map Operand.text)

/-- The place a result goes to. -/
def resultText : Option Nat → String
  | some t => s!"[{t}] = "
  | none => ""

/-- The text of a change of a cell. -/
def Change.text : Change → String
  | increment => "++"
  | decrement => "--"
  | addBy n => s!" += {n.toInt}"
  | subtractBy n => s!" -= {n.toInt}"

/-- The text of an instruction. -/
def Instruction.text : Instruction → String
  | setValue address value => s!"[{address}] = {value.text}"
  | copyValue target source => s!"[{target}] = [{source}]"
  | binary target operator l r => s!"[{target}] = {l.text} {operator.symbol} {r.text}"
  | print ops => s!"print {operandTexts ops}"
  | callFunction name args target => s!"{resultText target}call {name}({operandTexts args})"
  | callMethod object objectName method args target =>
    s!"{resultText target}call {objectName}@{object}.{method}({operandTexts args})"
  | createArray address elements => s!"[{address}..] = array [{operandTexts elements}]"
  | createObject address fields =>
    let texts := fields.map fun (key, op) => s!"{key}: {op.text}"
    s!"[{address}..] = object \x7b" ++ ", ".intercalate texts ++ "\x7d"
  | label name => s!"{name}:"
  | jump target => s!"jump {target}"
  | jumpUnless condition target => s!"jump {target} if !{condition.text}"
  | branch condition elseLabel => s!"if {condition.text} else {elseLabel}"
  | ret (some value) => s!"return {value.text}"
  | ret none => "return"
  | update address change => s!"[{address}]{change.text}"
  | comment text => s!"; {text}"
  | importModule name => s!"import {name}"
  | exportCell name address => s!"export {name} = [{address}]"

/-- The width of a listing. -/
def listingWidth : Nat := 59

/-- The double rule of a listing. -/
def doubleRule : String := Text.repeated '═' listingWidth

/-- The single rule of a listing. -/
def singleRule : String := Text.repeated '─' listingWidth

/-- The line of a variable. -/
def VariableInfo.line (name : String) (v : VariableInfo) : String :=
  s!"var {name} @{v.address} ({v.size} cell(s), {v.kind.name})"

/-- The line of a function. -/
def FunctionInfo.line (name : String) (f : FunctionInfo) : String :=
  s!"fn {name}#{f.id}(" ++ ", ".intercalate f.params ++ ")" ++
    (if f.inlineCandidate then " inline" else "")

/-- The lines of a program's listing. -/
def Program.lines (p : Program) : List String :=
  [doubleRule, Text.repeated ' ' 20 ++ "IR DUMP", doubleRule]
    ++ p.bindings.map (fun (name, v) => v.line name)
    ++ p.functions.map (fun (name, f) => f.line name)
    ++ [singleRule]
    ++ p.instructions.zipIdx.map (fun (i, n) => Text.padLeft 4 '0' (toString n) ++ ": " ++ i.text)
    ++ [doubleRule]

/-- The listing of a program, every line ended. -/
def Program.listing (p : Program) : String := String.join (p.lines.map fun l => l ++ "\n")

end TapeCompiler
