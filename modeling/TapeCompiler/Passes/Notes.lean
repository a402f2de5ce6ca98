import TapeCompiler.Passes.Folding

/-! # Notes

Comments put in front of instructions: on loops whose test compares a cell with a known number
(`loopNotes`) and on calls of short functions (`inlineNotes`). Nothing else changes but the mark on
the function. -/

namespace TapeCompiler

/-! ### Loops -/

/-- Whether an operator can bound a loop. -/
def Operator.isBounding : Operator → Bool
  | .lt | .ltEq | .gt | .gtEq | .notEq => true
  | _ => false

/-- The note on a label and the instruction behind it: the label is that of a **loop's test**, and
the test compares a cell with a value that has a number. -/
def boundNote? : Instruction → Instruction → Option String
  | .label name, .binary _ operator (.cells address _) (.value bound) =>
    if "for_test_".isPrefixOf name && operator.isBounding && bound.number?.isSome then
      some s!"fixed-bound loop {name}: @{address} {operator.symbol} {bound.text}"
    else none
  | _, _ => none

/-- Puts the notes on loops in. -/
def noteBounds : List Instruction → List Instruction × Nat
  | i :: j :: rest =>
    let (code, n) := noteBounds (j :: rest)
    match boundNote? i j with
    | some note => (.comment note :: i :: code, n + 1)
    | none => (i :: code, n)
  | code => (code, 0)

/-- Notes on loops with a fixed bound. -/
def loopNotes : Pass := Pass.onInstructions noteBounds

/-! ### Calls -/

/-- Functions with fewer statements are candidates. -/
def inlineLimit : Nat := 5

/-- Whether a function is short. -/
def FunctionInfo.isShort (f : FunctionInfo) : Bool := f.body.length < inlineLimit

/-- The function, marked if it is short. -/
def FunctionInfo.marked (f : FunctionInfo) : FunctionInfo :=
  { f with inlineCandidate := f.inlineCandidate || f.isShort }

/-- An instruction with the note on it: it **calls a candidate**. -/
def noteCall (candidates : List String) (i : Instruction) : List Instruction :=
  match i with
  | .callFunction name .. =>
    if candidates.contains name then [.comment s!"inline candidate: {name}", i] else [i]
  | _ => [i]

/-- Marks short functions and notes their calls; every mark and every note counts. -/
def inlineNotes : Pass := fun p =>
  let candidates := (p.functions.filter fun (_, f) => f.isShort).map Prod.fst
  let code := p.instructions.flatMap (noteCall candidates)
  ({ p with functions := p.functions.mapValues FunctionInfo.marked, instructions := code },
    candidates.length + (code.length - p.instructions.length))

end TapeCompiler
