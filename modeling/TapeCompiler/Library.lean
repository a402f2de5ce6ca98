import TapeCompiler.Tape.Arithmetic
import TapeCompiler.Text.Names

/-! # Library functions

Calls of functions that have a template are expanded in place. A template renders a call from the
place where it is made and its arguments, and a library is a table of templates by name, to which
anyone may add (`Library.register`); `Library.expand?` gives the code of a call. The functions of
the standard library are known (`Builtin`): their code starts and ends on the cell the pointer is
on (`Builtin.pointer_code`). -/

namespace TapeCompiler

/-! ### Templates -/

/-- Where a call is expanded. -/
structure Site where
  pointer : Nat
  scratch : Scratch
  /-- The cell that receives the result. -/
  target : Option Nat
  width : CellWidth
  deriving DecidableEq, Repr

/-- An argument as a template sees it: cells come with **the name of their variable**. -/
inductive Argument
  | value (v : Value)
  | cells (name : String) (address len : Nat)
  deriving DecidableEq, Repr

/-- The operand of an argument. -/
def Argument.operand : Argument → Operand
  | value v => .value v
  | cells _ address len => .cells address len

/-- How calls of a function are expanded. -/
structure Template where
  /-- The qualified name of the function. -/
  name : String
  /-- A line on what the function does. -/
  description : String
  /-- The number of arguments, if it is fixed. -/
  arity? : Option Nat
  /-- The code of a call, or what is wrong with it. -/
  render : Site → List Argument → Except Fault Code

/-- The code of a call under a name; **a wrong number of arguments** is not rendered. -/
def Template.expand (t : Template) (name : String) (site : Site) (args : List Argument) :
    Except Fault Code :=
  match t.arity? with
  | none => t.render site args
  | some n =>
    if args.length = n then t.render site args else .error (.argumentCount name n args.length)

/-- A library: templates by qualified name, **in the order of the names**. -/
abbrev Library := Names Template

/-! ### Known functions -/

/-- What a function of the standard library does. -/
inductive Builtin
  | print
  | smaller
  | larger
  | prompt
  deriving DecidableEq, Repr

namespace Builtin

/-- A line on what the function does. -/
def description : Builtin → String
  | print => "Write each argument's cells to output"
  | smaller => "Smaller of two values"
  | larger => "Larger of two values"
  | prompt => "Read one input cell"

/-- The number of arguments, if it is fixed. -/
def arity? : Builtin → Option Nat
  | print | prompt => none
  | smaller | larger => some 2

/-- The code that puts one of two operands into a cell: the first if it wins under an operator. -/
def choose (site : Site) (o : Operator) (x y : Operand) (target : Nat) : Code :=
  let s := site.scratch
  let w := site.width
  .binary w s o x y s.f ++ .load w s y s.e
    ++ .loop s.f (.clear s.f ++ .clear s.e ++ .load w s x s.e)
    ++ .clear target ++ .moveAdd s.e target

/-- The choice between two operands; without a target there is nothing to do. -/
def pick (site : Site) (o : Operator) (x y : Operand) : Code :=
  match site.target with
  | some target => choose site o x y target ++ .move site.pointer
  | none => .skip

/-- The code of a call. -/
def code (b : Builtin) (site : Site) (args : List Operand) : Code :=
  match b, args with
  | print, _ =>
    args.foldr (fun o rest => Code.printOperand site.width site.scratch o ++ rest)
      (.move site.pointer)
  | prompt, _ =>
    match site.target with
    | some target => .on target .read ++ .move site.pointer
    | none => .on site.scratch.a .read ++ .clear site.scratch.a ++ .move site.pointer
  | smaller, [x, y] => pick site .lt x y
  | larger, [x, y] => pick site .gt x y
  -- no such call is rendered, for its number of arguments is wrong
  | _, _ => .skip

/-- The template of a function under a name. -/
def template (b : Builtin) (name : String) : Template where
  name
  description := b.description
  arity? := b.arity?
  render site args := .ok (b.code site (args.map Argument.operand))

/-- Whether a function takes a number of arguments. -/
def Takes (b : Builtin) (n : Nat) : Prop := ∀ m ∈ b.arity?, n = m

instance (b : Builtin) (n : Nat) : Decidable (b.Takes n) :=
  inferInstanceAs (Decidable (∀ m ∈ b.arity?, n = m))

theorem expand_template {b : Builtin} {args : List Argument} (h : b.Takes args.length)
    (under name : String) (site : Site) : (b.template under).expand name site args =
      .ok (b.code site (args.map Argument.operand)) := by
  have hlen : ∀ m ∈ b.arity?, args.length = m := h
  unfold Template.expand
  simp only [template]
  cases b with
  | print | prompt => rfl
  | smaller | larger => exact if_pos (hlen 2 rfl)

theorem expand_template_of_misfit {b : Builtin} {args : List Argument}
    (h : ¬ b.Takes args.length) (under name : String) (site : Site) :
    (b.template under).expand name site args =
      .error (.argumentCount name 2 args.length) := by
  cases b with
  | print | prompt => exact absurd (fun _ hm => by cases hm) h
  | smaller | larger => exact if_neg fun he => h fun _ hm => by cases hm; exact he

/-- **An expanded call is neutral**: the pointer ends where it was. -/
theorem pointer_code (b : Builtin) (site : Site) (args : List Operand) (text : String) :
    ((b.code site args).write ⟨text, site.pointer⟩).pointer = site.pointer := by
  have foldr (rest : List Operand) (w : Writer) :
      ((rest.foldr (fun o r => Code.printOperand site.width site.scratch o ++ r)
        (Code.move site.pointer)).write w).pointer = site.pointer := by
    induction rest generalizing w with
    | nil => rfl
    | cons o r ih => exact ih _
  unfold code
  split
  · exact foldr _ _
  · split <;> rfl
  · unfold pick; split <;> rfl
  · unfold pick; split <;> rfl
  · rfl

/-- The functions of the standard library, by name. -/
def table : List (String × Builtin) :=
  [("console.log", print), ("process.stdout.write", print), ("Math.min", smaller),
    ("Math.max", larger), ("prompt", prompt)]

/-- The function of a name. -/
def named? (name : String) : Option Builtin := table.lookup name

end Builtin

/-! ### Libraries -/

namespace Library

/-- The library with a template added, or replaced if there is one of its name. -/
def register (l : Library) (t : Template) : Library := l.insert t.name t

/-- The library without functions. -/
def empty : Library := []

/-- The library of all known functions. -/
def standard : Library :=
  Builtin.table.foldl (fun l (name, b) => l.register (b.template name)) empty

/-- The template of a name. -/
def find? (l : Library) (name : String) : Option Template := Names.find? l name

/-- The names, in order. -/
def names (l : Library) : List String := l.map Prod.fst

/-- The code of a call of a library function. -/
def expand? (l : Library) (name : String) (site : Site) (args : List Argument) :
    Option (Except Fault Code) :=
  (l.find? name).map fun t => t.expand name site args

/-- The library in one line. -/
def text (l : Library) : String :=
  "StdlibTable \x7b templates: [" ++ ", ".intercalate (l.names.map Text.quoted) ++ "] \x7d"

/-! ### Known libraries -/

/-- Whether all templates are those of functions of the standard library, **under any names**. -/
def BuiltIn (l : Library) : Prop :=
  ∀ ⦃name t⦄, l.find? name = some t → ∃ (b : Builtin) (under : String), t = b.template under

/-- Whether every template is that of the function **of its name**. -/
def Known (l : Library) : Prop :=
  ∀ ⦃name t⦄, l.find? name = some t → ∃ b, Builtin.named? name = some b ∧ t = b.template name

variable {l : Library} {name : String}

theorem Known.builtIn (h : l.Known) : l.BuiltIn := fun name _ ht =>
  let ⟨b, _, hb⟩ := h ht
  ⟨b, name, hb⟩

theorem known_empty : empty.Known := fun _ _ h => by cases h

/-- A known library stays known when a function is added **under its name**. -/
theorem Known.register (h : l.Known) {b : Builtin} (hb : Builtin.named? name = some b) :
    (l.register (b.template name)).Known := by
  intro other t ht
  by_cases ho : other = name
  · subst ho
    have hself := Names.find?_insert_self l other (b.template other)
    exact ⟨b, hb, Option.some.inj (ht.symm.trans hself)⟩
  · exact h ((Names.find?_insert_of_ne l _ ho).symm.trans ht)

theorem known_standard : standard.Known := by
  have hnamed : ∀ e ∈ Builtin.table, Builtin.named? e.1 = some e.2 := by decide
  suffices ∀ (es : List (String × Builtin)) (l : Library), l.Known →
      (∀ e ∈ es, Builtin.named? e.1 = some e.2) →
      (es.foldl (fun l (name, b) => l.register (b.template name)) l).Known from
    this _ _ known_empty hnamed
  intro es
  induction es with
  | nil => exact fun l hl _ => hl
  | cons e rest ih =>
    intro l hl he
    exact ih _ (hl.register (he e (by simp))) fun e' h' => he e' (by simp [h'])

theorem known_of_eq (h : l = standard ∨ l = empty) : l.Known := by
  obtain rfl | rfl := h
  · exact known_standard
  · exact known_empty

end Library

end TapeCompiler
