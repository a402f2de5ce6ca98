import TapeCompiler.Script.Pattern
import TapeCompiler.Script.Tree

/-! # The text of a program tree

A program is printed with one statement a line (`printed`). The line of a header ends with an
opening brace, the lines of a block follow, and a closing brace stands on a line of its own, alone
or in front of an `else`. Between the sides of an operator and behind a comma stands one blank; an
operator on the left of another is put in parentheses. In a quotation quotes, backslashes and
controls are escaped (`spell`). -/

namespace TapeCompiler

namespace Source

/-- A character as it stands in a quotation. -/
def spell (c : Char) : List Char :=
  if c = '"' ∨ c = '\\' then ['\\', c]
  else if c = '\n' then ['\\', 'n']
  else if c = '\t' then ['\\', 't']
  else if c = '\r' then ['\\', 'r']
  else if c = '\x00' then ['\\', '0']
  else [c]

/-- The quotation of a text. -/
def quotation (cs : List Char) : List Char := '"' :: cs.flatMap spell ++ ['"']

/-- Texts with a comma and a blank between them. -/
def commaList (texts : List (List Char)) : List Char := [',', ' '].intercalate texts

/-- The words that have a meaning of their own. -/
def reservedWords : List String :=
  ["var", "let", "const", "function", "if", "else", "for", "return", "true", "false", "null",
    "undefined"]

/-- Whether a text is a name and **no reserved word**. -/
def isIdentifier (id : String) : Bool := isName id.toList && !reservedWords.contains id

end Source

open Source

/-! ### Expressions -/

/-- The spelling of an assignment operator. -/
def AssignOp.symbol : AssignOp → String
  | assign => "="
  | add => "+="
  | sub => "-="
  | mul => "*="
  | div => "/="
  | mod => "%="

/-- The spelling of a step. -/
def Step.symbol : Step → String
  | increment => "++"
  | decrement => "--"

/-- The keyword of a declaration. -/
def DeclKind.keyword : DeclKind → String
  | var => "var"
  | block => "let"
  | const => "const"
  | function => "function"

/-- The text of a literal. -/
def Literal.text : Literal → List Char
  | int n =>
    if n.toInt < 0 then '-' :: Nat.toDigits 10 n.toInt.natAbs else Nat.toDigits 10 n.toInt.natAbs
  | float x => x.text.toList
  | str s => quotation s.toList
  | bool b => (if b then "true" else "false").toList
  | null => "null".toList

/-- Whether an expression is an operator and its sides. -/
def Expr.isOperation : Expr → Bool
  | binary .. | logical .. => true
  | _ => false

mutual
/-- The text of an expression. -/
def Expr.text : Expr → List Char
  | .literal v => v.text
  | .name id => id.toList
  | .binary o l r | .logical o l r =>
    let left := if l.isOperation then '(' :: l.text ++ [')'] else l.text
    left ++ ' ' :: o.symbol.toList ++ ' ' :: r.text
  | .call callee args => callee.text ++ '(' :: commaList (Expr.textsOf args) ++ [')']
  | .member object property => object.text ++ '.' :: property.toList
  | .array es => '[' :: commaList (Expr.textsOf es) ++ [']']
  | .assign o target value => target.toList ++ ' ' :: o.symbol.toList ++ ' ' :: value.text
  | .update step target before =>
    if before then step.symbol.toList ++ target.toList else target.toList ++ step.symbol.toList

/-- The texts of expressions. -/
def Expr.textsOf : List Expr → List (List Char)
  | [] => []
  | e :: es => e.text :: Expr.textsOf es
end

/-- The text of an expression that may be absent. -/
def Expr.textOf? (e : Option Expr) : List Char := (e.map Expr.text).getD []

theorem Expr.textsOf_eq_map (es : List Expr) : Expr.textsOf es = es.map Expr.text := by
  induction es with
  | nil => simp [Expr.textsOf]
  | cons e es ih => simp [Expr.textsOf, ih]

/-! ### Statements -/

namespace Source

/-- A declaration of a name, with or without the text of its value. -/
def declarationText (kind : DeclKind) (name : String) (value : Option (List Char)) : List Char :=
  kind.keyword.toList ++ ' ' :: name.toList ++ (value.map fun text => " = ".toList ++ text).getD []

/-- A return, with or without the text of its value. -/
def returnText (value : Option (List Char)) : List Char :=
  "return".toList ++ (value.map fun text => ' ' :: text).getD []

/-- The header of a function. -/
def functionText (name : String) (params : List String) : List Char :=
  "function ".toList ++ name.toList ++ '(' :: commaList (params.map String.toList) ++
    ") \x7b".toList

/-- The header of a branch or a loop. -/
def headerText (word : String) (inner : List Char) : List Char :=
  word.toList ++ " (".toList ++ inner ++ ") \x7b".toList

/-- The three clauses of a loop. -/
def clausesText (first test last : List Char) : List Char :=
  first ++ "; ".toList ++ test ++ "; ".toList ++ last

end Source

mutual
/-- The first line of a statement. -/
def Statement.firstLine : Statement → List Char
  | .declare kind name init => declarationText kind name (init.map Expr.text)
  | .function name params _ => functionText name params
  | .branch test _ _ => headerText "if" test.text
  | .loop init test last _ =>
    headerText "for"
      (clausesText (Statement.textOfInit init) (Expr.textOf? test) (Expr.textOf? last))
  | .ret argument => returnText (argument.map Expr.text)
  | .effect e => e.text

/-- The text of a loop's first clause. -/
def Statement.textOfInit : Option Statement → List Char
  | none => []
  | some s => s.firstLine
end

mutual
/-- The lines of a statement behind the first. -/
def Statement.moreLines : Statement → List (List Char)
  | .function _ _ body | .loop _ _ _ body => Statement.linesOf body ++ [['\x7d']]
  | .branch _ yes no => Statement.linesOf yes ++ Statement.linesOfElse no ++ [['\x7d']]
  | .declare .. | .ret _ | .effect _ => []

/-- The lines of statements. -/
def Statement.linesOf : List Statement → List (List Char)
  | [] => []
  | s :: ss => s.firstLine :: (s.moreLines ++ Statement.linesOf ss)

/-- The lines of an else branch. -/
def Statement.linesOfElse : Option (List Statement) → List (List Char)
  | none => []
  | some ss => "\x7d else \x7b".toList :: Statement.linesOf ss
end

/-- The source text of statements, **one statement a line**. -/
def Source.printed (body : List Statement) : String :=
  String.ofList ((Statement.linesOf body).flatMap fun line => line ++ ['\n'])

end TapeCompiler
