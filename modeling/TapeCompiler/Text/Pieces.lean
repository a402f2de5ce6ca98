/-! # Pieces of text

A text cut at every occurrence of a character (`splitOn`), a text behind a given beginning
(`after?`), and the columns of a listing (`padLeft`, `padRight`). -/

namespace TapeCompiler.Text

/-- Puts a character in front of the first piece. -/
def consFirst (c : Char) : List (List Char) → List (List Char)
  | [] => [[c]]
  | p :: ps => (c :: p) :: ps

/-- The pieces between the occurrences of a character; there is always one. -/
def splitOn (sep : Char) : List Char → List (List Char)
  | [] => [[]]
  | c :: cs => if c = sep then [] :: splitOn sep cs else consFirst c (splitOn sep cs)

/-- What follows a beginning, if the text begins so. -/
def after? : List Char → List Char → Option (List Char)
  | [], cs => some cs
  | _ :: _, [] => none
  | b :: bs, c :: cs => if b = c then after? bs cs else none

/-- What precedes a last character, if the text ends with it. -/
def before? (last : Char) (cs : List Char) : Option (List Char) :=
  if cs.getLast? = some last then some cs.dropLast else none

theorem after?_eq_some {b cs r : List Char} : after? b cs = some r ↔ cs = b ++ r := by
  induction b generalizing cs with
  | nil => simp [after?]
  | cons x bs ih =>
    cases cs with
    | nil => simp [after?]
    | cons c cs =>
      simp only [after?, List.cons_append, List.cons.injEq]
      split
      · rename_i h; simp [ih, h]
      · rename_i h; simp [Ne.symm h]

theorem splitOn_ne_nil (sep : Char) (cs : List Char) : splitOn sep cs ≠ [] := by
  cases cs with
  | nil => simp [splitOn]
  | cons c cs =>
    simp only [splitOn]
    split
    · simp
    · cases splitOn sep cs <;> simp [consFirst]

/-! ### Columns -/

/-- `n` times a character. -/
def repeated (c : Char) (n : Nat) : String := String.ofList (List.replicate n c)

/-- A text moved to the right of its column. -/
def padLeft (width : Nat) (c : Char) (s : String) : String :=
  repeated c (width - s.length) ++ s

/-- A text at the left of its column. -/
def padRight (width : Nat) (s : String) : String := s ++ repeated ' ' (width - s.length)

end TapeCompiler.Text
