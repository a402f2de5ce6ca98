import TapeCompiler.Proofs.Script.Lines

/-! # A line that prints a literal

A source of one line that prints an integer or a quotation (`outputLine`) is read as this one
statement, without notices (`readScript_outputLine`). Between the quotes every quote, backslash,
newline, return, tab and null character is escaped; a single quote may stand for itself
(`Spelling`). -/

namespace TapeCompiler

namespace Source

open Text

variable {cs t : List Char}

/-! ### Spellings -/

/-- **The spellings of a text between double quotes**: what must be escaped is, and a single quote
is escaped or not. -/
inductive Spelling : List Char → List Char → Prop
  | nil : Spelling [] []
  | cons (c : Char) {cs t : List Char} (h : Spelling cs t) : Spelling (c :: cs) (spell c ++ t)
  | single {cs t : List Char} (h : Spelling cs t) : Spelling ('\'' :: cs) ('\\' :: '\'' :: t)

theorem spelling_flatMap (cs : List Char) : Spelling cs (cs.flatMap spell) := by
  induction cs with
  | nil => exact .nil
  | cons c cs ih => exact .cons c ih

namespace Spelling

variable (h : Spelling cs t)
include h

theorem decode_eq : decode '"' t = some cs := by
  induction h with
  | nil => rfl
  | cons c _ ih => rw [decode_spell, ih, Option.map_some]
  | single _ ih =>
    rw [decode, ih]
    rfl

theorem quotable : Quotable t := by
  induction h with
  | nil => exact quotable_nil
  | cons c _ ih => exact (quotable_spell c).append ih
  | single _ ih =>
    have hquote : Quotable ['\\', '\''] := ⟨rfl, rfl, by decide⟩
    exact hquote.append ih

/-- **A quotation is read as the text it spells.** -/
theorem readExpr_eq (room : Nat) : readExpr (room + 1) ('"' :: t ++ ['"']) =
    .ok (.literal (.str (String.ofList cs))) := by
  have htrim : trim ('"' :: t ++ ['"']) = '"' :: t ++ ['"'] :=
    trim_of_tight (startsIn_cons (by decide) _) (endsIn_concat (by decide) _)
  have hround : enclosed? '(' ')' ('"' :: t ++ ['"']) = none :=
    enclosed?_eq_none (startsIn_cons (p := fun c => c = '"') rfl _) rfl ')'
  rw [readExpr]
  simp only [htrim, hround, quotation?_quoted h.decode_eq]

end Spelling

/-! ### The line -/

/-- A line that prints an expression. -/
def outputLine (inner : List Char) : List Char := "console.log(".toList ++ inner ++ [')']

theorem outputLine_eq (inner : List Char) :
    outputLine inner = "console".toList ++ '.' :: ("log(".toList ++ (inner ++ [')'])) := by
  unfold outputLine
  rw [List.append_assoc]
  exact List.append_assoc "console".toList ('.' :: "log(".toList) _

theorem outputLine_dotted (inner : List Char) : outputLine inner =
    ['.'].intercalate ["console".toList, "log".toList] ++ ('(' :: inner ++ [')']) := by
  unfold outputLine
  rw [List.append_assoc]
  exact List.append_assoc (['.'].intercalate ["console".toList, "log".toList]) ['('] _

theorem getLast?_outputLine (inner : List Char) : (outputLine inner).getLast? = some ')' :=
  List.getLast?_concat

theorem isIdentifier_console : isIdentifier "console" = true := by decide

theorem keywords_reserved : ∀ word ∈ ["var", "let", "const", "return"], word ∈ reservedWords := by
  decide

/-- The statement that prints an expression. -/
def outputStatement (e : Expr) : Statement := .effect (.call (.member (.name "console") "log") [e])

/-- A text that is **read as an expression** wherever there is a level left, and is one item of a
list. -/
structure Argument (inner : List Char) (e : Expr) : Prop where
  whole : Whole isItemPart inner
  starts : StartsIn isInk inner
  ends : EndsIn isInk inner
  read : ∀ room, readExpr (room + 1) inner = .ok e

theorem argument_int (n : Int64) : Argument (Literal.int n).text (.literal (.int n)) where
  whole := by
    have hatomic : ∀ e ∈ [Expr.literal (.int n)], e.Atomic := by simpa using Expr.Atomic.int n
    simpa [Expr.text] using (items_of_atomic hatomic).whole
  starts := (Expr.Atomic.int n).starts.mono fun _ => isInk_of_isEdge
  ends := (Expr.Atomic.int n).ends.mono fun _ => isInk_of_isEdge
  read room := (Expr.Atomic.int n).readExpr_text room

theorem argument_str (h : Spelling cs t) :
    Argument ('"' :: t ++ ['"']) (.literal (.str (String.ofList cs))) where
  whole := h.quotable.whole _
  starts := startsIn_cons (by decide) _
  ends := endsIn_concat (by decide) _
  read := h.readExpr_eq

namespace Argument

variable {inner : List Char} {e : Expr} (h : Argument inner e)
include h

theorem readCall_eq (room : Nat) : readCall (readExpr (room + 1)) (outputLine inner) =
    .ok (some (.call (.member (.name "console") "log") [e])) := by
  have hnames : ∀ n ∈ ["console".toList, "log".toList], isName n = true := by decide
  have hparts := callParts?_eq (List.cons_ne_nil _ _) hnames
    (by simpa using h.whole : ∀ u ∈ [inner], Whole isItemPart u) (by simp [isItemPart])
    (by simpa using ⟨h.starts, h.ends⟩)
  rw [commaList, List.intercalate_singleton] at hparts
  rw [readCall, outputLine_dotted, hparts]
  simp only [List.mapM_cons, List.mapM_nil, h.read]
  rfl

theorem readSimple_eq (room : Nat) : readSimple (readExpr (room + 1)) (outputLine inner) =
    .ok (some (outputStatement e)) := by
  have hline := outputLine_eq inner
  have hstop : Stops isNamePart ('.' :: ("log(".toList ++ (inner ++ [')']))) :=
    stops_cons (by decide) _
  have hapart : ∀ word ∈ ["var", "let", "const", "return"], Apart word (outputLine inner) := by
    intro word hword
    rw [hline]
    exact apart_of_isIdentifier isIdentifier_console (keywords_reserved word hword) hstop
  have hkinds : ∀ word ∈ ["var", "let", "const"], word ∈ ["var", "let", "const", "return"] := by
    decide
  have hdeclaration := declaration?_eq_none fun word hword => hapart word (hkinds word hword)
  have hreturn := return?_eq_none (hapart "return" (by simp))
  have hupdate : update? (outputLine inner) = none := by
    rw [hline]
    exact update?_eq_none (isName_of_isIdentifier isIdentifier_console) hstop rfl
  have hassignment : assignment? (outputLine inner) = none := by
    rw [hline]
    exact assignment?_eq_none (isName_of_isIdentifier isIdentifier_console) hstop
      (assignOp?_eq_none (.inr rfl) _)
  rw [readSimple, hdeclaration, hreturn]
  simp only [hupdate, readAssignment, hassignment]
  rw [h.readCall_eq room]
  rfl

theorem readStatement_eq (room : Nat) (inner' : Level) {l : Line} (hl : l.text = outputLine inner)
    (lines : List Line) (ns : List Notice) :
    readStatement inner' (.withRoom (room + 2)) l lines ns =
      .ok ((some (outputStatement e), lines), ns) := by
  have hlast : (outputLine inner).getLast? ≠ some '\x7b' := by
    rw [getLast?_outputLine]
    decide
  have hsimple : readSimple (Readers.withRoom (room + 2)).direct (outputLine inner) =
      .ok (some (outputStatement e)) := h.readSimple_eq room
  rw [readStatement, hl, functionHeader?_eq_none hlast, branchHeader?_eq_none hlast,
    loopHeader?_eq_none hlast]
  dsimp only
  rw [hsimple]
  rfl

theorem readBlock_eq (room : Nat) {l : Line} (hl : l.text = outputLine inner)
    (ns : List Notice) :
    (levels (room + 2)).block [l] ns = .ok ([outputStatement e], ns) := by
  have hread := h.readStatement_eq room (levels (room + 1)) hl [] ns
  have hbind : (levels (room + 2)).block [l] ns =
      readStatement (levels (room + 1)) (.withRoom (room + 2)) l [] ns >>= fun x =>
        (readAll (readStatement (levels (room + 1)) (.withRoom (room + 2))) 0 x.1.2 >>=
          fun ss => pure (x.1.1.toList ++ ss)) x.2 := rfl
  rw [hbind, hread]
  rfl

theorem settled : Settled (outputLine inner) := by
  have hnames : ∀ n ∈ ["console".toList, "log".toList], isName n = true := by decide
  have hround := (h.whole.mono (q := fun _ => true) fun _ _ => rfl).enclosed isDottedPart
  have hwhole := ((whole_dotted hnames).append hround).mono (q := isJoined) fun c hc => by
    rcases isDottedPart_cases hc with hc | rfl
    · exact isJoined_of_isNamePart hc
    · rfl
  rw [← outputLine_dotted] at hwhole
  refine settled_of_whole hwhole ?_ (endsIn_concat (by decide) _)
  rw [outputLine_eq]
  have hstart : StartsIn isInk "console".toList := startsIn_cons (by decide) _
  exact hstart.append _

end Argument

/-- **A source of one line that prints a literal** is this statement and nothing else. -/
theorem readScript_outputLine {inner : List Char} {e : Expr} (h : Argument inner e) :
    readScript (String.ofList (outputLine inner)) = .ok ⟨[outputStatement e], []⟩ := by
  have hlines : (normalize (String.ofList (outputLine inner))).map Line.text =
      [outputLine inner] := by
    rw [map_text_normalize, String.toList_ofList, splitOn_of_notMem h.settled.newline,
      List.flatMap_singleton, h.settled.alone]
  obtain ⟨l, ls, hlines, hl, hls⟩ := List.map_eq_cons_iff.1 hlines
  obtain rfl := List.map_eq_nil_iff.1 hls
  have hblock : (levels (roomAt 0)).block [l] [] = .ok ([outputStatement e], []) :=
    h.readBlock_eq (roomAt 0 - 2) hl []
  rw [readScript, hlines, StateT.run, hblock]
  rfl

end Source

end TapeCompiler
