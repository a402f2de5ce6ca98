import TapeCompiler.Proofs.Script.Headers

/-! # The lines of a printed program

Every line that is printed is found again as a line of its own (`normalize_settled`), and the lines
of a statement leave the depth of braces as it was (`Statement.Plain.depthPast`), so that the lines
of a block are found up to the brace that closes it (`blockOf_body`). -/

namespace TapeCompiler

namespace Source

open Text

variable {p : Char → Bool} {l w : List Char}

/-! ### Lines that stay as they are -/

/-- A line that is **left alone**: it is one statement line, the same one. -/
structure Settled (l : List Char) : Prop where
  newline : '\n' ∉ l
  alone : statementsOf l = [l]

theorem finished_reverse (hs : StartsIn isInk l) (he : EndsIn isInk l) :
    finished l.reverse = [l] := by
  rw [finished, List.reverse_reverse, trim_of_tight hs he, if_neg (by simpa using hs.ne_nil)]

theorem statementsOf_eq (hs : StartsIn isInk l) (he : EndsIn isInk l)
    (hnote : beforeNote (plain l) = l) (hpiece : splitTop ';' l = [trim l])
    (hcut : cutBraces [] (plain l) = [l]) :
    statementsOf l = [l] := by
  rw [statementsOf]
  simp only [hnote, trim_of_tight hs he, hpiece, List.isEmpty_iff, hs.ne_nil, if_false,
    List.flatMap_singleton, hcut]

theorem settled_of_whole (h : Whole isJoined l) (hs : StartsIn isInk l) (he : EndsIn isInk l) :
    Settled l := by
  have hnote : beforeNote (plain l) = l := by simpa [beforeNote] using h.noteless []
  have hcut := cutBraces_braceless h.woven.braceless [] []
  rw [List.append_nil, List.append_nil, chars_plain, cutBraces, finished_reverse hs he] at hcut
  have hpiece := h.splitTop_eq rfl ne_of_isJoined
  exact ⟨h.newline_notMem, statementsOf_eq hs he hnote hpiece hcut⟩

theorem plain_opening (h : Whole p w) : plain (w ++ ['\x7b']) = plain w ++ [('\x7b', true)] :=
  h.closed.plain_append ['\x7b']

theorem settled_opening (h : Whole isJoined w) (hs : StartsIn isInk w) :
    Settled (w ++ ['\x7b']) := by
  have hs := hs.append ['\x7b']
  have he : EndsIn isInk (w ++ ['\x7b']) := endsIn_concat (by decide) w
  have hnote : beforeNote (plain (w ++ ['\x7b'])) = w ++ ['\x7b'] := by
    rw [plain_opening h, h.noteless]
    rfl
  have hpieces := piecesAt_woven h.woven rfl (Int.le_refl 0) (fun _ => ne_of_isJoined)
    [('\x7b', true)]
  have hbrace : piecesAt ';' 0 [('\x7b', true)] = [['\x7b']] := by decide
  have hpiece : splitTop ';' (w ++ ['\x7b']) = [trim (w ++ ['\x7b'])] := by
    rw [splitTop, plain_opening h, hpieces, hbrace, chars_plain, foldr_consFirst]
    rfl
  have hcut : cutBraces [] (plain (w ++ ['\x7b'])) = [w ++ ['\x7b']] := by
    have hreverse : '\x7b' :: w.reverse = (w ++ ['\x7b']).reverse := by simp
    rw [plain_opening h, cutBraces_braceless h.woven.braceless, List.append_nil, chars_plain,
      cutBraces, if_pos ⟨rfl, rfl⟩, hreverse, finished_reverse hs he]
    rfl
  refine ⟨?_, statementsOf_eq hs he hnote hpiece hcut⟩
  simpa using h.newline_notMem

theorem settled_closing : Settled ['\x7d'] := ⟨by decide, by decide⟩

theorem settled_else : Settled "\x7d else \x7b".toList := ⟨by decide, by decide⟩

/-! ### Normalized sources -/

theorem map_text_normalize (source : String) :
    (normalize source).map Line.text = (splitOn '\n' source.toList).flatMap statementsOf := by
  calc (normalize source).map Line.text
      = ((splitOn '\n' source.toList).zipIdx.map Prod.fst).flatMap statementsOf := by
        rw [normalize, List.map_flatMap, List.flatMap_map]
        simp [Function.comp_def]
    _ = (splitOn '\n' source.toList).flatMap statementsOf := by rw [List.zipIdx_map_fst]

theorem splitOn_lines {ls : List (List Char)} (h : ∀ l ∈ ls, '\n' ∉ l) :
    splitOn '\n' (ls.flatMap fun l => l ++ ['\n']) = ls ++ [[]] := by
  induction ls with
  | nil => rfl
  | cons l ls ih =>
    rw [List.flatMap_cons, List.append_assoc, List.singleton_append, splitOn_append (h l (by simp)),
      ih fun l hl => h l (by simp [hl])]
    rfl

/-- **Settled lines** are the statement lines of the source they are written to. -/
theorem normalize_settled {ls : List (List Char)} (h : ∀ l ∈ ls, Settled l) :
    (normalize (String.ofList (ls.flatMap fun l => l ++ ['\n']))).map Line.text = ls := by
  have halone : ls.flatMap statementsOf = ls := by
    rw [List.flatMap_def, List.map_congr_left fun l hl => (h l hl).alone, ← List.flatMap_def,
      List.flatMap_singleton']
  rw [map_text_normalize, String.toList_ofList, splitOn_lines fun l hl => (h l hl).newline,
    List.flatMap_append, halone]
  exact List.append_nil ls

/-! ### Depths -/

/-- The depth of braces behind lines, unless it falls to zero in them. -/
def depthPast (depth : Nat) (ls : List (List Char)) : Option Nat :=
  ls.foldlM (fun depth l => depthBehind depth (plain l)) depth

theorem depthPast_cons (depth : Nat) (l : List Char) (ls : List (List Char)) :
    depthPast depth (l :: ls) = (depthBehind depth (plain l)).bind fun d => depthPast d ls :=
  List.foldlM_cons

theorem depthPast_append (depth : Nat) (ls ls' : List (List Char)) :
    depthPast depth (ls ++ ls') = (depthPast depth ls).bind fun d => depthPast d ls' :=
  List.foldlM_append

theorem depthBehind_whole (h : Whole p l) (depth : Nat) :
    depthBehind depth (plain l) = some depth := by
  have := depthBehind_braceless h.woven.braceless depth []
  rwa [List.append_nil] at this

theorem depthBehind_opening (h : Whole p w) (depth : Nat) :
    depthBehind depth (plain (w ++ ['\x7b'])) = some (depth + 1) := by
  rw [plain_opening h, depthBehind_braceless h.woven.braceless]
  rfl

theorem depthBehind_closing (depth : Nat) :
    depthBehind (depth + 2) (plain ['\x7d']) = some (depth + 1) := rfl

theorem depthBehind_else (depth : Nat) :
    depthBehind (depth + 2) (plain "\x7d else \x7b".toList) = some (depth + 2) := rfl

/-- Lines in which the depth does not fall to zero belong to the block. -/
theorem block?_append {ls : List Line} {depth d : Nat}
    (h : depthPast depth (ls.map Line.text) = some d) (rest : List Line) :
    block? depth (ls ++ rest) =
      (block? d rest).map fun (block, close, rest) => (ls ++ block, close, rest) := by
  induction ls generalizing depth with
  | nil =>
    cases h
    simp
  | cons l ls ih =>
    rw [List.map_cons, depthPast_cons, Option.bind_eq_some_iff] at h
    obtain ⟨d', hd', h⟩ := h
    rw [List.cons_append, block?, hd']
    simp only [ih h, Option.map_map]
    rfl

/-- **The lines of a block** are those up to the line that closes it. -/
theorem blockOf_body {body : List Line} (h : depthPast 1 (body.map Line.text) = some 1)
    {close : Line} (hclose : depthBehind 1 (plain close.text) = none) (header : Line)
    (rest : List Line) : blockOf header (body ++ close :: rest) = .ok (body, close, rest) := by
  rw [blockOf, block?_append h, block?, hclose]
  simp

end Source

open Source Text

namespace Source

/-! ### Header lines -/

/-- A line that ends with the brace that **opens a block**. -/
def Opening (l : List Char) : Prop := ∃ w, l = w ++ ['\x7b'] ∧ Whole isJoined w ∧ StartsIn isEdge w

theorem Opening.settled {l : List Char} (h : Opening l) : Settled l := by
  obtain ⟨w, rfl, hw, hs⟩ := h
  exact settled_opening hw (hs.mono fun _ => isInk_of_isEdge)

theorem Opening.depthBehind {l : List Char} (h : Opening l) (depth : Nat) :
    depthBehind depth (plain l) = some (depth + 1) := by
  obtain ⟨w, rfl, hw, -⟩ := h
  exact depthBehind_opening hw depth

/-- **A line of a program**: a statement, a header, a closing brace, or one between the sides of a
branch. -/
inductive ProgramLine : List Char → Prop
  | statement {l : List Char} (h : Whole isJoined l) (hs : StartsIn isEdge l)
    (he : EndsIn isEdge l) : ProgramLine l
  | opening {l : List Char} (h : Opening l) : ProgramLine l
  | closing : ProgramLine ['\x7d']
  | turn : ProgramLine "\x7d else \x7b".toList

/-- Every line of a program is left alone. -/
theorem ProgramLine.settled {l : List Char} (h : ProgramLine l) : Settled l := by
  cases h with
  | statement h hs he =>
    exact settled_of_whole h (hs.mono fun _ => isInk_of_isEdge) (he.mono fun _ => isInk_of_isEdge)
  | opening h => exact h.settled
  | closing => exact settled_closing
  | turn => exact settled_else

theorem opening_header {word : String} (hw : isName word.toList = true) {inner : List Char}
    (hi : Whole (fun _ => true) inner) : Opening (headerText word inner) := by
  have hblank : Whole isJoined [' '] := whole_literal (by decide)
  have hword := (whole_of_isName hw).mono fun _ => isJoined_of_isNamePart
  refine ⟨word.toList ++ ([' '] ++ (('(' :: inner ++ [')']) ++ [' '])), ?_,
    hword.append (hblank.append ((hi.enclosed isJoined).append hblank)), ?_⟩
  · unfold headerText
    simp only [List.append_assoc]
    rfl
  · exact ((startsIn_of_isName hw).mono fun _ => isEdge_of_isNameStart).append _

theorem opening_function {name : String} (hn : isIdentifier name = true) {params : List String}
    (hp : ∀ p ∈ params, isIdentifier p = true) : Opening (functionText name params) := by
  have hkeyword : Whole isJoined "function ".toList := whole_literal (by decide)
  have hblank : Whole isJoined [' '] := whole_literal (by decide)
  have hparams : Whole (fun _ => true) (commaList (params.map String.toList)) :=
    whole_commaList (p := isJoined) (by simpa using fun p h => whole_of_identifier (hp p h))
  refine ⟨"function ".toList ++ (name.toList ++
    (('(' :: commaList (params.map String.toList) ++ [')']) ++ [' '])), ?_, hkeyword.append
      ((whole_of_identifier hn).append ((hparams.enclosed isJoined).append hblank)),
      startsIn_cons (by decide) _⟩
  unfold functionText
  simp only [List.append_assoc]
  rfl

theorem whole_clauses {first test last : List Char} (hf : Whole (fun _ => true) first)
    (ht : Whole (fun _ => true) test) (hl : Whole (fun _ => true) last) :
    Whole (fun _ => true) (clausesText first test last) := by
  have hsep : Whole (fun _ => true) "; ".toList := whole_literal (by decide)
  exact (((hf.append hsep).append ht).append hsep).append hl

end Source

/-! ### Clauses of a loop -/

theorem Source.splitTop_clauses {first test last : List Char} (hf : Whole isJoined first)
    (ht : Whole isJoined test) (hl : Whole isJoined last) :
    splitTop ';' (clausesText first test last) = [trim first, trim test, trim last] := by
  have htext : clausesText first test last =
      first ++ ';' :: ' ' :: (test ++ ';' :: ' ' :: last) := by
    unfold clausesText
    simp only [List.append_assoc]
    rfl
  rw [htext, hf.splitTop_append ⟨rfl, rfl⟩ ne_of_isJoined, splitTop_blank (by decide),
    ht.splitTop_append ⟨rfl, rfl⟩ ne_of_isJoined, splitTop_blank (by decide),
    hl.splitTop_eq rfl ne_of_isJoined]

theorem Expr.Action.trim_text {e : Expr} (h : e.Action) : trim e.text = e.text :=
  trim_of_tight (h.starts.mono fun _ => isInk_of_isEdge) (h.ends.mono fun _ => isInk_of_isEdge)

theorem Expr.clause_text {e : Expr} (h : e.Atomic ∨ e.Action) :
    Whole isJoined e.text ∧ trim e.text = e.text ∧ e.text ≠ [] :=
  h.elim (fun h => ⟨h.whole_joined, h.trim_text, h.starts.ne_nil⟩)
    fun h => ⟨h.whole, h.trim_text, h.starts.ne_nil⟩

theorem Expr.clause_textOf? {e : Option Expr} (h : ∀ x ∈ e, x.Atomic ∨ x.Action) :
    Whole isJoined (Expr.textOf? e) ∧ trim (Expr.textOf? e) = Expr.textOf? e := by
  cases e with
  | none => exact ⟨whole_nil _, rfl⟩
  | some e => exact ⟨(clause_text (h e rfl)).1, (clause_text (h e rfl)).2.1⟩

theorem Statement.clause_textOfInit {init : Option Statement} (h : ∀ s ∈ init, s.OneLine) :
    Whole isJoined (Statement.textOfInit init) ∧
      trim (Statement.textOfInit init) = Statement.textOfInit init := by
  cases init with
  | none => exact ⟨whole_nil _, rfl⟩
  | some s =>
    have hs := h s rfl
    rw [textOfInit]
    exact ⟨hs.whole, trim_of_tight (hs.starts.mono fun _ => isInk_of_isEdge)
      (hs.ends.mono fun _ => isInk_of_isEdge)⟩

/-! ### Lines of statements -/

namespace Statement

theorem OneLine.moreLines_eq {s : Statement} (h : s.OneLine) : s.moreLines = [] := by
  cases h <;> rw [moreLines]

theorem forall_linesOf {p : List Char → Prop} {ss : List Statement}
    (h : ∀ s ∈ ss, ∀ l ∈ s.firstLine :: s.moreLines, p l) : ∀ l ∈ linesOf ss, p l := by
  induction ss with
  | nil => simp [linesOf]
  | cons s ss ih =>
    rw [linesOf, ← List.cons_append]
    intro l hl
    rcases List.mem_append.1 hl with hl | hl
    · exact h s (by simp) l hl
    · exact ih (fun s hs => h s (by simp [hs])) l hl

theorem depthPast_linesOf {ss : List Statement}
    (h : ∀ s ∈ ss, ∀ d, Source.depthPast (d + 1) (s.firstLine :: s.moreLines) = some (d + 1))
    (d : Nat) : Source.depthPast (d + 1) (linesOf ss) = some (d + 1) := by
  induction ss with
  | nil => rw [linesOf]; rfl
  | cons s ss ih =>
    rw [linesOf, ← List.cons_append, depthPast_append, h s (by simp), Option.bind_some,
      ih fun s hs => h s (by simp [hs])]

namespace Plain

variable {s : Statement}

/-- The first line of a statement of several lines opens a block. -/
theorem opening_loop {init : Option Statement} {test last : Option Expr}
    (hi : ∀ s ∈ init, s.OneLine) (ht : ∀ e ∈ test, e.Atomic)
    (hl : ∀ e ∈ last, e.Atomic ∨ e.Action) (body : List Statement) :
    Opening (Statement.loop init test last body).firstLine := by
  have hinit := (clause_textOfInit hi).1.mono (q := fun _ => true) fun _ _ => rfl
  have htest := (Expr.clause_textOf? fun e he => .inl (ht e he)).1.mono
    (q := fun _ => true) fun _ _ => rfl
  have hlast := (Expr.clause_textOf? hl).1.mono (q := fun _ => true) fun _ _ => rfl
  rw [firstLine]
  exact opening_header (by decide) (whole_clauses hinit htest hlast)

theorem opening_branch {test : Expr} (ht : test.Atomic) (consequent : List Statement)
    (alternate : Option (List Statement)) :
    Opening (Statement.branch test consequent alternate).firstLine := by
  rw [firstLine]
  exact opening_header (by decide) (ht.whole_joined.mono fun _ _ => rfl)

theorem lines (h : s.Plain) : ∀ l ∈ s.firstLine :: s.moreLines, ProgramLine l := by
  induction h with
  | line h =>
    rw [h.moreLines_eq]
    simpa using ProgramLine.statement h.whole h.starts h.ends
  | function hn hp hb ih =>
    rw [firstLine, moreLines, List.forall_mem_cons, List.forall_mem_append]
    exact ⟨.opening (opening_function hn hp), forall_linesOf ih, by simpa using .closing⟩
  | @branch test consequent alternate ht hc ha ihc iha =>
    rw [moreLines, List.forall_mem_cons, List.forall_mem_append, List.forall_mem_append]
    refine ⟨.opening (opening_branch ht _ _), ⟨forall_linesOf ihc, ?_⟩, by simpa using .closing⟩
    cases alternate with
    | none => simp [linesOfElse]
    | some body =>
      rw [linesOfElse, List.forall_mem_cons]
      exact ⟨.turn, forall_linesOf (iha body rfl)⟩
  | loop hi ht hl hb ih =>
    rw [moreLines, List.forall_mem_cons, List.forall_mem_append]
    exact ⟨.opening (opening_loop hi ht hl _), forall_linesOf ih, by simpa using .closing⟩

theorem settled (h : s.Plain) : ∀ l ∈ s.firstLine :: s.moreLines, Source.Settled l :=
  fun l hl => (h.lines l hl).settled

theorem depthPast_body {header : List Char} (hh : Opening header) {body : List (List Char)}
    {d : Nat} (hb : Source.depthPast (d + 2) body = some (d + 2)) :
    Source.depthPast (d + 1) (header :: (body ++ [['\x7d']])) = some (d + 1) := by
  rw [depthPast_cons, hh.depthBehind, Option.bind_some, depthPast_append, hb, Option.bind_some,
    depthPast_cons, depthBehind_closing]
  rfl

/-- **The lines of a simple statement** keep the depth of the braces around them. -/
theorem depthPast (h : s.Plain) (d : Nat) :
    Source.depthPast (d + 1) (s.firstLine :: s.moreLines) = some (d + 1) := by
  induction h generalizing d with
  | line h =>
    rw [h.moreLines_eq, depthPast_cons, depthBehind_whole h.whole]
    rfl
  | function hn hp hb ih =>
    rw [firstLine, moreLines]
    exact depthPast_body (opening_function hn hp) (depthPast_linesOf ih (d + 1))
  | @branch test consequent alternate ht hc ha ihc iha =>
    rw [moreLines]
    refine depthPast_body (opening_branch ht _ _) ?_
    rw [depthPast_append, depthPast_linesOf ihc, Option.bind_some]
    cases alternate with
    | none =>
      rw [linesOfElse]
      rfl
    | some body =>
      rw [linesOfElse, depthPast_cons, depthBehind_else, Option.bind_some,
        depthPast_linesOf (iha body rfl)]
  | loop hi ht hl hb ih =>
    rw [moreLines]
    exact depthPast_body (opening_loop hi ht hl _) (depthPast_linesOf ih (d + 1))

/-! ### First lines -/

theorem starts (h : s.Plain) : StartsIn isEdge s.firstLine := by
  have hopening : ∀ l, Opening l → StartsIn isEdge l := by
    rintro _ ⟨w, rfl, -, hs⟩
    exact hs.append _
  cases h with
  | line h => exact h.starts
  | function hn hp hb =>
    rw [firstLine]
    exact hopening _ (opening_function hn hp)
  | branch ht hc ha => exact hopening _ (opening_branch ht _ _)
  | loop hi ht hl hb => exact hopening _ (opening_loop hi ht hl _)

theorem apart (h : s.Plain) : Apart "else" s.firstLine := by
  cases h with
  | line h => exact h.apart
  | function hn hp hb =>
    rw [firstLine]
    intro r hr
    cases hr
  | branch ht hc ha =>
    rw [firstLine]
    intro r hr
    cases hr
  | loop hi ht hl hb =>
    rw [firstLine]
    intro r hr
    cases hr

theorem no_else (h : s.Plain) : elseIf? s.firstLine = none ∧ isElse s.firstLine = false := by
  have hstart := h.starts
  have hbrace : after? ['\x7d'] s.firstLine = none :=
    Option.eq_none_iff_forall_ne_some.2 fun r hr =>
      hstart.ne_cons (d := '\x7d') rfl r (after?_eq_some.1 hr)
  have hafter : afterBrace s.firstLine = s.firstLine := by
    rw [afterBrace, hbrace]
    exact (hstart.mono fun _ => isInk_of_isEdge).trimFront
  cases hr : keyword? "else" s.firstLine with
  | none => exact ⟨by rw [elseIf?, hafter, hr]; rfl, by rw [isElse, hafter, hr]⟩
  | some r =>
    have hname := h.apart r hr
    constructor
    · rw [elseIf?, hafter, hr]
      simp [blanks?_eq_none hname]
    · have hink := (hname.mono fun _ => isInk_of_isNamePart).trimFront
      rw [isElse, hafter, hr]
      simp only [hink, decide_eq_false_iff_not]
      exact hname.ne_cons rfl []

end Plain

end Statement

end TapeCompiler
