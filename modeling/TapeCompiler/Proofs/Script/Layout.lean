import TapeCompiler.Proofs.Script.RoundTrip

/-! # Layouts

A program can be laid out in many ways: its lines stand on rows of text, several on one row. On a
row lines are parted by semicolons, and by a blank where a brace parts them (`Beside`). However the
lines are laid out, they are found again (`Lays.normalize_text`), so the program is read all the
same (`readScript_layout`). The one gap is behind a closing brace: there the letters of an else are
taken for one though a longer word goes on, and the statement is lost (`readScript_behind_brace`).
-/

namespace TapeCompiler

namespace Source

open Text

variable {a b l cs : List Char} {r : Marked}

/-! ### Text without a semicolon -/

/-- A text on one row in which no note starts and **no statement ends** at a semicolon. -/
structure Solid (cs : List Char) : Prop where
  closed : Closed cs
  noteless : Noteless cs
  newline : '\n' ∉ cs
  uncut : ∀ r, piecesAt ';' 0 (plain cs ++ r) = cs.foldr consFirst (piecesAt ';' 0 r)

theorem Solid.append (ha : Solid a) (hb : Solid b) : Solid (a ++ b) where
  closed := ha.closed.append hb.closed
  noteless := ha.noteless.append ha.closed hb.noteless
  newline := by simp [ha.newline, hb.newline]
  uncut r := by
    rw [ha.closed.plain_append, List.append_assoc, ha.uncut, hb.uncut, List.foldr_append]

theorem solid_of_whole (h : Whole isJoined cs) : Solid cs where
  closed := h.closed
  noteless := h.noteless
  newline := h.newline_notMem
  uncut r := by
    rw [piecesAt_woven h.woven rfl (Int.le_refl 0) (fun _ => ne_of_isJoined), chars_plain]

theorem solid_opening : Solid ['\x7b'] := ⟨rfl, fun _ => rfl, by decide, fun _ => rfl⟩

theorem solid_closing : Solid ['\x7d'] := ⟨rfl, fun _ => rfl, by decide, fun _ => rfl⟩

theorem ProgramLine.solid (h : ProgramLine l) : Solid l := by
  cases h with
  | statement h hs he => exact solid_of_whole h
  | opening h =>
    obtain ⟨w, rfl, hw, -⟩ := h
    exact (solid_of_whole hw).append solid_opening
  | closing => exact solid_closing
  | turn =>
    have helse : Solid " else ".toList := solid_of_whole (whole_literal (by decide))
    exact solid_closing.append (helse.append solid_opening)

theorem ProgramLine.tight (h : ProgramLine l) : StartsIn isInk l ∧ EndsIn isInk l := by
  cases h with
  | statement h hs he =>
    exact ⟨hs.mono fun _ => isInk_of_isEdge, he.mono fun _ => isInk_of_isEdge⟩
  | opening h =>
    obtain ⟨w, rfl, -, hs⟩ := h
    exact ⟨(hs.mono fun _ => isInk_of_isEdge).append _, endsIn_concat (by decide) w⟩
  | closing => exact ⟨startsIn_cons (by decide) _, endsIn_concat (by decide) []⟩
  | turn => exact ⟨startsIn_cons (by decide) _, endsIn_concat (by decide) "\x7d else ".toList⟩

/-! ### Cutting at braces -/

theorem finished_blank (g : List Char) : finished (g ++ [' ']) = finished g := by
  have htrim : trim (g ++ [' ']).reverse = trim g.reverse := by
    rw [List.reverse_append]
    rfl
  rw [finished, htrim, finished]

theorem cutBraces_blank (g : List Char) (m : Marked) :
    cutBraces (g ++ [' ']) m = cutBraces g m := by
  induction m generalizing g with
  | nil => exact finished_blank g
  | cons x m ih =>
    obtain ⟨c, isPlain⟩ := x
    have hopening := finished_blank (c :: g)
    have hcons := ih (c :: g)
    rw [List.cons_append] at hopening hcons
    simp only [cutBraces, finished_blank, hopening, hcons]

/-- **A closing brace** ends what stands in front of it. -/
theorem cutBraces_closing (g : List Char) (r : Marked) :
    cutBraces g (('\x7d', true) :: r) = finished g ++ cutBraces [] (('\x7d', true) :: r) := by
  have hempty : finished [] = [] := rfl
  simp [cutBraces, hempty]

theorem cutBraces_closed (h : elseNext (chars r) = false) :
    cutBraces [] (('\x7d', true) :: r) = ['\x7d'] :: cutBraces [] r := by
  have hempty : finished [] = [] := rfl
  simp [cutBraces, hempty, h]

theorem cutBraces_opening (h : Opening l) (r : Marked) :
    cutBraces [] (plain l ++ r) = l :: cutBraces [] r := by
  obtain ⟨w, rfl, hw, hs⟩ := h
  have hs := (hs.mono fun _ => isInk_of_isEdge).append ['\x7b']
  have hreverse : '\x7b' :: w.reverse = (w ++ ['\x7b']).reverse := by simp
  rw [plain_opening hw, List.append_assoc, cutBraces_braceless hw.woven.braceless, List.append_nil,
    chars_plain, List.singleton_append, cutBraces, if_pos ⟨rfl, rfl⟩, hreverse,
    finished_reverse hs (endsIn_concat (by decide) w)]
  rfl

/-! ### Runs -/

/-- Two lines that **a blank parts**: a brace opens or closes between them. Behind a closing brace
an else would belong to the brace. -/
def Beside (a b : List Char) : Prop :=
  a.getLast? = some '\x7b' ∨ b.head? = some '\x7d' ∨ a = ['\x7d'] ∧ ¬ "else".toList <+: b

instance (a b : List Char) : Decidable (Beside a b) :=
  inferInstanceAs (Decidable (_ ∨ _ ∨ _ ∧ ¬ _))

/-- The text of lines with a blank between each two. -/
def runText (run : List (List Char)) : List Char := [' '].intercalate run

theorem runText_cons (a b : List Char) (run : List (List Char)) :
    runText (a :: b :: run) = a ++ ' ' :: runText (b :: run) := by
  rw [runText, List.intercalate_cons_cons, List.append_assoc]
  rfl

/-- The first line of a run tells how its text starts. -/
theorem not_prefix_runText {word : List Char} (hw : ' ' ∉ word) (h : ¬ word <+: b)
    (run : List (List Char)) : ¬ word <+: runText (b :: run) := by
  cases run with
  | nil => rwa [runText, List.intercalate_singleton]
  | cons c run =>
    rw [runText_cons]
    intro hp
    have hblank : b ++ [' '] <+: b ++ ' ' :: runText (c :: run) := by simp
    rcases List.prefix_or_prefix_of_prefix hp hblank with hp | hp
    · rcases List.prefix_concat_iff.1 hp with rfl | hp
      · simp at hw
      · exact h hp
    · exact hw (hp.subset (by simp))

theorem startsIn_runText {p : Char → Bool} (h : StartsIn p b) (run : List (List Char)) :
    StartsIn p (runText (b :: run)) := by
  cases run with
  | nil => rwa [runText, List.intercalate_singleton]
  | cons c run =>
    rw [runText_cons]
    exact h.append _

theorem elseNext_eq_false (h : ¬ "else".toList <+: cs) (hs : StartsIn isInk cs) :
    elseNext (' ' :: cs) = false := by
  have hfront : trimFront (' ' :: cs) = cs := hs.trimFront
  rw [elseNext, hfront, Option.isSome_eq_false_iff, Option.isNone_iff_eq_none,
    Option.eq_none_iff_forall_ne_some]
  exact fun r hr => h ⟨r, (after?_eq_some.1 hr).symm⟩

theorem ProgramLine.cutBraces_eq (h : ProgramLine l) : cutBraces [] (plain l) = [l] := by
  cases h with
  | statement h hs he =>
    have hcut := cutBraces_braceless h.woven.braceless [] []
    rw [List.append_nil, List.append_nil, chars_plain, cutBraces] at hcut
    have hs := hs.mono fun _ => isInk_of_isEdge
    have he := he.mono fun _ => isInk_of_isEdge
    rw [hcut, finished_reverse hs he]
  | opening h =>
    have := cutBraces_opening h []
    rwa [List.append_nil] at this
  | closing => rfl
  | turn => rfl

/-- A statement beside another line stands **in front of a closing brace**. -/
theorem cutBraces_statement (h : Whole isJoined a) (hs : StartsIn isEdge a) (he : EndsIn isEdge a)
    (hb : Beside a b) (run : List (List Char)) :
    cutBraces [] (plain a ++ (' ', true) :: plain (runText (b :: run))) =
      a :: cutBraces [] (plain (runText (b :: run))) := by
  have hbrace : b.head? = some '\x7d' := by
    rcases hb with hlast | hhead | ⟨rfl, -⟩
    · exact absurd hlast (he.getLast?_ne rfl)
    · exact hhead
    · exact absurd rfl (hs.ne_cons (d := '\x7d') rfl [])
  obtain ⟨t, ht⟩ : ∃ t, plain (runText (b :: run)) = ('\x7d', true) :: t := by
    obtain ⟨u, rfl⟩ := List.head?_eq_some_iff.1 hbrace
    obtain ⟨_, u, hu, hc⟩ :=
      startsIn_runText (startsIn_cons (p := fun c => c = '\x7d') (c := '\x7d') rfl u) run
    rw [hu, of_decide_eq_true hc]
    exact ⟨_, rfl⟩
  have hfinished : finished (' ' :: a.reverse) = [a] := by
    have hs := hs.mono fun _ => isInk_of_isEdge
    have he := he.mono fun _ => isInk_of_isEdge
    have htrim : trim (' ' :: a.reverse).reverse = a := by
      rw [List.reverse_cons, List.reverse_reverse, trim_append_blank hs he]
    rw [finished, htrim, if_neg (by simpa using hs.ne_nil)]
  rw [cutBraces_braceless h.woven.braceless, List.append_nil, chars_plain, ht, cutBraces,
    if_neg (by simp), if_neg (by simp), cutBraces_closing, hfinished]
  rfl

/-- **The lines of a run** are found between its braces. -/
theorem cutBraces_runText {run : List (List Char)} (hne : run ≠ [])
    (hl : ∀ l ∈ run, ProgramLine l) (hb : run.IsChain Beside) :
    cutBraces [] (plain (runText run)) = run := by
  induction run with
  | nil => exact absurd rfl hne
  | cons a run ih =>
    have ha := hl a (by simp)
    cases run with
    | nil => rw [runText, List.intercalate_singleton, ha.cutBraces_eq]
    | cons b run =>
      obtain ⟨hbeside, hb⟩ := List.isChain_cons_cons.1 hb
      have ih := ih (by simp) (fun l h => hl l (by simp [h])) hb
      have hblank : cutBraces [] ((' ', true) :: plain (runText (b :: run))) = b :: run := by
        have := cutBraces_blank [] (plain (runText (b :: run)))
        rw [ih] at this
        exact this
      have hplain : plain (runText (a :: b :: run)) =
          plain a ++ (' ', true) :: plain (runText (b :: run)) := by
        rw [runText_cons, ha.solid.closed.plain_append]
        rfl
      rw [hplain]
      cases ha with
      | statement h hs he => rw [cutBraces_statement h hs he hbeside, ih]
      | opening h => rw [cutBraces_opening h, hblank]
      | closing =>
        have helse : ¬ "else".toList <+: b := by
          rcases hbeside with hlast | hhead | ⟨-, h⟩
          · cases hlast
          · rintro ⟨t, rfl⟩
            cases hhead
          · exact h
        have hnext := elseNext_eq_false (not_prefix_runText (by decide) helse run)
          (startsIn_runText (hl b (by simp)).tight.1 run)
        have hclosed := cutBraces_closed (r := (' ', true) :: plain (runText (b :: run)))
          (by rwa [chars, List.map_cons, ← chars, chars_plain])
        exact hclosed.trans (by rw [hblank])
      | turn =>
        have hturn : ∀ r, cutBraces [] (plain "\x7d else \x7b".toList ++ r) =
            "\x7d else \x7b".toList :: cutBraces [] r := fun r => rfl
        rw [hturn, hblank]

theorem solid_runText {run : List (List Char)} (hl : ∀ l ∈ run, ProgramLine l) :
    Solid (runText run) := by
  induction run with
  | nil => exact solid_of_whole (whole_nil _)
  | cons a run ih =>
    have ha := (hl a (by simp)).solid
    cases run with
    | nil => rwa [runText, List.intercalate_singleton]
    | cons b run =>
      have hblank : Solid [' '] := solid_of_whole (whole_literal (by decide))
      rw [runText_cons]
      exact ha.append (hblank.append (ih fun l h => hl l (by simp [h])))

theorem tight_runText {run : List (List Char)} (hne : run ≠ []) (hl : ∀ l ∈ run, ProgramLine l) :
    StartsIn isInk (runText run) ∧ EndsIn isInk (runText run) := by
  induction run with
  | nil => exact absurd rfl hne
  | cons a run ih =>
    have ha := (hl a (by simp)).tight
    cases run with
    | nil => rwa [runText, List.intercalate_singleton]
    | cons b run =>
      have hrest := (ih (by simp) fun l h => hl l (by simp [h])).2
      rw [runText_cons]
      exact ⟨ha.1.append _, (hrest.append [' ']).append a⟩

/-! ### Rows -/

theorem Solid.splitTop_append (h : Solid a) (b : List Char) :
    splitTop ';' (a ++ ';' :: b) = trim a :: splitTop ';' b := by
  have hplain : plain (';' :: b) = (';', true) :: plain b := rfl
  rw [splitTop, h.closed.plain_append, hplain, h.uncut, piecesAt, if_pos ⟨rfl, rfl, rfl⟩,
    foldr_consFirst, List.append_nil]
  rfl

theorem Solid.splitTop_eq (h : Solid a) : splitTop ';' a = [trim a] := by
  have hpieces := h.uncut []
  rw [List.append_nil, piecesAt, foldr_consFirst, List.append_nil] at hpieces
  rw [splitTop, hpieces]
  rfl

/-- A row of text that **falls apart** into texts at its semicolons. -/
structure Parted (texts : List (List Char)) (cs : List Char) : Prop where
  closed : Closed cs
  noteless : Noteless cs
  newline : '\n' ∉ cs
  starts : StartsIn isInk cs
  ends : EndsIn isInk cs
  pieces : splitTop ';' cs = texts

/-- Solid texts are found again between semicolons. -/
theorem parted_join {texts : List (List Char)} (hne : texts ≠ []) (h : ∀ t ∈ texts, Solid t)
    (ht : ∀ t ∈ texts, StartsIn isInk t ∧ EndsIn isInk t) :
    Parted texts ("; ".toList.intercalate texts) := by
  induction texts with
  | nil => exact absurd rfl hne
  | cons t texts ih =>
    have hsolid := h t (by simp)
    obtain ⟨hs, he⟩ := ht t (by simp)
    cases texts with
    | nil =>
      rw [List.intercalate_singleton]
      exact ⟨hsolid.closed, hsolid.noteless, hsolid.newline, hs, he,
        by rw [hsolid.splitTop_eq, trim_of_tight hs he]⟩
    | cons u texts =>
      have ih := ih (by simp) (fun t hm => h t (by simp [hm])) fun t hm => ht t (by simp [hm])
      have hsep : Closed "; ".toList ∧ Noteless "; ".toList := ⟨rfl, fun _ => rfl⟩
      rw [List.intercalate_cons_cons, List.append_assoc]
      refine ⟨hsolid.closed.append (hsep.1.append ih.closed),
        hsolid.noteless.append hsolid.closed (hsep.2.append hsep.1 ih.noteless), ?_, hs.append _,
        (ih.ends.append _).append _, ?_⟩
      · simpa using ⟨hsolid.newline, ih.newline⟩
      · have hsplit := hsolid.splitTop_append (' ' :: "; ".toList.intercalate (u :: texts))
        rw [splitTop_blank (by decide), ih.pieces, trim_of_tight hs he] at hsplit
        exact hsplit

/-- The text of runs with a semicolon between each two. -/
def rowText (row : List (List (List Char))) : List Char := "; ".toList.intercalate (row.map runText)

/-- **The lines of a row** are found again. -/
theorem statementsOf_rowText {row : List (List (List Char))} (hne : [] ∉ row)
    (hl : ∀ run ∈ row, ∀ l ∈ run, ProgramLine l) (hb : ∀ run ∈ row, run.IsChain Beside) :
    '\n' ∉ rowText row ∧ statementsOf (rowText row) = row.flatten := by
  by_cases hrow : row = []
  · subst hrow
    exact ⟨by simp [rowText], rfl⟩
  have hnonempty : ∀ run ∈ row, run ≠ [] := fun run h he => hne (he ▸ h)
  have hparted : Parted (row.map runText) (rowText row) :=
    parted_join (by simpa using hrow) (by simpa using fun run h => solid_runText (hl run h))
      (by simpa using fun run h => tight_runText (hnonempty run h) (hl run h))
  have hnote : beforeNote (plain (rowText row)) = rowText row := by
    have := hparted.noteless []
    simpa [beforeNote] using this
  have hruns : row.map (fun run => cutBraces [] (plain (runText run))) = row := by
    conv_rhs => rw [← List.map_id row]
    exact List.map_congr_left fun run h => cutBraces_runText (hnonempty run h) (hl run h) (hb run h)
  refine ⟨hparted.newline, ?_⟩
  rw [statementsOf]
  simp only [hnote, trim_of_tight hparted.starts hparted.ends, hparted.pieces, List.isEmpty_iff,
    hparted.starts.ne_nil, if_false]
  rw [List.flatMap_map, List.flatMap_def, hruns]

/-! ### Layouts -/

/-- Rows **lay out** lines: on a row are runs of lines parted by semicolons, and in a run lines are
beside each other. A row may be empty. -/
structure Lays (rows : List (List (List (List Char)))) (ls : List (List Char)) : Prop where
  lines : rows.flatten.flatten = ls
  full : ∀ row ∈ rows, [] ∉ row
  beside : ∀ row ∈ rows, ∀ run ∈ row, run.IsChain Beside

/-- The source of rows. -/
def layoutText (rows : List (List (List (List Char)))) : String :=
  String.ofList (['\n'].intercalate (rows.map rowText))

/-- **The lines of a layout are found again.** -/
theorem Lays.normalize_text {rows : List (List (List (List Char)))} {ls : List (List Char)}
    (h : Lays rows ls) (hl : ∀ l ∈ ls, ProgramLine l) :
    (normalize (layoutText rows)).map Line.text = ls := by
  have hrows : ∀ row ∈ rows, '\n' ∉ rowText row ∧ statementsOf (rowText row) = row.flatten := by
    refine fun row hrow => statementsOf_rowText (h.full row hrow) (fun run hrun l hmem => ?_)
      (h.beside row hrow)
    refine hl l (h.lines ▸ ?_)
    simp only [List.mem_flatten]
    exact ⟨run, ⟨row, hrow, hrun⟩, hmem⟩
  rw [map_text_normalize, layoutText, String.toList_ofList]
  by_cases hne : rows = []
  · subst hne
    exact h.lines
  rw [splitOn_intercalate (by simpa using hne) (by simpa using fun row hrow => (hrows row hrow).1),
    List.flatMap_map, List.flatMap_def, List.map_congr_left fun row hrow => (hrows row hrow).2,
    ← List.flatten_flatten, h.lines]

/-- **Layout does not matter.** However the lines of a simple program are laid out, the source is
read as the program if its levels of nesting are within the limit, and is refused for its nesting if
not. -/
theorem readScript_layout {rows : List (List (List (List Char)))} {body : List Statement}
    (h : ∀ s ∈ body, s.Plain) (hrows : Lays rows (Statement.linesOf body)) :
    (Statement.levelsOf body ≤ nestingLimit + 1 →
      ∃ notices, readScript (layoutText rows) = .ok ⟨body, notices⟩) ∧
    (¬Statement.levelsOf body ≤ nestingLimit + 1 →
      ∃ b, readScript (layoutText rows) = .error (.exceeded b)) :=
  readScript_of_lines h
    (hrows.normalize_text (Statement.forall_linesOf fun s hs => (h s hs).lines))

/-- A function, a branch and what follows them, on two rows. -/
theorem readScript_layout_of_rows :
    let rows := [[["function f() \x7b".toList, "return 1".toList, "\x7d".toList],
        ["elsewhere = 2".toList]],
      [["if (a) \x7b".toList, "f()".toList], ["f()".toList, "\x7d else \x7b".toList,
        "\x7d".toList, "return".toList]]]
    let call : Statement := .effect (.call (.name "f") [])
    let body : List Statement := [.function "f" [] [.ret (some (.literal (.int 1)))],
      .effect (.assign .assign "elsewhere" (.literal (.int 2))),
      .branch (.name "a") [call, call] (some []), .ret none]
    Lays rows (Statement.linesOf body) ∧
      ∃ notices, readScript (layoutText rows) = .ok ⟨body, notices⟩ := by
  intro rows call body
  have hrows : Lays rows (Statement.linesOf body) := ⟨by decide, by decide, by decide⟩
  have hcall : call.Plain :=
    .line (.effect (@Expr.Action.call "f" [] _ (by decide) (by simp) (by simp)))
  have hplain : ∀ s ∈ body, s.Plain := by
    simp only [body, List.forall_mem_cons]
    exact ⟨.function (by decide) (by simp) (by simpa using .line (.ret (by simpa using .int _))),
      .line (.effect (.assign _ (by decide) (.int _))),
      .branch (.name (by decide)) (by simpa using hcall) (by simp), .line (.ret (by simp)),
      by simp⟩
  exact ⟨hrows, (readScript_layout hplain hrows).1 (by decide)⟩

/-! ### Behind a closing brace -/

/-- A text that starts with the letters of an else **stays on the line of the brace** in front of
it. -/
theorem settled_behind_brace (h : Whole isJoined l) (he : EndsIn isInk l)
    (helse : "else".toList <+: l) : Settled ('\x7d' :: ' ' :: l) := by
  have hblank : Solid [' '] := solid_of_whole (whole_literal (by decide))
  have hsolid : Solid ('\x7d' :: ' ' :: l) :=
    solid_closing.append (hblank.append (solid_of_whole h))
  have hs : StartsIn isInk ('\x7d' :: ' ' :: l) := startsIn_cons (by decide) _
  have he : EndsIn isInk ('\x7d' :: ' ' :: l) := he.append ['\x7d', ' ']
  have hnote : beforeNote (plain ('\x7d' :: ' ' :: l)) = '\x7d' :: ' ' :: l := by
    simpa [beforeNote] using hsolid.noteless []
  have hnext : elseNext (chars ((' ', true) :: plain l)) = true := by
    rw [chars, List.map_cons, ← chars, chars_plain]
    obtain ⟨t, rfl⟩ := helse
    exact Option.isSome_of_eq_some (after?_eq_some.2 rfl)
  have hcut : cutBraces [] (plain ('\x7d' :: ' ' :: l)) = ['\x7d' :: ' ' :: l] := by
    have hempty : finished [] = [] := rfl
    have hplain : plain ('\x7d' :: ' ' :: l) = ('\x7d', true) :: (' ', true) :: plain l := rfl
    have hline := cutBraces_braceless h.woven.braceless [' ', '\x7d'] []
    have hreverse : l.reverse ++ [' ', '\x7d'] = ('\x7d' :: ' ' :: l).reverse := by simp
    rw [List.append_nil, chars_plain, cutBraces, hreverse, finished_reverse hs he] at hline
    rw [hplain, cutBraces, if_neg (by simp), if_pos ⟨rfl, rfl⟩, hempty, hnext, if_pos rfl,
      cutBraces, if_neg (by simp), if_neg (by simp), hline]
    rfl
  exact ⟨hsolid.newline, statementsOf_eq hs he hnote hsolid.splitTop_eq hcut⟩

/-- **A statement is lost** that stands beside the brace that closes a function and starts with the
letters of an else: the source is read as the function alone. -/
theorem readScript_behind_brace {name : String} {params : List String} {body : List Statement}
    (hn : isIdentifier name = true) (hp : ∀ p ∈ params, isIdentifier p = true)
    (hb : ∀ s ∈ body, s.Plain) (h : Whole isJoined l) (he : EndsIn isInk l)
    (helse : "else".toList <+: l)
    (hlevels : (Statement.function name params body).levels ≤ nestingLimit + 1) :
    ∃ notices, readScript (String.ofList ((functionText name params :: (Statement.linesOf body ++
        ['\x7d' :: ' ' :: l])).flatMap fun l => l ++ ['\n'])) =
      .ok ⟨[.function name params body], notices⟩ := by
  have hsettled : ∀ t ∈ functionText name params :: (Statement.linesOf body ++
      ['\x7d' :: ' ' :: l]), Settled t := by
    rw [List.forall_mem_cons, List.forall_mem_append]
    exact ⟨(opening_function hn hp).settled,
      Statement.forall_linesOf fun s hs => (hb s hs).settled,
      by simpa using settled_behind_brace h he helse⟩
  obtain ⟨header, ls, hlines, hheader, hls⟩ := List.map_eq_cons_iff.1 (normalize_settled hsettled)
  have hread : Reading.Yields
      (readStatement (levels nestingLimit) (.withRoom (nestingLimit + 1)) header ls)
      ((Statement.function name params body).levels ≤ nestingLimit + 1)
      (some (.function name params body), []) := by
    rw [← List.append_nil ls]
    exact yields_function hn hp hb (fun s hs => reads (hb s hs)) rfl hheader hls
  have hend : Reading.Yields
      (readAll (readStatement (levels nestingLimit) (.withRoom (nestingLimit + 1))) ls.length [])
      True [] := by
    rw [readAll]
    exact Reading.yields_pure []
  have hblock : Reading.Yields ((levels (roomAt 0)).block (header :: ls))
      ((Statement.function name params body).levels ≤ nestingLimit + 1)
      [.function name params body] :=
    (hread.bind (hend.bind_pure fun ss => [Statement.function name params body] ++ ss)).congr
      (iff_of_eq (and_true _))
  exact (readScript_of_yields (hlines ▸ hblock)).1 hlevels

/-- The assignment behind the function is lost. -/
theorem readScript_behind_brace_of_assignment :
    ∃ notices, readScript "function f() \x7b\nreturn 1\n\x7d elsewhere = 2\n" =
      .ok ⟨[.function "f" [] [.ret (some (.literal (.int 1)))]], notices⟩ := by
  have hreturn : (Statement.ret (some (.literal (.int 1)))).Plain :=
    .line (.ret (by simpa using .int _))
  have hone : ∀ s ∈ [Statement.ret (some (.literal (.int 1)))], s.Plain := by simpa using hreturn
  have hend : EndsIn isInk "elsewhere = 2".toList :=
    ⟨"elsewhere = ".toList, '2', by decide, by decide⟩
  have hread := readScript_behind_brace (show isIdentifier "f" = true by decide)
    (show ∀ p ∈ [], isIdentifier p = true by simp) hone (whole_literal (by decide)) hend
    (by decide) (by decide)
  have hsource : String.ofList ((functionText "f" [] :: (Statement.linesOf
      [.ret (some (.literal (.int 1)))] ++ ['\x7d' :: ' ' :: "elsewhere = 2".toList])).flatMap
        fun l => l ++ ['\n']) = "function f() \x7b\nreturn 1\n\x7d elsewhere = 2\n" := by
    decide +kernel
  rwa [hsource] at hread

end Source

end TapeCompiler
