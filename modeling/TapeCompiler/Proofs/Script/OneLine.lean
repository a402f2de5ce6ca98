import TapeCompiler.Proofs.Script.Calls

/-! # Reading statements of one line back

A keyword is found in front of its own statements only. A statement of one line is a whole text
without a semicolon outside of its quotations (`Statement.OneLine.whole`) and is read back
(`Statement.OneLine.yields`), and so is the last clause of a loop (`yields_readClause`). -/

namespace TapeCompiler

namespace Source

open Text

variable {cs : List Char}

/-! ### Keywords in front of a statement -/

theorem apart_of_isIdentifier {id word : String} {rest : List Char} (hid : isIdentifier id = true)
    (hw : word ∈ reservedWords) (hs : Stops isNamePart rest) : Apart word (id.toList ++ rest) := by
  have hnames : ∀ w ∈ reservedWords, isName w.toList = true := by decide
  refine apart_of_isName (hnames word hw) (isName_of_isIdentifier hid) (fun h => ?_) hs
  exact ne_of_isIdentifier hid hw (String.toList_inj.1 h)

theorem declKind?_keyword {kind : DeclKind} (hk : kind ≠ .function) {r : List Char}
    (hr : StartsIn isInk r) : declKind? (kind.keyword.toList ++ ' ' :: r) = some (kind, r) := by
  have htrim : declKind? (kind.keyword.toList ++ ' ' :: r) = some (kind, trimFront r) := by
    cases kind with
    | function => exact absurd rfl hk
    | var | block | const => rfl
  rw [htrim, hr.trimFront]

theorem declaration?_eq_none (h : ∀ word ∈ ["var", "let", "const"], Apart word cs) :
    declaration? cs = none := by
  have hkind : declKind? cs = none := by
    rw [declKind?, List.findSome?_eq_none_iff]
    intro word hword
    cases hr : keyword? word cs with
    | none => rfl
    | some r => simp [blanks?_eq_none (h word hword r hr)]
  rw [declaration?, hkind]
  rfl

theorem return?_eq_none (h : Apart "return" cs) : return? cs = none := by
  rw [return?]
  cases hr : keyword? "return" cs with
  | none => rfl
  | some r =>
    have hstart := h r hr
    simp [hstart.ne_nil, blanks?_eq_none hstart]

/-! ### Declarations and returns -/

section Values
variable {value : List Char} (hv : StartsIn isInk value) (hline : '\n' ∉ value)
include hv hline

theorem declaration?_value {kind : DeclKind} (hk : kind ≠ .function) {name : String}
    (hn : isName name.toList = true) :
    declaration? (declarationText kind name (some value)) =
      some (kind, name.toList, some value) := by
  have hname := (startsIn_of_isName hn).mono fun _ => isInk_of_isNameStart
  have hstop : Stops isNamePart (" = ".toList ++ value) := stops_cons (by decide) _
  have hequals : trimFront (" = ".toList ++ value) = '=' :: ' ' :: value := rfl
  have hvalue : trimFront (' ' :: value) = value := hv.trimFront
  rw [declaration?, declarationText, Option.map_some, Option.getD_some, List.append_assoc,
    List.cons_append, declKind?_keyword hk (hname.append _)]
  simp only [Option.bind_eq_bind, Option.bind_some, name?_append hn hstop, hequals, hvalue,
    content?_eq_some hv.ne_nil hline]
  rfl

omit hv hline in
theorem declaration?_name {kind : DeclKind} (hk : kind ≠ .function) {name : String}
    (hn : isName name.toList = true) :
    declaration? (declarationText kind name none) = some (kind, name.toList, none) := by
  have hname := (startsIn_of_isName hn).mono fun _ => isInk_of_isNameStart
  have hwhole := name?_append hn (stops_nil _)
  rw [List.append_nil] at hwhole
  rw [declaration?, declarationText, Option.map_none, Option.getD_none, List.append_nil,
    declKind?_keyword hk hname]
  simp only [Option.bind_eq_bind, Option.bind_some, hwhole]
  rfl

theorem return?_value : return? ("return".toList ++ ' ' :: value) = some (some value) := by
  have hkeyword : keyword? "return" ("return".toList ++ ' ' :: value) = some (' ' :: value) :=
    after?_eq_some.2 rfl
  have hblanks : blanks? (' ' :: value) = some value := congrArg some hv.trimFront
  rw [return?, hkeyword]
  simp [hblanks, content?_eq_some hv.ne_nil hline]

end Values

/-! ### Steps and assignments -/

theorem step?_eq_none {c : Char} (hplus : c ≠ '+') (hminus : c ≠ '-') (r : List Char) :
    step? (c :: r) = none := by
  rw [step?]
  · simp [hplus]
  · simp [hminus]

section Named
variable {name rest : List Char} (hn : isName name = true) (hs : Stops isNamePart rest)
include hn hs

theorem update?_eq_none (h : step? (trimFront rest) = none) : update? (name ++ rest) = none := by
  rw [update?, name?_append hn hs]
  simp only [h]

theorem assignment?_eq_none (h : assignOp? (trimFront rest) = none) :
    assignment? (name ++ rest) = none := by
  rw [assignment?, name?_append hn hs]
  simp only [Option.bind_eq_bind, Option.bind_some, h]
  rfl

end Named

theorem assignOp?_eq_none {c : Char} (hc : c = '(' ∨ c = '.') (r : List Char) :
    assignOp? (c :: r) = none := by
  rcases hc with rfl | rfl
  all_goals
    cases r with
    | nil => rfl
    | cons d r =>
      by_cases hd : d = '='
      · subst hd
        rfl
      · rw [assignOp?]
        · simp
        · simpa using hd

theorem assignOp?_symbol (o : AssignOp) (r : List Char) :
    assignOp? (o.symbol.toList ++ r) = some (o, r) := by
  cases o <;> rfl

theorem assignment?_value {target value : List Char} (o : AssignOp) (hn : isName target = true)
    (hs : StartsIn isEdge value) (he : EndsIn isInk value) (hline : '\n' ∉ value) :
    assignment? (target ++ ' ' :: o.symbol.toList ++ ' ' :: value) = some (o, target, value) := by
  have hstop : Stops isNamePart (' ' :: o.symbol.toList ++ ' ' :: value) := stops_cons (by decide) _
  have hsymbol : trimFront (' ' :: o.symbol.toList ++ ' ' :: value) =
      o.symbol.toList ++ ' ' :: value := by cases o <;> rfl
  have hvalue : trimFront (' ' :: value) = value := (hs.mono fun _ => isInk_of_isEdge).trimFront
  rw [assignment?, List.append_assoc, name?_append hn hstop]
  simp only [Option.bind_eq_bind, Option.bind_some, hsymbol, assignOp?_symbol, hvalue,
    content?_eq_some hs.ne_nil hline, if_neg (hs.head?_ne (d := '=') rfl), he.trimBack]

theorem update?_step (s : Step) {target : List Char} (hn : isName target = true) (before : Bool) :
    update? (if before then s.symbol.toList ++ target else target ++ s.symbol.toList) =
      some (.update s (String.ofList target) before) := by
  have hstart := (startsIn_of_isName hn).mono fun _ => isInk_of_isNameStart
  cases before with
  | true =>
    have hnone : name? (s.symbol.toList ++ target) = none := by
      cases s <;> exact name?_eq_none (stops_cons (by decide) _)
    have hstep : step? (s.symbol.toList ++ target) = some (s, target) := by cases s <;> rfl
    have hwhole := name?_append hn (stops_nil _)
    rw [List.append_nil] at hwhole
    rw [if_pos rfl, update?, hnone]
    simp only [hstep, Option.bind_eq_bind, Option.bind_some, hstart.trimFront, hwhole]
    rfl
  | false =>
    have hstop : Stops isNamePart s.symbol.toList := by
      cases s <;> exact stops_cons (by decide) _
    have hstep : step? (trimFront s.symbol.toList) = some (s, []) := by cases s <;> rfl
    rw [if_neg Bool.false_ne_true, update?, name?_append hn hstop]
    simp only [hstep]

end Source

open Source Text

namespace Expr.Atomic

variable {e : Expr}

theorem unassigned (h : e.Atomic) : update? e.text = none ∧ assignment? e.text = none := by
  have hother : ∀ cs, name? cs = none → step? cs = none →
      update? cs = none ∧ assignment? cs = none := by
    intro cs hn hs
    constructor
    · rw [update?, hn]
      simp [hs]
    · rw [assignment?, hn]
      rfl
  cases h with
  | int n =>
    obtain ⟨c, r, hcr, hc⟩ := startsIn_toDigits n.toInt.natAbs
    have hstart : isNameStart c = false := eq_false_of_ne_true fun hstart => by
      have := isDecimal_of_isNameStart hstart
      rw [isDecimal_of_isDigit hc] at this
      cases this
    have hminus : c ≠ '-' := by rintro rfl; exact absurd hc (by decide)
    have hplus : c ≠ '+' := by rintro rfl; exact absurd hc (by decide)
    rw [Expr.text, Literal.text, hcr]
    split
    · refine hother _ (name?_eq_none (stops_cons (by decide) _)) ?_
      rw [step?]
      · simp
      · simpa using hminus
    · exact hother _ (name?_eq_none (stops_cons hstart _)) (step?_eq_none hplus hminus r)
  | str s => exact hother _ (name?_eq_none (stops_cons (by decide) _)) rfl
  | @name id hid =>
    have hname := isName_of_isIdentifier hid
    have hupdate := update?_eq_none hname (stops_nil _) rfl
    have hassign := assignment?_eq_none hname (stops_nil _) rfl
    rw [List.append_nil] at hupdate hassign
    exact ⟨hupdate, hassign⟩

end Expr.Atomic

/-! ### Actions -/

namespace Source

/-- A character that does not part statements. -/
def isJoined (c : Char) : Bool := c ≠ ';'

theorem ne_of_isJoined (c : Char) (h : isJoined c = true) : c ≠ ';' := of_decide_eq_true h

theorem isJoined_of_isNamePart {c : Char} (h : isNamePart c = true) : isJoined c = true := by
  simp [isJoined, ne_of_isNamePart h (d := ';') rfl]

theorem whole_of_identifier {id : String} (h : isIdentifier id = true) :
    Whole isJoined id.toList :=
  (whole_of_isName (isName_of_isIdentifier h)).mono fun _ => isJoined_of_isNamePart

theorem whole_symbol (o : AssignOp) : Whole isJoined (' ' :: o.symbol.toList ++ [' ']) := by
  cases o with
  | div =>
    have hplain : plain " /= ".toList = [(' ', true), ('/', true), ('=', true), (' ', true)] := rfl
    have hwoven : Woven isJoined [(' ', true), ('/', true), ('=', true), (' ', true)] :=
      .char rfl rfl rfl (.char rfl rfl rfl (.char rfl rfl rfl (.char rfl rfl rfl (.nil _))))
    exact ⟨rfl, hplain ▸ hwoven, fun _ => rfl⟩
  | assign | add | sub | mul | mod => exact whole_literal (by decide)

end Source

theorem Expr.Atomic.whole_joined {e : Expr} (h : e.Atomic) : Whole isJoined e.text :=
  h.whole.mono fun c hc => by
    simp only [isAtomPart, Bool.or_eq_true, decide_eq_true_eq] at hc
    rcases hc with hc | rfl
    · exact isJoined_of_isNamePart hc
    · rfl

namespace Expr.Action

variable {e : Expr}

theorem whole (h : e.Action) : Whole isJoined e.text := by
  cases h with
  | assign o ht hv =>
    have := ((whole_of_identifier ht).append (whole_symbol o)).append hv.whole_joined
    simpa [Expr.text] using this
  | update step ht before =>
    have hsymbol : Whole isJoined step.symbol.toList := by
      cases step <;> exact whole_literal (by decide)
    rw [Expr.text]
    split
    · exact hsymbol.append (whole_of_identifier ht)
    · exact (whole_of_identifier ht).append hsymbol
  | call hf hm ha =>
    refine (Expr.whole_call (isName_of_isIdentifier hf) hm (items_of_atomic ha)).mono fun c hc => ?_
    rcases isDottedPart_cases hc with hc | rfl
    · exact isJoined_of_isNamePart hc
    · rfl

theorem starts (h : e.Action) : StartsIn isEdge e.text := by
  cases h with
  | assign o ht hv =>
    rw [Expr.text, List.append_assoc]
    exact (startsIn_of_isIdentifier ht).append _
  | update step ht before =>
    rw [Expr.text]
    split
    · cases step <;> exact startsIn_cons rfl _
    · exact (startsIn_of_isIdentifier ht).append _
  | @call first more args hf _ _ =>
    obtain ⟨c, r, htext, -⟩ := Expr.exists_text_call first more args
    rw [htext]
    exact (startsIn_of_isIdentifier hf).append _

theorem ends (h : e.Action) : EndsIn isEdge e.text := by
  cases h with
  | assign o ht hv =>
    rw [Expr.text]
    exact (hv.ends.append [' ']).append _
  | update step ht before =>
    rw [Expr.text]
    split
    · exact (endsIn_of_isIdentifier ht).append _
    · cases step with
      | increment => exact EndsIn.append _ (endsIn_concat (c := '+') rfl ['+'])
      | decrement => exact EndsIn.append _ (endsIn_concat (c := '-') rfl ['-'])
  | call hf hm ha =>
    rw [Expr.text]
    exact endsIn_concat rfl _

theorem apart (h : e.Action) {word : String} (hw : word ∈ reservedWords) : Apart word e.text := by
  have hnames : ∀ w ∈ reservedWords, isName w.toList = true := by decide
  cases h with
  | assign o ht hv =>
    rw [Expr.text, List.append_assoc]
    exact apart_of_isIdentifier ht hw (stops_cons (by decide) _)
  | update step ht before =>
    rw [Expr.text]
    split
    · cases step <;> exact apart_of_stops (hnames _ hw) (stops_cons (by decide) _)
    · cases step <;> exact apart_of_isIdentifier ht hw (stops_cons (by decide) _)
  | @call first more args hf _ _ =>
    obtain ⟨c, r, htext, hc⟩ := Expr.exists_text_call first more args
    rw [htext]
    refine apart_of_isIdentifier hf hw (stops_cons ?_ r)
    rcases hc with rfl | rfl <;> decide

theorem yields_readAssignment (o : AssignOp) {target : String} {value : Expr}
    (ht : isIdentifier target = true) (hv : value.Atomic) (room : Nat) :
    Yields (readAssignment (readExpr room) (Expr.assign o target value).text)
      (value.levels ≤ room) (some (.assign o target value)) := by
  have hassign := assignment?_value o (isName_of_isIdentifier ht) hv.starts
    (hv.ends.mono fun _ => isInk_of_isEdge) hv.whole.newline_notMem
  rw [Expr.text, readAssignment, hassign]
  simp only [String.ofList_toList]
  exact (hv.yields room).bind_ok fun value => some (Expr.assign o target value)

/-- What is behind the name in front of an assignment or a call is no step. -/
theorem update?_text (h : e.Action) (hu : ∀ step target before, e ≠ .update step target before) :
    update? e.text = none := by
  cases h with
  | @assign o target value ht hv =>
    rw [Expr.text, List.append_assoc]
    refine update?_eq_none (isName_of_isIdentifier ht) (stops_cons (by decide) _) ?_
    cases o <;> rfl
  | update step ht before => exact absurd rfl (hu _ _ _)
  | @call first more args hf hm ha =>
    obtain ⟨c, r, htext, hc⟩ := Expr.exists_text_call first more args
    rw [htext]
    refine update?_eq_none (isName_of_isIdentifier hf) (stops_cons ?_ r) ?_
    · rcases hc with rfl | rfl <;> decide
    · rcases hc with rfl | rfl <;> rfl

theorem assignment?_call {first : String} (hf : isIdentifier first = true) (more : List String)
    (args : List Expr) :
    assignment? (Expr.call (more.foldl .member (.name first)) args).text = none := by
  obtain ⟨c, r, htext, hc⟩ := Expr.exists_text_call first more args
  have hfront : trimFront (c :: r) = c :: r := by rcases hc with rfl | rfl <;> rfl
  rw [htext]
  refine assignment?_eq_none (isName_of_isIdentifier hf) (stops_cons ?_ r)
    (by rw [hfront, assignOp?_eq_none hc])
  rcases hc with rfl | rfl <;> decide

theorem yields (h : e.Action) (room : Nat) :
    Yields (readSimple (readExpr room) e.text) (e.levels ≤ room + 1) (some (.effect e)) := by
  have hkeywords : ∀ word ∈ ["var", "let", "const"], word ∈ reservedWords := by decide
  have hdeclaration := declaration?_eq_none fun word hw => h.apart (hkeywords word hw)
  have hreturn : return? e.text = none := return?_eq_none (h.apart (by decide))
  have hlevels : ∀ k, 1 + k ≤ room + 1 ↔ k ≤ room := by omega
  rw [readSimple, hdeclaration, hreturn]
  dsimp only
  cases h with
  | @assign o target value ht hv =>
    rw [update?_text (.assign o ht hv) (by simp)]
    refine Yields.congr (Yields.bind (yields_readAssignment o ht hv room) (yields_ok _)) ?_
    rw [Expr.levels, hlevels, and_true]
  | @update step target ht before =>
    have hupdate := update?_step step (isName_of_isIdentifier ht) before
    rw [String.ofList_toList] at hupdate
    rw [Expr.text, hupdate]
    exact (yields_ok _).congr (by simp [Expr.levels])
  | @call first more args hf hm ha =>
    have hread := (yields_readCall (isName_of_isIdentifier hf) hm
      (items_of_atomic ha) room).bind_ok fun e => e.map Statement.effect
    rw [update?_text (.call hf hm ha) (by simp), readAssignment, assignment?_call hf]
    exact hread.congr (by rw [Expr.levels, hlevels])

end Expr.Action

/-! ### Statements of one line -/

namespace Statement.OneLine

variable {s : Statement}

theorem whole (h : s.OneLine) : Whole isJoined s.firstLine := by
  cases h with
  | @declare kind name init hk hn hi =>
    have hkeyword : Whole isJoined (kind.keyword.toList ++ [' ']) := by
      cases kind <;> exact whole_literal (by decide)
    have hhead := hkeyword.append (whole_of_identifier hn)
    rw [List.append_assoc, List.singleton_append] at hhead
    rw [firstLine, declarationText]
    cases init with
    | none => exact hhead.append (whole_nil _)
    | some e =>
      have hequals : Whole isJoined " = ".toList := whole_literal (by decide)
      exact hhead.append (hequals.append (hi e rfl).whole_joined)
  | @ret argument ha =>
    have hkeyword : Whole isJoined "return".toList := whole_literal (by decide)
    rw [firstLine]
    unfold returnText
    cases argument with
    | none => exact hkeyword.append (whole_nil _)
    | some e =>
      have hblank : Whole isJoined [' '] := whole_literal (by decide)
      exact hkeyword.append (hblank.append (ha e rfl).whole_joined)
  | effect he =>
    rw [firstLine]
    exact he.whole

theorem starts (h : s.OneLine) : StartsIn isEdge s.firstLine := by
  cases h with
  | @declare kind name init hk hn hi =>
    have hkeyword : StartsIn isEdge kind.keyword.toList := by
      cases kind <;> exact startsIn_cons (by decide) _
    rw [firstLine, declarationText]
    exact (hkeyword.append _).append _
  | @ret argument ha =>
    have hkeyword : StartsIn isEdge "return".toList := startsIn_cons (by decide) _
    rw [firstLine]
    unfold returnText
    exact hkeyword.append _
  | effect he =>
    rw [firstLine]
    exact he.starts

theorem ends (h : s.OneLine) : EndsIn isEdge s.firstLine := by
  cases h with
  | @declare kind name init hk hn hi =>
    rw [firstLine, declarationText]
    cases init with
    | none =>
      rw [Option.map_none, Option.map_none, Option.getD_none, List.append_nil]
      exact ((endsIn_of_isIdentifier hn).append [' ']).append _
    | some e => exact ((hi e rfl).ends.append _).append _
  | @ret argument ha =>
    rw [firstLine]
    unfold returnText
    cases argument with
    | none => exact endsIn_concat (c := 'n') (by decide) "retur".toList
    | some e => exact ((ha e rfl).ends.append [' ']).append _
  | effect he =>
    rw [firstLine]
    exact he.ends

theorem apart (h : s.OneLine) : Apart "else" s.firstLine := by
  have helse : isName "else".toList = true := by decide
  cases h with
  | @declare kind name init hk hn hi =>
    rw [firstLine, declarationText, List.append_assoc]
    cases kind <;> exact apart_of_isName helse (by decide) (by decide) (stops_cons (by decide) _)
  | @ret argument ha =>
    have hreturn : isName "return".toList = true := by decide
    rw [firstLine]
    unfold returnText
    cases argument with
    | none => exact apart_of_isName helse hreturn (by decide) (stops_nil _)
    | some e => exact apart_of_isName helse hreturn (by decide) (stops_cons (by decide) _)
  | effect he =>
    rw [firstLine]
    exact he.apart (by decide)

theorem yields (h : s.OneLine) (room : Nat) :
    Yields (readSimple (readExpr room) s.firstLine) (s.levels ≤ room + 1) (some s) := by
  have hlevels : ∀ k, 1 + k ≤ room + 1 ↔ k ≤ room := by omega
  cases h with
  | @declare kind name init hk hn hi =>
    have hname := isName_of_isIdentifier hn
    rw [firstLine]
    cases init with
    | none =>
      rw [Option.map_none, readSimple, declaration?_name hk hname]
      simp only [String.ofList_toList]
      exact (yields_ok _).congr (by simp [levels, Expr.levelsOf?])
    | some e =>
      have he := hi e rfl
      have hread := declaration?_value (he.starts.mono fun _ => isInk_of_isEdge)
        he.whole.newline_notMem hk hname
      rw [Option.map_some, readSimple, hread]
      simp only [String.ofList_toList]
      refine ((he.yields room).bind_ok
        fun e => some (Statement.declare kind name (some e))).congr ?_
      rw [levels, hlevels]
      rfl
  | @ret argument ha =>
    have hreserved : ∀ w ∈ ["var", "let", "const"], isName w.toList = true ∧
        "return".toList ≠ w.toList := by decide
    have hkeyword : ∀ rest, Stops isNamePart rest →
        declaration? ("return".toList ++ rest) = none := fun rest hs =>
      declaration?_eq_none fun w hw =>
        apart_of_isName (hreserved w hw).1 (by decide) (hreserved w hw).2 hs
    rw [firstLine]
    cases argument with
    | none =>
      have hdeclaration := hkeyword [] (stops_nil _)
      unfold returnText
      rw [Option.map_none, Option.map_none, Option.getD_none, readSimple, hdeclaration]
      exact (yields_ok _).congr (by simp [levels, Expr.levelsOf?])
    | some e =>
      have he := ha e rfl
      have hread := return?_value (he.starts.mono fun _ => isInk_of_isEdge) he.whole.newline_notMem
      unfold returnText
      rw [Option.map_some, Option.map_some, Option.getD_some, readSimple,
        hkeyword _ (stops_cons (by decide) _), hread]
      refine ((he.yields room).bind_ok fun e => some (Statement.ret (some e))).congr ?_
      rw [levels, hlevels]
      rfl
  | effect he => exact he.yields room

end Statement.OneLine

/-! ### Clauses of a loop -/

/-- **The last clause of a loop** is read back. A step in it is read however little room is left;
the body of the loop needs a level in any case. -/
theorem Source.yields_readClause {e : Expr} (h : e.Atomic ∨ e.Action) (room : Nat) :
    ∃ fits, Yields (readClause (.withRoom (room + 1)) e.text) fits e ∧
      (1 ≤ room → (fits ↔ e.levels ≤ room)) := by
  rw [readClause]
  rcases h with h | h
  · rw [h.unassigned.1, readAssignment, h.unassigned.2]
    exact ⟨_, h.yields room, fun _ => Iff.rfl⟩
  cases h with
  | @assign o target value ht hv =>
    have hlevels : ∀ k, 1 ≤ room → (k ≤ room - 1 ↔ 1 + k ≤ room) := by omega
    rw [Expr.Action.update?_text (.assign o ht hv) (by simp), Expr.levels]
    refine ⟨_, Yields.bind (Expr.Action.yields_readAssignment o ht hv (room - 1)) (yields_ok _), ?_⟩
    intro hroom
    rw [and_true, hlevels _ hroom]
  | @update step target ht before =>
    have hupdate := update?_step step (isName_of_isIdentifier ht) before
    rw [String.ofList_toList] at hupdate
    rw [Expr.text, hupdate]
    exact ⟨_, yields_ok _, fun hroom => by simp [Expr.levels, hroom]⟩
  | @call first more args hf hm ha =>
    rw [Expr.Action.update?_text (.call hf hm ha) (by simp), readAssignment,
      Expr.Action.assignment?_call hf]
    exact ⟨_, yields_readExpr_call (isName_of_isIdentifier hf) hm (items_of_atomic ha) room,
      fun _ => Iff.rfl⟩

end TapeCompiler
