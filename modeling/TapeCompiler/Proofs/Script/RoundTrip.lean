import TapeCompiler.Proofs.Script.Lines

/-! # Reading a printed program back

The lines of a simple statement are read as that statement if its levels of nesting fit, and are
refused if not (`Statement.Plain.reads`, by induction on the statement); from that, the source that
a simple program is printed to is read as the program (`readScript_printed`). -/

namespace TapeCompiler

namespace Source

open Text

variable {α β : Type}

/-! ### Readings with notices -/

/-- A reading yields a value if a condition holds, and is refused for its nesting if not, **whatever
was noted before** it. -/
def Reading.Yields (m : Reading α) (fits : Prop) (a : α) : Prop :=
  ∀ ns, (fits → ∃ ns', m ns = .ok (a, ns')) ∧ (¬fits → ∃ b, m ns = .error (.exceeded b))

namespace Reading

theorem yields_pure (a : α) : Yields (pure a : Reading α) True a :=
  fun ns => ⟨fun _ => ⟨ns, rfl⟩, fun h => absurd trivial h⟩

theorem Yields.congr {m : Reading α} {p q : Prop} {a : α} (h : Yields m p a) (hpq : p ↔ q) :
    Yields m q a :=
  fun ns => ⟨fun hq => (h ns).1 (hpq.2 hq), fun hq => (h ns).2 fun hp => hq (hpq.1 hp)⟩

theorem Yields.bind {m : Reading α} {g : α → Reading β} {p q : Prop} {a : α} {b : β}
    (hm : Yields m p a) (hg : Yields (g a) q b) : Yields (m >>= g) (p ∧ q) b := by
  intro ns
  have hbind : (m >>= g) ns = m ns >>= fun x => g x.1 x.2 := rfl
  rw [hbind]
  constructor
  · rintro ⟨hp, hq⟩
    obtain ⟨ns', h⟩ := (hm ns).1 hp
    rw [h]
    exact (hg ns').1 hq
  · intro hpq
    by_cases hp : p
    · obtain ⟨ns', h⟩ := (hm ns).1 hp
      rw [h]
      exact (hg ns').2 fun hq => hpq ⟨hp, hq⟩
    · obtain ⟨b, h⟩ := (hm ns).2 hp
      exact ⟨b, by rw [h]; rfl⟩

theorem Yields.bind_pure {m : Reading α} {p : Prop} {a : α} (h : Yields m p a) (g : α → β) :
    Yields (m >>= fun a => pure (g a)) p (g a) :=
  (h.bind (yields_pure (g a))).congr (iff_of_eq (and_true p))

theorem yields_lift {x : Except Fault α} {p : Prop} {a : α} (h : Source.Yields x p a) :
    Yields (liftM x : Reading α) p a := by
  intro ns
  constructor
  · intro hp
    exact ⟨ns, by rw [h.1 hp]; rfl⟩
  · intro hp
    obtain ⟨b, hb⟩ := h.2 hp
    exact ⟨b, by rw [hb]; rfl⟩

theorem lift_ok_bind (a : α) (g : α → Reading β) :
    (liftM (.ok a : Except Fault α) : Reading α) >>= g = g a := rfl

theorem yields_notice (l : Line) (message : String) : Yields (notice l message) True () :=
  fun _ => ⟨fun _ => ⟨_, rfl⟩, fun h => absurd trivial h⟩

end Reading

/-! ### Blocks -/

/-- The first of some lines, if there is one, has no else. -/
def NoElse (ls : List Line) : Prop :=
  ∀ l ∈ ls.head?, elseIf? l.text = none ∧ isElse l.text = false

/-- The lines of a statement **are read as** the statement, if its levels fit. -/
def Reads (s : Statement) : Prop :=
  ∀ room l ls rest, l.text = s.firstLine → ls.map Line.text = s.moreLines → NoElse rest →
    Reading.Yields (readStatement (levels room) (.withRoom (room + 1)) l (ls ++ rest))
      (s.levels ≤ room + 1) (some s, rest)

theorem noElse_of_linesOf {ss : List Statement} (hp : ∀ s ∈ ss, s.Plain) {ls : List Line}
    (hls : ls.map Line.text = Statement.linesOf ss) : NoElse ls := by
  intro l hl
  cases ss with
  | nil =>
    rw [Statement.linesOf, List.map_eq_nil_iff] at hls
    rw [hls] at hl
    cases hl
  | cons s ss =>
    rw [Statement.linesOf, List.map_eq_cons_iff] at hls
    obtain ⟨x, xs, rfl, hx, -⟩ := hls
    cases hl
    rw [hx]
    exact (hp s (by simp)).no_else

theorem yields_readAll {room : Nat} {ss : List Statement} (hp : ∀ s ∈ ss, s.Plain)
    (hr : ∀ s ∈ ss, Reads s) {ls : List Line} (hls : ls.map Line.text = Statement.linesOf ss)
    {fuel : Nat} (hfuel : ls.length ≤ fuel) :
    Reading.Yields (readAll (readStatement (levels room) (.withRoom (room + 1))) fuel ls)
      (∀ s ∈ ss, s.levels ≤ room + 1) ss := by
  induction ss generalizing ls fuel with
  | nil =>
    rw [Statement.linesOf, List.map_eq_nil_iff] at hls
    subst hls
    rw [readAll]
    exact (Reading.yields_pure []).congr (by simp)
  | cons s ss ih =>
    rw [Statement.linesOf, List.map_eq_cons_iff] at hls
    obtain ⟨l, tail, rfl, hl, htail⟩ := hls
    rw [List.map_eq_append_iff] at htail
    obtain ⟨more, rest, rfl, hmore, hrest⟩ := htail
    cases fuel with
    | zero => simp at hfuel
    | succ fuel =>
      have hpss : ∀ s ∈ ss, s.Plain := fun s hs => hp s (by simp [hs])
      have hlength : rest.length ≤ fuel := by
        simp only [List.length_cons, List.length_append] at hfuel
        omega
      have hfirst := hr s (by simp) room l more rest hl hmore (noElse_of_linesOf hpss hrest)
      have hothers := ih hpss (fun s hs => hr s (by simp [hs])) hrest hlength
      rw [readAll]
      exact (hfirst.bind (hothers.bind_pure fun ss => (some s).toList ++ ss)).congr (by simp)

theorem yields_block {ss : List Statement} (hp : ∀ s ∈ ss, s.Plain) (hr : ∀ s ∈ ss, Reads s)
    (room : Nat) {ls : List Line} (hls : ls.map Line.text = Statement.linesOf ss) :
    Reading.Yields ((levels room).block ls) (Statement.levelsOf ss ≤ room) ss := by
  cases room with
  | zero =>
    have hfull : ¬Statement.levelsOf ss ≤ 0 := fun h =>
      absurd (Statement.levelsOf_le.1 h).1 (by simp)
    exact fun ns => ⟨fun h => absurd h hfull, fun _ => ⟨.blockNesting, rfl⟩⟩
  | succ room =>
    refine (yields_readAll hp hr hls (Nat.le_refl _)).congr ?_
    rw [Statement.levelsOf_le]
    simp

/-! ### Statements -/

theorem reads_oneLine {s : Statement} (h : s.OneLine) : Reads s := by
  intro room l ls rest hl hls _
  rw [h.moreLines_eq, List.map_eq_nil_iff] at hls
  subst hls
  have hlast : l.text.getLast? ≠ some '\x7b' := by
    rw [hl]
    exact h.ends.getLast?_ne rfl
  rw [readStatement, functionHeader?_eq_none hlast, branchHeader?_eq_none hlast,
    loopHeader?_eq_none hlast, hl]
  dsimp only
  refine Reading.Yields.congr (Reading.Yields.bind (Reading.yields_lift (h.yields room))
    (Reading.yields_pure _)) ?_
  rw [and_true]

theorem exists_body {body : List Statement} (hb : ∀ s ∈ body, s.Plain) {ls : List Line}
    {t : List Char} {ts : List (List Char)} (ht : depthBehind 1 (plain t) = none)
    (hls : ls.map Line.text = Statement.linesOf body ++ t :: ts) (header : Line)
    (rest : List Line) :
    ∃ block close more, block.map Line.text = Statement.linesOf body ∧ close.text = t ∧
      more.map Line.text = ts ∧ blockOf header (ls ++ rest) = .ok (block, close, more ++ rest) := by
  obtain ⟨block, tail, rfl, hblock, htail⟩ := List.map_eq_append_iff.1 hls
  obtain ⟨close, more, rfl, rfl, hmore⟩ := List.map_eq_cons_iff.1 htail
  have hdepth : depthPast 1 (block.map Line.text) = some 1 := by
    rw [hblock]
    exact Statement.depthPast_linesOf (fun s hs => (hb s hs).depthPast) 0
  refine ⟨block, close, more, hblock, rfl, hmore, ?_⟩
  rw [List.append_assoc, List.cons_append]
  exact blockOf_body hdepth ht header (more ++ rest)

/-- **A function** is read up to the line in which its brace is closed, whatever else that line
holds. -/
theorem yields_function {name : String} {params : List String} {body : List Statement}
    (hn : isIdentifier name = true) (hp : ∀ p ∈ params, isIdentifier p = true)
    (hb : ∀ s ∈ body, s.Plain) (hr : ∀ s ∈ body, Reads s) {t : List Char}
    (ht : depthBehind 1 (plain t) = none) {room : Nat} {l : Line} {ls rest : List Line}
    (hl : l.text = functionText name params)
    (hls : ls.map Line.text = Statement.linesOf body ++ [t]) :
    Reading.Yields (readStatement (levels room) (.withRoom (room + 1)) l (ls ++ rest))
      ((Statement.function name params body).levels ≤ room + 1)
      (some (.function name params body), rest) := by
  obtain ⟨block, close, more, hbody, -, hmore, hblock⟩ := exists_body hb ht hls l rest
  obtain rfl := List.map_eq_nil_iff.1 hmore
  rw [readStatement, hl, functionHeader?_text hn hp, hblock]
  simp only [Reading.lift_ok_bind, List.map_map, Function.comp_def, String.ofList_toList,
    List.map_id', List.nil_append]
  refine ((yields_block hb hr room hbody).bind_pure
    fun body => (some (Statement.function name params body), rest)).congr ?_
  rw [Statement.levels]
  omega

theorem reads_function {name : String} {params : List String} {body : List Statement}
    (hn : isIdentifier name = true) (hp : ∀ p ∈ params, isIdentifier p = true)
    (hb : ∀ s ∈ body, s.Plain) (hr : ∀ s ∈ body, Reads s) :
    Reads (.function name params body) := by
  intro room l ls rest hl hls _
  rw [Statement.firstLine] at hl
  rw [Statement.moreLines] at hls
  exact yields_function hn hp hb hr rfl hl hls

theorem elseLine?_closing {close : Line} (hclose : close.text = ['\x7d']) (rest : List Line) :
    elseLine? close rest = none ∨
      ∃ l ls, rest = l :: ls ∧ elseLine? close rest = some (l, ls) := by
  unfold elseLine?
  rw [if_neg (by simp [hclose])]
  cases rest with
  | nil => exact .inl rfl
  | cons l ls =>
    dsimp only
    split
    · exact .inr ⟨l, ls, rfl, rfl⟩
    · exact .inl rfl

/-- Behind a closing brace on a line of its own there is **no else branch**, be it that the next
line only starts like one. -/
theorem yields_no_else {inner : Level} {expr : List Char → Except Fault Expr} {header close : Line}
    {condition : List Char} {ls block rest : List Line} {p q : Prop} {test : Expr}
    {consequent : List Statement} (htest : Yields (expr condition) p test)
    (hblock : blockOf header ls = .ok (block, close, rest)) (hclose : close.text = ['\x7d'])
    (hbody : Reading.Yields (inner.block block) q consequent) (hrest : NoElse rest) :
    Reading.Yields (readBranch inner expr header condition ls) (p ∧ q)
      (.branch test consequent none, rest) := by
  rw [readBranch, hblock]
  simp only [Reading.lift_ok_bind]
  refine (Reading.yields_lift htest).bind ?_
  refine Reading.Yields.congr (hbody.bind (q := True) ?_) (iff_of_eq (and_true q))
  rcases elseLine?_closing hclose rest with helse | ⟨l, ls, rfl, helse⟩
  · rw [helse]
    exact Reading.yields_pure _
  · obtain ⟨hif, hplain⟩ := hrest l rfl
    rw [helse]
    dsimp only
    rw [hif, hplain]
    exact (Reading.yields_notice _ _).bind_pure _

/-- Between the blocks of a branch stands a line **that both closes and opens**. -/
theorem yields_else {inner : Level} {expr : List Char → Except Fault Expr}
    {header close close' : Line} {condition : List Char} {ls block block' rest rest' : List Line}
    {p q q' : Prop} {test : Expr} {consequent alternate : List Statement}
    (htest : Yields (expr condition) p test)
    (hblock : blockOf header ls = .ok (block, close, rest))
    (hclose : close.text = "\x7d else \x7b".toList)
    (hbody : Reading.Yields (inner.block block) q consequent)
    (hblock' : blockOf close rest = .ok (block', close', rest'))
    (hbody' : Reading.Yields (inner.block block') q' alternate) :
    Reading.Yields (readBranch inner expr header condition ls) (p ∧ q ∧ q')
      (.branch test consequent (some alternate), rest') := by
  have helse : elseLine? close rest = some (close, rest) := by
    unfold elseLine?
    rw [hclose]
    rfl
  have hif : elseIf? close.text = none := by rw [hclose]; rfl
  have hplain : isElse close.text = true := by rw [hclose]; rfl
  rw [readBranch, hblock]
  simp only [Reading.lift_ok_bind, helse, hif, hplain, if_true, hblock']
  refine (Reading.yields_lift htest).bind (hbody.bind ?_)
  exact hbody'.bind_pure fun body => (Statement.branch test consequent (some body), rest')

theorem reads_branch {test : Expr} {consequent : List Statement}
    {alternate : Option (List Statement)} (ht : test.Atomic) (hc : ∀ s ∈ consequent, s.Plain)
    (ha : ∀ body ∈ alternate, ∀ s ∈ body, s.Plain) (hrc : ∀ s ∈ consequent, Reads s)
    (hra : ∀ body ∈ alternate, ∀ s ∈ body, Reads s) :
    Reads (.branch test consequent alternate) := by
  intro room l ls rest hl hls hrest
  rw [Statement.firstLine] at hl
  rw [Statement.moreLines, List.append_assoc] at hls
  have hfunction : functionHeader? (headerText "if" test.text) = none := rfl
  have hbranch := branchHeader?_text (ht.whole.newline_notMem)
  rw [readStatement, hl, hfunction, hbranch]
  dsimp only
  cases alternate with
  | none =>
    rw [Statement.linesOfElse, List.nil_append] at hls
    obtain ⟨block, close, more, hbody, hclose, hmore, hblock⟩ := exists_body hc rfl hls l rest
    obtain rfl := List.map_eq_nil_iff.1 hmore
    have hread := yields_no_else (ht.yields room) hblock hclose (yields_block hc hrc room hbody)
      hrest
    refine (hread.bind_pure fun x => (some x.1, x.2)).congr ?_
    rw [Statement.levels, Statement.levelsOfElse]
    omega
  | some body =>
    rw [Statement.linesOfElse, List.cons_append] at hls
    obtain ⟨block, close, more, hbody, hclose, hmore, hblock⟩ := exists_body hc rfl hls l rest
    obtain ⟨block', close', more', hbody', -, hmore', hblock'⟩ :=
      exists_body (ha body rfl) rfl hmore close rest
    obtain rfl := List.map_eq_nil_iff.1 hmore'
    have hread := yields_else (ht.yields room) hblock hclose (yields_block hc hrc room hbody)
      hblock' (yields_block (ha body rfl) (hra body rfl) room hbody')
    refine (hread.bind_pure fun x => (some x.1, x.2)).congr ?_
    rw [Statement.levels, Statement.levelsOfElse]
    omega

/-! ### Loops -/

theorem yields_clause {read : List Char → Reading α} {cs : List Char} {p : Prop} {a : α}
    (hcs : cs ≠ []) (h : Reading.Yields (read cs) p a) :
    Reading.Yields (clause read cs) p (some a) := by
  rw [clause, if_neg (by simpa using hcs)]
  exact h.bind_pure some

theorem yields_firstClause {init : Option Statement} (hi : ∀ s ∈ init, s.OneLine) (room : Nat) :
    Reading.Yields (clause (fun cs => readSimple (readExpr room) cs) (Statement.textOfInit init))
      (Statement.levelsOfInit init ≤ room + 1) (init.map some) := by
  cases init with
  | none => exact (Reading.yields_pure none).congr (by simp [Statement.levelsOfInit])
  | some s =>
    rw [Statement.textOfInit]
    exact yields_clause (hi s rfl).starts.ne_nil (Reading.yields_lift ((hi s rfl).yields room))

theorem yields_test {test : Option Expr} (ht : ∀ e ∈ test, e.Atomic) (room : Nat) :
    Reading.Yields (clause (fun cs => readExpr room cs) (Expr.textOf? test))
      (Expr.levelsOf? test ≤ room) test := by
  cases test with
  | none => exact (Reading.yields_pure none).congr (by simp [Expr.levelsOf?])
  | some e =>
    exact yields_clause (ht e rfl).starts.ne_nil (Reading.yields_lift ((ht e rfl).yields room))

theorem yields_lastClause {last : Option Expr} (hl : ∀ e ∈ last, e.Atomic ∨ e.Action)
    (room : Nat) :
    ∃ fits, Reading.Yields (clause (fun cs => readClause (.withRoom (room + 1)) cs)
        (Expr.textOf? last)) fits last ∧
      (1 ≤ room → (fits ↔ Expr.levelsOf? last ≤ room)) := by
  cases last with
  | none => exact ⟨_, Reading.yields_pure none, fun _ => by simp [Expr.levelsOf?]⟩
  | some e =>
    obtain ⟨fits, hread, hfits⟩ := yields_readClause (hl e rfl) room
    exact ⟨fits, yields_clause (Expr.clause_text (hl e rfl)).2.2 (Reading.yields_lift hread), hfits⟩

theorem reads_loop {init : Option Statement} {test last : Option Expr} {body : List Statement}
    (hi : ∀ s ∈ init, s.OneLine) (ht : ∀ e ∈ test, e.Atomic)
    (hl : ∀ e ∈ last, e.Atomic ∨ e.Action) (hb : ∀ s ∈ body, s.Plain) (hr : ∀ s ∈ body, Reads s) :
    Reads (.loop init test last body) := by
  intro room l ls rest hline hls _
  rw [Statement.moreLines] at hls
  obtain ⟨block, close, more, hbody, -, hmore, hblock⟩ := exists_body hb rfl hls l rest
  obtain rfl := List.map_eq_nil_iff.1 hmore
  rw [Statement.firstLine] at hline
  obtain ⟨hinit, hinitTrim⟩ := Statement.clause_textOfInit hi
  obtain ⟨htest, htestTrim⟩ := Expr.clause_textOf? fun e he => .inl (ht e he)
  obtain ⟨hlast, hlastTrim⟩ := Expr.clause_textOf? hl
  have hclauses := whole_clauses (hinit.mono fun _ _ => rfl) (htest.mono fun _ _ => rfl)
    (hlast.mono fun _ _ => rfl)
  have hsplit := splitTop_clauses hinit htest hlast
  rw [hinitTrim, htestTrim, hlastTrim] at hsplit
  obtain ⟨fits, hlastRead, hfits⟩ := yields_lastClause hl room
  have hfunction : functionHeader? l.text = none := by rw [hline]; rfl
  have hbranch : branchHeader? l.text = none := by rw [hline]; rfl
  rw [readStatement, hfunction, hbranch, hline, loopHeader?_text hclauses.newline_notMem]
  dsimp only
  rw [readLoop, hblock]
  simp only [Reading.lift_ok_bind, hsplit]
  have hnotice : ((init.map some).map Option.isNone).getD false = false := by cases init <;> rfl
  have hvalue : (init.map some).getD none = init := by cases init <;> rfl
  have hbodyRead := (yields_block hb hr room hbody).bind_pure fun body =>
    (some (Statement.loop init test last body), rest)
  refine Reading.Yields.congr (Reading.Yields.bind
    (q := Expr.levelsOf? test ≤ room ∧ fits ∧ Statement.levelsOf body ≤ room)
    (yields_firstClause hi (room - 1)) ?_) ?_
  · rw [hnotice, if_neg Bool.false_ne_true, hvalue]
    exact (yields_test ht room).bind (hlastRead.bind hbodyRead)
  · have hroom : Statement.levelsOf body ≤ room → 1 ≤ room := fun h =>
      (Statement.levelsOf_le.1 h).1
    rw [Statement.levels]
    constructor
    · rintro ⟨hfirst, htest, hlast, hbody⟩
      have hlast := (hfits (hroom hbody)).1 hlast
      have := hroom hbody
      omega
    · intro hlevels
      have hbody : Statement.levelsOf body ≤ room := by omega
      have := hroom hbody
      exact ⟨by omega, by omega, (hfits this).2 (by omega), hbody⟩

/-! ### Programs -/

theorem reads {s : Statement} (h : s.Plain) : Reads s := by
  induction h with
  | line h => exact reads_oneLine h
  | function hn hp hb ih => exact reads_function hn hp hb ih
  | branch ht hc ha ihc iha => exact reads_branch ht hc ha ihc iha
  | loop hi ht hl hb ih => exact reads_loop hi ht hl hb ih

theorem readScript_of_yields {source : String} {fits : Prop} {body : List Statement}
    (h : Reading.Yields ((levels (roomAt 0)).block (normalize source)) fits body) :
    (fits → ∃ notices, readScript source = .ok ⟨body, notices⟩) ∧
      (¬fits → ∃ b, readScript source = .error (.exceeded b)) := by
  constructor
  · intro hfits
    obtain ⟨notices, hok⟩ := (h []).1 hfits
    exact ⟨notices, by rw [readScript, StateT.run, hok]; rfl⟩
  · intro hfits
    obtain ⟨b, herror⟩ := (h []).2 hfits
    exact ⟨b, by rw [readScript, StateT.run, herror]; rfl⟩

/-- **A source with the lines of a simple program** is read as the program. -/
theorem readScript_of_lines {source : String} {body : List Statement} (h : ∀ s ∈ body, s.Plain)
    (hlines : (normalize source).map Line.text = Statement.linesOf body) :
    (Statement.levelsOf body ≤ nestingLimit + 1 →
      ∃ notices, readScript source = .ok ⟨body, notices⟩) ∧
    (¬Statement.levelsOf body ≤ nestingLimit + 1 →
      ∃ b, readScript source = .error (.exceeded b)) :=
  readScript_of_yields (yields_block h (fun s hs => reads (h s hs)) (roomAt 0) hlines)

/-- **Reading undoes printing.** The source that a simple program is printed to is read as that very
program if its levels of nesting are within the limit, and is refused for its nesting if not. -/
theorem readScript_printed (body : List Statement) (h : ∀ s ∈ body, s.Plain) :
    (Statement.levelsOf body ≤ nestingLimit + 1 →
      ∃ notices, readScript (printed body) = .ok ⟨body, notices⟩) ∧
    (¬Statement.levelsOf body ≤ nestingLimit + 1 →
      ∃ b, readScript (printed body) = .error (.exceeded b)) :=
  readScript_of_lines h (normalize_settled (Statement.forall_linesOf fun s hs => (h s hs).settled))

/-- A program with braces, semicolons, slashes and quotes in its strings, an else with a branch of
its own and a loop whose clauses are partly absent. -/
def thornyProgram : List Statement :=
  [.declare .const "format" (some (.literal (.str "\x7d else \x7b // \"; '\\ \n , ) ("))),
    .function "iffy" ["left", "right"]
      [.branch (.name "left")
        [.loop (some (.declare .block "i" (some (.literal (.int 0))))) none
          (some (.update .increment "i" false))
          [.effect (.call (.member (.name "console") "log")
            [.literal (.str "for (;;) \x7b"), .name "i", .literal (.int (-7))])],
          .effect (.assign .div "right" (.literal (.int 2)))]
        (some [.branch (.name "right") [.ret none] none,
          .effect (.call (.name "elsewhere") [])]),
      .ret (some (.name "right"))]]

theorem readScript_printed_thorny :
    (∀ s ∈ thornyProgram, s.Plain) ∧ Statement.levelsOf thornyProgram ≤ nestingLimit + 1 ∧
      ∃ notices, readScript (printed thornyProgram) = .ok ⟨thornyProgram, notices⟩ := by
  have hlog : (Statement.effect (.call (.member (.name "console") "log")
      [.literal (.str "for (;;) \x7b"), .name "i", .literal (.int (-7))])).Plain :=
    .line (.effect (@Expr.Action.call "console" ["log"] _ (by decide) (by decide)
      (by simpa using ⟨.str _, .name (by decide), .int _⟩)))
  have hloop : (Statement.loop (some (.declare .block "i" (some (.literal (.int 0))))) none
      (some (.update .increment "i" false)) [.effect (.call (.member (.name "console") "log")
        [.literal (.str "for (;;) \x7b"), .name "i", .literal (.int (-7))])]).Plain :=
    .loop (by simpa using .declare (by decide) (by decide) (by simpa using .int _)) (by simp)
      (by simpa using .inr (.update _ (by decide) _)) (by simpa using hlog)
  have hdivide : (Statement.effect (.assign .div "right" (.literal (.int 2)))).Plain :=
    .line (.effect (.assign _ (by decide) (.int _)))
  have hreturn : (Statement.branch (.name "right") [.ret none] none).Plain :=
    .branch (.name (by decide)) (by simpa using .line (.ret (by simp))) (by simp)
  have hcall : (Statement.effect (.call (.name "elsewhere") [])).Plain :=
    .line (.effect (@Expr.Action.call "elsewhere" [] _ (by decide) (by simp) (by simp)))
  have hplain : ∀ s ∈ thornyProgram, s.Plain := by
    simp only [thornyProgram, List.forall_mem_cons]
    refine ⟨.line (.declare (by decide) (by decide) (by simpa using .str _)),
      .function (by decide) (by decide) ?_, by simp⟩
    simp only [List.forall_mem_cons]
    refine ⟨.branch (.name (by decide)) (by simpa using ⟨hloop, hdivide⟩)
      (by simpa using ⟨hreturn, hcall⟩), .line (.ret (by simpa using .name (by decide))), by simp⟩
  have hlevels : Statement.levelsOf thornyProgram ≤ nestingLimit + 1 := by decide
  exact ⟨hplain, hlevels, (readScript_printed thornyProgram hplain).1 hlevels⟩

end Source

end TapeCompiler
