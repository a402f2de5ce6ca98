import TapeCompiler.Proofs.Script.Braces
import TapeCompiler.Proofs.Script.Ensures

/-! # The blocks that a silent reading leaves open

Each reader takes the lines of what it reads, and without a notice these lines match: a statement
leaves the stack of open blocks as it was (`Completes`), and what is read behind a header takes one
block off it (`Closes`). So a program that is read without a notice closes no block that is not
open, and **the blocks of the braces that were overlooked stay open** (`openPast_of_readScript`). -/

namespace TapeCompiler

namespace Source

open Text

variable {cs : List Char}

/-! ### Statements of one line -/

section Simple
variable {expr : List Char → Except Fault Expr}

theorem readSimple_eq_none (hs : Stops isDottedPart cs) (hstep : step? cs = none) :
    readSimple expr cs = .ok none := by
  have hpart : Stops isNamePart cs := fun c hc =>
    (Bool.or_eq_false_iff.1 (hs c hc)).1
  have hnames : ∀ word ∈ ["var", "let", "const", "return"], isName word.toList = true := by decide
  have hdeclaration := declaration?_eq_none fun word hw =>
    apart_of_stops (hnames word (by simp at hw ⊢; tauto)) hpart
  have hreturn := return?_eq_none (apart_of_stops (hnames "return" (by simp)) hpart)
  have hname : name? cs = none := name?_eq_none fun c hc =>
    eq_false_of_ne_true fun h => by simpa [hpart c hc] using isNamePart_of_isNameStart h
  have hupdate : update? cs = none := by simp [update?, hname, hstep]
  have hassignment : assignment? cs = none := by simp [assignment?, hname]
  have hcall : callParts? cs = none := by
    have hrun : cs.takeWhile (fun c => isNamePart c || decide (c = '.')) = [] :=
      takeWhile_of_stops hs
    simp [callParts?, dotted?, hrun, splitOn, isName]
  rw [readSimple, hdeclaration, hreturn]
  simp only [hupdate, readAssignment, hassignment, readCall, hcall]
  rfl

theorem readSimple_name {name rest : List Char} (hn : isName name = true)
    (hw : ∀ word ∈ ["var", "let", "const", "return"], name ≠ word.toList)
    (hs : Stops isDottedPart rest) (hstep : step? (trimFront rest) = none)
    (hassign : assignOp? (trimFront rest) = none) (hround : (trimFront rest).head? ≠ some '(') :
    readSimple expr (name ++ rest) = .ok none := by
  have hpart : Stops isNamePart rest := fun c hc => (Bool.or_eq_false_iff.1 (hs c hc)).1
  have hnames : ∀ word ∈ ["var", "let", "const", "return"], isName word.toList = true := by decide
  have hapart : ∀ word ∈ ["var", "let", "const", "return"], Apart word (name ++ rest) :=
    fun word h => apart_of_isName (hnames word h) hn (hw word h) hpart
  have hdeclaration := declaration?_eq_none fun word h => hapart word (by simp at h ⊢; tauto)
  have hcall : callParts? (name ++ rest) = none := by
    have hdotted : dotted? (['.'].intercalate [name] ++ rest) = some ([name], rest) :=
      dotted?_append (by simp) (by simpa using hn) hs
    rw [List.intercalate_singleton] at hdotted
    have hopen : ∀ r, oneLine? (trimFront rest) = some r → enclosed? '(' ')' r = none := by
      intro r hr
      rw [oneLine?] at hr
      split at hr
      · cases hr
      cases hr
      cases hrest : trimFront rest with
      | nil => rfl
      | cons c more =>
        rw [enclosed?, if_neg]
        rintro ⟨rfl, -⟩
        exact hround (by rw [hrest]; rfl)
    rw [callParts?, hdotted]
    cases hline : oneLine? (trimFront rest) with
    | none => simp [hline]
    | some r => simp [hline, hopen r hline]
  rw [readSimple, hdeclaration, return?_eq_none (hapart "return" (by simp))]
  simp only [update?_eq_none hn hpart hstep, readAssignment,
    assignment?_eq_none hn hpart hassign, readCall, hcall]
  rfl

theorem readSimple_closing (r : List Char) : readSimple expr ('\x7d' :: r) = .ok none :=
  readSimple_eq_none (stops_cons (by decide) r) rfl

theorem isDottedPart_of_isBlank {c : Char} (h : isBlank c = true) : isDottedPart c = false :=
  eq_false_of_ne_true fun hc => by simpa [isInk, h] using isInk_of_isDottedPart hc

/-- Behind an else stands a brace, or blanks and another header; **neither goes on with a
statement**. -/
theorem exists_else (h : (elseIf? cs).isSome = true ∨ isElse cs = true) :
    ∃ r, keyword? "else" (afterBrace cs) = some r ∧ Stops isDottedPart r ∧
      (trimFront r = ['\x7b'] ∨ ∃ more, trimFront r = 'i' :: 'f' :: more) := by
  rcases h with h | h
  · obtain ⟨condition, h⟩ := Option.isSome_iff_exists.1 h
    simp only [elseIf?, branchHeader?, Option.bind_eq_bind, Option.bind_eq_some_iff] at h
    obtain ⟨r, hr, r', hr', r'', hif, -⟩ := h
    rw [keyword?, after?_eq_some] at hif
    cases r with
    | nil => cases hr'
    | cons c r =>
      rw [blanks?, Option.ite_none_right_eq_some, Option.some.injEq] at hr'
      obtain ⟨hc, hfront⟩ := hr'
      refine ⟨_, hr, stops_cons (isDottedPart_of_isBlank hc) r, .inr ⟨r'', ?_⟩⟩
      rw [trimFront, List.dropWhile_cons, if_pos hc, ← trimFront, hfront, hif]
      rfl
  · rw [isElse] at h
    split at h
    · next r hr =>
      have hbrace : trimFront r = ['\x7b'] := by simpa using h
      refine ⟨r, hr, ?_, .inl hbrace⟩
      cases r with
      | nil => exact stops_nil _
      | cons c r =>
        by_cases hc : isBlank c = true
        · exact stops_cons (isDottedPart_of_isBlank hc) r
        · rw [trimFront, List.dropWhile_cons, if_neg hc] at hbrace
          cases hbrace
          exact stops_cons (by decide) _
    · cases h

theorem readSimple_else (h : (elseIf? cs).isSome = true ∨ isElse cs = true)
    (hfirst : cs.head? ≠ some '\x7d') : readSimple expr cs = .ok none := by
  obtain ⟨r, hr, hstop, hfront⟩ := exists_else h
  rw [keyword?, after?_eq_some] at hr
  have htrim : afterBrace cs = trimFront cs := by
    have hnone : after? ['\x7d'] cs = none := by
      cases cs with
      | nil => rfl
      | cons c cs => simpa [after?, eq_comm] using hfirst
    rw [afterBrace, hnone, Option.getD_none]
  rw [htrim] at hr
  cases cs with
  | nil => cases hr
  | cons c cs =>
    by_cases hc : isBlank c = true
    · refine readSimple_eq_none (stops_cons (isDottedPart_of_isBlank hc) cs) ?_
      have hsign : ∀ d, isBlank d = false → c ≠ d := by
        rintro d hd rfl
        rw [hd] at hc
        cases hc
      exact step?_eq_none (hsign '+' rfl) (hsign '-' rfl) cs
    · rw [trimFront, List.dropWhile_cons, if_neg hc] at hr
      rw [hr]
      rcases hfront with hfront | ⟨more, hfront⟩
      all_goals
        exact readSimple_name (by decide) (by decide) hstop (by rw [hfront]; rfl)
          (by rw [hfront]; rfl) (by rw [hfront]; simp)

/-- **A statement of one line** stands on a line without braces. -/
theorem quiet_of_readSimple (hf : functionHeader? cs = none) (hb : branchHeader? cs = none)
    (hl : loopHeader? cs = none) :
    Ensures (readSimple expr cs) fun s => Tidy cs → s.isSome = true → Quiet cs := by
  intro s h ht hs
  obtain ⟨s, rfl⟩ := Option.isSome_iff_exists.1 hs
  cases ht with
  | quiet hw => exact hw
  | @opens w hw hh =>
    exfalso
    simp only [isHeader, hf, hb, hl, Option.isSome_none, Bool.false_or, Bool.or_eq_true] at hh
    have hfirst : (w ++ ['\x7b']).head? ≠ some '\x7d' := by
      cases w with
      | nil => simp
      | cons c w => simpa using hw.head?_ne
    rw [readSimple_else hh hfirst] at h
    cases h
  | closes hw =>
    rw [readSimple_closing] at h
    cases h
  | turns hw =>
    rw [readSimple_closing] at h
    cases h

end Simple

/-! ### Else -/

theorem Tidy.stackBehind_keyword {word : String} {r : List Char} (ht : Tidy cs)
    (hw : isName word.toList = true) (hword : keyword? word cs = some r)
    (hlast : cs.getLast? = some '\x7b') (st : List Bool) :
    stackBehind st cs = some (takesElse cs :: st) := by
  refine ht.stackBehind_opening hlast ?_ st
  rw [keyword?, after?_eq_some] at hword
  rw [hword]
  exact ((startsIn_of_isName hw).append r).head?_ne rfl

theorem takesElse_of_keyword? {word : String} {r : List Char}
    (hw : word = "function" ∨ word = "for") (h : keyword? word cs = some r) :
    takesElse cs = false := by
  rw [keyword?, after?_eq_some] at h
  subst h
  rcases hw with rfl | rfl <;> rfl

theorem takesElse_of_isElse (h : elseIf? cs = none) (he : isElse cs = true) :
    takesElse cs = false := by
  obtain ⟨r, hr, -⟩ := exists_else (.inr he)
  cases hif : keyword? "if" cs with
  | none => simp [takesElse, branchHeader?, hif, h]
  | some r' =>
    rw [keyword?, after?_eq_some] at hif
    subst hif
    cases hr

theorem takesElse_of_elseIf? {c : List Char} (h : elseIf? cs = some c) : takesElse cs = true := by
  simp [takesElse, h]

/-- An else stands on the line that closes the block before it, or alone behind a line that **only
closes it**. -/
theorem elseLine?_eq_some {close l : Line} {rest behind : List Line}
    (h : elseLine? close rest = some (l, behind)) :
    (l = close ∧ behind = rest ∧ close.text ≠ ['\x7d']) ∨
      (rest = l :: behind ∧ close.text = ['\x7d'] ∧ (keyword? "else" l.text).isSome = true) := by
  unfold elseLine? at h
  split at h
  · next hne =>
    cases h
    exact .inl ⟨rfl, rfl, hne⟩
  · next heq =>
    rw [ne_eq, Decidable.not_not] at heq
    split at h
    · split at h
      · next helse =>
        cases h
        exact .inr ⟨rfl, heq, helse⟩
      · cases h
    · cases h

/-- Behind the block of a branch an else **opens a block in its place**. -/
theorem stackPast_elseLine? {close l : Line} {rest behind : List Line} {d : Nat}
    (ht : ∀ l ∈ close :: rest, Tidy l.text) (hd : depthBehind d (plain close.text) = none)
    (h : elseLine? close rest = some (l, behind)) (hlast : l.text.getLast? = some '\x7b') :
    ∃ used, close :: rest = used ++ behind ∧ ∀ st,
      stackPast (true :: st) (used.map Line.text) = some (takesElse l.text :: st) := by
  obtain ⟨w, hw, hclose⟩ := (ht close (by simp)).of_depthBehind hd
  rcases elseLine?_eq_some h with ⟨rfl, rfl, hne⟩ | ⟨rfl, heq, helse⟩
  · refine ⟨[l], rfl, fun st => ?_⟩
    rw [List.map_singleton, stackPast_cons]
    rcases hclose with hclose | hclose
    · rw [hclose, List.getLast?_cons] at hlast
      cases hw' : w.getLast? with
      | none => simp [hw'] at hlast
      | some c => exact absurd (by simpa [hw'] using hlast) (hw' ▸ hw.getLast?_ne)
    · rw [hclose, hw.stackBehind_both]
      rfl
  · refine ⟨[close, l], rfl, fun st => ?_⟩
    obtain ⟨r, hr⟩ := Option.isSome_iff_exists.1 helse
    have hl := (ht l (by simp)).stackBehind_keyword (by decide) hr hlast st
    rw [List.map_cons, stackPast_cons, heq, quiet_nil.stackBehind_cons]
    simp only [List.tail?_cons, Option.bind_some, List.map_singleton, stackPast_cons, hl]
    rfl

/-- Behind the block of a branch **without an else** the block is closed. -/
theorem stackBehind_of_elseLine? {close : Line} {rest : List Line}
    (h : elseLine? close rest = none) (st : List Bool) :
    stackBehind (true :: st) close.text = some st := by
  unfold elseLine? at h
  split at h
  · cases h
  · next heq =>
    rw [ne_eq, Decidable.not_not] at heq
    rw [heq, quiet_nil.stackBehind_cons]
    rfl

/-! ### Blocks -/

theorem block?_eq_some {depth : Nat} {lines block rest : List Line} {close : Line}
    (h : block? depth lines = some (block, close, rest)) :
    lines = block ++ close :: rest ∧ ∃ d, depthBehind d (plain close.text) = none := by
  induction lines generalizing depth block with
  | nil => cases h
  | cons l ls ih =>
    rw [block?] at h
    split at h
    · next hd =>
      cases h
      exact ⟨rfl, depth, hd⟩
    · next d hd =>
      obtain ⟨⟨block, close, rest⟩, hblock, heq⟩ := Option.map_eq_some_iff.1 h
      cases heq
      obtain ⟨rfl, hclose⟩ := ih hblock
      exact ⟨rfl, hclose⟩

theorem ensures_blockOf (header : Line) (lines : List Line) :
    Ensures (blockOf header lines) fun b =>
      lines = b.1 ++ b.2.1 :: b.2.2 ∧ ∃ d, depthBehind d (plain b.2.1.text) = none := by
  unfold blockOf
  split
  · next hblock => exact ensures_ok (block?_eq_some hblock)
  · exact ensures_error _

/-- Lines that are all tidy. -/
def AllTidy (lines : List Line) : Prop := ∀ l ∈ lines, Tidy l.text

/-- From lines, **those of a block** and the ones that end it are read; an else may follow the block
or not. -/
def Closes (awaited : Bool) (lines rest : List Line) : Prop :=
  ∃ used, lines = used ++ rest ∧ ∀ st, stackPast (awaited :: st) (used.map Line.text) = some st

/-- From lines behind one, those of **its statement** are read. -/
def Completes (l : Line) (lines rest : List Line) : Prop :=
  ∃ used, lines = used ++ rest ∧ Even ((l :: used).map Line.text)

section Lines
variable {awaited : Bool} {block used lines rest : List Line} {l close : Line}

theorem closes_of_close (hb : Even (block.map Line.text))
    (hc : ∀ st, stackBehind (awaited :: st) close.text = some st) (rest : List Line) :
    Closes awaited (block ++ close :: rest) rest := by
  refine ⟨block ++ [close], by simp, fun st => ?_⟩
  rw [List.map_append, stackPast_append, hb, Option.bind_some, List.map_singleton,
    stackPast_cons, hc]
  rfl

/-- Behind an else **another block** has to be closed. -/
theorem Closes.of_else {awaited' : Bool} (hb : Even (block.map Line.text))
    (hu : ∀ st, stackPast (awaited :: st) (used.map Line.text) = some (awaited' :: st))
    (h : Closes awaited' lines rest) : Closes awaited (block ++ (used ++ lines)) rest := by
  obtain ⟨more, rfl, hmore⟩ := h
  refine ⟨block ++ (used ++ more), by simp, fun st => ?_⟩
  rw [List.map_append, List.map_append, stackPast_append, hb, Option.bind_some, stackPast_append,
    hu, Option.bind_some, hmore]

theorem Closes.completes (h : Closes awaited lines rest)
    (hl : ∀ st, stackBehind st l.text = some (awaited :: st)) : Completes l lines rest := by
  obtain ⟨used, rfl, hu⟩ := h
  refine ⟨used, rfl, fun st => ?_⟩
  rw [List.map_cons, stackPast_cons, hl, Option.bind_some, hu]

end Lines

/-- The readers of a level match the lines they read. -/
structure Level.Even (level : Level) : Prop where
  block : ∀ lines, (level.block lines).Silently True fun _ =>
    AllTidy lines → Source.Even (lines.map Line.text)
  branch : ∀ header condition lines, (level.branch header condition lines).Silently True fun r =>
    AllTidy lines → Closes true lines r.2

section Inner
variable {inner : Level} (hi : inner.Even)
include hi

theorem closes_of_readBranch (expr : List Char → Except Fault Expr) (header : Line)
    (condition : List Char) (lines : List Line) :
    (readBranch inner expr header condition lines).Silently True fun r =>
      AllTidy lines → Closes true lines r.2 := by
  unfold readBranch
  refine (Reading.silently_lift (ensures_any _)).bind fun test => ?_
  refine (Reading.silently_lift (ensures_blockOf header lines)).bind ?_
  rintro ⟨block, close, rest⟩
  refine (hi.block block).under.bind fun consequent => ?_
  have htidy : AllTidy (block ++ close :: rest) → AllTidy block ∧ AllTidy (close :: rest) :=
    fun ht => ⟨fun l hl => ht l (by simp [hl]), fun l hl => ht l (by simp at hl ⊢; tauto)⟩
  split
  · next hnone =>
    refine Reading.silently_pure ?_
    rintro ⟨⟨-, rfl, d, hd⟩, heven⟩ ht
    exact closes_of_close (heven (htidy ht).1) (stackBehind_of_elseLine? hnone) rest
  split
  · next l behind hline _ condition hif =>
    refine (hi.branch l condition behind).under.bind fun nested => Reading.silently_pure ?_
    rintro ⟨⟨⟨-, rfl, d, hd⟩, heven⟩, hnested⟩ ht
    obtain ⟨used, hused, hstack⟩ :=
      stackPast_elseLine? (htidy ht).2 hd hline (getLast?_of_elseIf? hif)
    rw [takesElse_of_elseIf? hif] at hstack
    have hbehind : AllTidy behind := fun l hl => (htidy ht).2 l (by rw [hused]; simp [hl])
    rw [hused]
    exact (hnested hbehind).of_else (heven (htidy ht).1) hstack
  split
  · next l behind hline _ hif helse =>
    refine (Reading.silently_lift (ensures_blockOf l behind)).bind ?_
    rintro ⟨block', close', rest'⟩
    refine (hi.block block').under.bind fun alternate => Reading.silently_pure ?_
    rintro ⟨⟨⟨⟨-, rfl, d, hd⟩, heven⟩, rfl, d', hd'⟩, heven'⟩ ht
    obtain ⟨used, hused, hstack⟩ :=
      stackPast_elseLine? (htidy ht).2 hd hline (getLast?_of_isElse helse)
    rw [takesElse_of_isElse hif helse] at hstack
    have hbehind : AllTidy (block' ++ close' :: rest') := fun l hl =>
      (htidy ht).2 l (by rw [hused]; exact List.mem_append_right _ hl)
    have hclose := (hbehind close' (by simp)).stackBehind_closing hd'
    rw [hused]
    exact (closes_of_close (heven' fun l hl => hbehind l (by simp [hl])) hclose rest').of_else
      (heven (htidy ht).1) hstack
  · exact Reading.silently_noticed _ _ _

omit hi in
theorem silently_clause {α : Type} {c : Prop} {read : List Char → Reading α}
    (hr : ∀ cs, (read cs).Silently True fun _ => True) (cs : List Char) :
    (clause read cs).Silently c fun _ => True := by
  unfold clause
  split
  · exact Reading.silently_pure fun _ => trivial
  · exact (hr _).under.bind fun a => Reading.silently_pure fun _ => trivial

theorem closes_of_readLoop (expr : Readers) (header : Line) (clauses : List Char)
    (lines : List Line) : (readLoop inner expr header clauses lines).Silently True fun r =>
      AllTidy lines → Closes false lines r.2 := by
  unfold readLoop
  refine (Reading.silently_lift (ensures_blockOf header lines)).bind ?_
  rintro ⟨block, close, rest⟩
  have hany : ∀ {α : Type} (x : List Char → Except Fault α) (cs : List Char),
      (liftM (x cs) : Reading α).Silently True fun _ => True :=
    fun x cs => Reading.silently_lift (ensures_any _)
  dsimp only
  split
  · refine (silently_clause (hany (fun cs => readSimple expr.nested cs)) _).bind fun init => ?_
    have hrest : ∀ {c : Prop} (first : Option (Option Statement)) (test last : List Char),
        (c → lines = block ++ close :: rest ∧ ∃ d, depthBehind d (plain close.text) = none) →
        (do
          let test ← clause (fun cs => expr.direct cs) test
          let update ← clause (fun cs => readClause expr cs) last
          let body ← inner.block block
          return (some (Statement.loop (first.getD none) test update body), rest) :
            Reading _).Silently c fun r => AllTidy lines → Closes false lines r.2 := by
      intro c first test last hc
      refine (silently_clause (hany (fun cs => expr.direct cs)) _).bind fun test => ?_
      refine (silently_clause (hany (fun cs => readClause expr cs)) _).bind fun last => ?_
      refine (hi.block block).under.bind fun body => Reading.silently_pure ?_
      rintro ⟨⟨⟨h, -⟩, -⟩, heven⟩ ht
      obtain ⟨rfl, d, hd⟩ := hc h
      exact closes_of_close (heven fun l hl => ht l (by simp [hl]))
        ((ht close (by simp)).stackBehind_closing hd) rest
    split
    · exact (Reading.silently_notice _ _).bind fun _ => hrest _ _ _ fun h => h.2.elim
    · exact hrest _ _ _ fun h => h.1.2
  · exact Reading.silently_noticed _ _ _

theorem completes_of_readStatement (expr : Readers) (l : Line) (lines : List Line) :
    (readStatement inner expr l lines).Silently True fun r =>
      AllTidy (l :: lines) → Completes l lines r.2 := by
  have hlines : AllTidy (l :: lines) → AllTidy lines := fun ht l' hl => ht l' (by simp [hl])
  unfold readStatement
  split
  · next name params hf =>
    refine (Reading.silently_lift (ensures_blockOf l lines)).bind ?_
    rintro ⟨block, close, rest⟩
    refine (hi.block block).under.bind fun body => Reading.silently_pure ?_
    rintro ⟨⟨-, rfl, d, hd⟩, heven⟩ ht
    have hlast : l.text.getLast? = some '\x7b' := getLast?_of_functionHeader? (by simp [hf])
    obtain ⟨r, hr, -⟩ := Option.bind_eq_some_iff.1 hf
    have hopens := (ht l (by simp)).stackBehind_keyword (by decide) hr hlast
    rw [takesElse_of_keyword? (.inl rfl) hr] at hopens
    exact (closes_of_close (heven fun l' hl => ht l' (by simp [hl]))
      ((ht close (by simp)).stackBehind_closing hd) rest).completes hopens
  split
  · next condition hb =>
    refine (closes_of_readBranch hi expr.direct l condition lines).bind fun r =>
      Reading.silently_pure ?_
    rintro ⟨-, hcloses⟩ ht
    have hlast : l.text.getLast? = some '\x7b' := getLast?_of_branchHeader? (by simp [hb])
    obtain ⟨r, hr, -⟩ := Option.bind_eq_some_iff.1 hb
    have hopens := (ht l (by simp)).stackBehind_keyword (by decide) hr hlast
    rw [show takesElse l.text = true by simp [takesElse, hb]] at hopens
    exact (hcloses (hlines ht)).completes hopens
  split
  · next clauses hl =>
    refine (closes_of_readLoop hi expr l clauses lines).mono fun r hcloses ht => ?_
    have hlast : l.text.getLast? = some '\x7b' := getLast?_of_loopHeader? (by simp [hl])
    obtain ⟨r', hr, -⟩ := Option.bind_eq_some_iff.1 hl
    have hopens := (ht l (by simp)).stackBehind_keyword (by decide) hr hlast
    rw [takesElse_of_keyword? (.inr rfl) hr] at hopens
    exact (hcloses (hlines ht)).completes hopens
  · next hf _ hb _ hl =>
    refine (Reading.silently_lift (quiet_of_readSimple hf hb hl)).bind fun s => ?_
    cases s with
    | none => exact Reading.silently_noticed _ _ _
    | some s =>
      refine Reading.silently_pure fun h ht => ⟨[], rfl, fun st => ?_⟩
      rw [List.map_singleton, stackPast_cons, (h.2 (ht l (by simp)) rfl).stackBehind_eq]
      rfl

end Inner

theorem even_of_readAll {statement : Line → List Line → Reading (Option Statement × List Line)}
    (hs : ∀ l lines, (statement l lines).Silently True fun r =>
      AllTidy (l :: lines) → Completes l lines r.2) (fuel : Nat) (lines : List Line) :
    (readAll statement fuel lines).Silently True fun _ =>
      lines.length ≤ fuel → AllTidy lines → Even (lines.map Line.text) := by
  induction fuel generalizing lines with
  | zero =>
    cases lines with
    | nil => exact Reading.silently_pure fun _ _ _ => even_nil
    | cons l lines => exact Reading.silently_pure fun _ hlen => absurd hlen (by simp)
  | succ fuel ih =>
    cases lines with
    | nil => exact Reading.silently_pure fun _ _ _ => even_nil
    | cons l lines =>
      refine (hs l lines).bind fun r => (ih r.2).under.bind fun _ => Reading.silently_pure ?_
      rintro ⟨⟨-, hl⟩, hrest⟩ hlen ht
      obtain ⟨used, hused, heven⟩ := hl ht
      subst hused
      have hlen' : r.2.length ≤ fuel := by
        simp only [List.length_cons, List.length_append] at hlen
        omega
      have := heven.append (hrest hlen' fun l' hl' => ht l' (by simp [hl']))
      simpa using this

/-- **The readers of every level** match the lines they read. -/
theorem even_levels (room : Nat) : (levels room).Even := by
  induction room with
  | zero => exact ⟨fun _ => Reading.silently_throw _, fun _ _ _ => Reading.silently_throw _⟩
  | succ room ih =>
    refine ⟨fun lines => ?_, closes_of_readBranch ih _⟩
    exact (even_of_readAll (completes_of_readStatement ih _) lines.length lines).mono
      fun _ h => h (Nat.le_refl _)

/-- **What is read without a notice** closes no block that is not open, and leaves as many open as
braces were overlooked. -/
theorem openPast_of_readScript {source : String} {script : Script}
    (h : readScript source = .ok script) (hn : script.notices = [])
    (ht : AllTidy (normalize source)) :
    openPast 0 ((normalize source).flatMap fun l => braces l.text) =
      some (overlooked [] ((normalize source).map Line.text)) := by
  have hread : Ensures (readScript source) fun script =>
      script.notices = [] → Even ((normalize source).map Line.text) :=
    ((even_levels (roomAt 0)).block (normalize source) []).bind fun r hr =>
      ensures_ok fun hn => hr.2 trivial (by simpa using congrArg List.length hn) ht
  have heven := hread script h hn
  have := openPast_of_stackPast (by simpa [AllTidy] using ht) (heven []) 0
  simpa [List.flatMap_map] using this

/-- The brace behind the one that closes a loop is overlooked, and its block stays open. -/
theorem openPast_of_readScript_loop :
    let source := "for (;;) \x7b\nf()\n\x7d else \x7b\nf()\n"
    ∃ script, readScript source = .ok script ∧ script.notices = [] ∧
      openPast 0 ((normalize source).flatMap fun l => braces l.text) = some 1 := by
  intro source
  have hok : (readScript source).toOption.any (fun s => s.notices.isEmpty) = true := by
    decide +kernel
  have hlines : (normalize source).map Line.text = ["for (;;) \x7b".toList, "f()".toList,
      "\x7d else \x7b".toList, "f()".toList] := by decide +kernel
  have hclosed : ∀ w ∈ ["for (;;) ".toList, "f()".toList, " else ".toList], Closed w := by
    unfold Closed
    decide
  have hbraceless : ∀ w ∈ ["for (;;) ".toList, "f()".toList, " else ".toList],
      Braceless (plain w) := by
    unfold Braceless
    decide
  have hquiet : ∀ w ∈ ["for (;;) ".toList, "f()".toList, " else ".toList], Quiet w := fun w hw =>
    ⟨hclosed w hw, hbraceless w hw⟩
  have htidy : AllTidy (normalize source) := by
    intro l hl
    have hmem := List.mem_map_of_mem (f := Line.text) hl
    rw [hlines] at hmem
    simp only [List.mem_cons, List.not_mem_nil, or_false] at hmem
    rcases hmem with h | h | h | h <;> rw [h]
    · exact .opens (w := "for (;;) ".toList) (hquiet _ (by simp)) (by decide)
    · exact .quiet (hquiet _ (by simp))
    · exact .turns (w := " else ".toList) (hquiet _ (by simp))
    · exact .quiet (hquiet _ (by simp))
  cases hread : readScript source with
  | error f => rw [hread] at hok; cases hok
  | ok script =>
    rw [hread] at hok
    have hn : script.notices = [] := List.isEmpty_iff.mp hok
    refine ⟨script, rfl, hn, (openPast_of_readScript hread hn htidy).trans ?_⟩
    rw [hlines]
    decide

end Source

end TapeCompiler
