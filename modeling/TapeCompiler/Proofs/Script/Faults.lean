import TapeCompiler.Script.Statement
import Mathlib.Tactic.Common

/-! # The faults of reading

A source is refused for a block without an end, for a number whose digits are not all ASCII, or for
blocks or expressions nested too deeply, and for nothing else (`ofSource_of_readScript`). -/

namespace TapeCompiler

/-- A fault that **reading a source** can end in. -/
inductive Fault.OfSource : Fault → Prop
  | unclosed (line : Nat) (header : String) : OfSource (.unclosedBlock line header)
  | number (text : String) : OfSource (.invalidNumber text)
  | blocks : OfSource (.exceeded .blockNesting)
  | expressions : OfSource (.exceeded .expressionNesting)

namespace Source

variable {α β : Type}

/-! ### Fair reading -/

/-- A part of reading is **fair** if it fails by faults of the source only. -/
def Fair (x : Except Fault α) : Prop := ∀ f, x = .error f → f.OfSource

/-- A reading that gathers notices is fair whatever was noted before. -/
def Reading.Fair (m : Reading α) : Prop := ∀ notices, Source.Fair (m notices)

theorem fair_ok (a : α) : Fair (.ok a : Except Fault α) := fun _ h => by cases h

theorem fair_error {f : Fault} (h : f.OfSource) : Fair (.error f : Except Fault α) :=
  fun _ hf => by cases hf; exact h

theorem Fair.bind {x : Except Fault α} {g : α → Except Fault β} (hx : Fair x)
    (hg : ∀ a, Fair (g a)) : Fair (x >>= g) := by
  cases x with
  | error f => exact fair_error (hx f rfl)
  | ok a => exact hg a

theorem Fair.map {x : Except Fault α} (hx : Fair x) (g : α → β) : Fair (x.map g) := by
  cases x with
  | error f => exact fair_error (hx f rfl)
  | ok a => exact fair_ok _

theorem fair_mapM {g : α → Except Fault β} (hg : ∀ a, Fair (g a)) (l : List α) :
    Fair (l.mapM g) := by
  induction l with
  | nil => exact fair_ok _
  | cons a l ih =>
    rw [List.mapM_cons]
    exact (hg a).bind fun _ => ih.bind fun _ => fair_ok _

namespace Reading

theorem fair_pure (a : α) : Fair (pure a : Reading α) := fun _ => fair_ok _

theorem Fair.bind {m : Reading α} {g : α → Reading β} (hm : Fair m) (hg : ∀ a, Fair (g a)) :
    Fair (m >>= g) := fun ns => (hm ns).bind fun r => hg r.1 r.2

theorem fair_lift {x : Except Fault α} (hx : Source.Fair x) : Fair (liftM x : Reading α) :=
  fun _ => hx.bind fun _ => fair_ok _

theorem fair_notice (l : Line) (message : String) : Fair (notice l message) :=
  fun _ => fair_ok _

end Reading

/-! ### Expressions -/

theorem fair_readNumber (t : NumberText) (text : List Char) : Fair (readNumber t text) := by
  unfold readNumber
  dsimp only
  split
  · exact fair_ok _
  · exact fair_ok _
  · exact fair_error (.number _)

theorem fair_readCall {arg : List Char → Except Fault Expr} (ha : ∀ cs, Fair (arg cs))
    (cs : List Char) : Fair (readCall arg cs) := by
  unfold readCall
  split
  · exact fair_ok _
  · exact (fair_mapM ha _).bind fun _ => fair_ok _

theorem fair_readExpr (room : Nat) (cs : List Char) : Fair (readExpr room cs) := by
  induction room generalizing cs with
  | zero => exact fair_error .expressions
  | succ room ih =>
    rw [readExpr]
    split
    · exact ih _
    split
    · exact fair_ok _
    split
    · exact (fair_readNumber _ _).map _
    split
    · exact fair_ok _
    split
    · exact (ih _).bind fun _ => (ih _).bind fun _ => fair_ok _
    refine (fair_readCall ih _).bind fun call => ?_
    split
    · exact fair_ok _
    split
    · exact fair_ok _
    split
    · exact (fair_mapM ih _).bind fun _ => fair_ok _
    · exact fair_ok _

/-! ### Statements -/

section Statements
variable {expr : List Char → Except Fault Expr} (he : ∀ cs, Fair (expr cs))
include he

theorem fair_readAssignment (cs : List Char) : Fair (readAssignment expr cs) := by
  unfold readAssignment
  split
  · exact fair_ok _
  · exact (he _).bind fun _ => fair_ok _

theorem fair_readSimple (cs : List Char) : Fair (readSimple expr cs) := by
  unfold readSimple
  split
  · exact (he _).bind fun _ => fair_ok _
  · exact fair_ok _
  split
  · exact (he _).bind fun _ => fair_ok _
  · exact fair_ok _
  split
  · exact fair_ok _
  refine (fair_readAssignment he _).bind fun e => ?_
  split
  · exact fair_ok _
  · exact (fair_readCall he _).bind fun _ => fair_ok _

end Statements

/-- The readers of the expressions in a statement are fair. -/
structure Readers.Fair (expr : Readers) : Prop where
  direct : ∀ cs, Source.Fair (expr.direct cs)
  nested : ∀ cs, Source.Fair (expr.nested cs)

theorem Readers.fair_withRoom (room : Nat) : (withRoom room).Fair :=
  ⟨fair_readExpr _, fair_readExpr _⟩

theorem fair_readClause {expr : Readers} (he : expr.Fair) (cs : List Char) :
    Fair (readClause expr cs) := by
  unfold readClause
  split
  · exact fair_ok _
  refine (fair_readAssignment he.nested _).bind fun e => ?_
  split
  · exact fair_ok _
  · exact he.direct _

theorem fair_blockOf (header : Line) (lines : List Line) : Fair (blockOf header lines) := by
  unfold blockOf
  split
  · exact fair_ok _
  · exact fair_error (.unclosed _ _)

/-! ### Blocks -/

/-- The readers of a level are fair. -/
structure Level.Fair (level : Level) : Prop where
  block : ∀ lines, (level.block lines).Fair
  branch : ∀ header condition lines, (level.branch header condition lines).Fair

section Inner
variable {inner : Level} (hi : inner.Fair)
include hi

theorem fair_readBranch {expr : List Char → Except Fault Expr} (he : ∀ cs, Fair (expr cs))
    (header : Line) (condition : List Char) (lines : List Line) :
    (readBranch inner expr header condition lines).Fair := by
  unfold readBranch
  refine (Reading.fair_lift (he _)).bind fun test => ?_
  refine (Reading.fair_lift (fair_blockOf _ _)).bind ?_
  rintro ⟨block, close, rest⟩
  refine (hi.block _).bind fun consequent => ?_
  split
  · exact Reading.fair_pure _
  split
  · exact (hi.branch _ _ _).bind fun _ => Reading.fair_pure _
  split
  · exact (Reading.fair_lift (fair_blockOf _ _)).bind fun _ => (hi.block _).bind fun _ =>
      Reading.fair_pure _
  · exact (Reading.fair_notice _ _).bind fun _ => Reading.fair_pure _

omit hi in
theorem fair_clause {read : List Char → Reading α} (hr : ∀ cs, (read cs).Fair) (cs : List Char) :
    (clause read cs).Fair := by
  unfold clause
  split
  · exact Reading.fair_pure _
  · exact (hr _).bind fun _ => Reading.fair_pure _

theorem fair_readLoop {expr : Readers} (he : expr.Fair) (header : Line) (clauses : List Char)
    (lines : List Line) : (readLoop inner expr header clauses lines).Fair := by
  unfold readLoop
  refine (Reading.fair_lift (fair_blockOf _ _)).bind ?_
  rintro ⟨block, close, rest⟩
  dsimp only
  split
  · refine (fair_clause (fun cs => Reading.fair_lift (fair_readSimple he.nested cs)) _).bind
      fun init => ?_
    have hrest : ∀ first test last, (do
        let test ← clause (fun cs => expr.direct cs) test
        let update ← clause (fun cs => readClause expr cs) last
        let body ← inner.block block
        return (some (Statement.loop first test update body), rest) : Reading _).Fair :=
      fun first test last =>
        (fair_clause (fun cs => Reading.fair_lift (he.direct cs)) _).bind fun _ =>
          (fair_clause (fun cs => Reading.fair_lift (fair_readClause he cs)) _).bind fun _ =>
            (hi.block _).bind fun _ => Reading.fair_pure _
    split
    · exact (Reading.fair_notice _ _).bind fun _ => hrest _ _ _
    · exact hrest _ _ _
  · exact (Reading.fair_notice _ _).bind fun _ => Reading.fair_pure _

theorem fair_readStatement {expr : Readers} (he : expr.Fair) (l : Line) (lines : List Line) :
    (readStatement inner expr l lines).Fair := by
  unfold readStatement
  split
  · exact (Reading.fair_lift (fair_blockOf _ _)).bind fun _ => (hi.block _).bind fun _ =>
      Reading.fair_pure _
  split
  · exact (fair_readBranch hi he.direct _ _ _).bind fun _ => Reading.fair_pure _
  split
  · exact fair_readLoop hi he _ _ _
  refine (Reading.fair_lift (fair_readSimple he.direct _)).bind fun s => ?_
  split
  · exact Reading.fair_pure _
  · exact (Reading.fair_notice _ _).bind fun _ => Reading.fair_pure _

end Inner

theorem fair_readAll {statement : Line → List Line → Reading (Option Statement × List Line)}
    (hs : ∀ l lines, (statement l lines).Fair) (fuel : Nat) (lines : List Line) :
    (readAll statement fuel lines).Fair := by
  induction fuel generalizing lines with
  | zero => cases lines <;> exact Reading.fair_pure _
  | succ fuel ih =>
    cases lines with
    | nil => exact Reading.fair_pure _
    | cons l lines =>
      exact (hs _ _).bind fun _ => (ih _).bind fun _ => Reading.fair_pure _

theorem fair_levels (room : Nat) : (levels room).Fair := by
  induction room with
  | zero => exact ⟨fun _ _ => fair_error .blocks, fun _ _ _ _ => fair_error .blocks⟩
  | succ room ih =>
    have he := Readers.fair_withRoom (room + 1)
    exact ⟨fun lines => fair_readAll (fair_readStatement ih he) _ _, fair_readBranch ih he.direct⟩

/-- **A source that is refused** is refused by a fault of the source. -/
theorem ofSource_of_readScript {source : String} {f : Fault} (h : readScript source = .error f) :
    f.OfSource :=
  Fair.bind ((fair_levels _).block _ []) (fun _ => fair_ok _) f h

end Source

theorem Fault.OfSource.ne_defect {f : Fault} (h : f.OfSource) (d : Defect) : f ≠ .defect d := by
  cases h <;> exact Fault.noConfusion

end TapeCompiler
