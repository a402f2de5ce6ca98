import TapeCompiler.Proofs.Script.Calls
import TapeCompiler.Proofs.Script.Ensures

/-! # How deeply what was read nests

What a reader gives is bounded by the levels of nesting it has left. An expression has one level
more than these at most, if a dotted name counts as **one** level (`depth_of_readExpr`), and the
blocks of a program nest within the limit (`within_of_readScript`). Along the dots no level is
counted: a name with as many dots as one likes is read with a single level left
(`readExpr_members`). -/

namespace TapeCompiler

/-! ### Depth -/

mutual
/-- The levels of an expression; a dotted name is one level, **however long it is**. -/
def Expr.depth : Expr → Nat
  | .literal _ | .name _ | .member .. | .update .. => 1
  | .binary _ l r | .logical _ l r => 1 + max l.depth r.depth
  | .call callee args => 1 + max callee.depth (Expr.depthOf args)
  | .array es => 1 + Expr.depthOf es
  | .assign _ _ value => 1 + value.depth

/-- The levels of expressions side by side. -/
def Expr.depthOf : List Expr → Nat
  | [] => 0
  | e :: es => max e.depth (Expr.depthOf es)
end

theorem Expr.depthOf_le {es : List Expr} {d : Nat} (h : ∀ e ∈ es, e.depth ≤ d) :
    Expr.depthOf es ≤ d := by
  induction es with
  | nil => exact Nat.zero_le d
  | cons e es ih =>
    rw [depthOf, Nat.max_le]
    exact ⟨h e (by simp), ih fun e he => h e (by simp [he])⟩

/-- A statement whose expressions have a number of levels at most and that nests to a number of
levels of **blocks** at most, its own included. -/
inductive Statement.Within (levels : Nat) : Nat → Statement → Prop
  | declare {room : Nat} {kind : DeclKind} {name : String} {init : Option Expr}
    (hi : ∀ e ∈ init, e.depth ≤ levels) : Within levels (room + 1) (.declare kind name init)
  | ret {room : Nat} {argument : Option Expr} (ha : ∀ e ∈ argument, e.depth ≤ levels) :
    Within levels (room + 1) (.ret argument)
  | effect {room : Nat} {e : Expr} (he : e.depth ≤ levels) : Within levels (room + 1) (.effect e)
  | function {room : Nat} {name : String} {params : List String} {body : List Statement}
    (hb : ∀ s ∈ body, Within levels room s) :
    Within levels (room + 1) (.function name params body)
  | branch {room : Nat} {test : Expr} {consequent : List Statement}
    {alternate : Option (List Statement)} (ht : test.depth ≤ levels)
    (hc : ∀ s ∈ consequent, Within levels room s)
    (ha : ∀ body ∈ alternate, ∀ s ∈ body, Within levels room s) :
    Within levels (room + 1) (.branch test consequent alternate)
  /-- The first clause of a loop stands in the block in which the loop stands. -/
  | loop {room : Nat} {init : Option Statement} {test last : Option Expr} {body : List Statement}
    (hi : ∀ s ∈ init, Within levels (room + 1) s) (ht : ∀ e ∈ test, e.depth ≤ levels)
    (hl : ∀ e ∈ last, e.depth ≤ levels) (hb : ∀ s ∈ body, Within levels room s) :
    Within levels (room + 1) (.loop init test last body)

namespace Source

open Text

variable {α : Type} {p : α → Prop}

/-! ### Expressions -/

theorem depth_chain (names : List (List Char)) : (chain names).depth = 1 := by
  have hmembers : ∀ (rest : List (List Char)) (e : Expr), e.depth = 1 →
      (rest.foldl (fun o name => .member o (String.ofList name)) e).depth = 1 := by
    intro rest
    induction rest with
    | nil => exact fun e he => he
    | cons name rest ih => exact fun e _ => ih _ (by simp [Expr.depth])
  cases names with
  | nil => simp [chain, Expr.depth]
  | cons first rest => exact hmembers rest _ (by simp [Expr.depth])

theorem depth_of_members? {cs : List Char} {e : Expr} (h : members? cs = some e) :
    e.depth = 1 := by
  rw [members?] at h
  split at h
  · split at h
    · cases h
      exact depth_chain _
    · cases h
  · cases h

theorem depth_operation {o : Operator} {l r : Expr} {d : Nat} (hl : l.depth ≤ d)
    (hr : r.depth ≤ d) : (operation o l r).depth ≤ d + 1 := by
  rw [operation]
  split <;> · rw [Expr.depth]; omega

theorem depth_of_readCall {arg : List Char → Except Fault Expr} {d : Nat}
    (ha : ∀ cs, Ensures (arg cs) fun e => e.depth ≤ d + 1) (cs : List Char) :
    Ensures (readCall arg cs) fun call => ∀ e ∈ call, e.depth ≤ d + 2 := by
  unfold readCall
  split
  · exact ensures_ok (by simp)
  · refine (ensures_mapM ha _).bind fun args hargs => ensures_ok ?_
    rintro _ ⟨⟩
    have := Expr.depthOf_le hargs
    rw [Expr.depth, depth_chain]
    omega

/-- **An expression that is read** has one level more at most than were left. -/
theorem depth_of_readExpr (room : Nat) (cs : List Char) :
    Ensures (readExpr room cs) fun e => e.depth ≤ room + 1 := by
  induction room generalizing cs with
  | zero => exact ensures_error _
  | succ room ih =>
    have hleaf : ∀ v, (Expr.literal v).depth ≤ room + 2 := fun v => by rw [Expr.depth]; omega
    rw [readExpr]
    split
    · exact (ih _).mono fun e he => by omega
    split
    · exact ensures_ok (hleaf _)
    split
    · exact (ensures_any _).map fun v _ => hleaf v
    split
    · exact ensures_ok (hleaf _)
    split
    · exact (ih _).bind fun l hl => (ih _).bind fun r hr => ensures_ok (depth_operation hl hr)
    refine (depth_of_readCall ih _).bind fun call hcall => ?_
    split
    · exact ensures_ok (hcall _ rfl)
    split
    · next heq => exact ensures_ok (by rw [depth_of_members? heq]; omega)
    split
    · refine (ensures_mapM ih _).bind fun es hes => ensures_ok ?_
      have := Expr.depthOf_le hes
      rw [Expr.depth]
      omega
    · exact ensures_ok (by rw [Expr.depth]; omega)

/-- **Along the dots no level is counted**: a name of any length is read with one level left. -/
theorem readExpr_members {first second : List Char} {rest : List (List Char)}
    (hn : ∀ name ∈ first :: second :: rest, isName name = true) (room : Nat) :
    readExpr (room + 1) (['.'].intercalate (first :: second :: rest)) =
      .ok (chain (first :: second :: rest)) := by
  have hdotted := dotted?_append (List.cons_ne_nil _ _) hn (stops_nil _)
  rw [List.append_nil] at hdotted
  have htext : ['.'].intercalate (first :: second :: rest) =
      first ++ (['.'] ++ ['.'].intercalate (second :: rest)) := by
    rw [List.intercalate_cons_cons, List.append_assoc]
  have hstart := (startsIn_of_isName (hn first (by simp))).append
    (['.'] ++ ['.'].intercalate (second :: rest))
  rw [← htext] at hstart
  have hend : EndsIn isInk (['.'].intercalate (first :: second :: rest)) :=
    endsIn_of_all hstart.ne_nil fun c hc => isInk_of_isDottedPart (isDottedPart_of_mem hn hc)
  have hword : word? (['.'].intercalate (first :: second :: rest)) = none := by
    refine word?_eq_none fun word hw heq => ?_
    have hplain : ∀ word ∈ ["true", "false", "null", "undefined"], '.' ∉ word.toList := by decide
    exact hplain word hw (by rw [← heq, htext]; simp)
  have hcall : callParts? (['.'].intercalate (first :: second :: rest)) = none := by
    rw [callParts?, hdotted]
    rfl
  have hmembers : members? (['.'].intercalate (first :: second :: rest)) =
      some (chain (first :: second :: rest)) := by
    rw [members?, hdotted]
    simp
  have hoperation := operation?_eq_none (whole_dotted hn) fun _ => isSign_of_isDottedPart
  rw [readExpr_named hstart hend hword hoperation, readCall, hcall, hmembers]
  rfl

/-- A name of seventy parts, with one level left. -/
theorem readExpr_members_of_seventy :
    readExpr 1 (['.'].intercalate (List.replicate 70 ['a'])) =
      .ok (chain (List.replicate 70 ['a'])) := by
  have hn : ∀ name ∈ ['a'] :: ['a'] :: List.replicate 68 ['a'], isName name = true := by decide
  exact readExpr_members hn 0

/-! ### Statements -/

section Statements
variable {expr : List Char → Except Fault Expr} {d : Nat}
  (he : ∀ cs, Ensures (expr cs) fun e => e.depth ≤ d + 1)
include he

theorem depth_of_readAssignment (cs : List Char) :
    Ensures (readAssignment expr cs) fun e => ∀ a ∈ e, a.depth ≤ d + 2 := by
  unfold readAssignment
  split
  · exact ensures_ok (by simp)
  · refine (he _).bind fun e hd => ensures_ok ?_
    rintro _ ⟨⟩
    rw [Expr.depth]
    omega

omit he in
theorem depth_of_update? {cs : List Char} {e : Expr} (h : update? cs = some e) : e.depth = 1 := by
  rw [update?] at h
  split at h
  · split at h
    · cases h
      rw [Expr.depth]
    · cases h
  · obtain ⟨⟨s, r⟩, -, h⟩ := Option.bind_eq_some_iff.1 h
    obtain ⟨⟨name, r⟩, -, h⟩ := Option.bind_eq_some_iff.1 h
    dsimp only at h
    split at h
    · cases h
      rw [Expr.depth]
    · cases h

/-- **A statement of one line** keeps within the levels of its expressions and one more. -/
theorem within_of_readSimple (room : Nat) (cs : List Char) :
    Ensures (readSimple expr cs) fun s => ∀ s' ∈ s, s'.Within (d + 2) (room + 1) := by
  unfold readSimple
  split
  · refine (he _).bind fun e hd => ensures_ok ?_
    rintro _ ⟨⟩
    exact .declare (by rintro _ ⟨⟩; omega)
  · exact ensures_ok (by rintro _ ⟨⟩; exact .declare (by simp))
  split
  · refine (he _).bind fun e hd => ensures_ok ?_
    rintro _ ⟨⟩
    exact .ret (by rintro _ ⟨⟩; omega)
  · exact ensures_ok (by rintro _ ⟨⟩; exact .ret (by simp))
  split
  · next heq =>
    have := depth_of_update? heq
    exact ensures_ok (by rintro _ ⟨⟩; exact .effect (by omega))
  refine (depth_of_readAssignment he _).bind fun e hd => ?_
  split
  · exact ensures_ok (by rintro _ ⟨⟩; exact .effect (hd _ rfl))
  · refine (depth_of_readCall he _).bind fun call hcall => ensures_ok fun s hs => ?_
    obtain ⟨e, hcalled, rfl⟩ := Option.map_eq_some_iff.1 hs
    exact .effect (hcall e hcalled)

end Statements

/-- The readers of the expressions in a statement give a number of levels at most. -/
structure Readers.Within (d : Nat) (expr : Readers) : Prop where
  direct : ∀ cs, Ensures (expr.direct cs) fun e => e.depth ≤ d + 1
  nested : ∀ cs, Ensures (expr.nested cs) fun e => e.depth ≤ d + 1

theorem Readers.within_withRoom {room d : Nat} (h : room ≤ d + 1) : (withRoom room).Within d :=
  ⟨fun cs => (depth_of_readExpr _ cs).mono fun _ he => by omega,
    fun cs => (depth_of_readExpr _ cs).mono fun _ he => by omega⟩

theorem depth_of_readClause {expr : Readers} {d : Nat} (he : expr.Within d) (cs : List Char) :
    Ensures (readClause expr cs) fun e => e.depth ≤ d + 2 := by
  unfold readClause
  split
  · next heq =>
    have := depth_of_update? heq
    exact ensures_ok (by omega)
  refine (depth_of_readAssignment he.nested _).bind fun e hd => ?_
  split
  · exact ensures_ok (hd _ rfl)
  · exact (he.direct _).mono fun e hd => by omega

/-! ### Blocks -/

/-- The readers of a level give statements within a number of levels of blocks. -/
structure Level.Within (levels room : Nat) (level : Level) : Prop where
  block : ∀ lines, (level.block lines).Ensures fun body => ∀ s ∈ body, s.Within levels room
  branch : ∀ header condition lines,
    (level.branch header condition lines).Ensures fun r => r.1.Within levels room

section Inner
variable {inner : Level} {d room : Nat} (hi : inner.Within (d + 2) room)
include hi

theorem within_of_readBranch {expr : List Char → Except Fault Expr}
    (he : ∀ cs, Ensures (expr cs) fun e => e.depth ≤ d + 1) (header : Line)
    (condition : List Char) (lines : List Line) :
    (readBranch inner expr header condition lines).Ensures fun r =>
      r.1.Within (d + 2) (room + 1) := by
  unfold readBranch
  refine (Reading.ensures_lift (he _)).bind fun test ht => ?_
  replace ht : test.depth ≤ d + 2 := by omega
  refine (Reading.ensures_lift (ensures_any _)).bind ?_
  rintro ⟨block, close, rest⟩ -
  refine (hi.block _).bind fun consequent hc => ?_
  have hlone : (Statement.branch test consequent none).Within (d + 2) (room + 1) :=
    .branch ht hc (by simp)
  split
  · exact Reading.ensures_pure hlone
  split
  · refine (hi.branch _ _ _).bind fun nested hn => Reading.ensures_pure (.branch ht hc ?_)
    rintro _ ⟨⟩ s hs
    obtain rfl := List.mem_singleton.1 hs
    exact hn
  split
  · refine (Reading.ensures_lift (ensures_any _)).bind fun _ _ => ?_
    refine (hi.block _).bind fun alternate ha => Reading.ensures_pure (.branch ht hc ?_)
    rintro _ ⟨⟩
    exact ha
  · exact (Reading.ensures_notice _ _).bind fun _ _ => Reading.ensures_pure hlone

omit hi in
theorem ensures_clause {read : List Char → Reading α} (hr : ∀ cs, (read cs).Ensures p)
    (cs : List Char) : (clause read cs).Ensures fun a => ∀ a' ∈ a, p a' := by
  unfold clause
  split
  · exact Reading.ensures_pure (by simp)
  · exact (hr _).bind fun a ha => Reading.ensures_pure (by rintro _ ⟨⟩; exact ha)

theorem within_of_readLoop {expr : Readers} (he : expr.Within d) (header : Line)
    (clauses : List Char) (lines : List Line) :
    (readLoop inner expr header clauses lines).Ensures fun r =>
      ∀ s ∈ r.1, s.Within (d + 2) (room + 1) := by
  unfold readLoop
  refine (Reading.ensures_lift (ensures_any _)).bind ?_
  rintro ⟨block, close, rest⟩ -
  dsimp only
  split
  · refine (ensures_clause (fun cs => Reading.ensures_lift
      (within_of_readSimple he.nested room cs)) _).bind fun init hinit => ?_
    have hrest : ∀ test last, (do
        let test ← clause (fun cs => expr.direct cs) test
        let update ← clause (fun cs => readClause expr cs) last
        let body ← inner.block block
        return (some (Statement.loop (init.getD none) test update body), rest) :
          Reading _).Ensures fun r => ∀ s ∈ r.1, s.Within (d + 2) (room + 1) := by
      intro test last
      refine (ensures_clause (fun cs => Reading.ensures_lift (he.direct cs)) _).bind
        fun test ht => ?_
      refine (ensures_clause (fun cs => Reading.ensures_lift (depth_of_readClause he cs)) _).bind
        fun last hl => (hi.block _).bind fun body hb => Reading.ensures_pure ?_
      rintro _ ⟨⟩
      refine .loop (fun s hs => ?_) (fun e he => (ht e he).trans (by omega)) hl hb
      cases init with
      | none => cases hs
      | some s' => exact hinit s' rfl s hs
    split
    · exact (Reading.ensures_notice _ _).bind fun _ _ => hrest _ _
    · exact hrest _ _
  · exact (Reading.ensures_notice _ _).bind fun _ _ => Reading.ensures_pure (by simp)

theorem within_of_readStatement {expr : Readers} (he : expr.Within d) (l : Line)
    (lines : List Line) : (readStatement inner expr l lines).Ensures fun r =>
      ∀ s ∈ r.1, s.Within (d + 2) (room + 1) := by
  unfold readStatement
  split
  · refine (Reading.ensures_lift (ensures_any _)).bind fun _ _ => ?_
    refine (hi.block _).bind fun body hb => Reading.ensures_pure ?_
    rintro _ ⟨⟩
    exact .function hb
  split
  · refine (within_of_readBranch hi he.direct _ _ _).bind fun r hr => Reading.ensures_pure ?_
    rintro _ ⟨⟩
    exact hr
  split
  · exact within_of_readLoop hi he _ _ _
  refine (Reading.ensures_lift (within_of_readSimple he.direct room _)).bind fun s hs => ?_
  split
  · exact Reading.ensures_pure (by rintro _ ⟨⟩; exact hs _ rfl)
  · exact (Reading.ensures_notice _ _).bind fun _ _ => Reading.ensures_pure (by simp)

end Inner

theorem ensures_readAll {statement : Line → List Line → Reading (Option Statement × List Line)}
    {p : Statement → Prop} (hs : ∀ l lines, (statement l lines).Ensures fun r => ∀ s ∈ r.1, p s)
    (fuel : Nat) (lines : List Line) :
    (readAll statement fuel lines).Ensures fun body => ∀ s ∈ body, p s := by
  induction fuel generalizing lines with
  | zero => cases lines <;> exact Reading.ensures_pure (by simp)
  | succ fuel ih =>
    cases lines with
    | nil => exact Reading.ensures_pure (by simp)
    | cons l lines =>
      refine (hs _ _).bind fun r hr => (ih _).bind fun body hb => Reading.ensures_pure ?_
      intro s hs
      rcases List.mem_append.1 hs with hs | hs
      · exact hr s (by simpa using hs)
      · exact hb s hs

/-- **The readers of every level** give statements within that number of levels. -/
theorem within_levels {room d : Nat} (h : room ≤ d + 1) : (levels room).Within (d + 2) room := by
  induction room with
  | zero => exact ⟨fun _ _ => ensures_error _, fun _ _ _ _ => ensures_error _⟩
  | succ room ih =>
    have hi := ih (by omega)
    have he := Readers.within_withRoom h
    exact ⟨fun lines => ensures_readAll (within_of_readStatement hi he) _ _,
      within_of_readBranch hi he.direct⟩

/-- **The blocks of a program** nest within the limit, and so do its expressions, each with a dotted
name as one level. -/
theorem within_of_readScript (source : String) : Ensures (readScript source) fun script =>
    ∀ s ∈ script.body, s.Within (nestingLimit + 2) (nestingLimit + 1) :=
  Ensures.bind ((within_levels (d := nestingLimit) (le_refl _)).block _ []) fun _ hb =>
    ensures_ok hb

end Source

end TapeCompiler
