import TapeCompiler.Lowering.Statement
import TapeCompiler.Proofs.Lowering.Temporaries

/-! # The scope rule

What a program says about names, apart from memory and code. `Statement.mentions` lists what a
program tree does with names and scopes, in the order in which it is lowered, and `Scopes.run` goes
through the list with the open scopes and the kinds of the names that they bind: a constant is not
assigned, stepped or declared again in its scope, and a name is read or stepped only where a scope
that is still open binds it.

A name counts as bound from its declaration on, before its value is lowered. A declared function
takes the place of any binding of its name in the scope, also of a constant. What a block binds ends
with it (`run_block`). -/

namespace TapeCompiler

/-! ### Mentions -/

/-- Something that a program does **with a name** or with its scopes. -/
inductive Mention
  | enter
  | leave
  | declare (kind : DeclKind) (name : String)
  | function (name : String)
  /-- A plain assignment; it declares a name without a binding. -/
  | assign (name : String)
  /-- A step or a compound assignment. -/
  | step (name : String)
  | read (name : String)
  deriving DecidableEq, Repr

namespace Mention

/-- The name mentioned. -/
def name? : Mention → Option String
  | enter | leave => none
  | declare _ x | function x | assign x | step x | read x => some x

/-- The name whose value is used. -/
def used? : Mention → Option String
  | step x | read x => some x
  | _ => none

/-- The mention opens and closes no scope. -/
def Straight (m : Mention) : Prop := m ≠ enter ∧ m ≠ leave

end Mention

/-- A name that **no temporary has**. -/
def Ordinary (x : String) : Prop := ∀ n, x ≠ Lowering.temporaryName n

/-- The names mentioned are ordinary. -/
def OrdinaryNames (ms : List Mention) : Prop := ∀ m ∈ ms, ∀ x ∈ m.name?, Ordinary x

theorem ordinary_of_head {x : String} (h : x.toList.head? ≠ some '_') : Ordinary x := by
  rintro n rfl
  rw [Lowering.temporaryName, String.toList_append] at h
  exact h rfl

theorem ordinaryNames_of_heads {ms : List Mention}
    (h : ∀ m ∈ ms, ∀ x ∈ m.name?, x.toList.head? ≠ some '_') : OrdinaryNames ms :=
  fun m hm x hx => ordinary_of_head (h m hm x hx)

theorem ordinaryNames_append {ms ms' : List Mention} :
    OrdinaryNames (ms ++ ms') ↔ OrdinaryNames ms ∧ OrdinaryNames ms' := List.forall_mem_append

theorem ordinaryNames_cons {m : Mention} {ms : List Mention} :
    OrdinaryNames (m :: ms) ↔ (∀ x ∈ m.name?, Ordinary x) ∧ OrdinaryNames ms :=
  List.forall_mem_cons

mutual
/-- What an expression does with names. A member is no read of its object, and the arguments of a
call without a name are skipped. -/
def Expr.mentions : Expr → List Mention
  | .literal _ | .member .. => []
  | .name x => [.read x]
  | .binary _ l r | .logical _ l r => l.mentions ++ r.mentions
  | .call callee args => if callee.qualifiedName?.isSome then mentionsOf args else []
  | .array es => mentionsOf es
  | .assign o x value => (if o = .assign then .assign x else .step x) :: value.mentions
  | .update _ x _ => [.step x]

/-- What expressions do with names, in order. -/
def Expr.mentionsOf : List Expr → List Mention
  | [] => []
  | e :: es => e.mentions ++ mentionsOf es
end

/-- What an expression that may be absent does with names. -/
def Expr.mentionsOf? : Option Expr → List Mention
  | none => []
  | some e => e.mentions

/-- The mentions of a block, in a scope of their own. -/
def Mention.inScope (ms : List Mention) : List Mention := .enter :: (ms ++ [.leave])

mutual
/-- What a statement does with names; the body of a function is **not looked at**. -/
def Statement.mentions : Statement → List Mention
  | .declare kind x init => .declare kind x :: Expr.mentionsOf? init
  | .function x _ _ => [.function x]
  | .branch test yes no => test.mentions ++ (Mention.inScope (mentionsOf yes) ++ mentionsOfElse no)
  | .loop init test last body =>
    Mention.inScope (mentionsOfInit init ++ (Expr.mentionsOf? test ++
      (Mention.inScope (mentionsOf body) ++ Expr.mentionsOf? last)))
  | .ret argument => Expr.mentionsOf? argument
  | .effect e => e.mentions

/-- What statements do with names, in order. -/
def Statement.mentionsOf : List Statement → List Mention
  | [] => []
  | s :: rest => s.mentions ++ mentionsOf rest

/-- What the block behind an else does with names, if there is one. -/
def Statement.mentionsOfElse : Option (List Statement) → List Mention
  | none => []
  | some body => Mention.inScope (mentionsOf body)

/-- What the first clause of a loop does with names, if there is one. -/
def Statement.mentionsOfInit : Option Statement → List Mention
  | none => []
  | some s => s.mentions
end

theorem ordinaryNames_inScope {ms : List Mention} :
    OrdinaryNames (Mention.inScope ms) ↔ OrdinaryNames ms := by
  have hnone : ∀ m ∈ [Mention.leave], ∀ x ∈ m.name?, Ordinary x := by simp [Mention.name?]
  rw [Mention.inScope, ordinaryNames_cons, ordinaryNames_append]
  exact ⟨fun h => h.2.1, fun h => ⟨by simp [Mention.name?], h, hnone⟩⟩

/-- What a program does with names. -/
def Script.mentions (s : Script) : List Mention := Statement.mentionsOf s.body

/-! ### Scopes -/

/-- The names that a scope binds, the **last declaration first**. -/
abbrev Scope := List (String × DeclKind)

/-- The open scopes, **innermost first**. -/
abbrev Scopes := List Scope

namespace Scopes

variable {σ τ : Scopes} {x y : String} {k : DeclKind} {m : Mention} {ms ms' : List Mention}
  {f : Fault}

/-- The kind of the innermost binding of a name. -/
def kind? (σ : Scopes) (x : String) : Option DeclKind := σ.findSome? fun sc => sc.lookup x

/-- The kind of a name in the innermost scope. -/
def own? (σ : Scopes) (x : String) : Option DeclKind := σ.head?.bind fun sc => sc.lookup x

/-- The scopes with a name bound in the innermost. -/
def bind (σ : Scopes) (x : String) (k : DeclKind) : Scopes :=
  match σ with
  | [] => []
  | sc :: rest => ((x, k) :: sc) :: rest

/-- **The scope rule** for one mention. -/
def mention (σ : Scopes) : Mention → Except Fault Scopes
  | .enter => .ok ([] :: σ)
  | .leave => .ok σ.tail
  | .declare k x =>
    if σ.own? x = some .const then .error (.constantReassigned x) else .ok (σ.bind x k)
  | .function x => .ok (σ.bind x .function)
  | .assign x =>
    match σ.kind? x with
    | none => .ok (σ.bind x .var)
    | some .const => .error (.constantReassigned x)
    | some _ => .ok σ
  | .step x =>
    match σ.kind? x with
    | none => .error (.undefinedVariable x)
    | some .const => .error (.constantReassigned x)
    | some _ => .ok σ
  | .read x => if (σ.kind? x).isSome then .ok σ else .error (.undefinedVariable x)

/-- The scopes after some mentions, or the **first fault**. -/
def run : List Mention → Scopes → Except Fault Scopes
  | [], σ => .ok σ
  | m :: ms, σ => (σ.mention m).bind (run ms)

/-- The scopes with what one mention binds, opens or closes, **whatever the rule says of it**. -/
def past (σ : Scopes) : Mention → Scopes
  | .enter => [] :: σ
  | .leave => σ.tail
  | .declare k x => σ.bind x k
  | .function x => σ.bind x .function
  | .assign x => if (σ.kind? x).isSome then σ else σ.bind x .var
  | .step _ | .read _ => σ

/-- The scopes behind some mentions. -/
def behind (ms : List Mention) (σ : Scopes) : Scopes := ms.foldl past σ

/-! ### Runs -/

@[simp] theorem run_nil (σ : Scopes) : run [] σ = .ok σ := rfl

@[simp] theorem run_cons (m : Mention) (ms : List Mention) (σ : Scopes) :
    run (m :: ms) σ = (σ.mention m).bind (run ms) := rfl

theorem run_append (ms ms' : List Mention) (σ : Scopes) :
    run (ms ++ ms') σ = (run ms σ).bind (run ms') := by
  induction ms generalizing σ with
  | nil => rfl
  | cons m ms ih =>
    rw [List.cons_append, run_cons, run_cons]
    cases σ.mention m with
    | error f => rfl
    | ok τ => exact ih τ

theorem run_append_eq_ok : run (ms ++ ms') σ = .ok τ ↔
    ∃ ρ, run ms σ = .ok ρ ∧ run ms' ρ = .ok τ := by
  rw [run_append]
  cases run ms σ <;> simp [Except.bind]

theorem run_cons_eq_ok : run (m :: ms) σ = .ok τ ↔
    ∃ ρ, σ.mention m = .ok ρ ∧ run ms ρ = .ok τ := by
  rw [run_cons]
  cases σ.mention m <;> simp [Except.bind]

/-- **A run fails** at the first mention that breaks the rule. -/
theorem run_eq_error_iff : run ms σ = .error f ↔ ∃ before m after τ,
    ms = before ++ m :: after ∧ run before σ = .ok τ ∧ τ.mention m = .error f := by
  constructor
  · intro h
    induction ms generalizing σ with
    | nil => cases h
    | cons m ms ih =>
      rw [run_cons] at h
      cases hm : σ.mention m with
      | error g =>
        rw [hm] at h
        cases h
        exact ⟨[], m, ms, σ, rfl, rfl, hm⟩
      | ok ρ =>
        rw [hm] at h
        obtain ⟨before, m', after, τ, rfl, hrun, hm'⟩ := ih h
        exact ⟨m :: before, m', after, τ, rfl, run_cons_eq_ok.mpr ⟨ρ, hm, hrun⟩, hm'⟩
  · rintro ⟨before, m, after, τ, rfl, hrun, hm⟩
    rw [run_append, hrun]
    show run (m :: after) τ = _
    rw [run_cons, hm]
    rfl

theorem mention_eq_ok (h : σ.mention m = .ok τ) : σ.past m = τ := by
  cases m with
  | enter | leave | function y => cases h; rfl
  | declare k y =>
    rw [mention] at h
    split_ifs at h
    cases h
    rfl
  | assign y =>
    rw [mention] at h
    rw [past]
    split at h <;> cases h <;> simp_all
  | step y =>
    rw [mention] at h
    split at h <;> cases h
    rfl
  | read y =>
    rw [mention] at h
    split_ifs at h
    cases h
    rfl

theorem mention_straight (hm : m.Straight) (h : σ.mention m = .ok τ) :
    τ = σ ∨ ∃ x k, τ = σ.bind x k := by
  rw [← mention_eq_ok h]
  cases m with
  | enter => exact absurd rfl hm.1
  | leave => exact absurd rfl hm.2
  | declare k x => exact Or.inr ⟨x, k, rfl⟩
  | function x => exact Or.inr ⟨x, .function, rfl⟩
  | assign x =>
    rw [past]
    split_ifs
    · exact Or.inl rfl
    · exact Or.inr ⟨x, .var, rfl⟩
  | step x | read x => exact Or.inl rfl

theorem run_eq_ok (h : run ms σ = .ok τ) : behind ms σ = τ := by
  induction ms generalizing σ with
  | nil => cases h; rfl
  | cons m ms ih =>
    obtain ⟨ρ, hm, h⟩ := run_cons_eq_ok.mp h
    rw [behind, List.foldl_cons, mention_eq_ok hm]
    exact ih h

/-- **A constant is reassigned** where it is assigned, stepped or declared again in its scope. -/
theorem mention_eq_constant_iff : σ.mention m = .error (.constantReassigned x) ↔
    ((m = .assign x ∨ m = .step x) ∧ σ.kind? x = some .const) ∨
      ∃ k, m = .declare k x ∧ σ.own? x = some .const := by
  constructor
  · intro h
    cases m with
    | enter | leave | function y => cases h
    | declare k y =>
      rw [mention] at h
      split_ifs at h with hown
      cases h
      exact Or.inr ⟨k, rfl, hown⟩
    | assign y =>
      rw [mention] at h
      split at h <;> cases h
      next hkind => exact Or.inl ⟨Or.inl rfl, hkind⟩
    | step y =>
      rw [mention] at h
      split at h <;> cases h
      next hkind => exact Or.inl ⟨Or.inr rfl, hkind⟩
    | read y =>
      rw [mention] at h
      split_ifs at h
      cases h
  · rintro (⟨rfl | rfl, hkind⟩ | ⟨k, rfl, hown⟩)
    · rw [mention, hkind]
    · rw [mention, hkind]
    · rw [mention, if_pos hown]

/-- **A use of a name is undefined** where no open scope binds it, and no other mention is. -/
theorem mention_eq_undefined_iff :
    σ.mention m = .error (.undefinedVariable x) ↔ m.used? = some x ∧ σ.kind? x = none := by
  cases m with
  | enter | leave | function y => simp [mention, Mention.used?]
  | declare k y =>
    simp only [mention, Mention.used?]
    split_ifs <;> simp
  | assign y =>
    simp only [mention, Mention.used?]
    split <;> simp
  | step y =>
    simp only [mention, Mention.used?, Option.some.injEq]
    cases hk : σ.kind? y with
    | none => simpa using fun hyx : y = x => hyx ▸ hk
    | some k =>
      have hne : ¬ (y = x ∧ σ.kind? x = none) := by
        rintro ⟨rfl, hnone⟩
        simp [hk] at hnone
      cases k <;> simpa using hne
  | read y =>
    simp only [mention, Mention.used?, Option.some.injEq]
    split_ifs with h
    · simpa using fun hyx : y = x => by rw [← hyx]; exact Option.isSome_iff_ne_none.mp h
    · simpa using fun hyx : y = x => hyx ▸ Option.not_isSome_iff_eq_none.mp h

/-! ### Bindings -/

theorem kind?_cons (sc : Scope) (σ : Scopes) (x : String) :
    kind? (sc :: σ) x = (sc.lookup x).or (kind? σ x) := by
  unfold kind?
  rw [List.findSome?_cons]
  cases sc.lookup x <;> rfl

theorem mention_assign_of_none (h : σ.kind? x = none) :
    σ.mention (.assign x) = σ.mention (.declare .var x) := by
  have hown : σ.own? x = none := by
    cases σ with
    | nil => rfl
    | cons sc σ =>
      rw [kind?_cons, Option.or_eq_none_iff] at h
      exact h.1
  rw [mention, mention, h, hown, if_neg (by simp)]

theorem mention_of_kind (h : σ.kind? x = some k) (hk : k ≠ .const) :
    σ.mention (.assign x) = .ok σ ∧ σ.mention (.step x) = .ok σ := by
  rw [mention, mention, h]
  cases k <;> simp at hk ⊢

theorem run_read_step (x : String) (σ : Scopes) : run [.read x, .step x] σ = run [.step x] σ := by
  rw [run_cons, run_cons, mention, mention]
  cases hk : σ.kind? x with
  | none => rfl
  | some k =>
    rw [if_pos (by rfl)]
    show (mention σ (.step x)).bind _ = _
    rw [mention, hk]

theorem isSome_kind?_bind (h : (σ.kind? x).isSome) : ((σ.bind y k).kind? x).isSome := by
  cases σ with
  | nil => exact h
  | cons sc σ =>
    rw [kind?_cons, Option.isSome_or, Bool.or_eq_true] at h
    rw [bind, kind?_cons, List.lookup_cons, Option.isSome_or, Bool.or_eq_true]
    cases x == y
    · exact h
    · exact Or.inl rfl

theorem isSome_kind?_assigned (hσ : σ ≠ []) (hm : m = .assign x ∨ m = .step x)
    (h : σ.mention m = .ok τ) : (τ.kind? x).isSome := by
  obtain ⟨sc, rest, rfl⟩ := List.exists_cons_of_ne_nil hσ
  cases hk : kind? (sc :: rest) x with
  | none =>
    rcases hm with rfl | rfl <;> rw [mention, hk] at h <;> cases h
    rw [bind, kind?_cons, List.lookup_cons_self]
    rfl
  | some k =>
    suffices τ = sc :: rest by rw [this, hk]; rfl
    rcases hm with rfl | rfl <;> rw [mention, hk] at h <;> cases k <;> cases h <;> rfl

/-- **A bound name stays bound** while no scope is opened or closed. -/
theorem isSome_kind?_run (hms : ∀ m ∈ ms, m.Straight) (h : (σ.kind? x).isSome)
    (hr : run ms σ = .ok τ) : (τ.kind? x).isSome := by
  induction ms generalizing σ with
  | nil => cases hr; exact h
  | cons m ms ih =>
    obtain ⟨ρ, hm, hr⟩ := run_cons_eq_ok.mp hr
    refine ih (fun m' hm' => hms m' (by simp [hm'])) ?_ hr
    rcases mention_straight (hms m (by simp)) hm with rfl | ⟨y, k, rfl⟩
    · exact h
    · exact isSome_kind?_bind h

end Scopes

mutual
theorem Expr.straight_mentions : ∀ e : Expr, ∀ m ∈ e.mentions, m.Straight
  | .literal _ | .member .. => by simp [mentions]
  | .name x | .update _ x _ => by simp [mentions, Mention.Straight]
  | .binary _ l r | .logical _ l r => by
    rw [mentions]
    exact List.forall_mem_append.mpr ⟨straight_mentions l, straight_mentions r⟩
  | .call callee args => by
    rw [mentions]
    split_ifs
    · exact straight_mentionsOf args
    · simp
  | .array es => by
    rw [mentions]
    exact straight_mentionsOf es
  | .assign o x value => by
    rw [mentions]
    refine List.forall_mem_cons.mpr ⟨?_, straight_mentions value⟩
    split_ifs <;> simp [Mention.Straight]

theorem Expr.straight_mentionsOf : ∀ es : List Expr, ∀ m ∈ mentionsOf es, m.Straight
  | [] => by simp [mentionsOf]
  | e :: es => by
    rw [mentionsOf]
    exact List.forall_mem_append.mpr ⟨straight_mentions e, straight_mentionsOf es⟩
end

/-! ### Blocks -/

/-- Mentions that **reach no scope but the innermost**. -/
def Mention.Local (ms : List Mention) : Prop :=
  ∀ sc σ τ, Scopes.run ms (sc :: σ) = .ok τ → ∃ sc', τ = sc' :: σ

namespace Mention.Local

variable {ms ms' : List Mention}

theorem nil : Mention.Local [] := fun sc σ τ h => ⟨sc, by cases h; rfl⟩

theorem append (h : Mention.Local ms) (h' : Mention.Local ms') : Mention.Local (ms ++ ms') := by
  intro sc σ τ hr
  obtain ⟨ρ, hr, hr'⟩ := Scopes.run_append_eq_ok.mp hr
  obtain ⟨sc', rfl⟩ := h sc σ ρ hr
  exact h' sc' σ τ hr'

/-- **What a block binds ends with it**: its scope is closed and the others are as they were. -/
theorem run_inScope (h : Mention.Local ms) {σ τ : Scopes}
    (hr : Scopes.run (Mention.inScope ms) σ = .ok τ) : τ = σ := by
  obtain ⟨ρ, hm, hr⟩ := Scopes.run_cons_eq_ok.mp hr
  cases hm
  obtain ⟨ρ, hr, hm⟩ := Scopes.run_append_eq_ok.mp hr
  obtain ⟨sc', rfl⟩ := h [] σ ρ hr
  cases hm
  rfl

theorem inScope (h : Mention.Local ms) : Mention.Local (Mention.inScope ms) := fun sc _ _ hr =>
  ⟨sc, h.run_inScope hr⟩

theorem straight (h : ∀ m ∈ ms, m.Straight) : Mention.Local ms := by
  induction ms with
  | nil => exact nil
  | cons m ms ih =>
    intro sc σ τ hr
    obtain ⟨ρ, hm, hr⟩ := Scopes.run_cons_eq_ok.mp hr
    obtain ⟨sc', rfl⟩ : ∃ sc', ρ = sc' :: σ := by
      rcases Scopes.mention_straight (h m (by simp)) hm with rfl | ⟨x, k, rfl⟩
      · exact ⟨sc, rfl⟩
      · exact ⟨(x, k) :: sc, rfl⟩
    exact ih (fun m' hm' => h m' (by simp [hm'])) sc' σ τ hr

end Mention.Local

theorem Expr.local_mentionsOf? (e : Option Expr) : Mention.Local (mentionsOf? e) := by
  cases e with
  | none => exact .nil
  | some e => exact .straight e.straight_mentions

mutual
theorem Statement.local_mentions : ∀ s : Statement, Mention.Local s.mentions
  | .declare kind x init => by
    rw [mentions]
    have hx : Mention.Local [.declare kind x] := .straight (by simp [Mention.Straight])
    exact hx.append (Expr.local_mentionsOf? init)
  | .function x _ _ => by
    rw [mentions]
    exact .straight (by simp [Mention.Straight])
  | .branch test yes no => by
    rw [mentions]
    exact (Mention.Local.straight test.straight_mentions).append
      ((local_mentionsOf yes).inScope.append (local_mentionsOfElse no))
  | .loop init test last body => by
    rw [mentions]
    exact ((local_mentionsOfInit init).append ((Expr.local_mentionsOf? test).append
      ((local_mentionsOf body).inScope.append (Expr.local_mentionsOf? last)))).inScope
  | .ret argument => by
    rw [mentions]
    exact Expr.local_mentionsOf? argument
  | .effect e => by
    rw [mentions]
    exact .straight e.straight_mentions

theorem Statement.local_mentionsOf : ∀ l : List Statement, Mention.Local (mentionsOf l)
  | [] => by
    rw [mentionsOf]
    exact .nil
  | s :: rest => by
    rw [mentionsOf]
    exact (local_mentions s).append (local_mentionsOf rest)

theorem Statement.local_mentionsOfElse :
    ∀ o : Option (List Statement), Mention.Local (mentionsOfElse o)
  | none => by
    rw [mentionsOfElse]
    exact .nil
  | some body => by
    rw [mentionsOfElse]
    exact (local_mentionsOf body).inScope

theorem Statement.local_mentionsOfInit :
    ∀ o : Option Statement, Mention.Local (mentionsOfInit o)
  | none => by
    rw [mentionsOfInit]
    exact .nil
  | some s => by
    rw [mentionsOfInit]
    exact local_mentions s
end

/-- **What a block binds ends with it**: a name that it shadows is the outer one again. -/
theorem Scopes.run_block {body : List Statement} {σ τ : Scopes}
    (h : Scopes.run (Mention.inScope (Statement.mentionsOf body)) σ = .ok τ) : τ = σ :=
  (Statement.local_mentionsOf body).run_inScope h

end TapeCompiler
