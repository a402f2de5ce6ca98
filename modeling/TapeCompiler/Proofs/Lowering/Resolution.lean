import TapeCompiler.Proofs.Lowering.Naming

/-! # How names are resolved

Lowering a program with a new planner is the scope rule run on its mentions, as far as there is room
(`fault_of_lower`, `fault_of_run`). So a constant is never changed (`constants_kept`), what a block
declares ends with it (`block_keeps_scopes`), a name is never used before a scope that is still open
binds it (`no_forward_references`), and at the end the symbol table has the addresses of the planner
and the kinds of the last declarations (`lower_symbols_agree`). -/

namespace TapeCompiler

variable {c : PlannerSettings} {p : Planner} {schedule : Schedule} {script : Script} {s : Session}
  {σ : Scopes}
  {before after ms : List Mention} {m : Mention} {x : String} {f : Fault}

/-- **There was no room** for a block. -/
def Fault.OutOfRoom (f : Fault) : Prop :=
  ∃ name requested memorySize, f = .outOfMemory name requested memorySize

/-! ### A whole program -/

theorem Planner.owns_new (h : Planner.new c = .ok p) : p.Owns [(rootScope, [])] := by
  have hheld := held_new h
  unfold Planner.new at h
  cases hc : c.check with
  | error f => rw [hc] at h; cases h
  | ok u =>
    rw [hc] at h
    obtain rfl := Except.ok.inj h
    exact ⟨hheld, rfl, rfl, fun x _ => rfl⟩

theorem Lowering.agrees_start (h : Planner.new c = .ok p) :
    (Lowering.start p schedule).Agrees [(rootScope, [])] where
  owns := Planner.owns_new h
  tracks := by
    constructor
    · intro x info hx
      cases hx
    · intro sc hsc x k hk
      obtain rfl := List.mem_singleton.mp hsc
      cases hk
    · intro x t hx ht
      cases ht

theorem Script.lower_follows (h : Planner.new c = .ok p) (hord : OrdinaryNames script.mentions) :
    Lowering.FollowsFrom (Lowering.start p schedule) [(rootScope, [])]
      (Lowering.statements script.body) script.mentions :=
  Lowering.follows_statements script.body hord (Lowering.agrees_start h) (by simp)

/-- **A program that is lowered** obeys the scope rule, and the session agrees with the outermost
scope. -/
theorem Script.agrees_of_lower (hp : Planner.new c = .ok p) (hord : OrdinaryNames script.mentions)
    (h : script.lower p schedule = (.ok (), s)) : ∃ declared : Scope,
      Scopes.run script.mentions [[]] = .ok [declared] ∧ s.Agrees [(rootScope, declared)] := by
  obtain ⟨o, htags, hag, hrun⟩ := (lower_follows hp hord).gives () s h
  obtain ⟨declared, rfl⟩ : ∃ declared : Scope, o = [(rootScope, declared)] := by
    obtain ⟨⟨t, declared⟩, rest, rfl⟩ := List.exists_cons_of_ne_nil hag.ne_nil
    obtain ⟨rfl, hrest⟩ := List.cons.inj htags
    exact ⟨declared, by rw [List.map_eq_nil_iff.mp hrest]⟩
  exact ⟨declared, hrun, hag⟩

/-- **A program that is not lowered** breaks the scope rule, with the same fault, or does not fit. -/
theorem Script.fault_of_lower (hp : Planner.new c = .ok p) (hord : OrdinaryNames script.mentions)
    (h : (script.lower p schedule).1 = .error f) :
    Scopes.run script.mentions [[]] = .error f ∨ f.OutOfRoom := by
  have hfail : script.lower p schedule = (.error f, (script.lower p schedule).2) := by rw [← h]
  rcases (lower_follows hp hord).fails f _ hfail with hrun | hforeign
  · exact Or.inl hrun
  · right
    have hstart : (Lowering.start p schedule).planner.Held := Planner.held_new hp
    have hflaw := (Lowering.keeps_statements Lowering.stable_true script.body hstart (by simp)).1
    cases f with
    | outOfMemory name requested memorySize => exact ⟨_, _, _, rfl⟩
    | defect d => exact absurd hfail (hflaw d _)
    | _ => cases hforeign

/-- **A program that breaks the scope rule** is not lowered: the first fault is reported, unless there
was no room before. -/
theorem Script.fault_of_run (hp : Planner.new c = .ok p) (hord : OrdinaryNames script.mentions)
    (h : Scopes.run script.mentions [[]] = .error f) :
    ∃ g, (script.lower p schedule).1 = .error g ∧ (g = f ∨ g.OutOfRoom) := by
  cases hl : (script.lower p schedule).1 with
  | ok u =>
    obtain ⟨declared, hrun, -⟩ :=
      agrees_of_lower hp hord (s := (script.lower p schedule).2) (by rw [← hl])
    rw [h] at hrun
    cases hrun
  | error g =>
    refine ⟨g, rfl, (fault_of_lower hp hord hl).imp_left fun hrun => ?_⟩
    rw [h] at hrun
    exact (Except.error.inj hrun).symm

theorem Script.fault_of_mention (hp : Planner.new c = .ok p) (hord : OrdinaryNames script.mentions)
    (hms : script.mentions = before ++ m :: after) (hrun : Scopes.run before [[]] = .ok σ)
    (hm : σ.mention m = .error f) :
    ∃ g, (script.lower p schedule).1 = .error g ∧ (g = f ∨ g.OutOfRoom) :=
  fault_of_run hp hord (Scopes.run_eq_error_iff.mpr ⟨before, m, after, σ, hms, hrun, hm⟩)

/-! ### Constants -/

/-- **A constant is never changed**: where it is assigned, stepped or declared again in its scope,
lowering fails. -/
theorem constants_kept (hp : Planner.new c = .ok p) (hord : OrdinaryNames script.mentions)
    (hms : script.mentions = before ++ m :: after) (hrun : Scopes.run before [[]] = .ok σ)
    (hm : ((m = .assign x ∨ m = .step x) ∧ σ.kind? x = some .const) ∨
      ∃ k, m = .declare k x ∧ σ.own? x = some .const) :
    ∃ g, (script.lower p schedule).1 = .error g ∧ (g = .constantReassigned x ∨ g.OutOfRoom) :=
  Script.fault_of_mention hp hord hms hrun (Scopes.mention_eq_constant_iff.mpr hm)

/-- A constant is assigned in a block of its scope. -/
theorem constants_kept_of_assigned :
    let p : Planner := ⟨{}, [], [], 0, 0, 0, [], 0, 0, heapBase, globalsBase, 0, 0, 0, [], 0⟩
    let late : Schedule := fun _ => 11
    let one : Expr := .literal (.int 1)
    let script : Script := ⟨[.declare .const "k" (some one),
      .branch one [.effect (.assign .assign "k" (.name "k"))] none], []⟩
    let before : List Mention := [.declare .const "k", .enter]
    Planner.new {} = .ok p ∧ script.mentions = before ++ .assign "k" :: [.read "k", .leave] ∧
      Scopes.run before [[]] = .ok [[], [("k", .const)]] ∧
      ∃ g, (script.lower p late).1 = .error g ∧ (g = .constantReassigned "k" ∨ g.OutOfRoom) := by
  intro p late one script before
  have hp : Planner.new {} = .ok p := by decide +kernel
  have hms : script.mentions = before ++ .assign "k" :: [.read "k", .leave] := by decide +kernel
  have hord : OrdinaryNames script.mentions := ordinaryNames_of_heads (by decide +kernel)
  have hrun : Scopes.run before [[]] = .ok [[], [("k", .const)]] := by decide +kernel
  exact ⟨hp, hms, hrun, constants_kept hp hord hms hrun (.inl ⟨.inl rfl, by decide +kernel⟩)⟩

/-! ### Blocks -/

/-- **What a block declares ends with it**: behind the block the session agrees with the scopes that
it agreed with before, so a name that was shadowed has its kind again. -/
theorem block_keeps_scopes {o : Tagged} {s t : Session} {body : List Statement} {name : String}
    (hag : s.Agrees o) (hord : OrdinaryNames (Mention.inScope (Statement.mentionsOf body)))
    (h : Lowering.Gives (Lowering.within name (Lowering.statements body)) s () t) :
    t.Agrees o ∧ ∀ x, Ordinary x → ((t.planner.visible? x).bind fun b => t.kinds.lookup (x, b.scope))
      = (s.planner.visible? x).bind fun b => s.kinds.lookup (x, b.scope) := by
  obtain ⟨o', htags, hag', hrun⟩ := (Lowering.follows_within name (Lowering.follows_statements body)
    hord hag (by simp)).gives () t h
  have hscopes : o'.scopes = o.scopes := Scopes.run_block hrun
  obtain rfl : o' = o := (List.zip_of_prod htags hscopes).trans (List.zip_of_prod rfl rfl).symm
  exact ⟨hag', fun x hx => (hag'.liveKind? hx).trans (hag.liveKind? hx).symm⟩

/-- A constant is shadowed by a variable. -/
theorem block_keeps_scopes_of_shadowed :
    let p : Planner := ⟨{}, [], [], 0, 0, 0, [], 0, 0, heapBase, globalsBase, 0, 0, 0, [], 0⟩
    let one : Expr := .literal (.int 1)
    let s := (Script.lower ⟨[.declare .const "k" (some one)], []⟩ p fun _ => 0).2
    let body : List Statement := [.declare .block "k" (some one), .effect (.update .increment "k" true)]
    ∃ t, Lowering.Gives (Lowering.within "if" (Lowering.statements body)) s () t ∧
      ((t.planner.visible? "k").bind fun b => t.kinds.lookup ("k", b.scope)) = some .const := by
  intro p one s body
  have hp : Planner.new {} = .ok p := by decide +kernel
  have hord : OrdinaryNames (Script.mentions ⟨[.declare .const "k" (some one)], []⟩) :=
    ordinaryNames_of_heads (by decide +kernel)
  have hbody : OrdinaryNames (Mention.inScope (Statement.mentionsOf body)) :=
    ordinaryNames_of_heads (by decide +kernel)
  have hs : (Script.lower ⟨[.declare .const "k" (some one)], []⟩ p fun _ => 0).1 = .ok () := by
    decide +kernel
  obtain ⟨declared, -, hag⟩ := Script.agrees_of_lower hp hord (Prod.ext hs rfl)
  let t := ((Lowering.within "if" (Lowering.statements body)).run.run s).2
  have ht : ((Lowering.within "if" (Lowering.statements body)).run.run s).1 = .ok () := by
    decide +kernel
  have hgives : Lowering.Gives (Lowering.within "if" (Lowering.statements body)) s () t :=
    Prod.ext ht rfl
  refine ⟨t, hgives, ?_⟩
  rw [(block_keeps_scopes hag hbody hgives).2 "k" (ordinary_of_head (by decide))]
  decide +kernel

/-! ### Uses -/

/-- **There are no forward references.** A use of a name that no scope still open has bound makes
lowering fail, by this name if nothing before it is at fault and there was room; and lowering fails by
the use of a name in no other case. -/
theorem no_forward_references (hp : Planner.new c = .ok p) (hord : OrdinaryNames script.mentions) :
    (∀ before m after x, script.mentions = before ++ m :: after → m.used? = some x →
      (Scopes.behind before [[]]).kind? x = none → ∃ f, (script.lower p schedule).1 = .error f ∧
        (f = .undefinedVariable x ∨ Scopes.run before [[]] = .error f ∨ f.OutOfRoom)) ∧
    ∀ x, (script.lower p schedule).1 = .error (.undefinedVariable x) →
      ∃ before m after, script.mentions = before ++ m :: after ∧ m.used? = some x ∧
        (Scopes.behind before [[]]).kind? x = none := by
  constructor
  · intro before m after x hms hused hnone
    cases hrun : Scopes.run before [[]] with
    | error f =>
      have hall : Scopes.run script.mentions [[]] = .error f := by
        rw [hms, Scopes.run_append, hrun]
        rfl
      obtain ⟨g, hg, hfault⟩ := Script.fault_of_run hp hord hall
      refine ⟨g, hg, Or.inr (hfault.imp_left fun h => ?_)⟩
      rw [h]
    | ok σ =>
      rw [Scopes.run_eq_ok hrun] at hnone
      obtain ⟨g, hg, hfault⟩ := Script.fault_of_mention hp hord hms hrun
        (Scopes.mention_eq_undefined_iff.mpr ⟨hused, hnone⟩)
      exact ⟨g, hg, hfault.imp_right Or.inr⟩
  · intro x hx
    rcases Script.fault_of_lower hp hord hx with hrun | ⟨name, requested, memorySize, h⟩
    · obtain ⟨before, m, after, σ, hms, hrun, hm⟩ := Scopes.run_eq_error_iff.mp hrun
      obtain ⟨hused, hnone⟩ := Scopes.mention_eq_undefined_iff.mp hm
      exact ⟨before, m, after, hms, hused, by rw [Scopes.run_eq_ok hrun, hnone]⟩
    · cases h

/-- A name that a block introduced is used behind the block, with a collection at every request. -/
theorem no_forward_references_of_nested :
    let p : Planner := ⟨{}, [], [], 0, 0, 0, [], 0, 0, heapBase, globalsBase, 0, 0, 0, [], 0⟩
    let late : Schedule := fun _ => 11
    let print (x : String) : Statement :=
      .effect (.call (.member (.name "console") "log") [.name x])
    let script : Script := ⟨[.declare .block "a" (some (.literal (.int 1))),
      .branch (.name "a") [.effect (.assign .assign "b" (.name "a")), print "b"] none,
      print "b"], []⟩
    let before : List Mention :=
      [.declare .block "a", .read "a", .enter, .assign "b", .read "a", .read "b", .leave]
    Planner.new {} = .ok p ∧ script.mentions = before ++ [.read "b"] ∧
      Scopes.run before [[]] = .ok [[("a", .block)]] ∧
      (∃ f, (script.lower p late).1 = .error f ∧
        (f = .undefinedVariable "b" ∨ Scopes.run before [[]] = .error f ∨ f.OutOfRoom)) ∧
      (script.lower p late).1 = .error (.undefinedVariable "b") := by
  intro p late print script before
  have hp : Planner.new {} = .ok p := by decide +kernel
  have hms : script.mentions = before ++ [.read "b"] := by decide +kernel
  have hord : OrdinaryNames script.mentions := ordinaryNames_of_heads (by decide +kernel)
  exact ⟨hp, hms, by decide +kernel,
    (no_forward_references hp hord).1 before (.read "b") [] "b" hms rfl (by decide +kernel),
    by decide +kernel⟩

/-- A name is bound **from its declaration on**, also in its own value: `let x = x` is lowered, though
no declaration of `x` is complete where it is read. An earlier fault comes first, of a constant or of
the memory; the object of a member and a callee are not read, and the arguments of a computed callee
are skipped; a variable named as a temporary is taken for it. -/
theorem own_value_is_no_forward_reference :
    let p (size : Nat) : Planner :=
      ⟨{ memorySize := size }, [], [], 0, 0, 0, [], 0, 0, heapBase, globalsBase, 0, 0, 0, [], 0⟩
    let lower (size : Nat) (l : List Statement) : Except Fault Unit :=
      (Script.lower ⟨l, []⟩ (p size) fun _ => 0).1
    let one : Expr := .literal (.int 1)
    let print (e : Expr) : Statement := .effect (.call (.member (.name "console") "log") [e])
    Planner.new { memorySize := 100 } = .ok (p 100) ∧ Planner.new { memorySize := 1 } = .ok (p 1) ∧
      Scopes.run [.read "x", .declare .block "x"] [[]] = .error (.undefinedVariable "x") ∧
      lower 100 [.declare .block "x" (some (.name "x"))] = .ok () ∧
      lower 100 [.declare .const "k" (some one), .effect (.assign .assign "k" one),
        print (.name "x")] = .error (.constantReassigned "k") ∧
      lower 1 [.declare .block "a" (some one), .declare .block "b" (some one), print (.name "x")] =
        .error (.outOfMemory "b" 1 1) ∧
      lower 100 [print (.member (.name "x") "length"), .effect (.call (.name "f") [])] = .ok () ∧
      lower 100 [.effect (.call (.call (.name "f") []) [.name "x"])] = .ok () ∧
      lower 100 [.declare .block "__tmp_0" (some one), .branch one
        [print (.binary .add one one), .effect (.assign .add "__tmp_0" one)] none] =
          .error (.undefinedVariable "__tmp_0") := by
  decide +kernel

/-! ### Symbols -/

theorem Planner.Owns.outermost {declared : Scope} (h : p.Owns [(rootScope, declared)])
    (hx : Ordinary x) {b : Block} (hb : p.visible? x = some b) :
    b.scope = rootScope ∧ (declared.lookup x).isSome ∧ p.owned x = [(rootScope, b.address)] := by
  have hscope := h.scope_of_visible hx
  rw [hb, Tagged.owners_cons] at hscope
  split_ifs at hscope with hdeclared
  · have hroot : b.scope = rootScope := Option.some.inj hscope
    refine ⟨hroot, hdeclared, ?_⟩
    have howned := h.owners x hx
    rw [Tagged.owners_cons, if_pos hdeclared] at howned
    obtain ⟨⟨t, a⟩, hone⟩ : ∃ y, p.owned x = [y] := by
      have hlength := congrArg List.length howned
      rw [List.length_reverse, List.length_map] at hlength
      exact List.length_eq_one_iff.mp hlength
    have hmem := h.held.sound.indexed.mem_owned hb
    rw [hone, List.mem_singleton, hroot] at hmem
    rw [hone, hmem]
  · cases hscope

/-- **The symbol table agrees with the planner** when a program was lowered: the outermost scope is
the only one open, no moves are pending, and a name that has a block has its address and the kind of
its last declaration. -/
theorem lower_symbols_agree (hp : Planner.new c = .ok p) (hord : OrdinaryNames script.mentions)
    (h : script.lower p schedule = (.ok (), s)) :
    s.planner.frames = [] ∧ s.planner.scope = rootScope ∧ s.planner.moves = [] ∧
      ∃ declared : Scope, Scopes.run script.mentions [[]] = .ok [declared] ∧
        ∀ x info, s.program.bindings.find? x = some info →
          (∃ b ∈ s.planner.blocks, b.name = x ∧ b.active = true) →
            ∃ b, s.planner.visible? x = some b ∧ b.scope = rootScope ∧
              s.planner.address? x = some info.address ∧ declared.lookup x = some info.kind := by
  obtain ⟨declared, hrun, hag⟩ := Script.agrees_of_lower hp hord h
  have hframes : s.planner.frames = [] := by
    have htags := congrArg List.length hag.owns.tags
    simpa [Tagged.tags, Planner.openScopes] using htags
  refine ⟨hframes, hag.owns.scope, hag.owns.settled, declared, hrun, fun x info hx hactive => ?_⟩
  have hord := hag.tracks.ordinary x info hx
  obtain ⟨b, hb⟩ : ∃ b, s.planner.visible? x = some b := by
    obtain ⟨b, hb, rfl, hactive⟩ := hactive
    rw [hag.owns.held.sound.exists_visible_iff]
    exact List.ne_nil_of_mem ((hag.owns.held.sound.indexed.mem _ b.id).mpr ⟨b, hb, rfl, hactive, rfl⟩)
  obtain ⟨hroot, hdeclared, howned⟩ := hag.owns.outermost hord hb
  have hhead : (Tagged.owners [(rootScope, declared)] x).head? = some rootScope := by
    rw [Tagged.owners_cons, if_pos hdeclared]
    rfl
  obtain ⟨info', hx', hmem, hkind⟩ := hag.tracks.bound x rootScope hord hhead
  obtain rfl := Option.some.inj (hx.symm.trans hx')
  obtain ⟨k, hk⟩ := Option.isSome_iff_exists.mp hdeclared
  have hdeclaredKind := hag.tracks.kinds _ (List.mem_singleton_self _) x k hk
  rw [howned, List.mem_singleton] at hmem
  refine ⟨b, hb, hroot, ?_, ?_⟩
  · rw [Planner.address?, hb, (Prod.mk.inj hmem).2]
    rfl
  · rw [hk, ← hdeclaredKind, hkind]

/-- The third request comes late, and its collection moves `a` into the cells of a block that was
closed; an inner `a` shadows it and grows, and in the end it is declared again. -/
theorem lower_symbols_agree_of_shadowed :
    let c : PlannerSettings := { memorySize := 100 }
    let late : Schedule := fun n => if n = 2 then 11 else 0
    let p : Planner := ⟨c, [], [], 0, 0, 0, [], 0, 0, heapBase, globalsBase, 0, 0, 0, [], 0⟩
    let one : Expr := .literal (.int 1)
    let text (t : String) : Expr := .literal (.str t)
    let script : Script := ⟨[.branch one [.declare .block "t" (some (text "forty"))] none,
      .declare .block "a" (some one), .declare .const "b" (some one),
      .branch (.name "a") [.declare .block "a" (some (text "x")),
        .effect (.assign .assign "a" (text "yz"))] none,
      .declare .var "a" none], []⟩
    let s := (script.lower p late).2
    Planner.new c = .ok p ∧ script.lower p late = (.ok (), s) ∧ s.planner.collections = 1 ∧
      s.planner.frames = [] ∧ s.planner.scope = rootScope ∧ s.planner.moves = [] ∧
      ∃ declared : Scope, Scopes.run script.mentions [[]] = .ok [declared] ∧
        ∀ x info, s.program.bindings.find? x = some info →
          (∃ b ∈ s.planner.blocks, b.name = x ∧ b.active = true) →
            ∃ b, s.planner.visible? x = some b ∧ b.scope = rootScope ∧
              s.planner.address? x = some info.address ∧ declared.lookup x = some info.kind := by
  intro c late p one text script s
  have hp : Planner.new c = .ok p := by decide +kernel
  have hord : OrdinaryNames script.mentions := ordinaryNames_of_heads (by decide +kernel)
  have hok : (script.lower p late).1 = .ok () := by decide +kernel
  have hcollections : s.planner.collections = 1 := by decide +kernel
  have hlower : script.lower p late = (.ok (), s) := Prod.ext hok rfl
  exact ⟨hp, hlower, hcollections, lower_symbols_agree hp hord hlower⟩

end TapeCompiler
