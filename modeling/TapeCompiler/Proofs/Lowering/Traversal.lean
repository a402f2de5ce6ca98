import TapeCompiler.Proofs.Lowering.Stable

/-! # Lowering keeps what its changes keep

The traversal of the program tree, once for every relation: each part of lowering respects a stable
relation and **does not fail by a defect**, for a name whose address is asked for has a block.
Expressions are straight and respect the first relation, statements the second
(`keeps_statements`). -/

namespace TapeCompiler

namespace Lowering

variable {R₀ R : Session → Session → Prop} (h : Stable R₀ R) {name target : String}
  {known : List String}
include h

/-! ### Values and sizes -/

theorem respects_literalValue {lit : Literal} :
    Respects (Straightly R₀) known (literalValue lit) (fun _ => True) fun _ => [] := by
  unfold literalValue
  split
  case h_2 =>
    refine (keeps_warn h ?_).on h.trans₀ fun _ _ => respects_pure h trivial (by simp)
    rw [String.append_assoc, String.append_assoc]
    exact opensAs_append (by decide) _
  all_goals exact respects_pure h trivial (by simp)

theorem respects_memberValue {object : Expr} {property : String} :
    Respects (Straightly R₀) known (memberValue object property) (fun _ => True) fun _ => [] := by
  unfold memberValue
  have hnone : ∀ {known : List String} (name : String), Respects (Straightly R₀) known
      (do warn ("member expression '" ++ name ++ "' has no value; using null"); return Value.null)
      (fun _ => True) fun _ => [] := fun name => by
    refine (keeps_warn h ?_).on h.trans₀ fun _ _ => respects_pure h trivial (by simp)
    rw [String.append_assoc]
    exact opensAs_append (by decide) _
  dsimp only
  split
  · split_ifs
    · refine (respects_block? h).on h.trans₀ fun found _ => ?_
      cases found with
      | some b => exact respects_pure h trivial (by simp)
      | none => exact hnone _
    · exact hnone _
  · exact hnone _

theorem respects_sizeOf {e : Expr} :
    Respects (Straightly R₀) known (sizeOf e) (0 < ·) fun _ => [] := by
  unfold sizeOf
  have hconstant : ∀ e : Expr, 0 < (e.constant?.map Value.size).getD 1 := fun e => by
    cases e.constant? with
    | none => exact Nat.one_pos
    | some v => exact v.size_pos
  split
  · exact respects_pure h (by omega) (by simp)
  · exact respects_pure h (by omega) (by simp)
  · refine (respects_block? h).map (fun o ho => ?_) (by simp)
    cases o with
    | none => exact Nat.one_pos
    | some b => exact ho b rfl
  · exact respects_pure h (hconstant _) (by simp)
  · exact respects_pure h (hconstant _) (by simp)
  · exact respects_pure h Nat.one_pos (by simp)

/-! ### Storing -/

omit h in
theorem proper_of_no_operands {i : Instruction} (hi : i.operands = []) : i.Proper := by
  simp [Instruction.Proper, hi]

theorem keeps_clearTail {first : Nat} : Keeps (Straightly R₀) known (clearTail name first) := by
  unfold clearTail
  refine (respects_block? h).on h.trans₀ fun o _ => ?_
  cases o with
  | none => exact respects_pure h trivial (by simp)
  | some b => exact keeps_forM h (fun _ => keeps_emit h rfl (proper_of_no_operands rfl)) _

theorem keeps_copyVariable {source : String} :
    Keeps (Straightly R₀) known (copyVariable source target) := by
  unfold copyVariable
  refine (respects_block? h).on h.trans₀ fun o _ => (respects_block? h).on h.trans₀ fun o' _ => ?_
  split
  · exact keeps_forM h (fun _ => keeps_emit h rfl (proper_of_no_operands rfl)) _
  · exact respects_throw (by simp)

theorem keeps_clearBehind {m : Lowering Unit} (hm : Keeps (Straightly R₀) known m) {first : Nat} :
    Keeps (Straightly R₀) known (do m; clearTail name first) :=
  hm.on h.trans₀ fun _ _ => keeps_clearTail h

omit h in
theorem keeps_unless {c : Prop} [Decidable c] {f : Fault} {K : Lowering Unit}
    (hf : ∀ d, f ≠ .defect d) (hK : Keeps (Straightly R₀) known K) :
    Keeps (Straightly R₀) known (if c then (throw f : Lowering PUnit) >>= fun _ => K else K) := by
  split_ifs
  · intro s _ _
    refine ⟨flawless_bind (flawless_throw hf) fun a t hg => absurd hg gives_throw, fun a t hg => ?_⟩
    obtain ⟨_, _, hthrow, -⟩ := gives_bind.mp hg
    exact absurd hthrow gives_throw
  · exact hK

theorem keeps_room {c : Prop} [Decidable c] {size : Nat} {K : Nat → Lowering Unit}
    (hK : ∀ a, Keeps (Straightly R₀) (name :: known) (K a)) :
    Keeps (Straightly R₀) known
      (if c then ensureCapacity name size >>= K else allocate name size >>= K) := by
  split_ifs
  · exact (respects_ensureCapacity h).on h.trans₀ fun a _ => hK a
  · exact (respects_allocate h).on h.trans₀ fun a _ => hK a

theorem keeps_declare {kind : DeclKind} {init : Option (Expr × (String → Lowering Unit))}
    (hinit : ∀ p ∈ init, ∀ n known, n ∈ known → Keeps (Straightly R₀) known (p.2 n)) :
    Keeps (Straightly R₀) known (declare kind name init) := by
  unfold declare
  dsimp only
  refine (respects_scope h).on h.trans₀ fun scope _ => ?_
  refine (respects_block? h).on h.trans₀ fun o _ => ?_
  refine (respects_liveKind? h).on h.trans₀ fun k _ => ?_
  -- what is done once there is room
  have hbound : ∀ {known : List String} {m : Lowering Unit} {info : VariableInfo} {first : Nat},
      Keeps (Straightly R₀) known m → Keeps (Straightly R₀) known (do
        setKind name scope kind
        Lowering.bind name info
        m
        clearTail name first) := fun hm =>
    (keeps_setKind h).on h.trans₀ fun _ _ => (keeps_bindName h).on h.trans₀ fun _ _ =>
      keeps_clearBehind h hm
  apply keeps_unless (by simp)
  cases init with
  | none =>
    rw [pure_bind]
    refine keeps_room h fun a => (respects_block? h).on h.trans₀ fun o _ => hbound ?_
    exact keeps_emit h rfl (proper_of_no_operands rfl)
  | some p =>
    refine (respects_sizeOf h).on h.trans₀ fun size _ => ?_
    refine keeps_room h fun a => (respects_block? h).on h.trans₀ fun o _ => hbound ?_
    exact hinit p rfl name _ (by simp)

theorem keeps_update {step : Step} : Keeps (Straightly R₀) known (update step target) := by
  unfold update
  refine (respects_liveKind? h).on h.trans₀ fun k _ => ?_
  split
  · exact respects_throw (by simp)
  · exact respects_throw (by simp)
  · exact (respects_address h (by simp)).on h.trans₀ fun a _ =>
      keeps_emit h rfl (proper_of_no_operands rfl)

/-! ### Operators and calls -/

/-- Lowering an expression into a block of its own, for **any name that has one**. -/
def Fills (R₀ : Session → Session → Prop) (into : String → Lowering Unit) : Prop :=
  ∀ n known, n ∈ known → Keeps (Straightly R₀) known (into n)

theorem respects_operandVia {e : Expr} {into : String → Lowering Unit} (hinto : Fills R₀ into) :
    Respects (Straightly R₀) known (operandVia e into) Slot.Proper Slot.names := by
  unfold operandVia
  split
  · exact (respects_literalValue h).map (fun _ _ => trivial) (by simp [Slot.names])
  · exact (respects_readVariable h).map (fun _ hn => hn) (by simp [Slot.names])
  · exact (respects_memberValue h).map (fun _ _ => trivial) (by simp [Slot.names])
  · refine (respects_sizeOf h).on h.trans₀ fun len hlen => ?_
    refine (respects_temporary h).on h.trans₀ fun tmp _ => ?_
    refine (hinto tmp _ (by simp)).on h.trans₀ fun _ _ => respects_pure h hlen ?_
    simp [Slot.names]

theorem keeps_operator {o : Operator} {left right : Lowering Slot} (ht : target ∈ known)
    (hl : Respects (Straightly R₀) known left Slot.Proper Slot.names)
    (hr : ∀ known, Respects (Straightly R₀) known right Slot.Proper Slot.names) :
    Keeps (Straightly R₀) known (operator o left right target) := by
  unfold operator
  refine hl.on h.trans₀ fun l hl => (hr _).on h.trans₀ fun r hr => ?_
  refine (respects_resolve h hl fun n hn => by simp [hn]).on h.trans₀ fun x hx => ?_
  refine (respects_resolve h hr fun n hn => by simp [hn]).on h.trans₀ fun y hy => ?_
  exact (respects_address h (by simp [ht])).on h.trans₀ fun a _ => keeps_emit h rfl (by
    simpa [Instruction.Proper, Instruction.operands] using ⟨hx, hy⟩)

theorem keeps_assign {o : AssignOp} {value : Expr} {into : String → Lowering Unit}
    (hinto : Fills R₀ into) : Keeps (Straightly R₀) known (assign o target value into) := by
  unfold assign
  dsimp only
  refine (respects_liveKind? h).on h.trans₀ fun k _ => ?_
  split
  · apply keeps_unless (by simp)
    have hwarn : OpensAs openings
        ("assignment to undeclared variable '" ++ target ++ "' declares it") := by
      rw [String.append_assoc]
      exact opensAs_append (by decide) _
    exact (keeps_warn h hwarn).on h.trans₀ fun _ _ => keeps_declare h fun p hp n known hn => by
      cases hp
      exact hinto n known hn
  · exact respects_throw (by simp)
  · split
    · refine (respects_sizeOf h).on h.trans₀ fun size _ => ?_
      refine (respects_ensureCapacity h).on h.trans₀ fun a _ => ?_
      refine (respects_block? h).on h.trans₀ fun o _ => ?_
      refine (keeps_symbols h fun s => (s.program.bindings.modify target fun v =>
        { v with address := a, size := (o.map Block.size).getD size }, s.program.shadowed)).on
          h.trans₀ fun _ _ => ?_
      exact keeps_clearBehind h (hinto target _ (by simp))
    · refine (respects_address h (by simp)).on h.trans₀ fun a _ => ?_
      split
      · exact keeps_emit h rfl (proper_of_no_operands rfl)
      · exact keeps_emit h rfl (proper_of_no_operands rfl)
      · exact keeps_operator h (by simp) (respects_pure h Nat.one_pos (by simp [Slot.names]))
          fun _ => respects_operandVia h hinto

theorem respects_receiver? {callee : Expr} :
    Respects (Straightly R₀) known (receiver? callee) (fun _ => True)
      fun r => (r.map Prod.fst).toList := by
  unfold receiver?
  split
  · next object method =>
    refine (respects_block? h).map (fun _ _ => trivial) fun o n hn => ?_
    cases o with
    | none => simp at hn
    | some b => simpa using hn
  · exact respects_pure h trivial (by simp)

theorem keeps_call {callee : Expr} {arguments : Lowering (List Slot)} {into : Option String}
    (ht : ∀ t ∈ into, t ∈ known)
    (ha : Respects (Straightly R₀) known arguments (fun l => ∀ x ∈ l, x.Proper)
      fun l => l.flatMap Slot.names) :
    Keeps (Straightly R₀) known (call callee arguments into) := by
  unfold call
  split
  · exact keeps_warn h ⟨"call on a computed callee", by decide, by decide⟩
  · next called _ =>
    refine ha.on h.trans₀ fun slots hslots => ?_
    refine (respects_mapM h fun x hx => respects_resolve h (hslots x hx) fun n hn =>
      List.mem_append_left _ (List.mem_flatMap.mpr ⟨x, hx, hn⟩)).on h.trans₀ fun args hargs => ?_
    split_ifs
    · refine (keeps_emit h (i := .print args) rfl hargs).on h.trans₀ fun _ _ => ?_
      split
      · next t =>
        exact (respects_address h (by simp [ht t rfl])).on h.trans₀ fun a _ =>
          keeps_emit h rfl (proper_of_no_operands rfl)
      · exact respects_pure h trivial (by simp)
    · have hcell : Respects (Straightly R₀) ([] ++ (slots.flatMap Slot.names ++ known))
          (into.mapM address) (fun _ => True) fun _ => [] := by
        cases into with
        | none => exact respects_pure h trivial (by simp)
        | some t =>
          exact (respects_address h (by simp [ht t rfl])).map (fun _ _ => trivial) (by simp)
      refine hcell.on h.trans₀ fun cell _ => ?_
      refine (respects_receiver? h).on h.trans₀ fun r _ => ?_
      split
      · exact (respects_address h (by simp)).on h.trans₀ fun a _ => keeps_emit h rfl hargs
      · exact keeps_emit h rfl hargs

/-! ### Expressions -/

mutual
/-- **Expressions** into the block of a name that has one. -/
theorem fills_into : ∀ e : Expr, Fills R₀ (into e)
  | .literal lit, target, known, ht => by
    unfold into
    exact (respects_literalValue h).on h.trans₀ fun v _ => (respects_address h (by simp [ht])).on
      h.trans₀ fun a _ => keeps_emit h rfl (proper_of_no_operands rfl)
  | .name id, target, known, ht => by
    unfold into
    exact (respects_readVariable h).discard.on h.trans₀ fun _ _ => keeps_copyVariable h
  | .binary o l r, target, known, ht => by
    unfold into
    exact keeps_operator h ht (respects_operandVia h (fills_into l))
      fun _ => respects_operandVia h (fills_into r)
  | .logical o l r, target, known, ht => by
    unfold into
    exact keeps_operator h ht (respects_operandVia h (fills_into l))
      fun _ => respects_operandVia h (fills_into r)
  | .array es, target, known, ht => by
    unfold into
    refine (respects_slotsOf es known).on h.trans₀ fun slots hslots => ?_
    refine (respects_mapM h fun x hx => respects_resolve h (hslots x hx) fun n hn =>
      List.mem_append_left _ (List.mem_flatMap.mpr ⟨x, hx, hn⟩)).on h.trans₀ fun args hargs => ?_
    exact (respects_address h (by simp [ht])).on h.trans₀ fun a _ => keeps_emit h rfl hargs
  | .call callee args, target, known, ht => by
    unfold into
    exact keeps_call h (by simpa using ht) (respects_slotsOf args known)
  | .member object property, target, known, ht => by
    unfold into
    exact (respects_memberValue h).on h.trans₀ fun v _ => (respects_address h (by simp [ht])).on
      h.trans₀ fun a _ => keeps_emit h rfl (proper_of_no_operands rfl)
  | .assign o assigned value, target, known, ht => by
    unfold into
    exact (keeps_assign h (fills_into value)).on h.trans₀ fun _ _ => keeps_copyVariable h
  | .update step updated before, target, known, ht => by
    unfold into
    refine (respects_readVariable h).discard.on h.trans₀ fun _ _ => ?_
    split_ifs
    · exact (keeps_update h).on h.trans₀ fun _ _ => keeps_copyVariable h
    · exact (keeps_copyVariable h).on h.trans₀ fun _ _ => keeps_update h

theorem respects_slotsOf : ∀ (es : List Expr) (known : List String),
    Respects (Straightly R₀) known (slotsOf es) (fun l => ∀ x ∈ l, x.Proper)
      fun l => l.flatMap Slot.names
  | [], known => by
    unfold slotsOf
    exact respects_pure h (by simp) (by simp)
  | e :: es, known => by
    unfold slotsOf
    refine (respects_operandVia h (fills_into e)).on h.trans₀ fun slot hslot => ?_
    refine (respects_slotsOf es _).on h.trans₀ fun l hl => respects_pure h ?_ ?_
    · simpa using ⟨hslot, hl⟩
    · intro n hn
      rw [List.flatMap_cons] at hn
      exact (List.mem_append.mp hn).elim (fun hn => List.mem_append_right _
        (List.mem_append_left _ hn)) (List.mem_append_left _)
end

theorem respects_operandOf {e : Expr} :
    Respects (Straightly R₀) known (operandOf e) Slot.Proper Slot.names :=
  respects_operandVia h (fills_into h e)

theorem keeps_effect {e : Expr} : Keeps (Straightly R₀) known (effect e) := by
  unfold effect
  split
  · exact keeps_call h (by simp) (respects_slotsOf h _ _)
  · exact keeps_assign h (fills_into h _)
  · exact keeps_update h
  · exact (respects_operandOf h).discard

/-! ### Statements -/

theorem Respects.straight {α : Type} {m : Lowering α} {Q : α → Prop} {seen : α → List String}
    (hm : Respects (Straightly R₀) known m Q seen) : Respects R known m Q seen :=
  hm.mono (fun _ => id) fun hst => h.straight hst.1

omit h in
theorem Respects.loosely {α : Type} {m : Lowering α} {Q : α → Prop} {seen : α → List String}
    (hm : Respects (Straightly R₀) known m Q seen) : Respects R₀ known m Q seen :=
  hm.mono (fun _ => id) And.left

omit h in
/-- A step **in no relation in particular**, with a step behind it. -/
theorem Respects.any_bind {α β : Type} {m : Lowering α} {P : α → Prop} {seen : α → List String}
    (hm : Respects R known m P seen) {f : α → Lowering β} {Q : β → Prop} {seen' : β → List String}
    (hf : ∀ a, P a → Respects (fun _ _ => True) (seen a) (f a) Q seen') :
    Respects (fun _ _ => True) known (m >>= f) Q seen' :=
  (hm.mono (fun _ => id) fun _ => trivial).bind (fun _ _ => trivial) hf

omit h in
theorem keeps_any_modify {f : Session → Session} (hf : ∀ s, (f s).planner = s.planner) :
    Keeps (fun _ _ => True) known (modify f) := by
  refine fun s hs hk => ⟨flawless_of_gives (a := ()) (gives_modify.mpr rfl), fun x t hg => ?_⟩
  rw [gives_modify] at hg
  subst hg
  exact ⟨trivial, (hf s).symm ▸ hs, trivial, by simp⟩

omit h in
theorem respects_any_nextLabel :
    Respects (fun _ _ => True) known nextLabel (fun _ => True) fun _ => [] := by
  refine fun s hs hk => ⟨flawless_of_gives (gives_nextLabel.mpr ⟨rfl, rfl⟩), fun n t hg => ?_⟩
  obtain ⟨-, rfl⟩ := gives_nextLabel.mp hg
  exact ⟨trivial, hs, trivial, by simp⟩

theorem keeps_parameters {function tag : String} (params : List String) :
    Keeps R₀ [] (parameters function tag params) := by
  induction params with
  | nil => exact (respects_pure h trivial (by simp)).loosely
  | cons param rest ih =>
    have hnone : ∀ {t : Session}, ∀ n ∈ ([] : List String), t.Sees n := by simp
    intro s hs hk
    refine ⟨?_, fun x v hg => ?_⟩
    · unfold parameters
      refine ((?_ : Keeps (fun _ _ => True) [] _) hs hk).1
      exact (respects_allocate h).any_bind fun a _ => (keeps_setKind h).any_bind fun _ _ =>
        (keeps_any_modify (by intro; rfl)).any_bind fun _ _ => ih.mono (fun _ => id) fun _ => trivial
    · unfold parameters at hg
      simp only [gives_bind, gives_setKind, gives_modify] at hg
      obtain ⟨a, t, hgt, _, _, rfl, _, _, rfl, hrest⟩ := hg
      obtain ⟨hst, ht, -⟩ := (respects_allocate h hs hk).2 hgt
      obtain ⟨p, hp, rfl⟩ := gives_allocate.mp hgt
      obtain ⟨-, -, b, hb, rfl⟩ := hs.allocate hp
      have hkind := h.notes (s.relocated p) (((param, tag), .block) :: s.kinds) s.functions
        s.temporaries
      have hbehind := fun hheld => (ih hheld hnone).2 hrest
      obtain ⟨hrest, hv, hq⟩ := hbehind ht
      exact ⟨h.trans₀ hst.1 (h.trans₀ hkind (h.trans₀
        (h.parameter _ function param b ht.sound hb) hrest)), hv, hq⟩

theorem keeps_declareFunction {params : List String} {body : List Statement} :
    Keeps R₀ [] (declareFunction name params body) := by
  have hnext : Respects R₀ [] nextFunction (fun _ => True) fun _ => [] := by
    refine fun s hs hk => ⟨flawless_of_gives (gives_nextFunction.mpr ⟨rfl, rfl⟩), fun n t hg => ?_⟩
    obtain ⟨-, rfl⟩ := gives_nextFunction.mp hg
    exact ⟨h.notes s s.kinds _ s.temporaries, hs, trivial, by simp⟩
  have hnew : ∀ id, Keeps R₀ [] (modify fun s => { s with program := { s.program with
      functions := s.program.functions.insert name ⟨id, params, body, [], false⟩ } }) := by
    refine fun id s hs hk => ⟨flawless_of_gives (a := ()) (gives_modify.mpr rfl), fun x t hg => ?_⟩
    rw [gives_modify] at hg
    subst hg
    exact ⟨h.declared s name id params body, hs, trivial, by simp⟩
  have henter : Respects R₀ [] (enter name) (fun _ => True) fun _ => [] := by
    refine fun s hs hk => ⟨flawless_of_gives (gives_enter.mpr ⟨rfl, rfl⟩), fun tag t hg => ?_⟩
    obtain ⟨-, rfl⟩ := gives_enter.mp hg
    exact ⟨h.entered s name, hs.enter name, trivial, by simp⟩
  unfold declareFunction
  refine hnext.bind h.trans₀ fun number _ => ?_
  refine ((respects_allocate h).mono (fun _ => id) And.left).bind h.trans₀ fun a _ => ?_
  refine (respects_scope h).loosely.bind h.trans₀ fun scope _ => ?_
  refine (keeps_setKind h).loosely.bind h.trans₀ fun _ _ => ?_
  refine (keeps_bindName h).loosely.bind h.trans₀ fun _ _ => ?_
  refine (keeps_emit h rfl (proper_of_no_operands rfl)).loosely.bind h.trans₀ fun _ _ => ?_
  refine (hnew number).bind h.trans₀ fun _ _ => henter.bind h.trans₀ fun tag _ => ?_
  exact (keeps_parameters h params).bind h.trans₀ fun _ _ => keeps_leave h

theorem respects_loopTest {test : Option Expr} :
    Respects (Straightly R₀) known (loopTest test) Operand.Proper fun _ => [] := by
  unfold loopTest
  refine (respects_temporary h).on h.trans₀ fun flag _ => ?_
  have hcell : ∀ {known : List String}, flag ∈ known → Respects (Straightly R₀) known
      (do return .cell (← address flag)) Operand.Proper fun _ => [] := fun hn =>
    (respects_address h hn).on h.trans₀ fun _ _ => respects_pure h Nat.one_pos (by simp)
  cases test with
  | some e => exact (fills_into h e flag _ (by simp)).on h.trans₀ fun _ _ => hcell (by simp)
  | none =>
    exact (respects_address h (by simp)).on h.trans₀ fun a _ =>
      (keeps_emit h rfl (proper_of_no_operands rfl)).on h.trans₀ fun _ _ => hcell (by simp)

theorem keeps_within {scope : String} {body : Lowering Unit} (hb : Keeps R [] body) :
    Keeps R [] (within scope body) :=
  ((keeps_enter h).mono (fun _ => id) h.straight).bind h.trans fun _ _ =>
    hb.bind h.trans fun _ _ => (keeps_leave h).mono (fun _ => id) h.straight

theorem respects_operand {test : Expr} : Respects (Straightly R₀) known
    (operandOf test >>= resolve) Operand.Proper fun _ => [] :=
  (respects_operandOf h).on h.trans₀ fun _ hslot =>
    respects_resolve h hslot fun _ hn => List.mem_append_left _ hn

theorem keeps_branch {test : Expr} {yes no : Lowering Unit} (hyes : Keeps R [] yes)
    (hno : Keeps R [] no) :
    Keeps R [] (do
      let id ← nextLabel
      let condition ← resolve (← operandOf test)
      emit (.branch condition s!"if_else_{id}")
      yes
      emit (.jump s!"if_end_{id}")
      emit (.label s!"if_else_{id}")
      no
      emit (.label s!"if_end_{id}")) := by
  intro s hs hk
  refine ⟨?_, fun x w hg => ?_⟩
  · refine ((?_ : Keeps (fun _ _ => True) [] _) hs hk).1
    refine respects_any_nextLabel.any_bind fun n _ => (respects_operandOf h).any_bind
      fun slot hslot => (respects_resolve h hslot fun _ hn => hn).any_bind fun c _ => ?_
    exact (keeps_any_modify (by intro; rfl)).any_bind fun _ _ => hyes.any_bind fun _ _ =>
      (keeps_any_modify (by intro; rfl)).any_bind fun _ _ =>
        (keeps_any_modify (by intro; rfl)).any_bind fun _ _ => hno.any_bind fun _ _ =>
          keeps_any_modify (by intro; rfl)
  · simp only [gives_bind, gives_nextLabel, gives_emit] at hg
    obtain ⟨_, _, ⟨rfl, rfl⟩, slot, t₀, hslot, c, t, hc, _, _, rfl, _, u, hu, _, _, rfl, _, _, rfl,
      _, v, hv, rfl⟩ := hg
    have hnone : ∀ {t : Session}, ∀ n ∈ ([] : List String), t.Sees n := by simp
    have hcond := fun hheld =>
      (respects_operand h hheld hnone).2 (gives_bind.mpr ⟨slot, t₀, hslot, hc⟩)
    obtain ⟨ht, hts, hp, -⟩ := hcond hs
    have hside := fun hheld => (hyes hheld hnone).2 hu
    obtain ⟨hu, hus, -⟩ := hside hts
    have hother := fun hheld => (hno hheld hnone).2 hv
    obtain ⟨hv, hvs, -⟩ := hother hus
    exact ⟨h.branch ht.1 hp hu hv, hvs, trivial, hnone⟩

theorem keeps_loop (test : Option Expr) {first last body : Lowering Unit}
    (hfirst : Keeps R [] first) (hlast : Keeps R₀ [] last) (hbody : Keeps R [] body) :
    Keeps R [] (do
      discard (enter "for")
      first
      let id ← nextLabel
      emit (.label s!"for_test_{id}")
      let condition ← loopTest test
      emit (.jumpUnless condition s!"for_end_{id}")
      body
      emit (.label s!"for_update_{id}")
      last
      emit (.jump s!"for_test_{id}")
      emit (.label s!"for_end_{id}")
      leave) := by
  refine ((keeps_enter h).mono (fun _ => id) h.straight).bind h.trans fun _ _ => ?_
  refine hfirst.bind h.trans fun _ _ => ?_
  intro s hs hk
  refine ⟨?_, fun x w hg => ?_⟩
  · refine ((?_ : Keeps (fun _ _ => True) [] _) hs hk).1
    refine respects_any_nextLabel.any_bind fun n _ => (keeps_any_modify (by intro; rfl)).any_bind
      fun _ _ => (respects_loopTest h).any_bind fun c _ => ?_
    exact (keeps_any_modify (by intro; rfl)).any_bind fun _ _ => hbody.any_bind fun _ _ =>
      (keeps_any_modify (by intro; rfl)).any_bind fun _ _ => hlast.any_bind fun _ _ =>
        (keeps_any_modify (by intro; rfl)).any_bind fun _ _ =>
          (keeps_any_modify (by intro; rfl)).any_bind fun _ _ =>
            (keeps_leave h).mono (fun _ => id) fun _ => trivial
  · simp only [gives_bind, gives_nextLabel, gives_emit] at hg
    obtain ⟨_, _, ⟨rfl, rfl⟩, _, _, rfl, c, t, hc, _, _, rfl, _, u, hu, _, _, rfl, _, v, hv, _, _,
      rfl, _, _, rfl, hw⟩ := hg
    have hnone : ∀ {t : Session}, ∀ n ∈ ([] : List String), t.Sees n := by simp
    have htest := fun hheld => (respects_loopTest h hheld hnone).2 hc
    obtain ⟨ht, hts, hp, -⟩ := htest hs
    have hinside := fun hheld => (hbody hheld hnone).2 hu
    obtain ⟨hu, hus, -⟩ := hinside hts
    have hstep := fun hheld => (hlast hheld hnone).2 hv
    obtain ⟨hv, hvs, -⟩ := hstep hus
    have hend := fun hheld => (keeps_leave h hheld hnone).2 hw
    obtain ⟨hw, hws, -⟩ := hend hvs
    exact ⟨h.trans (h.loop ht.1 hp hu hv) (h.straight hw), hws, trivial, hnone⟩

mutual
theorem keeps_statement : ∀ s : Statement, Keeps R [] (statement s)
  | .declare kind name init => by
    unfold statement
    refine (keeps_declare h fun p hp n known hn => ?_).straight h
    obtain ⟨e, -, rfl⟩ := Option.mem_map.mp hp
    exact fills_into h e n known hn
  | .function name params body => by
    unfold statement
    exact (keeps_declareFunction h).mono (fun _ => id) h.straight
  | .branch test consequent alternate => by
    unfold statement
    exact keeps_branch h (keeps_within h (keeps_statements consequent)) (keeps_otherwise alternate)
  | .loop init test last body => by
    unfold statement
    have hbody : Keeps R [] (within "loop" (statements body)) :=
      keeps_within h (keeps_statements body)
    cases last with
    | some e =>
      dsimp only
      exact keeps_loop h _ (keeps_firstClause init) (keeps_effect h (e := e)).loosely hbody
    | none =>
      have hloop := keeps_loop h test (keeps_firstClause init)
        (respects_pure h (a := ()) trivial (by simp)).loosely hbody
      simpa only [pure_bind] using hloop
  | .ret argument => by
    unfold statement
    apply Respects.straight h
    cases argument with
    | some e =>
      dsimp only
      refine (respects_operandOf h).on h.trans₀ fun slot hslot => ?_
      refine (respects_resolve h hslot fun n hn => List.mem_append_left _ hn).on h.trans₀
        fun o ho => keeps_emit h rfl ?_
      simpa [Instruction.Proper, Instruction.operands] using ho
    | none => exact keeps_emit h rfl (proper_of_no_operands rfl)
  | .effect e => by
    unfold statement
    exact (keeps_effect h).straight h

theorem keeps_statements : ∀ l : List Statement, Keeps R [] (statements l)
  | [] => by
    unfold statements
    exact (respects_pure h trivial (by simp)).straight h
  | s :: rest => by
    unfold statements
    exact (keeps_statement s).bind h.trans fun _ _ => keeps_statements rest

theorem keeps_otherwise : ∀ o : Option (List Statement), Keeps R [] (otherwise o)
  | none => by
    unfold otherwise
    exact (respects_pure h trivial (by simp)).straight h
  | some body => by
    unfold otherwise
    exact keeps_within h (keeps_statements body)

theorem keeps_firstClause : ∀ o : Option Statement, Keeps R [] (firstClause o)
  | none => by
    unfold firstClause
    exact (respects_pure h trivial (by simp)).straight h
  | some s => by
    unfold firstClause
    exact keeps_statement s
end

end Lowering

end TapeCompiler
