import TapeCompiler.Proofs.Memory.Layers
import TapeCompiler.Proofs.Memory.Runs

/-! # A scope is a bracket

Between the opening of a scope and its end requests may shadow names, move the blocks of outer
scopes and collect, and further scopes may open and close. `Planner.Carries` is what such a request
does if it succeeds: the blocks of every name are **carried along, in their order**, and new ones of
the innermost scope go behind them. It holds of single requests (`Held.carries_handle`), composes
(`Carries.trans`) and turns into an exact law at the end of a scope (`Held.carried_leave`), so it
holds of whole runs with nested scopes (`Nested.carries`). -/

namespace TapeCompiler

namespace Planner

variable {p q r : Planner} {name : String} {idle : Int} {f g : Nat → Nat}

/-! ### Runs inside a scope -/

/-- The requests that neither give a block or a reference up nor open or end a scope. -/
def Request.plain : Request → Bool
  | allocate .. | resize .. | addReference _ | collect | takeMoves => true
  | deallocate _ | removeReference _ | enter _ | leave => false

/-- Requests **with nested scopes**: each one that is opened ends among them, and no other does. -/
inductive Nested : List (Int × Request) → Prop
  | nil : Nested []
  | cons {idle r rest} : Request.plain r = true → Nested rest → Nested ((idle, r) :: rest)
  | scope {idle idle' name inner rest} : Nested inner → Nested rest →
      Nested ((idle, .enter name) :: (inner ++ (idle', .leave) :: rest))

/-- Whether room is found for a request. -/
def succeeds (p : Planner) (idle : Int) : Request → Bool
  | .allocate name size => (p.allocate name size idle).1.isOk
  | .resize name size => (p.resize name size idle).1.isOk
  | _ => true

/-- Whether **all requests** of a run succeed. -/
def allSucceed (p : Planner) : List (Int × Request) → Bool
  | [] => true
  | (idle, r) :: rest => p.succeeds idle r && allSucceed (p.handle idle r) rest

/-- The move of the block of a name to a larger one. -/
def moved? (p : Planner) (idle : Int) : Request → Option Relocation
  | .resize name size => (p.resize name size idle).1.toOption.join
  | _ => none

/-- **Where a request takes an address**: the move to a larger block comes first, then the moves
that were noted. -/
def carry (p : Planner) (idle : Int) (r : Request) (address : Nat) : Nat :=
  ((p.moved? idle r).bind fun m => m.newAddress? address).getD
    (relocate ((p.handle idle r).moves.drop p.moves.length) address)

/-- Where **a run** takes an address. -/
def carryAll (p : Planner) : List (Int × Request) → Nat → Nat
  | [] => id
  | (idle, r) :: rest => carryAll (p.handle idle r) rest ∘ p.carry idle r

theorem run_append (p : Planner) (l l' : List (Int × Request)) :
    p.run (l ++ l') = (p.run l).run l' := List.foldl_append

theorem allSucceed_append (p : Planner) (l l' : List (Int × Request)) :
    p.allSucceed (l ++ l') = (p.allSucceed l && (p.run l).allSucceed l') := by
  induction l generalizing p with
  | nil => rfl
  | cons r l ih =>
    show (_ && allSucceed _ (l ++ l')) = (_ && allSucceed _ l && _)
    rw [ih, Bool.and_assoc]
    rfl

theorem carryAll_append (p : Planner) (l l' : List (Int × Request)) :
    p.carryAll (l ++ l') = (p.run l).carryAll l' ∘ p.carryAll l := by
  induction l generalizing p with
  | nil => rfl
  | cons r l ih =>
    show carryAll _ (l ++ l') ∘ _ = _
    rw [ih]
    rfl

theorem carry_eq (req : Request) {moves : List Relocation}
    (hm : (p.handle idle req).moves = p.moves ++ moves) :
    p.carry idle req =
      fun a => ((p.moved? idle req).bind fun m => m.newAddress? a).getD (relocate moves a) := by
  funext a
  rw [carry, hm, List.drop_left]

/-- A request that notes no move takes **every address to itself**. -/
theorem carry_eq_id {req : Request} (hm : (p.handle idle req).moves.drop p.moves.length = [])
    (hnone : p.moved? idle req = none) : p.carry idle req = id := by
  funext a
  rw [carry, hm, hnone]
  rfl

/-! ### What requests carry along -/

/-- **The blocks of every name are carried along** by a map of addresses, and new ones belong to the
innermost scope. -/
structure Carries (p q : Planner) (f : Nat → Nat) : Prop where
  frames : q.frames = p.frames
  layers : ∀ name, ∃ old new, q.layers name = old ++ new ∧
    List.Forall₂ (Block.Carried f) (p.layers name) old ∧ ∀ b ∈ new, b.scope = p.scope

theorem Carries.scope (h : p.Carries q f) : q.scope = p.scope := by
  unfold Planner.scope
  rw [h.frames]

theorem Carries.of_forall₂ (hframes : q.frames = p.frames)
    (h : ∀ name, List.Forall₂ (Block.Carried f) (p.layers name) (q.layers name)) : p.Carries q f :=
  ⟨hframes, fun name => ⟨_, [], (List.append_nil _).symm, h name, by simp⟩⟩

theorem Carries.refl (p : Planner) : p.Carries p id :=
  .of_forall₂ rfl fun _ => List.forall₂_same.mpr fun b _ => b.carried_follow []

theorem Carries.trans (h : p.Carries q f) (h' : q.Carries r g) : p.Carries r (g ∘ f) where
  frames := h'.frames.trans h.frames
  layers name := by
    obtain ⟨old, new, hq, hold, hnew⟩ := h.layers name
    obtain ⟨old', new', hr, hold', hnew'⟩ := h'.layers name
    rw [hq] at hold'
    -- what was carried along is carried on; what was new is new still
    have hfirst := List.forall₂_take old.length hold'
    have hsecond := List.forall₂_drop old.length hold'
    rw [List.take_left] at hfirst
    rw [List.drop_left] at hsecond
    refine ⟨old'.take old.length, old'.drop old.length ++ new', ?_, ?_, fun b hb => ?_⟩
    · rw [hr, ← List.append_assoc, List.take_append_drop]
    · exact Block.forall₂_carried_trans hold hfirst
    · rcases List.mem_append.mp hb with hb | hb
      · obtain ⟨a, ha, hab⟩ := Block.exists_of_carried hsecond hb
        exact hab.scope.trans (hnew a ha)
      · exact (hnew' b hb).trans h.scope

/-! ### Single requests -/

theorem exists_of_isOk {α : Type} {x : Except Fault α × Planner} (h : x.1.isOk = true) :
    ∃ a, x = (.ok a, x.2) := by
  obtain ⟨y, q⟩ := x
  cases y with
  | error f => cases h
  | ok a => exact ⟨a, rfl⟩

theorem Held.carries_allocate (h : p.Held) {size : Nat}
    (hs : p.succeeds idle (.allocate name size) = true) :
    (p.handle idle (.allocate name size)).Held ∧
      p.Carries (p.handle idle (.allocate name size)) (p.carry idle (.allocate name size)) := by
  obtain ⟨a, hq⟩ := exists_of_isOk hs
  refine ⟨(h.allocate hq).1, ?_⟩
  rcases h.layers_allocate hq with
    ⟨b, -, -, -, hsame⟩ | ⟨-, hframes, moves, new, hmoves, hscope, -, hlayers⟩
  · have hsame : p.handle idle (.allocate name size) = p := hsame
    rw [carry_eq_id (by rw [hsame, List.drop_length]) rfl, hsame]
    exact .refl p
  · rw [carry_eq (.allocate name size) hmoves]
    refine ⟨hframes, fun other => ⟨_, _, hlayers other, ?_, fun b hb => ?_⟩⟩
    · rw [List.forall₂_map_right_iff, List.forall₂_same]
      exact fun b _ => b.carried_follow moves
    · split_ifs at hb
      · rw [List.mem_singleton.mp hb, hscope]
      · cases hb

theorem Held.carries_resize (h : p.Held) {size : Nat}
    (hs : p.succeeds idle (.resize name size) = true) :
    (p.handle idle (.resize name size)).Held ∧
      p.Carries (p.handle idle (.resize name size)) (p.carry idle (.resize name size)) := by
  obtain ⟨moved?, hq⟩ := exists_of_isOk hs
  have hmoved : p.moved? idle (.resize name size) = moved? := by
    show (p.resize name size idle).1.toOption.join = moved?
    rw [hq]
    rfl
  cases moved? with
  | none =>
    have hsame : p.handle idle (.resize name size) = p := by
      rcases resize_cases p name size idle with
        ⟨-, heq⟩ | ⟨old, -, -, ⟨a, r, -, heq⟩ | ⟨f, r, -, heq⟩⟩ <;> rw [hq] at heq <;>
        have heq' := congrArg Prod.fst heq <;> cases heq'
      exact congrArg Prod.snd heq
    rw [carry_eq_id (by rw [hsame, List.drop_length]) hmoved, hsame]
    exact ⟨h, .refl p⟩
  | some moved =>
    obtain ⟨hframes, moves, hmoves, hlayers⟩ := h.layers_resize hq
    rw [carry_eq (.resize name size) hmoves, hmoved]
    exact ⟨(h.resize hq).1, .of_forall₂ hframes hlayers⟩

/-- **A request inside a scope** carries all blocks along. -/
theorem Held.carries_handle (h : p.Held) {req : Request} (hplain : req.plain = true)
    (hs : p.succeeds idle req = true) :
    (p.handle idle req).Held ∧ p.Carries (p.handle idle req) (p.carry idle req) := by
  cases req with
  | allocate name size => exact h.carries_allocate hs
  | resize name size => exact h.carries_resize hs
  | addReference name =>
    have hsame : (p.addReference name).2.frames = p.frames ∧
        (p.addReference name).2.moves = p.moves := by
      unfold Planner.addReference refer
      split <;> exact ⟨rfl, rfl⟩
    rw [carry_eq_id (by rw [show (p.handle idle (.addReference name)).moves = _ from hsame.2,
      List.drop_length]) rfl]
    exact ⟨(h.addReference name).1, .of_forall₂ hsame.1 (h.layers_addReference name)⟩
  | collect =>
    obtain ⟨hframes, moves, hmoves, hlayers⟩ := h.layers_collect false
    rw [carry_eq .collect hmoves]
    refine ⟨(h.collect false).1, .of_forall₂ hframes fun other => ?_⟩
    rw [show (p.handle idle .collect).layers other = _ from hlayers other,
      List.forall₂_map_right_iff, List.forall₂_same]
    exact fun b _ => b.carried_follow moves
  | takeMoves =>
    rw [carry_eq_id List.drop_nil rfl]
    exact ⟨h.takeMoves, ⟨rfl, (Carries.refl p).layers⟩⟩
  | deallocate | removeReference | enter | leave => cases hplain

/-! ### Scopes -/

theorem Indexed.scope_ne_enter (h : p.Indexed) {b : Block} (hb : b ∈ p.layers name)
    (opened : String) : b.scope ≠ (p.enter opened).1 := by
  obtain ⟨hb, hact, -⟩ := h.mem_layers.mp hb
  intro hs
  have hopened := h.opened b hb hact
  rw [hs] at hopened
  refine scope_notMem_around (h.enter opened).scopes (List.suffix_refl _) ?_
  simpa [openScopes, Planner.enter, Planner.scope] using hopened

/-- **The end of a scope** takes the blocks that are new, and no others. -/
theorem Held.carried_leave (h : p.Held) (hr : r.Held) (hc : (p.enter name).2.Carries r f) :
    r.leave.2.frames = p.frames ∧
      ∀ other, List.Forall₂ (Block.Carried f) (p.layers other) (r.leave.2.layers other) := by
  have hframes : r.frames = ⟨(p.enter name).1, p.stack⟩ :: p.frames := hc.frames
  refine ⟨?_, fun other => ?_⟩
  · unfold Planner.leave
    rw [hframes]
    rfl
  · obtain ⟨old, new, hlayers, hold, hnew⟩ := hc.layers other
    have hgone : (new.filter fun b => b.scope ≠ (p.enter name).1) = [] :=
      List.filter_eq_nil_iff.mpr fun b hb => by simp [hnew b hb, Planner.enter, Planner.scope]
    have hstay : (old.filter fun b => b.scope ≠ (p.enter name).1) = old :=
      List.filter_eq_self.mpr fun c hc => by
        obtain ⟨b, hb, hbc⟩ := Block.exists_of_carried hold hc
        rw [hbc.scope]
        exact decide_eq_true (h.sound.indexed.scope_ne_enter hb name)
    rw [hr.sound.layers_leave hframes, hlayers, List.filter_append, hgone, hstay, List.append_nil]
    exact hold

theorem moves_leave (p : Planner) : p.leave.2.moves = p.moves := by
  unfold Planner.leave
  split <;> rfl

/-- **A run with nested scopes** carries all blocks along. -/
theorem Nested.carries {requests : List (Int × Request)} (hn : Nested requests) (h : p.Held)
    (hs : p.allSucceed requests = true) :
    (p.run requests).Held ∧ p.Carries (p.run requests) (p.carryAll requests) := by
  induction hn generalizing p with
  | nil => exact ⟨h, .refl p⟩
  | cons hplain _ ih =>
    obtain ⟨hfirst, hrest⟩ := Bool.and_eq_true_iff.mp hs
    obtain ⟨hheld, hstep⟩ := h.carries_handle hplain hfirst
    obtain ⟨hheld', hcarries⟩ := ih hheld hrest
    exact ⟨hheld', hstep.trans hcarries⟩
  | @scope idle idle' name inner rest _ _ ihinner ihrest =>
    have hs : (p.enter name).2.allSucceed (inner ++ (idle', .leave) :: rest) = true := hs
    rw [allSucceed_append] at hs
    obtain ⟨hinner, hrest⟩ := Bool.and_eq_true_iff.mp hs
    obtain ⟨hheld, hcarries⟩ := ihinner (h.enter name) hinner
    obtain ⟨hframes, hlayers⟩ := h.carried_leave hheld hcarries
    obtain ⟨hheld', hcarries'⟩ := ihrest hheld.leave hrest
    -- neither end of the scope moves a block
    have henter : p.carry idle (.enter name) = id := carry_eq_id List.drop_length rfl
    have hleave : ((p.enter name).2.run inner).carry idle' .leave = id :=
      carry_eq_id (by rw [show (handle _ idle' .leave).moves = _ from moves_leave _,
        List.drop_length]) rfl
    have hrun : p.run ((idle, .enter name) :: (inner ++ (idle', .leave) :: rest)) =
        ((p.enter name).2.run inner).leave.2.run rest := run_append _ inner _
    have hall : p.carryAll ((idle, .enter name) :: (inner ++ (idle', .leave) :: rest)) =
        ((p.enter name).2.run inner).leave.2.carryAll rest ∘ (p.enter name).2.carryAll inner := by
      show (p.enter name).2.carryAll (inner ++ _) ∘ p.carry idle (.enter name) = _
      rw [carryAll_append, henter, Function.comp_id]
      show (_ ∘ carry _ idle' .leave) ∘ _ = _
      rw [hleave]
      rfl
    rw [hrun, hall]
    exact ⟨hheld', (Carries.of_forall₂ hframes hlayers).trans hcarries'⟩

theorem visible_of_carried (hp : p.Indexed) (hq : q.Indexed)
    (h : List.Forall₂ (Block.Carried f) (p.layers name) (q.layers name)) :
    (p.visible? name = none → q.visible? name = none) ∧
      ∀ b, p.visible? name = some b → ∃ c, q.visible? name = some c ∧ b.Carried f c := by
  have hreverse := List.forall₂_reverse_iff.mpr h
  rw [← hp.getLast?_layers, ← hq.getLast?_layers, ← List.head?_reverse, ← List.head?_reverse]
  generalize (p.layers name).reverse = l, (q.layers name).reverse = m at hreverse
  cases hreverse with
  | nil => exact ⟨id, nofun⟩
  | cons hbc _ =>
    refine ⟨nofun, fun b hb => ?_⟩
    cases hb
    exact ⟨_, rfl, hbc⟩

/-- **A scope is a bracket around what names stand for**, wherever it is opened in a run that leaves
all active blocks referred to, and whichever requests with nested scopes succeed inside it: its end
gives up exactly the blocks it owns, and every name stands for the block it stood for before, moved
along, with its scope and no fewer cells and references, or for none as before. -/
theorem scope_is_bracket {c : PlannerSettings} {p₀ : Planner} (h : Planner.new c = .ok p₀)
    (before : List (Int × Request))
    (hreferred : ∀ b ∈ (p₀.run before).blocks, b.active = true → b.references ≠ 0) (name : String)
    {requests : List (Int × Request)} (hn : Nested requests)
    (hs : ((p₀.run before).enter name).2.allSucceed requests = true) :
    let p := p₀.run before
    let opened := p.enter name
    let r := opened.2.run requests
    let q := r.leave.2
    q.depth = p.depth ∧ q.scope = p.scope ∧
      (q.blocks = r.blocks.map fun b =>
        if b.activeIn opened.1 then { b with active := false } else b) ∧
      r.leave.1 = r.blocks.countP (Block.activeIn opened.1) ∧
      ∀ other, (p.visible? other = none → q.visible? other = none) ∧
        ∀ b, p.visible? other = some b →
          ∃ c, q.visible? other = some c ∧ b.Carried (opened.2.carryAll requests) c := by
  intro p opened r q
  have hp : p.Held := ⟨(sound_new h).run before, hreferred⟩
  obtain ⟨hr, hcarries⟩ := hn.carries (hp.enter name) hs
  obtain ⟨hframes, hlayers⟩ := hp.carried_leave hr hcarries
  have hopen : r.frames = ⟨opened.1, p.stack⟩ :: p.frames := hcarries.frames
  refine ⟨congrArg (List.length · + 1) hframes, ?_, ?_, ?_, fun other => ?_⟩
  · exact (Carries.of_forall₂ hframes hlayers).scope
  · show r.leave.2.blocks = _
    unfold Planner.leave
    rw [hopen]
    rfl
  · unfold Planner.leave
    rw [hopen]
    show (r.allocations.filter (Block.activeIn opened.1)).length = _
    rw [allocations, ← List.countP_eq_length_filter, List.countP_reverse]
  · exact visible_of_carried hp.sound.indexed hr.leave.sound.indexed (hlayers other)

/-- In a scope that binds `a` anew an outer `b` moves to a larger block, and a scope further in
binds `b` as well. -/
theorem scope_is_bracket_of_grown :
    let c : PlannerSettings := { model := .segmented, memorySize := 2000 }
    let p₀ : Planner := ⟨c, [], [], 0, 0, 0, [], 0, 0, heapBase, globalsBase, 0, 0, 0, [], 0⟩
    let p := p₀.run [(0, .allocate "a" 1), (0, .allocate "b" 2)]
    let opened := p.enter "f"
    let requests : List (Int × Request) :=
      [(0, .allocate "a" 2), (0, .resize "b" 5), (0, .enter "g"), (0, .allocate "b" 1), (0, .leave),
        (0, .addReference "b"), (0, .collect)]
    let q := (opened.2.run requests).leave.2
    let b : Block := ⟨1, "b", 513, 2, true, rootScope, 1⟩
    Planner.new c = .ok p₀ ∧ opened.2.allSucceed requests = true ∧
      (opened.2.run requests).leave.1 = 1 ∧ q.scope = rootScope ∧ p.visible? "b" = some b ∧
      opened.2.carryAll requests b.address = 1024 ∧
      ∃ c, q.visible? "b" = some c ∧ b.Carried (opened.2.carryAll requests) c := by
  intro c p₀ p opened requests q b
  have hp : Planner.new c = .ok p₀ := by decide +kernel
  have hs : opened.2.allSucceed requests = true := by decide +kernel
  have hv : p.visible? "b" = some b := by decide +kernel
  have hn : Nested requests :=
    .cons rfl (.cons rfl (.scope (.cons rfl .nil) (.cons rfl (.cons rfl .nil))))
  obtain ⟨-, hscope, -, hcount, hnames⟩ :=
    scope_is_bracket hp [(0, .allocate "a" 1), (0, .allocate "b" 2)] (by decide +kernel) "f" hn hs
  exact ⟨hp, hs, hcount.trans (by decide +kernel), hscope.trans (by decide +kernel), hv,
    by decide +kernel, (hnames "b").2 b hv⟩

end Planner

end TapeCompiler
