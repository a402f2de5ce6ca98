import TapeCompiler.Proofs.Lowering.Alignment
import TapeCompiler.Proofs.Lowering.Landing

/-! # Storing

A session is ready for a program part (`Session.Ready`) when it is steady, names have the room that
is noted for them, and each has a kind. Where a value fits its room, no block grows: the value is
stored in the spot of its name, and what is left there of a longer one is cleared
(`Session.Steady.stores`).

A part is realized by a tree that leads, from any store that shows what was so before the part, to
one that shows what is so behind it (`Session.Realizes`), or by straight code (`Session.Leads`). A
declaration is (`leads_declare`): its value is lowered when the name has its spot already, so the
name is hidden in it unless the scope bound it before. -/

namespace TapeCompiler

open Lowering

variable {w : CellWidth} {l : Library} {s t u : Session} {z : Spot} {σ τ : Store w} {v : Unit}
  {seg seg' : List Instruction} {x y target : String} {n a : Nat} {o : Operator} {vs : List Nat}
  {p q : Planner} {ρ ρ' : Env Nat}

/-! ### What is left of a longer value -/

/-- Behind a value, **the rest of its spot is cleared**. -/
theorem Session.Adds.cleared (h : s.Adds w t seg) (hs : s.Steady)
    (hc : Changes w l s.planner z.Holds seg) (hz : (s.planner.spots x).head? = some z)
    (hn : 0 < n) (hg : Gives (clearTail x n) t v u) :
    ∃ seg', s.Adds w u seg' ∧ Changes w l s.planner z.Holds seg' ∧ ∀ (σ : Store w) vs, n ≤ z.size →
      vs.length ≤ n → (∀ k < n, ((runAll l seg σ).cells (z.address + k)).val = vs.getD k 0) →
        z.Shows (runAll l seg' σ) vs := by
  have hzt := hs.head h.toLater hz
  obtain rfl := h.steady.clearTail hzt hg
  rw [Nat.max_eq_left hn]
  have hsilent : ∀ i ∈ zeros (z.address + n) (z.size - n), i.Silent :=
    List.forall_mem_map.mpr fun _ _ => trivial
  have hzeros := h.steady.adds (w := w) hsilent
    (List.forall_mem_map.mpr fun _ _ => by simp [Instruction.Ranged])
  have hcz : Changes w l t.planner z.Holds (zeros (z.address + n) (z.size - n)) := by
    refine .of_all_silent hsilent (List.forall_mem_map.mpr fun c hc c' hc' _ => ?_)
    obtain rfl : c' = c := by simpa [Instruction.writes, Value.size, Value.cells] using hc'
    rw [List.mem_range'_1] at hc
    exact ⟨by omega, by omega⟩
  refine ⟨_, h.trans hzeros, hc.append hcz (fun _ => hs.claims h.toLater) fun _ _ => id,
    fun σ vs hle hlen hcells => ⟨hlen.trans hle, fun k hk => ?_⟩⟩
  rw [runAll_append, runAll_zeros]
  split_ifs with hin
  · rw [List.getD_eq_getElem?_getD, List.getElem?_eq_none (by omega)]
    rfl
  · exact hcells k (by omega)

/-- **The value of an expression is stored**: its spot shows it, if it is as long as was asked for.
-/
theorem Session.Steady.stores (hs : s.Steady) (hz : (s.planner.spots x).head? = some z) {e : Expr}
    {texts : Bool} (he : e.storable w texts = true) (hnames : OrdinaryNames e.mentions)
    (hroom : e.scalar w = true ∨ e.room s.room? ≤ z.size) (hn : 0 < n)
    (hg : Gives (do into e x; Lowering.clearTail x n) s v t) (hc : t.planner.Calm) :
    ∃ seg, s.Adds w t seg ∧ Changes w l s.planner z.Holds seg ∧
      ∀ (σ : Store w) read vs, s.planner.Reads σ read → e.eval? w read = some vs →
        n = e.room s.room? → n ≤ z.size → z.Shows (runAll l seg σ) vs := by
  obtain ⟨_, u, hinto, hclear⟩ := gives_bind.mp hg
  have hsees : ∀ y ∈ [x], s.Sees y := by
    rw [hs.head?_spots] at hz
    obtain ⟨b, hb, -⟩ := Option.map_eq_some_iff.mp hz
    exact List.forall_mem_singleton.mpr ⟨b, hb⟩
  have hheld := ((fills_into stable_precedes e x [x] (by simp) hs.held hsees).2 hinto).2.1
  have hcu := (keeps_clearTail stable_precedes).calm And.left hheld u.sees_nil hclear hc
  obtain ⟨seg, hadds, hchanges, hlands⟩ := lands he hnames hs hz hroom hinto hcu
  obtain ⟨seg', hadds', hchanges', hshows⟩ := hadds.cleared hs hchanges hz hn hclear
  refine ⟨seg', hadds', hchanges', fun σ read vs hr hv hnr hle => ?_⟩
  obtain ⟨hlen, hcells⟩ := hlands σ read vs hr hv
  exact hshows σ vs hle (hnr ▸ hlen) fun k hk => hcells k (hnr ▸ hk) (by omega)

/-! ### Rooms -/

theorem Expr.room_congr {e : Expr} {room? room?' : String → Option Nat}
    (h : ∀ x, e = .name x → room? x = room?' x) : e.room room? = e.room room?' := by
  unfold room
  split
  · rfl
  · next x => rw [h x rfl]
  · rfl

theorem Expr.scalar_or_room {e : Expr} {texts : Bool} (he : e.storable w texts = true)
    (room? room?' : String → Option Nat) :
    e.scalar w = true ∨ e.room room? = e.room room?' := by
  unfold storable at he
  split at he
  · exact Or.inr rfl
  · exact Or.inl he

/-! ### Sessions that are ready -/

/-- **A session to go on from**: steady, with the rooms noted, and each name with a kind. -/
structure Session.Ready (s : Session) (ρ : Env Nat) : Prop where
  steady : s.Steady
  rooms : s.planner.Aligned (fun z n => z.size = n) ρ
  kinds : ∀ x, Ordinary x → ∀ z ∈ s.planner.spots x, (s.kinds.lookup (x, z.scope)).isSome = true

/-- The planner has the values of a program **in its spots**, and what was printed is the same. -/
structure Planner.Shows (p : Planner) (σ : Store w) (a : Progress) : Prop where
  env : p.Aligned (fun z vs => z.Shows σ vs) a.env
  output : σ.output = a.output

namespace Session.Ready

theorem room?_eq (h : s.Ready ρ) (hx : Ordinary x) : s.room? x = ρ.value? x := by
  have hrel := h.rooms.head hx
  unfold Session.room?
  revert hrel
  generalize (s.planner.spots x).head? = z, ρ.value? x = k
  rintro (hz | _)
  · exact congrArg some hz
  · rfl

theorem room_eq (h : s.Ready ρ) {e : Expr} (hnames : OrdinaryNames e.mentions) :
    e.room s.room? = e.room ρ.value? :=
  Expr.room_congr fun x he => h.room?_eq (hnames (.read x) (by simp [he, Expr.mentions]) x rfl)

theorem of_eq (h : s.Ready ρ) (hp : t.planner = s.planner) (hk : t.kinds = s.kinds)
    (ht : t.temporaries = s.temporaries) : t.Ready ρ where
  steady := ⟨hp ▸ h.steady.held, hp ▸ h.steady.settled, by
    rw [hp, ht]
    exact h.steady.fresh⟩
  rooms := hp ▸ h.rooms
  kinds := by
    rw [hp, hk]
    exact h.kinds

theorem asked (h : s.Ready ρ) : s.asked.Ready ρ := h.of_eq rfl rfl rfl

/-- What is straight code and temporaries at most **leaves a session ready**. -/
theorem later (h : s.Ready ρ) (ht : t.Steady) (hst : s.Later t) : t.Ready ρ where
  steady := ht
  rooms := h.rooms.congr hst.scopes (fun x hx => hst.spots x (knows_of_ordinary hx))
    fun _ _ _ _ _ => id
  kinds x hx z hz := by
    rw [hst.spots x (knows_of_ordinary hx)] at hz
    rw [hst.kinds]
    exact h.kinds x hx z hz

theorem fits (h : s.Ready ρ) (hx : Ordinary x) {k : Nat} (hk : ρ.value? x = some k)
    (hn : n ≤ k) (hg : Gives (ensureCapacity x n) s a t) :
    (∃ z, (s.planner.spots x).head? = some z ∧ a = z.address ∧ n ≤ z.size) ∧ s.asked = t := by
  have hroom := h.room?_eq hx
  unfold Session.room? at hroom
  rw [hk, h.steady.head?_spots] at hroom
  rw [h.steady.head?_spots]
  rcases gives_ensureCapacity hg with ⟨hnone, -⟩ | ⟨b, hb, hle, rfl, rfl⟩ | ⟨moved, p, b, hp, -⟩
  · rw [hnone] at hroom
    cases hroom
  · rw [hb]
    exact ⟨⟨b.spot, rfl, rfl, hle⟩, rfl⟩
  · obtain ⟨old, -, hold, hlt, -⟩ := Planner.resize_eq_ok hp
    rw [hold] at hroom
    cases hroom
    exact absurd hn (Nat.not_le.mpr hlt)

/-- **A declared name gets a spot** with the room noted for it. -/
theorem gets (h : s.Ready ρ) (hx : Ordinary x) (hclaim : ρ.claim? x n (ρ.own? x) = some ρ')
    (hn : 0 < n) (hg : Gives (if (s.planner.visible? x).any (fun b => b.scope = s.planner.scope)
      then Lowering.ensureCapacity x n else allocate x n) s a t) (hc : t.planner.Calm) :
    ∃ z, s.planner.Gets x z t.planner ∧ a = z.address ∧ n ≤ z.size ∧ t.Steady ∧
      t.planner.Aligned (fun z n => z.size = n) ρ' ∧ t.program = s.program ∧ t.kinds = s.kinds ∧
        t.temporaries = s.temporaries := by
  have hnodup := h.steady.held.sound.indexed.scopes
  have hown := h.rooms.own hnodup hx
  split_ifs at hg with hany
  · -- the scope bound the name before
    obtain ⟨b, hb, hscope⟩ := (Option.any_eq_true ..).mp hany
    have hhead : (s.planner.spots x).head? = some b.spot := by
      rw [h.steady.head?_spots, hb, Option.map_some]
    obtain ⟨k, hk⟩ := Option.isSome_iff_exists.mp
      (hown.mp ⟨b.spot, hhead, of_decide_eq_true hscope⟩)
    rw [hk, Env.claim?] at hclaim
    split_ifs at hclaim with hle
    obtain rfl := Option.some.inj hclaim
    obtain ⟨⟨z, hz, rfl, hsize⟩, rfl⟩ := h.fits hx (Env.value?_of_own? hk) hle hg
    obtain rfl : b.spot = z := Option.some.inj (hhead.symm.trans hz)
    exact ⟨_, ⟨rfl, hhead, of_decide_eq_true hscope, Or.inl rfl⟩, rfl, hsize, h.asked.steady, h.rooms,
      rfl, rfl, rfl⟩
  · -- it gets a new spot
    have hno : ¬ ∃ z, (s.planner.spots x).head? = some z ∧ z.scope = s.planner.scope := by
      rintro ⟨z, hz, hscope⟩
      rw [h.steady.head?_spots] at hz
      obtain ⟨b, hb, rfl⟩ := Option.map_eq_some_iff.mp hz
      exact hany ((Option.any_eq_true ..).mpr ⟨b, hb, decide_eq_true hscope⟩)
    have hnone : ρ.own? x = none := Option.not_isSome_iff_eq_none.mp (hown.not.mp hno)
    rw [hnone] at hclaim
    obtain rfl := Option.some.inj hclaim
    obtain ⟨hheld, hmoves, hprogram, hkinds, htemps, hscopes, hcase⟩ := h.steady.allocate hg hc
    rcases hcase with ⟨z, hz, hscope, -⟩ | ⟨hnot, z, hscope, rfl, hsize, hnew, hother, -⟩
    · exact absurd ⟨z, hz, hscope⟩ hno
    have hgets : s.planner.Gets x z t.planner :=
      ⟨hscopes, by rw [hnew]; rfl, hscope, Or.inr ⟨hnot, hnew, hother⟩⟩
    have hz : z.size = n := by omega
    refine ⟨z, hgets, rfl, hz.ge, ⟨hheld, hmoves, fun k hk => ?_⟩,
      h.rooms.declared hnodup hx hgets hz fun _ _ _ _ _ => id, hprogram, hkinds, htemps⟩
    rw [hother _ (hx k).symm]
    exact h.steady.fresh k (htemps ▸ hk)

end Session.Ready

/-! ### Declaring -/

theorem gives_room {c : Prop} [Decidable c] {kind : DeclKind} {tag : String} {r : Session}
    {K : Nat → Lowering Unit} (hg : Gives (if c
      then ensureCapacity x n >>= fun a => (do
        let found ← block? x
        setKind x tag kind
        Lowering.bind x ⟨a, (found.map Block.size).getD n, kind⟩
        K a)
      else allocate x n >>= fun a => (do
        let found ← block? x
        setKind x tag kind
        Lowering.bind x ⟨a, (found.map Block.size).getD n, kind⟩
        K a)) r v t) : ∃ a s₁ s₂,
    Gives (if c then ensureCapacity x n else allocate x n) r a s₁ ∧
    s₂.planner = s₁.planner ∧ s₂.program.instructions = s₁.program.instructions ∧
    s₂.kinds = ((x, tag), kind) :: s₁.kinds ∧ s₂.temporaries = s₁.temporaries ∧
    Gives (K a) s₂ v t := by
  have hbehind : ∀ {a s₁}, Gives (do
      let found ← block? x
      setKind x tag kind
      Lowering.bind x ⟨a, (found.map Block.size).getD n, kind⟩
      K a) s₁ v t → ∃ s₂, s₂.planner = s₁.planner ∧
        s₂.program.instructions = s₁.program.instructions ∧
        s₂.kinds = ((x, tag), kind) :: s₁.kinds ∧ s₂.temporaries = s₁.temporaries ∧
        Gives (K a) s₂ v t := by
    intro a s₁ hg
    simp only [gives_bind, gives_block?, gives_setKind] at hg
    obtain ⟨_, _, ⟨rfl, rfl⟩, _, _, rfl, _, s₂, hbind, hg⟩ := hg
    obtain ⟨bindings, shadowed, rfl⟩ := gives_bindName hbind
    refine ⟨_, ?_, ?_, ?_, ?_, hg⟩ <;> rfl
  split_ifs at hg ⊢ with hc
  all_goals
    obtain ⟨a, s₁, hroom, hg⟩ := gives_bind.mp hg
    obtain ⟨s₂, hs₂⟩ := hbehind hg
    exact ⟨a, s₁, s₂, hroom, hs₂⟩

/-- What a declaration stores: **its value**, or a null in the first cell. -/
def initial (init : Option Expr) (x : String) (a : Nat) : Lowering Unit :=
  match init with
  | some e => into e x
  | none => emit (.setValue a .null)

/-- The cells that a declaration asks for. -/
def initialSize (init : Option Expr) : Lowering Nat :=
  match init with
  | some e => sizeOf e
  | none => pure 1

/-- A declaration **in steps**: the room is found, the name gets a spot and a kind, and then its
value is stored. -/
theorem gives_declare {kind : DeclKind} {init : Option Expr}
    (hg : Gives (declare kind x (init.map fun e => (e, into e))) s v t) : ∃ n r a s₁ s₂,
    Gives (initialSize init) s n r ∧
    Gives (if (s.planner.visible? x).any (fun b => b.scope = s.planner.scope)
      then ensureCapacity x n else allocate x n) r a s₁ ∧
    s₂.planner = s₁.planner ∧ s₂.program.instructions = s₁.program.instructions ∧
    s₂.kinds = ((x, s.planner.scope), kind) :: s₁.kinds ∧ s₂.temporaries = s₁.temporaries ∧
    Gives (do initial init x a; clearTail x n) s₂ v t := by
  unfold declare at hg
  dsimp only at hg
  simp only [gives_bind, gives_scope, gives_block?, gives_liveKind?] at hg
  obtain ⟨_, _, ⟨rfl, rfl⟩, _, _, ⟨rfl, rfl⟩, _, _, ⟨rfl, rfl⟩, hg⟩ := hg
  split at hg
  · simp at hg
  · cases init with
    | none =>
      obtain ⟨a, s₁, s₂, h⟩ := gives_room hg
      exact ⟨1, s, a, s₁, s₂, gives_pure.mpr ⟨rfl, rfl⟩, h⟩
    | some e =>
      obtain ⟨n, r, hsize, hg⟩ := gives_bind.mp hg
      obtain ⟨a, s₁, s₂, h⟩ := gives_room hg
      exact ⟨n, r, a, s₁, s₂, hsize, h⟩

/-! ### What is kept -/

/-- **More names in the innermost scope**, and nothing else about names. -/
structure Session.Opens (s t : Session) : Prop where
  scopes : t.planner.openScopes = s.planner.openScopes
  spots : ∀ x, Ordinary x → ∃ new, t.planner.spots x = new ++ s.planner.spots x ∧
    ∀ z ∈ new, z.scope = s.planner.scope

theorem Session.Opens.refl (s : Session) : s.Opens s := ⟨rfl, fun _ _ => ⟨[], rfl, by simp⟩⟩

theorem Planner.scope_congr (h : q.openScopes = p.openScopes) : q.scope = p.scope := by
  have hl := q.scope_eq_getLast
  rw [h, p.scope_eq_getLast] at hl
  exact (Option.some.inj hl).symm

theorem Session.Opens.trans (h : s.Opens t) (h' : t.Opens u) : s.Opens u where
  scopes := h'.scopes.trans h.scopes
  spots x hx := by
    obtain ⟨new, hnew, hscope⟩ := h.spots x hx
    obtain ⟨new', hnew', hscope'⟩ := h'.spots x hx
    refine ⟨new' ++ new, by rw [hnew', hnew, List.append_assoc], fun z hz => ?_⟩
    rcases List.mem_append.mp hz with hz | hz
    · exact (hscope' z hz).trans (Planner.scope_congr h.scopes)
    · exact hscope z hz

/-- **The same names with the same spots.** -/
structure Session.Restores (s t : Session) : Prop where
  scopes : t.planner.openScopes = s.planner.openScopes
  spots : ∀ x, Ordinary x → t.planner.spots x = s.planner.spots x

theorem Session.Restores.refl (s : Session) : s.Restores s := ⟨rfl, fun _ _ => rfl⟩

theorem Session.Restores.opens (h : s.Restores t) : s.Opens t :=
  ⟨h.scopes, fun x hx => ⟨[], h.spots x hx, by simp⟩⟩

theorem Session.Restores.trans (h : s.Restores t) (h' : t.Restores u) : s.Restores u :=
  ⟨h'.scopes.trans h.scopes, fun x hx => (h'.spots x hx).trans (h.spots x hx)⟩

theorem Session.Restores.of_eq {s' t' : Session} (h : s'.Restores t')
    (hs : s'.planner = s.planner) (ht : t'.planner = t.planner) : s.Restores t :=
  ⟨hs ▸ ht ▸ h.scopes, hs ▸ ht ▸ h.spots⟩

theorem Session.Later.restores (h : s.Later t) : s.Restores t :=
  ⟨h.scopes, fun x hx => h.spots x (Session.knows_of_ordinary hx)⟩

theorem Planner.Gets.opens (hgets : s.planner.Gets x z t.planner) : s.Opens t where
  scopes := hgets.scopes
  spots y hy := by
    rcases hgets.spots with hspots | ⟨-, hnew, hother⟩
    · exact ⟨[], by rw [hspots]; rfl, by simp⟩
    · by_cases hyx : y = x
      · exact ⟨[z], hyx ▸ hnew, by simpa using hgets.scope⟩
      · exact ⟨[], hother y hyx, by simp⟩

theorem isSome_lookup_cons {ks : List ((String × String) × DeclKind)} {key key' : String × String}
    {k : DeclKind} (h : key = key' ∨ (ks.lookup key).isSome = true) :
    (List.lookup key ((key', k) :: ks)).isSome = true := by
  rw [List.lookup_cons]
  split
  · rfl
  · next hne => exact h.resolve_left (by simpa using hne)

/-- **A value lands in the innermost spot of a name**, and the spots of all other bindings show what
they showed. -/
theorem Changes.beside (hc : Changes w l p z.Holds seg) (hp : p.Sound)
    (hz : (p.spots x).head? = some z) {z' : Spot} (hz' : z' ∈ p.beside x y) {vs : List Nat}
    (h : z'.Shows σ vs) : z'.Shows (runAll l seg σ) vs :=
  h.congr fun c hin => hc.cells σ c ⟨y, z', Planner.mem_spots_of_mem_beside hz', hin⟩
    fun hheld => hp.apart_spots hz hz' hheld hin

/-- Where a name gets a spot, the names that a declaration sees **have their values**. -/
theorem Planner.Gets.reads {η : Env (List Nat)} (hgets : p.Gets x z q)
    (h : p.Aligned (fun z vs => z.Shows σ vs) η) (hn : p.openScopes.Nodup) (hx : Ordinary x) :
    q.Reads σ (η.declaring x) ∧
      ∀ y vs, η.declaring x y = some vs → q.spots y = p.spots y := by
  have hown := h.own hn hx
  have hsame : ∀ y vs, η.declaring x y = some vs → q.spots y = p.spots y := fun y vs hv => by
    rcases hgets.spots with hspots | ⟨hnot, -, hother⟩
    · rw [hspots]
    · have hnone : (η.own? x).isNone = true := by
        rw [Option.isNone_iff_eq_none, ← Option.not_isSome_iff_eq_none, ← hown]
        rintro ⟨z', hz', hscope⟩
        exact hnot z' hz' hscope
      refine hother y fun hyx => ?_
      rw [Env.declaring, if_pos ⟨hyx, hnone⟩] at hv
      cases hv
  refine ⟨fun y vs z' hy hv hz' => ?_, hsame⟩
  rw [hsame y vs hv] at hz'
  have hvalue : η.value? y = some vs := by
    unfold Env.declaring at hv
    split_ifs at hv
    exact hv
  have hrel := h.head hy
  rw [hz', hvalue] at hrel
  cases hrel with
  | some hshows => exact hshows

theorem fills_initial {R₀ R : Session → Session → Prop} (h : Stable R₀ R) {init : Option Expr} :
    Keeps (Straightly R₀) [x] (initial init x a) := by
  unfold initial
  split
  · exact fills_into h _ x [x] (by simp)
  · exact keeps_emit h rfl (proper_of_no_operands rfl)

/-- **The value of a declaration** is shown by the spot that the name gets. -/
theorem declares (h : s.Ready ρ) (hx : Ordinary x) {init : Option Expr} {texts : Bool}
    (hinit : init.all (fun e => e.storable w texts) = true)
    (hnames : OrdinaryNames (Expr.mentionsOf? init)) (hgets : s.planner.Gets x z u.planner)
    (hu : u.Steady) (hn : n = (init.map (Expr.room ρ.value?)).getD 1) (hpos : 0 < n)
    (hroom : n ≤ z.size) (hg : Gives (do initial init x z.address; clearTail x n) u v t)
    (hc : t.planner.Calm) :
    ∃ seg, u.Adds w t seg ∧ Changes w l u.planner z.Holds seg ∧
      ∀ (σ : Store w) a b, s.planner.Shows σ a → a.declare? w x init = some b →
        ∃ vs, b = { a with env := a.env.declare x vs } ∧ z.Shows (runAll l seg σ) vs := by
  cases init with
  | none =>
    obtain rfl : n = 1 := hn
    simp only [initial, gives_bind, gives_emit] at hg
    obtain ⟨_, _, rfl, hg⟩ := hg
    obtain ⟨hadds, hchanges, hcells⟩ := lands_value (w := w) (l := l)
      hu (show Value.null.size ≤ z.size from hroom)
    obtain ⟨seg, hadds', hchanges', hshows⟩ := hadds.cleared hu hchanges hgets.head hpos hg
    refine ⟨seg, hadds', hchanges', fun σ a b _ hb => ⟨[0], (Option.some.inj hb).symm, ?_⟩⟩
    refine hshows σ [0] hroom (Nat.le_refl _) fun k hk => (hcells σ k hk).trans ?_
    rw [show Value.null.numbers w = [0] by cases w <;> rfl]
  | some e =>
    have hn' : n = e.room ρ.value? := hn
    have hroomE : e.scalar w = true ∨ e.room u.room? ≤ z.size :=
      (Expr.scalar_or_room hinit u.room? ρ.value?).imp_right fun he => by rwa [he, ← hn']
    obtain ⟨seg, hadds, hchanges, hshows⟩ :=
      hu.stores (l := l) hgets.head hinit hnames hroomE hpos hg hc
    refine ⟨seg, hadds, hchanges, fun σ a b ha hb => ?_⟩
    obtain ⟨vs, hv, hb⟩ := Option.bind_eq_some_iff.mp hb
    refine ⟨vs, (Option.some.inj hb).symm, ?_⟩
    obtain ⟨hreads, hsame⟩ := hgets.reads ha.env h.steady.held.sound.indexed.scopes hx
    refine hshows σ _ vs hreads hv ?_ hroom
    rw [hn', ← h.room_eq hnames]
    refine Expr.room_congr fun y hy => ?_
    subst hy
    unfold Session.room?
    rw [hsame y vs hv]

/-- **A session in which a program part is lowered leads to one** that is ready again, by code that
does what the part does, from any store that shows what is so before the part. -/
structure Session.Realizes (w : CellWidth) (l : Library) (D : Progress → Progress → Prop)
    (s t : Session) (ρ : Env Nat) : Prop where
  ready : t.Ready ρ
  opens : s.Opens t
  tree : ∃ u : CodeTree, t.program.instructions = s.program.instructions ++ u.flatten ∧
    u.Straight ∧ u.All (Instruction.Ranged w) ∧ ∀ (σ : Store w) a b, s.planner.Shows σ a → D a b →
      ∃ τ, u.Runs l σ τ ∧ t.planner.Shows τ b

/-- The same, by **straight code**. -/
structure Session.Leads (w : CellWidth) (l : Library) (D : Progress → Progress → Prop)
    (s t : Session) (ρ : Env Nat) : Prop where
  ready : t.Ready ρ
  opens : s.Opens t
  segment : ∃ seg, t.program.instructions = s.program.instructions ++ seg ∧ Straight seg ∧
    (∀ i ∈ seg, i.Ranged w) ∧ ∀ (σ : Store w) a b, s.planner.Shows σ a → D a b →
      t.planner.Shows (runAll l seg σ) b

namespace Session.Leads

variable {D : Progress → Progress → Prop}

theorem realizes (h : s.Leads w l D t ρ) : s.Realizes w l D t ρ where
  ready := h.ready
  opens := h.opens
  tree := by
    obtain ⟨seg, hcode, hstraight, hranged, hrun⟩ := h.segment
    exact ⟨.done seg, hcode, hstraight, hranged, fun σ a b ha hb => ⟨_, rfl, hrun σ a b ha hb⟩⟩

theorem of_eq (h : u.Leads w l D t ρ) (hp : u.planner = s.planner)
    (hc : u.program.instructions = s.program.instructions) : s.Leads w l D t ρ where
  ready := h.ready
  opens := ⟨hp ▸ h.opens.scopes, hp ▸ h.opens.spots⟩
  segment := by
    rw [← hp, ← hc]
    exact h.segment

end Session.Leads

/-- A declaration asks for **the room of its value**. -/
theorem Session.Ready.initialSize (h : s.Ready ρ) {init : Option Expr} {texts : Bool}
    (hinit : init.all (fun e => e.storable w texts) = true)
    (hnames : OrdinaryNames (Expr.mentionsOf? init)) (hg : Gives (initialSize init) s n t) :
    n = (init.map (Expr.room ρ.value?)).getD 1 ∧ s = t ∧ 0 < n := by
  cases init with
  | none =>
    obtain ⟨rfl, rfl⟩ := gives_pure.mp hg
    exact ⟨rfl, rfl, Nat.one_pos⟩
  | some e =>
    obtain ⟨hn, ht⟩ := h.steady.sizeOf hinit hg
    exact ⟨hn.trans (h.room_eq hnames), ht,
      ((respects_sizeOf stable_precedes h.steady.held s.sees_nil).2 hg).2.2.1⟩

/-- **Each name has a kind** still when the name that gets a spot has one. -/
theorem Planner.Gets.kinds (hgets : p.Gets x z q) (hx : Ordinary x)
    {ks : List ((String × String) × DeclKind)} {kind : DeclKind}
    (h : ∀ y, Ordinary y → ∀ z ∈ p.spots y, (ks.lookup (y, z.scope)).isSome = true) :
    ∀ y, Ordinary y → ∀ z ∈ q.spots y,
      (List.lookup (y, z.scope) (((x, p.scope), kind) :: ks)).isSome = true := by
  intro y hy z' hz'
  refine isSome_lookup_cons ?_
  rcases hgets.spots with hspots | ⟨-, hnew, hother⟩
  · rw [hspots] at hz'
    exact Or.inr (h y hy z' hz')
  by_cases hyx : y = x
  · rw [hyx, hnew] at hz'
    rcases List.mem_cons.mp hz' with rfl | hz'
    · exact Or.inl (by rw [hyx, hgets.scope])
    · exact Or.inr (hyx ▸ h x hx z' hz')
  · rw [hother y hyx] at hz'
    exact Or.inr (h y hy z' hz')

/-- **A declaration** stores its value in the spot that the name gets. -/
theorem leads_declare (h : s.Ready ρ) (hx : Ordinary x) {kind : DeclKind} {init : Option Expr}
    {texts : Bool} (hinit : init.all (fun e => e.storable w texts) = true)
    (hnames : OrdinaryNames (Expr.mentionsOf? init))
    (hclaim : ρ.claim? x ((init.map (Expr.room ρ.value?)).getD 1) (ρ.own? x) = some ρ')
    (hg : Gives (declare kind x (init.map fun e => (e, into e))) s v t) (hc : t.planner.Calm) :
    s.Leads w l (fun a b => a.declare? w x init = some b) t ρ' := by
  obtain ⟨n, r, a, s₁, s₂, hsize, hroom, hplanner, hcode, hkinds, htemps, hg⟩ := gives_declare hg
  obtain ⟨hn, rfl, hpos⟩ := h.initialSize hinit hnames hsize
  obtain ⟨hheld₁, hsees₁⟩ : s₁.planner.Held ∧ ∀ y ∈ [x], s₁.Sees y := by
    split_ifs at hroom
    · exact ((respects_ensureCapacity stable_precedes h.steady.held s.sees_nil).2 hroom).2.imp_right
        And.right
    · exact ((respects_allocate stable_precedes h.steady.held s.sees_nil).2 hroom).2.imp_right
        And.right
  have hcs₁ : s₁.planner.Calm := by
    rw [← hplanner] at hheld₁ ⊢
    have hsees₂ : ∀ y ∈ [x], s₂.Sees y := by
      unfold Session.Sees at hsees₁ ⊢
      rwa [hplanner]
    exact (keeps_clearBehind stable_precedes (fills_initial stable_precedes)).calm And.left hheld₁
      hsees₂ hg hc
  obtain ⟨z, hgets, rfl, hle, hs₁, hrooms, hprogram, hkinds₁, htemps₁⟩ :=
    h.gets hx (hn ▸ hclaim) hpos hroom hcs₁
  rw [← hplanner] at hgets hrooms
  have hs₂ : s₂.Steady := ⟨hplanner ▸ hs₁.held, hplanner ▸ hs₁.settled, fun k hk => by
    rw [hplanner]
    exact hs₁.fresh k (htemps ▸ hk)⟩
  obtain ⟨seg, hadds, hchanges, hshows⟩ :=
    declares (l := l) h hx hinit hnames hgets hs₂ hn hpos hle hg hc
  have hready : s₂.Ready ρ' := ⟨hs₂, hrooms, by
    rw [hkinds, hkinds₁]
    exact hgets.kinds hx h.kinds⟩
  refine ⟨hready.later hadds.steady hadds.toLater,
    hgets.opens.trans hadds.toLater.restores.opens, seg, ?_, hadds.straight, hadds.ranged,
    fun σ a b ha hb => ?_⟩
  · rw [hadds.code, hcode, hprogram]
  · obtain ⟨vs, rfl, hz⟩ := hshows σ a b ha hb
    have henv := ha.env.declared h.steady.held.sound.indexed.scopes hx hgets hz
      fun y _ z' hz' vs hvs => hchanges.beside hs₂.held.sound hgets.head hz' hvs
    exact ⟨henv.congr hadds.scopes (fun y hy => hadds.spots y (Session.knows_of_ordinary hy))
      fun _ _ _ _ _ => id, (hchanges.output σ).trans ha.output⟩

end TapeCompiler
