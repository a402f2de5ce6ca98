import TapeCompiler.Proofs.Lowering.Arrays
import TapeCompiler.Proofs.Lowering.Pieces

/-! # Where the value of an expression lands

The code of an expression, lowered in a steady session that stays calm, changes no cell that was
taken before but those of its target, and leaves the value of the expression there (`Expr.Lands`,
`lands`), whatever the cells held; an expression made an operand changes no such cell at all
(`Expr.Delivers`, `delivers_of_lands`). Both hold of every store, so the code may be run again in a
later round of a loop. -/

namespace TapeCompiler

open Lowering

variable {w : CellWidth} {l : Library} {s t u : Session} {z : Spot} {σ τ : Store w} {v : Unit}
  {seg : List Instruction} {x target : String} {o : Operator} {vs : List Nat}

/-! ### Operands -/

/-- The operand that a slot **stands for** in a session. -/
def Slot.At (u : Session) : Slot → Operand → Prop
  | .value v, op => op = .value v
  | .named x len, op => ∃ z, (u.planner.spots x).head? = some z ∧ 0 < len ∧ len ≤ z.size ∧
      op = .cells z.address len

/-- An operand **has a value** in a store. -/
def Operand.Has (σ : Store w) (vs : List Nat) : Operand → Prop
  | .value v => vs = v.numbers w
  | .cells a len => 0 < len ∧ σ.Contains a len vs

/-- An operand has **the form that an expression takes**: a literal stays a value, anything else
becomes cells. -/
def Operand.Suits (w : CellWidth) (e : Expr) : Operand → Prop
  | .value v => (∃ lit, e = .literal lit) ∧ (e.scalar w = true → v.InWidth w)
  | .cells .. => ∀ lit, e ≠ .literal lit

theorem Value.headD_numbers (v : Value) : (v.numbers w).headD 0 = (w.literal v.firstCell).val := by
  unfold numbers firstCell
  cases h : v.cells with
  | nil => exact absurd h v.cells_ne_nil
  | cons n rest => rfl

namespace Slot

variable {slot : Slot} {op op' : Operand}

theorem At.later (h : slot.At s op) (hs : s.Steady) (hl : s.Later t) : slot.At t op := by
  cases slot with
  | value v => exact h
  | named x len =>
    obtain ⟨z, hz, h⟩ := h
    exact ⟨z, hs.head hl hz, h⟩

theorem At.resolve (h : slot.At s op) (hs : s.Steady) (hg : Gives (Lowering.resolve slot) s op' t) :
    op = op' ∧ s = t := by
  cases slot with
  | value v =>
    obtain ⟨rfl, rfl⟩ := gives_pure.mp hg
    exact ⟨h, rfl⟩
  | named x len =>
    obtain ⟨a, u, ha, hg⟩ := gives_bind.mp hg
    obtain ⟨z, hz, -, -, rfl⟩ := h
    obtain ⟨rfl, rfl⟩ := hs.address_eq hz ha
    obtain ⟨rfl, rfl⟩ := gives_pure.mp hg
    exact ⟨rfl, rfl⟩

theorem At.same (h : slot.At s op) (hc : ∀ c, s.planner.Claims c → τ.cells c = σ.cells c) :
    τ.first op = σ.first op ∧ ∀ vs, op.Has σ vs → op.Has τ vs := by
  cases slot with
  | value v => exact h ▸ ⟨rfl, fun _ => id⟩
  | named x len =>
    obtain ⟨z, hz, hpos, hlen, rfl⟩ := h
    have hin : ∀ k < len, τ.cells (z.address + k) = σ.cells (z.address + k) := fun k hk =>
      hc _ ⟨x, z, List.mem_of_head? hz, Spot.holds_add (Nat.lt_of_lt_of_le hk hlen)⟩
    exact ⟨hin 0 hpos, fun vs hvs => ⟨hpos, hvs.2.congr hin⟩⟩

end Slot

theorem Operand.Has.first {op : Operand} (h : op.Has σ vs) : (σ.first op).val = vs.headD 0 := by
  cases op with
  | value v =>
    obtain rfl := h
    exact v.headD_numbers.symm
  | cells a len => exact h.2.head h.1

namespace Operand

variable {op : Operand} {e : Expr}

theorem Has.holds (h : op.Has σ vs) (hop : op.Suits w e) (he : e.scalar w = true) :
    σ.holds op = true ↔ vs.headD 0 ≠ 0 := by
  cases op with
  | value v =>
    obtain ⟨n, rfl, hn⟩ := hop.2 he
    obtain rfl := h
    rw [Value.headD_numbers, Store.holds, Value.truthy, decide_eq_true_eq, Value.firstCell]
    exact ((literal_eq_zero_iff hn).symm.trans Fin.ext_iff).not
  | cells a len =>
    rw [← h.first, Store.holds, decide_eq_true_eq, Store.first]
    exact Fin.ext_iff.not

/-- **What is shown of an operand** is what is shown of its expression. -/
theorem Has.shown (h : op.Has σ vs) (hop : op.Suits w e) :
    (σ.shown op).map Fin.val = e.shown vs := by
  cases op with
  | value v =>
    obtain ⟨⟨lit, rfl⟩, -⟩ := hop
    obtain rfl := h
    simp [Store.shown, Expr.shown, Value.numbers, CellWidth.literal, Function.comp_def]
  | cells a len =>
    have he : e.shown vs = vs.headD 0 :: vs.tail.filter fun v => v ≠ 0 := by
      unfold Expr.shown
      split
      · exact absurd rfl (hop _)
      · rfl
    have hrest : ((List.range' (a + 1) (len - 1)).map fun c => (σ.cells c).val).filter
        (fun v => v ≠ 0) = vs.tail.filter fun v => v ≠ 0 := by
      rw [h.2.tail.values, List.filter_append]
      simp
    have hzero : ∀ c : w.Cell, decide (c ≠ 0) = decide (c.val ≠ 0) := fun c =>
      decide_eq_decide.mpr Fin.ext_iff.not
    rw [he, ← hrest, ← h.first, Store.shown, List.map_cons, List.filter_map, List.map_map,
      List.filter_map]
    simp only [Function.comp_def, hzero]
    rfl

end Operand

/-! ### Operators -/

/-- **An operator on cells** computes the result that is asked for, if the right operand is needed
or not. -/
theorem Operator.val_onCells_of_choose {x y : w.Cell} {m : Option Nat} {n : Nat}
    (hy : ∀ k ∈ m, y.val = k) (h : o.choose? w.modulus x.val m = some n) :
    (o.onCells x y).val = n := by
  have hstrict : ∀ o : Operator, (m.bind fun k => o.result? w.modulus x.val k) = some n →
      (o.onCells x y).val = n := fun o ho => by
    obtain ⟨k, hk, hn⟩ := Option.bind_eq_some_iff.mp ho
    refine o.val_onCells x y ?_
    rw [hy k hk]
    exact hn
  cases o with
  | and =>
    refine Operator.val_onCells .and x y ?_
    rw [choose?] at h
    rw [result?]
    by_cases hx : x.val = 0
    · rw [if_neg (not_not.mpr hx)]
      rwa [if_pos hx] at h
    · rw [if_pos hx]
      rw [if_neg hx] at h
      exact congrArg some (hy n h)
  | or =>
    refine Operator.val_onCells .or x y ?_
    rw [choose?] at h
    rw [result?]
    by_cases hx : x.val = 0
    · rw [if_neg (not_not.mpr hx)]
      rw [if_pos hx] at h
      exact congrArg some (hy n h)
    · rw [if_pos hx]
      rwa [if_neg hx] at h
  | _ => exact hstrict _ h

/-- **An operator into a block**, behind its operands: one more cell is changed, to what the
operator makes of the first cells. -/
theorem adds_binary {segL segR : List Instruction} {left right : Slot} {opL opR : Operand}
    {sL sR : Session} (hs : s.Steady) (hz : (s.planner.spots target).head? = some z)
    (hL : s.Adds w sL segL) (hLat : left.At sL opL)
    (hLc : Changes w l s.planner (fun _ => False) segL)
    (hR : sL.Adds w sR segR) (hRat : right.At sR opR)
    (hRc : Changes w l sL.planner (fun _ => False) segR)
    (hw : ∀ a b, opL = .value a → opR = .value b → a.InWidth w ∧ b.InWidth w)
    (hg : Gives (do
      let left ← resolve left
      let right ← resolve right
      emit (.binary (← address target) o left right)) sR v t) :
    let seg := segL ++ segR ++ [.binary z.address o opL opR]
    s.Adds w t seg ∧ Changes w l s.planner (fun c => c = z.address) seg ∧
      ∀ σ : Store w, (runAll l seg σ).cells z.address =
        o.onCells ((runAll l segL σ).first opL) ((runAll l segR (runAll l segL σ)).first opR) := by
  simp only [gives_bind, gives_emit] at hg
  obtain ⟨_, _, hl, _, _, hr, a, _, ha, rfl⟩ := hg
  obtain ⟨rfl, rfl⟩ := (hLat.later hL.steady hR.toLater).resolve hR.steady hl
  obtain ⟨rfl, rfl⟩ := hRat.resolve hR.steady hr
  have hLR := hL.trans hR
  obtain ⟨rfl, rfl⟩ := hR.steady.address_eq (hs.head hLR.toLater hz) ha
  refine ⟨hLR.add rfl fun _ _ a b he => ?_, ?_, fun σ => ?_⟩
  · cases he
    exact hw a b rfl rfl
  · have hquiet := hLc.append hRc (fun _ => hs.claims hL.toLater) fun _ _ => id
    have hlast : Changes w l s.planner (fun c => c = z.address)
        [.binary z.address o opL opR] :=
      .of_silent trivial fun c hc _ => by simpa [Instruction.writes] using hc
    exact (hquiet.mono fun _ _ => False.elim).append hlast (fun _ => id) fun _ _ => id
  · have hkeep := (hLat.same fun c hc => hRc.cells (runAll l segL σ) c hc id).1
    rw [runAll_append, runAll_append, runAll_cons, runAll_nil, Instruction.effect,
      Store.cells_set_self, hkeep]

/-! ### Sizes -/

/-- The room of a name: that of its innermost spot. -/
def Session.room? (s : Session) (x : String) : Option Nat :=
  (s.planner.spots x).head?.map Spot.size

theorem Value.size_eq_one {v : Value} (h : ∀ s, v ≠ .str s) : v.size = 1 := by
  cases v with
  | str s => exact absurd rfl (h s)
  | _ => rfl

theorem arith_ne_str {f : Int64 → Int64 → Option Int64} {a b c : Value}
    (h : Value.arith f a b = some c) (s : String) : c ≠ .str s := by
  rintro rfl
  unfold Value.arith at h
  split at h
  · simp at h
  · cases h

theorem fold_ne_str {a b c : Value} (ha : ∀ s, a ≠ .str s) (hb : ∀ s, b ≠ .str s)
    (h : Value.fold o a b = some c) (s : String) : c ≠ .str s := by
  cases o with
  | add => exact arith_ne_str ((fold_add_of_numbers ha hb).symm.trans h) s
  | sub | mul | div | mod => exact arith_ne_str h s
  | and | or =>
    obtain rfl := Option.some.inj h
    split_ifs <;> first | exact ha s | exact hb s
  | eq | notEq =>
    obtain rfl := Option.some.inj h
    simp
  | lt | gt | ltEq | gtEq =>
    obtain ⟨k, -, rfl⟩ := Option.map_eq_some_iff.mp h
    simp

theorem Expr.constant?_ne_str : ∀ {e : Expr}, e.scalar w = true → ∀ {c : Value},
    e.constant? = some c → ∀ s, c ≠ .str s
  | .literal (.int n), _, c, h, s => by
    cases h
    simp
  | .binary o a b, he, c, h, s | .logical o a b, he, c, h, s => by
    simp only [scalar, Bool.and_eq_true] at he
    rw [constant?] at h
    split at h
    · next hx hy =>
      exact fold_ne_str (constant?_ne_str he.1 hx) (constant?_ne_str he.2 hy) h s
    · cases h
  | .name _, _, c, h, _ => by cases h
  | .literal (.float _), he, _, _, _ | .literal (.str _), he, _, _, _
  | .literal (.bool _), he, _, _, _ | .literal .null, he, _, _, _ | .call .., he, _, _, _
  | .member .., he, _, _, _ | .array _, he, _, _, _ | .assign .., he, _, _, _
  | .update .., he, _, _, _ => by cases he

theorem Session.Steady.room?_pos (hs : s.Steady) {k : Nat} (hk : s.room? x = some k) : 0 < k := by
  obtain ⟨z, hz, rfl⟩ := Option.map_eq_some_iff.mp hk
  exact hs.held.sound.size_pos (List.mem_of_head? hz)

theorem Session.Steady.room_pos (hs : s.Steady) (e : Expr) : 0 < e.room s.room? := by
  unfold Expr.room
  split
  · omega
  · next x =>
    cases hk : s.room? x with
    | none => exact Nat.one_pos
    | some k => exact hs.room?_pos hk
  · exact Nat.one_pos

/-- The size asked for a value is **its room**. -/
theorem Session.Steady.sizeOf (hs : s.Steady) {e : Expr} {texts : Bool}
    (he : e.storable w texts = true) {n : Nat} (hg : Gives (sizeOf e) s n t) :
    n = e.room s.room? ∧ s = t := by
  have hone : ∀ {e : Expr}, e.scalar w = true → (e.constant?.map Value.size).getD 1 = 1 := by
    intro e he
    cases hc : e.constant? with
    | none => rfl
    | some c => exact Value.size_eq_one (Expr.constant?_ne_str he hc)
  unfold Lowering.sizeOf at hg
  split at hg
  · exact gives_pure.mp hg
  · cases he
  · simp only [gives_bind, gives_block?, gives_pure] at hg
    obtain ⟨_, _, ⟨rfl, rfl⟩, rfl, rfl⟩ := hg
    refine ⟨?_, rfl⟩
    rw [Expr.room, Session.room?, hs.head?_spots, Option.map_map]
    rfl
  · obtain ⟨rfl, rfl⟩ := gives_pure.mp hg
    exact ⟨hone he, rfl⟩
  · obtain ⟨rfl, rfl⟩ := gives_pure.mp hg
    exact ⟨hone he, rfl⟩
  · next hstr harr hname hbin hlog =>
    obtain ⟨rfl, rfl⟩ := gives_pure.mp hg
    cases e with
    | literal lit =>
      cases lit with
      | str s => exact absurd rfl (hstr s)
      | _ => exact ⟨rfl, rfl⟩
    | name x => exact absurd rfl (hname x)
    | _ => exact ⟨rfl, rfl⟩

/-! ### Runs of cells -/

/-- Cells copied one by one. -/
def copies (a b n : Nat) : List Instruction :=
  (List.range n).map fun k => .copyValue (a + k) (b + k)

/-- **Cells copied** between two runs that are one or lie apart. -/
theorem runAll_copies (σ : Store w) {a b n : Nat}
    (h : ∀ j k, j < n → k < n → a + j = b + k → j = k) (c : Nat) :
    (runAll l (copies a b n) σ).cells c =
      if a ≤ c ∧ c < a + n then σ.cells (b + (c - a)) else σ.cells c := by
  induction n generalizing c with
  | zero =>
    rw [if_neg (by omega)]
    rfl
  | succ n ih =>
    have ih := ih fun j k hj hk => h j k (by omega) (by omega)
    -- the cell that is copied last was not written before
    have hsource : (runAll l (copies a b n) σ).cells (b + n) = σ.cells (b + n) := by
      refine (ih _).trans (if_neg fun hin => ?_)
      have := h (b + n - a) n (by omega) (by omega) (by omega)
      omega
    have hlast : runAll l (copies a b (n + 1)) σ =
        (runAll l (copies a b n) σ).set (a + n) (σ.cells (b + n)) := by
      rw [← hsource, copies, List.range_succ, List.map_append, runAll_append]
      rfl
    rw [hlast, Store.cells_set]
    split_ifs with hc hin hin
    · rw [hc, Nat.add_sub_cancel_left]
    · omega
    · rw [ih, if_pos (by omega)]
    · rw [ih, if_neg (by omega)]

theorem Store.val_setAll (σ : Store w) (a : Nat) (us : List w.Cell) {k : Nat} (hk : k < us.length) :
    ((σ.setAll a us).cells (a + k)).val = (us.map Fin.val).getD k 0 := by
  induction us generalizing σ a k with
  | nil => cases hk
  | cons u us ih =>
    cases k with
    | zero => exact congrArg Fin.val (σ.cells_setAll_cons a u us)
    | succ k =>
      rw [← Nat.add_assoc, Nat.add_right_comm]
      exact ih (σ.set a u) (a + 1) (Nat.lt_of_succ_lt_succ hk)

theorem Session.Steady.adds (hs : s.Steady) (hsilent : ∀ i ∈ seg, i.Silent)
    (hranged : ∀ i ∈ seg, i.Ranged w) : s.Adds w (s.addAll seg) seg where
  toLater := ⟨rfl, rfl, Nat.le_refl _, fun _ _ => rfl⟩
  steady := ⟨hs.held, hs.settled, hs.fresh⟩
  code := rfl
  straight i hi := (hsilent i hi).isFlow
  ranged := hranged

/-- A copy is between **the innermost spots** of two names. -/
theorem Session.Steady.copyVariable {zx : Spot} (hs : s.Steady)
    (hzx : (s.planner.spots x).head? = some zx) (hz : (s.planner.spots target).head? = some z)
    (hg : Gives (copyVariable x target) s v t) :
    t = s.addAll (copies z.address zx.address (min zx.size z.size)) := by
  rw [hs.head?_spots] at hzx hz
  obtain ⟨bx, hbx, rfl⟩ := Option.map_eq_some_iff.mp hzx
  obtain ⟨b, hb, rfl⟩ := Option.map_eq_some_iff.mp hz
  unfold Lowering.copyVariable at hg
  simp only [gives_bind, gives_block?] at hg
  obtain ⟨_, _, ⟨rfl, rfl⟩, _, _, ⟨rfl, rfl⟩, hg⟩ := hg
  simp only [hb, hbx] at hg
  exact gives_forM_emit.mp hg

/-- Clearing is behind the first cells of **the innermost spot** of a name. -/
theorem Session.Steady.clearTail {n : Nat} (hs : s.Steady)
    (hz : (s.planner.spots target).head? = some z) (hg : Gives (clearTail target n) s v t) :
    t = s.addAll (zeros (z.address + max n 1) (z.size - max n 1)) := by
  rw [hs.head?_spots] at hz
  obtain ⟨b, hb, rfl⟩ := Option.map_eq_some_iff.mp hz
  unfold Lowering.clearTail at hg
  simp only [gives_bind, gives_block?, hb] at hg
  obtain ⟨_, _, ⟨rfl, rfl⟩, hg⟩ := hg
  exact gives_forM_emit.mp hg

/-! ### Landing -/

/-- **The value of an expression lands in a spot**: lowered there, in a steady session that stays
calm, it is a piece that changes no other cell that was taken and leaves the numbers of the value,
as far as the spot has room for them. A text needs all its room. -/
def Expr.Lands (w : CellWidth) (l : Library) (e : Expr) : Prop :=
  ∀ ⦃s t : Session⦄ ⦃target : String⦄ ⦃z : Spot⦄ ⦃v : Unit⦄, s.Steady →
    (s.planner.spots target).head? = some z → e.scalar w = true ∨ e.room s.room? ≤ z.size →
    Gives (into e target) s v t → t.planner.Calm →
    ∃ seg, s.Adds w t seg ∧ Changes w l s.planner z.Holds seg ∧
      ∀ (σ : Store w) read vs, s.planner.Reads σ read → e.eval? w read = some vs →
        vs.length ≤ e.room s.room? ∧ ∀ k < e.room s.room?, k < z.size →
          ((runAll l seg σ).cells (z.address + k)).val = vs.getD k 0

/-- **An expression becomes an operand that has its value**: a value as it stands in the program,
else cells. -/
def Expr.Delivers (w : CellWidth) (l : Library) (e : Expr) : Prop :=
  ∀ ⦃s t : Session⦄ ⦃slot : Slot⦄, s.Steady → Gives (operandOf e) s slot t → t.planner.Calm →
    ∃ seg op, s.Adds w t seg ∧ Changes w l s.planner (fun _ => False) seg ∧ slot.At t op ∧
      op.Suits w e ∧
      ∀ (σ : Store w) read vs, s.planner.Reads σ read → e.eval? w read = some vs →
        op.Has (runAll l seg σ) vs

theorem Expr.storable_of_scalar {e : Expr} (h : e.scalar w = true) (texts : Bool) :
    e.storable w texts = true := by
  unfold storable
  split
  · cases h
  · exact h

/-- A value **written into a spot** that has room for it. -/
theorem lands_value {value : Value} (hs : s.Steady) (hroom : value.size ≤ z.size) :
    s.Adds w (s.add (.setValue z.address value)) [.setValue z.address value] ∧
      Changes w l s.planner z.Holds [.setValue z.address value] ∧ ∀ (σ : Store w), ∀ k < value.size,
        ((runAll l [.setValue z.address value] σ).cells (z.address + k)).val =
          (value.numbers w).getD k 0 := by
  refine ⟨hs.adds (by simp [Instruction.Silent]) (by simp [Instruction.Ranged]),
    .of_silent trivial fun c hc _ => ?_, fun σ k hk => ?_⟩
  · simp only [Instruction.writes, List.mem_range'_1] at hc
    exact ⟨hc.1, by omega⟩
  · refine (σ.val_setAll z.address (value.cells.map w.literal)
      (by rwa [List.length_map])).trans ?_
    rw [List.map_map]
    rfl

/-- **A name into a spot**: the cells that the two have in common are copied. -/
theorem lands_name (hx : Ordinary x) : (Expr.name x).Lands w l := by
  intro s t target z v hs hz _ hg _
  simp only [into, gives_bind, gives_discard] at hg
  obtain ⟨_, u, ⟨n, hread⟩, hg⟩ := hg
  obtain ⟨⟨zx, hzx, -⟩, hu, hsu, hprogram⟩ := hs.readVariable hread
  have hadds := hsu.adds (w := w) hu hprogram
  have hzu := hs.head hsu hz
  have hzxu := hs.head hsu hzx
  -- the two spots are one or lie apart
  have hapart : ∀ j k, j < min zx.size z.size → k < min zx.size z.size →
      z.address + j = zx.address + k → j = k := by
    intro j k hj hk he
    by_cases hsame : x = target
    · obtain rfl := hsame
      obtain rfl : z = zx := Option.some.inj (hzu.symm.trans hzxu)
      omega
    · have hbeside : zx ∈ u.planner.beside target x := by
        rw [Planner.beside, if_neg hsame]
        exact List.mem_of_head? hzxu
      have hout := hu.held.sound.apart_spots (c := z.address + j) hzu hbeside
        (Spot.holds_add (by omega))
      exact absurd (he ▸ Spot.holds_add (by omega)) hout
  have ht := hu.copyVariable hzxu hzu hg
  subst ht
  have hsilent : ∀ i ∈ copies z.address zx.address (min zx.size z.size), i.Silent :=
    List.forall_mem_map.mpr fun _ _ => trivial
  have hcopies := hu.adds (w := w) hsilent
    (List.forall_mem_map.mpr fun _ _ => by simp [Instruction.Ranged])
  refine ⟨_, hadds.trans hcopies, .of_all_silent hsilent ?_, fun σ read vs hr hv => ?_⟩
  · refine List.forall_mem_map.mpr fun k hk c hc _ => ?_
    obtain rfl := List.mem_singleton.mp hc
    rw [List.mem_range] at hk
    exact Spot.holds_add (by omega)
  · have hshows := hr x vs zx hx hv hzx
    have hroom : (Expr.name x).room s.room? = zx.size := by
      rw [Expr.room, Session.room?, hzx]
      rfl
    rw [hroom]
    refine ⟨hshows.1, fun k hk hkz => ?_⟩
    rw [List.nil_append, runAll_copies σ hapart, if_pos (by omega), Nat.add_sub_cancel_left]
    exact hshows.2 k hk

theorem gives_operator {left right : Lowering Slot}
    (hg : Gives (operator o left right target) s v t) : ∃ slotL sL slotR sR,
    Gives left s slotL sL ∧ Gives right sL slotR sR ∧ sR.planner = t.planner ∧
      Gives (do
        let left ← resolve slotL
        let right ← resolve slotR
        emit (.binary (← address target) o left right)) sR v t := by
  unfold operator at hg
  obtain ⟨slotL, sL, hl, hg⟩ := gives_bind.mp hg
  obtain ⟨slotR, sR, hr, hg⟩ := gives_bind.mp hg
  refine ⟨slotL, sL, slotR, sR, hl, hr, ?_, hg⟩
  simp only [gives_bind, gives_emit, gives_address] at hg
  obtain ⟨opL, _, hL, opR, _, hR, _, _, ⟨-, rfl⟩, rfl⟩ := hg
  rw [gives_resolve hL, gives_resolve hR]
  rfl

/-- **An operator into a spot**, if its operands are delivered. -/
theorem lands_operator {a b : Expr} (ha : a.Delivers w l) (hb : b.Delivers w l)
    (hsa : a.scalar w = true) (hsb : b.scalar w = true) (hs : s.Steady)
    (hz : (s.planner.spots target).head? = some z)
    (hg : Gives (operator o (operandOf a) (operandOf b) target) s v t) (hc : t.planner.Calm) :
    ∃ seg, s.Adds w t seg ∧ Changes w l s.planner z.Holds seg ∧
      ∀ (σ : Store w) read vs, s.planner.Reads σ read → (do
          let x ← a.eval? w read
          let n ← o.choose? w.modulus (x.headD 0) ((b.eval? w read).map fun y => y.headD 0)
          return [n]) = some vs →
        vs.length ≤ 1 ∧ ((runAll l seg σ).cells z.address).val = vs.getD 0 0 := by
  obtain ⟨slotL, sL, slotR, sR, hgl, hgr, hplanner, hg⟩ := gives_operator hg
  have hcR : sR.planner.Calm := hplanner ▸ hc
  have hheld := ((respects_operandOf stable_precedes hs.held s.sees_nil).2 hgl).2.1
  have hcL := (respects_operandOf stable_precedes).calm And.left hheld sL.sees_nil hgr hcR
  obtain ⟨segL, opL, hL, hLc, hLat, hLw, hLhas⟩ := ha hs hgl hcL
  obtain ⟨segR, opR, hR, hRc, hRat, hRw, hRhas⟩ := hb hL.steady hgr hcR
  obtain ⟨hadds, hchanges, hcell⟩ := adds_binary hs hz hL hLat hLc hR hRat hRc
    (fun x y hx hy => ⟨(hx ▸ hLw).2 hsa, (hy ▸ hRw).2 hsb⟩) hg
  refine ⟨_, hadds, hchanges.mono fun c _ hcz => ?_, fun σ read vs hr hv => ?_⟩
  · rw [hcz]
    exact Spot.holds_add (k := 0) (hs.held.sound.size_pos (List.mem_of_head? hz))
  · obtain ⟨x, hx, hv⟩ := Option.bind_eq_some_iff.mp hv
    obtain ⟨n, hn, hv⟩ := Option.bind_eq_some_iff.mp hv
    obtain rfl := Option.some.inj hv
    refine ⟨Nat.le_refl _, ?_⟩
    rw [hcell σ]
    refine Operator.val_onCells_of_choose (fun k hk => ?_) ((hLhas σ read x hr hx).first ▸ hn)
    obtain ⟨y, hy, rfl⟩ := Option.map_eq_some_iff.mp hk
    have hr' : sL.planner.Reads (runAll l segL σ) read :=
      hr.later hL.toLater fun c hc => hLc.cells σ c hc id
    exact (hRhas _ read y hr' hy).first

theorem delivers_value {lit : Literal} {value : Value}
    (hvalue : literalValue lit = pure value)
    (heval : ∀ read vs, (Expr.literal lit).eval? w read = some vs → vs = value.numbers w)
    (hwidth : (Expr.literal lit).scalar w = true → value.InWidth w) :
    (Expr.literal lit).Delivers w l := by
  intro s t slot hs hg _
  simp only [operandOf, operandVia, hvalue, gives_bind, gives_pure] at hg
  obtain ⟨_, _, ⟨rfl, rfl⟩, rfl, rfl⟩ := hg
  exact ⟨[], _, .refl hs, .nil, rfl, ⟨⟨lit, rfl⟩, hwidth⟩, fun σ read vs _ hv => heval read vs hv⟩

/-- A name is delivered as **all cells of its spot**. -/
theorem delivers_name (hx : Ordinary x) : (Expr.name x).Delivers w l := by
  intro s t slot hs hg _
  simp only [operandOf, operandVia, gives_bind, gives_pure] at hg
  obtain ⟨n, _, hread, rfl, rfl⟩ := hg
  obtain ⟨⟨z, hz, rfl⟩, ht, hst, hprogram⟩ := hs.readVariable hread
  have hpos := hs.held.sound.size_pos (List.mem_of_head? hz)
  refine ⟨[], .cells z.address z.size, hst.adds ht hprogram, .nil,
    ⟨z, hs.head hst hz, hpos, Nat.le_refl _, rfl⟩, by simp [Operand.Suits],
    fun σ read vs hr hv => ⟨hpos, hr x vs z hx hv hz⟩⟩

/-- **A piece that fills a temporary** changes no cell that was taken before it. -/
theorem Session.Steady.fillsTemporary {n : Nat} {tmp : String} (hs : s.Steady)
    (htmp : Gives (Lowering.temporary n) s tmp u) (hc : u.planner.Calm) :
    u.Steady ∧ s.Later u ∧ ∃ z, (u.planner.spots tmp).head? = some z ∧ z.size = max n 1 ∧
      ∀ {t seg}, u.Adds w t seg → Changes w l u.planner z.Holds seg →
        s.Adds w t seg ∧ Changes w l s.planner (fun _ => False) seg ∧
          (t.planner.spots tmp).head? = some z := by
  obtain ⟨hu, hsu, hprogram, hknows, z, hz, hsize, hapart⟩ := hs.temporary htmp hc
  have hhead : (u.planner.spots tmp).head? = some z := by rw [hz]; rfl
  refine ⟨hu, hsu, z, hhead, hsize, fun hadds hchanges => ⟨(hsu.adds hu hprogram).trans hadds,
    ⟨hchanges.output, fun σ c hc _ => hchanges.cells σ c (hs.claims hsu hc) (hapart c hc)⟩, ?_⟩⟩
  rwa [hadds.spots tmp hknows]

/-- **What lands is delivered** by way of a temporary. -/
theorem delivers_temporary {e : Expr} (he : e.scalar w = true) (h : e.Lands w l)
    (hroom : ∀ room?, e.room room? = 1) (hs : s.Steady) {slot : Slot}
    (hg : Gives (do
      let len ← sizeOf e
      let tmp ← temporary len
      into e tmp
      return Slot.named tmp len) s slot t) (hc : t.planner.Calm) :
    ∃ seg a, s.Adds w t seg ∧ Changes w l s.planner (fun _ => False) seg ∧
      slot.At t (.cells a 1) ∧ ∀ (σ : Store w) read vs, s.planner.Reads σ read →
        e.eval? w read = some vs → (Operand.cells a 1).Has (runAll l seg σ) vs := by
  simp only [gives_bind, gives_pure] at hg
  obtain ⟨len, _, hsize, tmp, u, htmp, _, _, hinto, rfl, rfl⟩ := hg
  obtain ⟨hlen, rfl⟩ := hs.sizeOf (Expr.storable_of_scalar he true) hsize
  obtain rfl : len = 1 := hlen.trans (hroom _)
  have hheld := (respects_temporary stable_precedes hs.held s.sees_nil).2 htmp
  have hcu := (fills_into stable_precedes e tmp [tmp] (by simp)).calm And.left hheld.2.1
    hheld.2.2.2 hinto hc
  obtain ⟨hu, hsu, z, hz, hzsize, hfills⟩ := hs.fillsTemporary (w := w) (l := l) htmp hcu
  obtain ⟨seg, hadds, hchanges, hlands⟩ := h hu hz (Or.inl he) hinto hc
  obtain ⟨hadds, hchanges, hzt⟩ := hfills hadds hchanges
  refine ⟨seg, z.address, hadds, hchanges, ⟨z, hzt, Nat.one_pos, by omega, rfl⟩,
    fun σ read vs hr hv => ⟨Nat.one_pos, ?_⟩⟩
  obtain ⟨hle, hcells⟩ := hlands σ read vs (hr.later hsu fun _ _ => rfl) hv
  rw [hroom] at hle hcells
  exact ⟨hle, fun k hk => hcells k hk (by omega)⟩

theorem delivers_of_lands : ∀ {e : Expr} {texts : Bool}, e.storable w texts = true →
    OrdinaryNames e.mentions → e.Lands w l → e.Delivers w l
  | .literal (.str str), _, _, _, _ =>
    delivers_value rfl (fun _ _ h => (Option.some.inj h).symm) fun h => nomatch h
  | .literal (.int n), _, he, _, _ => by
    refine delivers_value rfl (fun _ _ h => (Option.some.inj h).symm) fun _ => ⟨n, rfl, ?_⟩
    simpa [Expr.storable, Expr.scalar] using he
  | .name x, _, _, hnames, _ => delivers_name (hnames (.read x) (by simp [Expr.mentions]) x rfl)
  | .binary .., _, he, _, h | .logical .., _, he, _, h => by
    intro s t slot hs hg hc
    obtain ⟨seg, a, hadds, hchanges, hat, hhas⟩ :=
      delivers_temporary he h (fun _ => rfl) hs hg hc
    exact ⟨seg, .cells a 1, hadds, hchanges, hat, by simp [Operand.Suits], hhas⟩
  | .literal (.float _), _, he, _, _ | .literal (.bool _), _, he, _, _
  | .literal .null, _, he, _, _ | .call .., _, he, _, _ | .member .., _, he, _, _
  | .array _, _, he, _, _ | .assign .., _, he, _, _ | .update .., _, he, _, _ => by cases he

theorem lands_literal {lit : Literal} {value : Value} (hvalue : literalValue lit = pure value)
    (heval : ∀ read vs, (Expr.literal lit).eval? w read = some vs → vs = value.numbers w)
    (hroom : ∀ room?, (Expr.literal lit).room room? = value.size)
    (hone : (Expr.literal lit).scalar w = true → value.size = 1) :
    (Expr.literal lit).Lands w l := by
  intro s t target z v hs hz hfits hg _
  rw [hroom] at hfits
  have hsize : value.size ≤ z.size := hfits.elim
    (fun h => (hone h).trans_le (hs.held.sound.size_pos (List.mem_of_head? hz))) id
  simp only [into, hvalue, pure_bind, gives_bind, gives_emit] at hg
  obtain ⟨a, _, ha, rfl⟩ := hg
  obtain ⟨rfl, rfl⟩ := hs.address_eq hz ha
  obtain ⟨hadds, hchanges, hcells⟩ := lands_value (w := w) (l := l) hs hsize
  refine ⟨_, hadds, hchanges, fun σ read vs _ hv => ?_⟩
  rw [heval read vs hv, hroom]
  exact ⟨(List.length_map _).le, fun k hk _ => hcells σ k hk⟩

/-- **Expressions land** in the spot that they are lowered into. -/
theorem lands : ∀ {e : Expr} {texts : Bool}, e.storable w texts = true →
    OrdinaryNames e.mentions → e.Lands w l
  | .literal (.str str), _, _, _ => by
    refine lands_literal rfl (fun _ _ h => (Option.some.inj h).symm) (fun _ => ?_)
      fun h => nomatch h
    simp only [Expr.room, Value.size, Value.cells]
    split_ifs with hempty
    · rw [String.isEmpty_iff.mp hempty]
      rfl
    · rw [List.length_map, String.length_toList]
      have hne : str.length ≠ 0 := fun h => hempty (by simpa [String.isEmpty_iff] using h)
      omega
  | .literal (.int n), _, _, _ =>
    lands_literal rfl (fun _ _ h => (Option.some.inj h).symm) (fun _ => rfl) fun _ => rfl
  | .name x, _, _, hnames => lands_name (hnames (.read x) (by simp [Expr.mentions]) x rfl)
  | .binary o a b, _, he, hnames | .logical o a b, _, he, hnames => by
    simp only [Expr.storable, Expr.scalar, Bool.and_eq_true] at he
    rw [Expr.mentions, ordinaryNames_append] at hnames
    have ha := Expr.storable_of_scalar he.1 true
    have hb := Expr.storable_of_scalar he.2 true
    intro s t target z v hs hz _ hg hc
    obtain ⟨seg, hadds, hchanges, hvalue⟩ := lands_operator
      (delivers_of_lands ha hnames.1 (lands ha hnames.1))
      (delivers_of_lands hb hnames.2 (lands hb hnames.2)) he.1 he.2 hs hz hg hc
    refine ⟨seg, hadds, hchanges, fun σ read vs hr hv => ?_⟩
    obtain ⟨hle, hcell⟩ := hvalue σ read vs hr hv
    refine ⟨hle, fun k hk _ => ?_⟩
    obtain rfl : k = 0 := Nat.lt_one_iff.mp hk
    exact hcell
  | .literal (.float _), _, he, _ | .literal (.bool _), _, he, _ | .literal .null, _, he, _
  | .call .., _, he, _ | .member .., _, he, _ | .array _, _, he, _ | .assign .., _, he, _
  | .update .., _, he, _ => by cases he

end TapeCompiler
