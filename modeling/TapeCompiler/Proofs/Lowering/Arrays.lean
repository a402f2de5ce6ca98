import TapeCompiler.Proofs.Cells.Running
import TapeCompiler.Proofs.Lowering.Gives

/-! # Array literals

An array literal stores its elements one after another from the first cell of the block on, and the
rest of the block is cleared. An element ends up as it was **unless it reads a cell that an element
in front of it was stored in** (`cells_storeAll_of_fresh`); one that does gets what is stored there
(`cells_storeAll_of_stale`). An empty literal stores nothing, and the clearing starts behind the
first cell, which keeps its number (`array_stored`). -/

namespace TapeCompiler

variable {w : CellWidth}

/-! ### Elements -/

namespace Store

/-- **An element is stored as it was**, if none in front of it is stored where it reads. -/
theorem cells_storeAll_of_fresh (σ : Store w) (a : Nat) {os : List Operand} {i : Nat} {o : Operand}
    (hi : os[i]? = some o) (hfresh : ∀ k < i, o.address? ≠ some (a + k)) :
    (σ.storeAll a os).cells (a + i) = σ.first o := by
  induction os generalizing σ a i with
  | nil => simp at hi
  | cons p rest ih =>
    cases i with
    | zero =>
      obtain rfl : p = o := Option.some.inj hi
      exact cells_storeAll_cons σ a p rest
    | succ i =>
      have hrest : ∀ k < i, o.address? ≠ some (a + 1 + k) := fun k hk => by
        rw [Nat.add_right_comm]
        exact hfresh (k + 1) (Nat.succ_lt_succ hk)
      rw [storeAll, ← Nat.add_assoc, Nat.add_right_comm, ih (σ.set a (σ.first p)) (a + 1) hi hrest]
      cases o with
      | value v => rfl
      | cells b len =>
        exact cells_set_of_ne _ _ fun he => hfresh 0 (Nat.succ_pos i) (congrArg some he)

/-- **An element that reads where one in front of it is stored** gets what is stored there. -/
theorem cells_storeAll_of_stale (σ : Store w) (a : Nat) {os : List Operand} {i k : Nat}
    {o : Operand} (hi : os[i]? = some o) (hk : k < i) (hstale : o.address? = some (a + k)) :
    (σ.storeAll a os).cells (a + i) = (σ.storeAll a os).cells (a + k) := by
  induction os generalizing σ a i k with
  | nil => simp at hi
  | cons p rest ih =>
    obtain ⟨i, rfl⟩ : ∃ j, i = j + 1 := ⟨i - 1, by omega⟩
    rw [storeAll, ← Nat.add_assoc, Nat.add_right_comm]
    cases k with
    | zero =>
      -- the first cell is stored in once, so the element finds there what stays there
      rw [Nat.add_zero] at hstale ⊢
      have hfresh : ∀ j < i, o.address? ≠ some (a + 1 + j) := fun j _ h => by
        have := Option.some.inj (hstale.symm.trans h)
        omega
      rw [cells_storeAll_of_fresh _ _ (show rest[i]? = some o from hi) hfresh,
        cells_storeAll _ _ _ (by simp [List.mem_range'_1])]
      cases o with
      | value v => cases hstale
      | cells b len =>
        obtain rfl := Option.some.inj hstale
        rfl
    | succ k =>
      rw [← Nat.add_assoc, Nat.add_right_comm a k]
      refine ih _ _ hi (Nat.lt_of_succ_lt_succ hk) ?_
      rw [hstale, Nat.add_right_comm]
      rfl

end Store

/-! ### The tail -/

/-- Zeros written into cells in a row. -/
def zeros (a n : Nat) : List Instruction := (List.range' a n).map fun c => .setValue c (.int 0)

theorem runAll_zeros {l : Library} (σ : Store w) (a n b : Nat) :
    (runAll l (zeros a n) σ).cells b = if a ≤ b ∧ b < a + n then 0 else σ.cells b := by
  induction n generalizing σ a with
  | zero =>
    rw [if_neg (by omega)]
    rfl
  | succ n ih =>
    have hset : runAll l (zeros a (n + 1)) σ = runAll l (zeros (a + 1) n) (σ.set a 0) := by
      rw [zeros, List.range'_succ, List.map_cons, runAll_cons]
      congr 1
    rw [hset, ih, Store.cells_set]
    split_ifs <;> first | rfl | omega

namespace Lowering

variable {s t : Session} {x : String}

theorem gives_forM_emit {f : Nat → Instruction} {cells : List Nat} {u : Unit} :
    Gives (cells.forM fun c => emit (f c)) s u t ↔
      t = { s with program := { s.program with
        instructions := s.program.instructions ++ cells.map f } } := by
  induction cells generalizing s with
  | nil => simp [eq_comm]
  | cons c rest ih =>
    show Gives (emit (f c) >>= fun _ => rest.forM fun c => emit (f c)) s u t ↔ _
    simp only [gives_bind, gives_emit, ih]
    simp [Session.add]

theorem gives_clearTail {first : Nat} {b : Block} (hb : s.planner.visible? x = some b) {u : Unit}
    (h : Gives (clearTail x first) s u t) :
    t.program.instructions = s.program.instructions ++
      zeros (b.address + max first 1) (b.size - max first 1) := by
  unfold clearTail at h
  simp only [gives_bind, gives_block?, hb] at h
  obtain ⟨_, _, ⟨rfl, rfl⟩, h⟩ := h
  rw [gives_forM_emit.mp h]
  rfl

/-- A resolved slot reads the planner only. -/
theorem gives_resolve {slot : Slot} {o : Operand} (h : Gives (resolve slot) s o t) : s = t := by
  cases slot with
  | value v => exact (gives_pure.mp h).2
  | named name len =>
    unfold resolve at h
    simp only [gives_bind, gives_address, gives_pure] at h
    obtain ⟨_, _, ⟨-, rfl⟩, -, rfl⟩ := h
    rfl

theorem gives_mapM_resolve {slots : List Slot} {os : List Operand}
    (h : Gives (slots.mapM resolve) s os t) : s = t ∧ os.length = slots.length := by
  induction slots generalizing os with
  | nil =>
    obtain ⟨rfl, rfl⟩ := gives_pure.mp (by simpa using h)
    exact ⟨rfl, rfl⟩
  | cons slot rest ih =>
    simp only [List.mapM_cons, gives_bind, gives_pure] at h
    obtain ⟨o, u, ho, os, v, hos, rfl, rfl⟩ := h
    obtain rfl := gives_resolve ho
    obtain ⟨rfl, hlen⟩ := ih hos
    exact ⟨rfl, by simp [hlen]⟩

theorem length_slotsOf {es : List Expr} {slots : List Slot} (h : Gives (slotsOf es) s slots t) :
    slots.length = es.length := by
  induction es generalizing s slots with
  | nil =>
    obtain ⟨rfl, -⟩ := gives_pure.mp (by simpa [slotsOf] using h)
    rfl
  | cons e es ih =>
    simp only [slotsOf, gives_bind, gives_pure] at h
    obtain ⟨slot, u, -, rest, v, hrest, rfl, rfl⟩ := h
    simp [ih hrest]

/-- **What an array literal leaves in its block**, its elements lowered before. An element is as it
was, or what is stored where it reads; behind the last the block is zero; with no element at all the
first cell keeps its number. -/
theorem array_stored {es : List Expr} {u : Unit}
    (h : Gives (do into (.array es) x; clearTail x (max es.length 1)) s u t) :
    ∃ slots mid elements b code, Gives (slotsOf es) s slots mid ∧
      Gives (slots.mapM resolve) mid elements mid ∧ mid.planner.visible? x = some b ∧
      t.program.instructions = mid.program.instructions ++ code ∧
      ∀ (w : CellWidth) (l : Library) (σ : Store w),
        (∀ i o, elements[i]? = some o → (∀ k < i, o.address? ≠ some (b.address + k)) →
          (runAll l code σ).cells (b.address + i) = σ.first o) ∧
        (∀ i k o, elements[i]? = some o → k < i → o.address? = some (b.address + k) →
          (runAll l code σ).cells (b.address + i) = (runAll l code σ).cells (b.address + k)) ∧
        (∀ i, max es.length 1 ≤ i → i < b.size →
          (runAll l code σ).cells (b.address + i) = 0) ∧
        (es = [] → (runAll l code σ).cells b.address = σ.cells b.address) := by
  simp only [into, gives_bind, gives_address, gives_emit] at h
  obtain ⟨_, _, ⟨slots, mid, hslots, elements, _, hmap, _, _, ⟨⟨b, hb, rfl⟩, rfl⟩, rfl⟩, htail⟩ := h
  obtain ⟨rfl, hlen⟩ := gives_mapM_resolve hmap
  have hclear := gives_clearTail (s := mid.add (.createArray b.address elements)) hb htail
  have hn : elements.length = es.length := hlen.trans (length_slotsOf hslots)
  refine ⟨slots, mid, elements, b, .createArray b.address elements ::
      zeros (b.address + max es.length 1) (b.size - max es.length 1), hslots, hmap, hb, ?_,
    fun w l σ => ?_⟩
  · rw [hclear]
    simp [Session.add]
  · have hstored : ∀ i < max es.length 1, (runAll l (.createArray b.address elements ::
        zeros (b.address + max es.length 1) (b.size - max es.length 1)) σ).cells (b.address + i) =
          (σ.storeAll b.address elements).cells (b.address + i) := fun i hi => by
      rw [runAll_cons, runAll_zeros, if_neg (by omega)]
      rfl
    have hlt : ∀ {i o}, elements[i]? = some o → i < es.length := fun hi =>
      hn ▸ (List.getElem?_eq_some_iff.mp hi).1
    refine ⟨fun i o hi hfresh => ?_, fun i k o hi hk hstale => ?_, fun i h1 h2 => ?_, ?_⟩
    · have := hlt hi
      rw [hstored i (by omega), σ.cells_storeAll_of_fresh b.address hi hfresh]
    · have := hlt hi
      rw [hstored i (by omega), hstored k (by omega),
        σ.cells_storeAll_of_stale b.address hi hk hstale]
    · rw [runAll_cons, runAll_zeros, if_pos (by omega)]
    · rintro rfl
      obtain rfl := List.length_eq_zero_iff.mp hn
      exact hstored 0 (by simp)

/-- Of a block of three cells the empty literal clears the last two. -/
theorem array_stored_of_empty :
    let p : Planner := ⟨{}, [], [], 0, 0, 0, [], 0, 0, heapBase, globalsBase, 0, 0, 0, [], 0⟩
    let s := start (p.allocate "x" 3 0).2 fun _ => 0
    ∃ t, Gives (do into (.array []) "x"; clearTail "x" 1) s () t ∧
      ∀ (w : CellWidth) (l : Library) (σ : Store w),
        let τ := runAll l t.program.instructions σ
        τ.cells 0 = σ.cells 0 ∧ τ.cells 1 = 0 ∧ τ.cells 2 = 0 := by
  intro p s
  let store : Lowering Unit := do into (.array []) "x"; clearTail "x" 1
  have hok : (store.run.run s).1 = .ok () := by decide +kernel
  have hgives : Gives store s () (store.run.run s).2 := Prod.ext hok rfl
  obtain ⟨slots, mid, elements, b, code, hslots, -, hb, hcode, hstored⟩ := array_stored hgives
  obtain ⟨-, rfl⟩ := gives_pure.mp (by simpa [slotsOf] using hslots)
  have hblock : s.planner.visible? "x" = some ⟨0, "x", 0, 3, true, rootScope, 1⟩ := by
    decide +kernel
  rw [hblock] at hb
  cases hb
  refine ⟨_, hgives, fun w l σ => ?_⟩
  obtain ⟨-, -, hcleared, hkept⟩ := hstored w l σ
  rw [hcode]
  exact ⟨hkept rfl, hcleared 1 (by decide) (by decide), hcleared 2 (by decide) (by decide)⟩

end Lowering

end TapeCompiler
