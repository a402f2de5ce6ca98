import TapeCompiler.Proofs.Emission.Steps
import Mathlib.Data.Finset.Card
import Mathlib.Data.List.Basic

/-! # Open shapes

Where emission succeeds, as many shapes were opened as closed. Every shape is opened by an
instruction of its own, so every shape is also closed by one of its own (`last_injective`). As spans
do not cross, the shapes open at an index form a stack (`Opened`): the one that closes or turns
there is the innermost (`Opened.top`). -/

namespace TapeCompiler

/-! ### Invariants of emission -/

namespace Emitter

variable {e : Emitter} {plan : ControlPlan} {code : List Instruction} {t : Emission}

/-- **An invariant of the steps** of a successful emission holds at its end, where no shape is
open. -/
theorem run_invariant {I : Nat → Emission → Prop}
    (hstep : ∀ k i st st', code[k]? = some i → I k st → e.step plan code k i st = .ok st' →
      I (k + 1) (st'.write (.text "\n")))
    {st : Emission} (h₀ : I 0 st) (h : e.run plan code code.zipIdx st = (.ok (), t)) :
    I code.length t ∧ t.frames = [] := by
  suffices ∀ rest k st, code.drop k = rest → k ≤ code.length → I k st →
      e.run plan code (rest.zipIdx k) st = (.ok (), t) → I code.length t ∧ t.frames = [] from
    this code 0 st rfl (Nat.zero_le _) h₀ h
  intro rest
  induction rest with
  | nil =>
    intro k st hk hle hI hrun
    have : k = code.length := Nat.le_antisymm hle (List.drop_eq_nil_iff.mp hk)
    subst this
    rw [List.zipIdx_nil, run] at hrun
    split_ifs at hrun with hf
    · cases hrun
      exact ⟨hI, List.isEmpty_iff.mp hf⟩
    · simp at hrun
  | cons i rest ih =>
    intro k st hk hle hI hrun
    have hi : code[k]? = some i := by
      rw [← Nat.add_zero k, ← List.getElem?_drop, hk]
      rfl
    rw [List.zipIdx_cons, run] at hrun
    cases hs : e.step plan code k i st with
    | error f => rw [hs] at hrun; simp at hrun
    | ok st' =>
      rw [hs] at hrun
      refine ih (k + 1) _ ?_ (List.getElem?_eq_some_iff.mp hi).1 (hstep k i st st' hi hI hs) hrun
      rw [← List.drop_drop, hk]
      rfl

theorem frames_foldl_writePlain (l : List Instruction) (st : Emission) :
    (l.foldl e.writePlain st).frames = st.frames := by
  induction l generalizing st with
  | nil => rfl
  | cons i l ih => exact ih _

end Emitter

/-! ### Where shapes open, turn and close -/

namespace Shape

variable {code : List Instruction} {X Y : Shape}

theorem Valid.test_at (h : X.Valid code) :
    ∃ i, code[X.first]? = some i ∧
      ((∃ c out, i = .jumpUnless c out) ∨ ∃ c out, i = .branch c out) := by
  cases X with
  | loop l =>
    obtain ⟨c, out, hl⟩ := LoopShape.Valid.jumpUnless_at h
    exact ⟨_, hl, Or.inl ⟨c, out, rfl⟩⟩
  | branch b =>
    obtain ⟨c, out, hb⟩ := BranchShape.Valid.branch_at h
    exact ⟨_, hb, Or.inr ⟨c, out, rfl⟩⟩

theorem Valid.last_at (h : X.Valid code) :
    ∃ i, code[X.last]? = some i ∧ ((∃ out, i = .jump out) ∨ ∃ name, i = .label name) := by
  cases X with
  | loop l =>
    obtain ⟨out, hl, -⟩ := LoopShape.Valid.back_at h
    exact ⟨_, hl, Or.inl ⟨out, rfl⟩⟩
  | branch b =>
    obtain ⟨name, hb⟩ := BranchShape.Valid.stop_at h
    exact ⟨_, hb, Or.inr ⟨name, rfl⟩⟩

theorem Valid.first_ne_last (hX : X.Valid code) (hY : Y.Valid code) : X.first ≠ Y.last := by
  intro h
  obtain ⟨i, hi, hi'⟩ := hX.test_at
  obtain ⟨j, hj, hj'⟩ := hY.last_at
  rw [h, hj] at hi
  cases hi
  rcases hi' with ⟨c, out, rfl⟩ | ⟨c, out, rfl⟩ <;> rcases hj' with ⟨_, h⟩ | ⟨_, h⟩ <;> cases h

theorem Valid.turn_at (h : X.Valid code) {k : Nat} (hk : X.turn? = some k) :
    X.first < k ∧ k < X.last ∧ ∃ out, code[k]? = some (.jump out) ∧
      labelIndex? code out = some X.last := by
  cases X with
  | loop l => cases hk
  | branch b =>
    cases hk
    exact ⟨BranchShape.Valid.test_lt h, BranchShape.Valid.turn_lt h, BranchShape.Valid.turn_at h⟩

theorem Valid.first_ne_turn (hX : X.Valid code) (hY : Y.Valid code) : Y.turn? ≠ some X.first :=
  fun h => by
    obtain ⟨i, hi, hi'⟩ := hX.test_at
    obtain ⟨-, -, out, hj, -⟩ := hY.turn_at h
    rw [hj] at hi
    cases hi
    rcases hi' with ⟨_, _, h⟩ | ⟨_, _, h⟩ <;> cases h

/-- No shape closes where one turns: a jump does not go both ways. -/
theorem Valid.last_ne_turn (hX : X.Valid code) (hY : Y.Valid code) : Y.turn? ≠ some X.last :=
  fun h => by
    obtain ⟨-, hlt, out, hj, hout⟩ := hY.turn_at h
    cases X with
    | loop l =>
      obtain ⟨name, hb, hh⟩ := LoopShape.Valid.back_at hX
      have h₁ := LoopShape.Valid.head_lt hX
      have h₂ := LoopShape.Valid.test_lt hX
      rw [show code[l.back]? = _ from hj] at hb
      cases hb
      rw [hout] at hh
      have := Option.some.inj hh
      simp only [Shape.last] at hlt this
      omega
    | branch b =>
      obtain ⟨name, hb⟩ := BranchShape.Valid.stop_at hX
      rw [show code[b.stop]? = _ from hj] at hb
      cases hb

/-- Every index inside a shape, its turn apart, is inside one of its spans. -/
theorem Valid.exists_span (h : X.Valid code) {k : Nat} (hf : X.first < k) (hl : k < X.last)
    (ht : X.turn? ≠ some k) : ∃ t ∈ X.spans, X.first ≤ t.1 ∧ t.1 < k ∧ k < t.2 := by
  cases X with
  | loop l => exact ⟨(l.test, l.back), by simp [spans], Nat.le_refl _, hf, hl⟩
  | branch b =>
    have hk : b.turn ≠ k := fun he => ht (congrArg some he)
    have := BranchShape.Valid.test_lt h
    by_cases hb : k < b.turn
    · exact ⟨(b.test, b.turn), by simp [spans], Nat.le_refl _, hf, hb⟩
    · exact ⟨(b.turn, b.stop), by simp [spans], this.le, by simp only; omega, hl⟩

theorem Valid.last_eq_of_turn (hX : X.Valid code) (hY : Y.Valid code) {k : Nat}
    (h : X.turn? = some k) (h' : Y.turn? = some k) : X.last = Y.last := by
  obtain ⟨-, -, out, hj, hs⟩ := hX.turn_at h
  obtain ⟨-, -, out', hj', hs'⟩ := hY.turn_at h'
  rw [hj'] at hj
  cases hj
  exact Option.some.inj (hs.symm.trans hs')

end Shape

/-! ### Counting -/

theorem card_filter_lt_succ (A : Finset Nat) (k : Nat) :
    (A.filter (· < k + 1)).card = (A.filter (· < k)).card + if k ∈ A then 1 else 0 := by
  split_ifs with h
  · rw [← Finset.card_insert_of_notMem (a := k) (s := A.filter (· < k)) (by simp)]
    congr 1
    ext x
    simp only [Finset.mem_filter, Finset.mem_insert]
    constructor
    · rintro ⟨hx, hlt⟩
      rcases Nat.lt_succ_iff_lt_or_eq.mp hlt with h' | rfl
      · exact Or.inr ⟨hx, h'⟩
      · exact Or.inl rfl
    · rintro (rfl | ⟨hx, hlt⟩)
      · exact ⟨h, Nat.lt_succ_self _⟩
      · exact ⟨hx, Nat.lt_succ_of_lt hlt⟩
  · rw [Nat.add_zero]
    congr 1
    ext x
    simp only [Finset.mem_filter, and_congr_right_iff]
    intro hx
    have : x ≠ k := fun he => h (he ▸ hx)
    omega

namespace Emitter

variable {e : Emitter} {k : Nat} {st st' : Emission}

theorem closeLoop_eq_ok (h : e.closeLoop k st = .ok st') : ∃ flag test c rest,
    st.frames = .loop flag test c :: rest ∧ st' = (test.foldl e.writePlain
      { st with frames := rest }).write
        (.clear flag ++ .setBool e.scratch flag c ++ .closing flag) := by
  unfold closeLoop at h
  split at h
  · next flag test c rest hf => exact ⟨flag, test, c, rest, hf, (Except.ok.inj h).symm⟩
  · cases h

theorem switchBranch_eq_ok (h : switchBranch k st = .ok st') : ∃ first other rest,
    st.frames = .branch first other :: rest ∧ st' = st.write
      (.clear first ++ .closing first ++ .opening other ++ .sub other 1) := by
  unfold switchBranch at h
  split at h
  · next first other rest hf => exact ⟨first, other, rest, hf, (Except.ok.inj h).symm⟩
  · cases h

theorem closeBranch_eq_ok (h : closeBranch k st = .ok st') : ∃ first other rest,
    st.frames = .branch first other :: rest ∧
      st' = { st with frames := rest }.write (.closing other) := by
  unfold closeBranch at h
  split at h
  · next first other rest hf => exact ⟨first, other, rest, hf, (Except.ok.inj h).symm⟩
  · cases h

end Emitter

section Counting
variable {e : Emitter} {code : List Instruction} {t : Emission}

theorem length_step {k : Nat} {i : Instruction} {st st' : Emission} (hi : code[k]? = some i)
    (h : e.step (.of code) code k i st = .ok st') :
    st'.frames.length + (if ∃ X ∈ (ControlPlan.of code).shapes, X.last = k then 1 else 0) =
      st.frames.length + if ∃ X ∈ (ControlPlan.of code).shapes, X.first = k then 1 else 0 := by
  have hfirst : ∀ {X}, X ∈ (ControlPlan.of code).shapes → X.first = k →
      ¬ ∃ Y ∈ (ControlPlan.of code).shapes, Y.last = k := fun hX hk ⟨Y, hY, hk'⟩ =>
    (shapes_valid hX).first_ne_last (shapes_valid hY) (hk.trans hk'.symm)
  have hlast : ∀ {X}, X ∈ (ControlPlan.of code).shapes → X.last = k →
      ¬ ∃ Y ∈ (ControlPlan.of code).shapes, Y.first = k := fun hX hk ⟨Y, hY, hk'⟩ =>
    (shapes_valid hY).first_ne_last (shapes_valid hX) (hk'.trans hk.symm)
  rcases step_cases hi e st with ⟨l, c, out, hl, hk, -, hs⟩ | ⟨l, hl, hk, hs⟩ |
    ⟨b, c, label, hb, hk, -, hs⟩ | ⟨b, hb, hk, hs⟩ | ⟨b, hb, hk, hs⟩ | ⟨hq, hs⟩
  · rw [hs] at h
    obtain rfl := Except.ok.inj h
    rw [if_neg (hfirst hl hk), if_pos ⟨_, hl, hk⟩]
    rfl
  · rw [hs] at h
    obtain ⟨flag, test, c, rest, hf, rfl⟩ := Emitter.closeLoop_eq_ok h
    rw [if_pos ⟨_, hl, hk⟩, if_neg (hlast hl hk), hf]
    show (test.foldl e.writePlain _).frames.length + 1 = _
    rw [Emitter.frames_foldl_writePlain]
    rfl
  · rw [hs] at h
    obtain rfl := Except.ok.inj h
    rw [if_neg (hfirst hb hk), if_pos ⟨_, hb, hk⟩]
    rfl
  · rw [hs] at h
    obtain ⟨first, other, rest, hf, rfl⟩ := Emitter.switchBranch_eq_ok h
    rw [if_neg, if_neg]
    · rfl
    · rintro ⟨X, hX, rfl⟩
      exact (shapes_valid hX).first_ne_turn (shapes_valid hb) (congrArg some hk)
    · rintro ⟨X, hX, rfl⟩
      exact (shapes_valid hX).last_ne_turn (shapes_valid hb) (congrArg some hk)
  · rw [hs] at h
    obtain ⟨first, other, rest, hf, rfl⟩ := Emitter.closeBranch_eq_ok h
    rw [if_pos ⟨_, hb, hk⟩, if_neg (hlast hb hk), hf]
    rfl
  · rw [if_neg fun ⟨X, hX, hk⟩ => (hq X hX).2.1 hk, if_neg fun ⟨X, hX, hk⟩ => (hq X hX).1 hk]
    rcases hs with hs | hs
    all_goals
      rw [hs] at h
      obtain rfl := Except.ok.inj h
      rfl

/-- **Every shape is closed by an instruction of its own.** -/
theorem last_injective (h : e.run (.of code) code code.zipIdx .start = (.ok (), t)) {X Y : Shape}
    (hX : X ∈ (ControlPlan.of code).shapes) (hY : Y ∈ (ControlPlan.of code).shapes)
    (hXY : X.last = Y.last) : X = Y := by
  set F := (ControlPlan.of code).shapes.toFinset with hF
  have hmem : ∀ {f : Shape → Nat} {k : Nat},
      k ∈ F.image f ↔ ∃ X ∈ (ControlPlan.of code).shapes, f X = k := by
    simp [hF]
  -- as many frames are open as shapes were opened and not closed
  let I (k : Nat) (st : Emission) : Prop :=
    st.frames.length + ((F.image Shape.last).filter (· < k)).card =
      ((F.image Shape.first).filter (· < k)).card
  have hstep : ∀ k i st st', code[k]? = some i → I k st →
      e.step (.of code) code k i st = .ok st' → I (k + 1) (st'.write (.text "\n")) := by
    intro k i st st' hi hI hs
    have hlen := length_step hi hs
    simp only [I, card_filter_lt_succ, hmem, Emission.write] at hI ⊢
    omega
  obtain ⟨hcount, hframes⟩ := Emitter.run_invariant hstep (by simp [I, Emission.start]) h
  simp only [I, hframes] at hcount
  have hlt : ∀ X ∈ F, X.last < code.length := fun X hX =>
    (shapes_valid (List.mem_toFinset.mp hX)).last_lt
  have hlast : (F.image Shape.last).filter (· < code.length) = F.image Shape.last :=
    Finset.filter_true_of_mem fun k hk => by
      obtain ⟨X, hX, rfl⟩ := Finset.mem_image.mp hk
      exact hlt X hX
  have hfirst : (F.image Shape.first).filter (· < code.length) = F.image Shape.first :=
    Finset.filter_true_of_mem fun k hk => by
      obtain ⟨X, hX, rfl⟩ := Finset.mem_image.mp hk
      exact ((shapes_valid (List.mem_toFinset.mp hX)).first_lt).trans (hlt X hX)
  have hinj : (F.image Shape.first).card = F.card :=
    Finset.card_image_of_injOn fun X hX Y hY hXY =>
      (shapes_valid (by simpa [hF] using hX)).eq_of_first
        (shapes_valid (by simpa [hF] using hY)) hXY
  rw [hlast, hfirst, hinj, List.length_nil, Nat.zero_add] at hcount
  exact Finset.card_image_iff.mp hcount (by simpa [hF] using hX) (by simpa [hF] using hY) hXY

end Counting

/-! ### The stack of open shapes -/

/-- A plan whose shapes **nest**: they stand in the code, close one by one and do not cross. -/
structure ControlPlan.Nests (plan : ControlPlan) (code : List Instruction) : Prop where
  valid : ∀ X ∈ plan.shapes, X.Valid code
  last_injective : ∀ X ∈ plan.shapes, ∀ Y ∈ plan.shapes, X.last = Y.last → X = Y
  not_crosses : ∀ X ∈ plan.shapes, ∀ Y ∈ plan.shapes, X ≠ Y →
    ∀ s ∈ X.spans, ∀ t ∈ Y.spans, ¬ Crosses s t

/-- **The plan of a successful emission nests.** -/
theorem nests_of_run {e : Emitter} {code : List Instruction} {t : Emission}
    (h : e.run (.of code) code code.zipIdx .start = (.ok (), t)) :
    (ControlPlan.of code).Nests code where
  valid _ hX := shapes_valid hX
  last_injective _ hX _ hY := last_injective h hX hY
  not_crosses _ hX _ hY hne _ hs _ ht := not_crosses hX hY hne hs ht

/-- The shapes **open in front of an index**, the innermost first. -/
structure Opened (plan : ControlPlan) (k : Nat) (S : List Shape) : Prop where
  mem : ∀ X, X ∈ S ↔ X ∈ plan.shapes ∧ X.first < k ∧ k ≤ X.last
  sorted : S.Pairwise fun X Y => Y.first < X.first

namespace Opened

variable {plan : ControlPlan} {code : List Instruction} {k : Nat} {S : List Shape} {X : Shape}

theorem zero (plan : ControlPlan) : Opened plan 0 [] :=
  ⟨by simp, .nil⟩

variable (hp : plan.Nests code)
include hp

/-- **What closes or turns is the innermost shape**: the spans of one opened later would cross. -/
theorem top (h : Opened plan k S) (hX : X ∈ plan.shapes)
    (hk : X.last = k ∨ X.turn? = some k) : ∃ R, S = X :: R := by
  have hXv := hp.valid X hX
  have hopen : X.first < k ∧ k ≤ X.last := by
    rcases hk with rfl | hk
    · exact ⟨hXv.first_lt, Nat.le_refl _⟩
    · have := hXv.turn_at hk
      exact ⟨this.1, this.2.1.le⟩
  have hmem : X ∈ S := (h.mem X).mpr ⟨hX, hopen⟩
  cases S with
  | nil => simp at hmem
  | cons Y R =>
    rcases List.mem_cons.mp hmem with rfl | hXR
    · exact ⟨R, rfl⟩
    exfalso
    obtain ⟨hY, hYk, hkY⟩ := (h.mem Y).mp (by simp)
    have hXY : X.first < Y.first := List.rel_of_pairwise_cons h.sorted hXR
    have hne : X ≠ Y := fun he => by rw [he] at hXY; exact Nat.lt_irrefl _ hXY
    have hYv := hp.valid Y hY
    have hlast : k ≠ Y.last := by
      rcases hk with hk | hk
      · exact fun he => hne (hp.last_injective X hX Y hY (hk.trans he))
      · exact fun he => hYv.last_ne_turn hXv (he ▸ hk)
    have hturn : Y.turn? ≠ some k := by
      intro ht
      rcases hk with rfl | hk
      · exact hXv.last_ne_turn hYv ht
      · exact hne (hp.last_injective X hX Y hY (hXv.last_eq_of_turn hYv hk ht))
    -- a span of `X` that ends inside `Y` crosses one of `Y`
    have hcross : ∀ s ∈ X.spans, s.1 < Y.first → Y.first < s.2 → s.2 < Y.last →
        Y.turn? ≠ some s.2 → False := fun s hs h₁ h₂ h₃ h₄ => by
      obtain ⟨t, ht, h₅, h₆, h₇⟩ := hYv.exists_span h₂ h₃ h₄
      exact hp.not_crosses X hX Y hY hne s hs t ht (Or.inl ⟨by omega, h₆, h₇⟩)
    cases X with
    | loop l =>
      obtain rfl : l.back = k := hk.resolve_right (by simp [Shape.turn?])
      exact hcross (l.test, l.back) (by simp [Shape.spans]) hXY hYk
        (Nat.lt_of_le_of_ne hkY hlast) hturn
    | branch b =>
      have hturn' : Y.turn? ≠ some b.turn := fun ht =>
        hne (hp.last_injective _ hX Y hY (hXv.last_eq_of_turn hYv rfl ht))
      have hne' : Y.first ≠ b.turn := fun he => hYv.first_ne_turn hXv (congrArg some he.symm)
      have hlt : b.turn < b.stop := BranchShape.Valid.turn_lt hXv
      by_cases hb : Y.first < b.turn
      · refine hcross (b.test, b.turn) (by simp [Shape.spans]) hXY hb ?_ hturn'
        rcases hk with rfl | hk
        · exact Nat.lt_of_lt_of_le hlt hkY
        · obtain rfl := Option.some.inj hk
          exact Nat.lt_of_le_of_ne hkY hlast
      · rcases hk with rfl | hk
        · exact hcross (b.turn, b.stop) (by simp [Shape.spans]) (by simp only; omega) hYk
            (Nat.lt_of_le_of_ne hkY hlast) hturn
        · obtain rfl := Option.some.inj hk
          exact hb hYk

theorem push (h : Opened plan k S) (hX : X ∈ plan.shapes) (hk : X.first = k) :
    Opened plan (k + 1) (X :: S) := by
  have hlast : ∀ Y ∈ plan.shapes, Y.last ≠ k := fun Y hY he =>
    (hp.valid X hX).first_ne_last (hp.valid Y hY) (hk.trans he.symm)
  refine ⟨fun Y => ?_, List.pairwise_cons.mpr ⟨fun Y hY => ?_, h.sorted⟩⟩
  · rw [List.mem_cons, h.mem]
    constructor
    · rintro (rfl | ⟨hY, h₁, h₂⟩)
      · have := (hp.valid Y hX).first_lt
        exact ⟨hX, by omega, by omega⟩
      · have := hlast Y hY
        exact ⟨hY, by omega, by omega⟩
    · rintro ⟨hY, h₁, h₂⟩
      rcases Nat.lt_succ_iff_lt_or_eq.mp h₁ with h₁ | h₁
      · exact Or.inr ⟨hY, h₁, by omega⟩
      · exact Or.inl ((hp.valid Y hY).eq_of_first (hp.valid X hX) (h₁.trans hk.symm))
  · rw [hk]
    exact ((h.mem Y).mp hY).2.1

theorem pop (h : Opened plan k (X :: S)) (hk : X.last = k) : Opened plan (k + 1) S := by
  have hX := ((h.mem X).mp (by simp)).1
  have hfirst : ∀ Y ∈ plan.shapes, Y.first ≠ k := fun Y hY he =>
    (hp.valid Y hY).first_ne_last (hp.valid X hX) (he.trans hk.symm)
  have hnot : X ∉ S := fun hm =>
    Nat.lt_irrefl _ (List.rel_of_pairwise_cons h.sorted hm)
  refine ⟨fun Y => ?_, (List.pairwise_cons.mp h.sorted).2⟩
  constructor
  · intro hY
    obtain ⟨hYp, h₁, h₂⟩ := (h.mem Y).mp (by simp [hY])
    have : Y.last ≠ k := fun he => hnot (hp.last_injective Y hYp X hX (he.trans hk.symm) ▸ hY)
    exact ⟨hYp, by omega, by omega⟩
  · rintro ⟨hYp, h₁, h₂⟩
    have := hfirst Y hYp
    have hm := (h.mem Y).mpr ⟨hYp, by omega, by omega⟩
    rcases List.mem_cons.mp hm with rfl | hm
    · omega
    · exact hm

theorem turn_ne_of_first (h : Opened plan k S) (hX : X ∈ plan.shapes) (hk : X.first = k) :
    ∀ Y ∈ S, Y.turn? ≠ some k := fun Y hY =>
  hk ▸ (hp.valid X hX).first_ne_turn (hp.valid Y ((h.mem Y).mp hY).1)

theorem turn_ne_of_last (h : Opened plan k S) (hX : X ∈ plan.shapes) (hk : X.last = k) :
    ∀ Y ∈ S, Y.turn? ≠ some k := fun Y hY =>
  hk ▸ (hp.valid X hX).last_ne_turn (hp.valid Y ((h.mem Y).mp hY).1)

theorem turn_ne_of_turn (h : Opened plan k (X :: S)) (hk : X.turn? = some k) :
    ∀ Y ∈ S, Y.turn? ≠ some k := fun Y hY hk' => by
  have hX := ((h.mem X).mp (by simp)).1
  have hYp := ((h.mem Y).mp (by simp [hY])).1
  have he := hp.last_injective X hX Y hYp ((hp.valid X hX).last_eq_of_turn (hp.valid Y hYp) hk hk')
  exact Nat.lt_irrefl _ (he ▸ List.rel_of_pairwise_cons h.sorted hY)

omit hp in
theorem stay (h : Opened plan k S) (hfirst : ∀ Y ∈ plan.shapes, Y.first ≠ k)
    (hlast : ∀ Y ∈ plan.shapes, Y.last ≠ k) : Opened plan (k + 1) S := by
  refine ⟨fun Y => ?_, h.sorted⟩
  rw [h.mem]
  refine and_congr_right fun hY => ?_
  have := hfirst Y hY
  have := hlast Y hY
  omega

theorem turn (h : Opened plan k S) (hX : X ∈ plan.shapes) (hk : X.turn? = some k) :
    Opened plan (k + 1) S := by
  refine h.stay (fun Y hY hk' => ?_) fun Y hY hk' => ?_
  · exact (hp.valid Y hY).first_ne_turn (hp.valid X hX) (hk' ▸ hk)
  · exact (hp.valid Y hY).last_ne_turn (hp.valid X hX) (hk' ▸ hk)

end Opened

end TapeCompiler
