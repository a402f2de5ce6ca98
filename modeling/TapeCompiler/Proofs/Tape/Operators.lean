import TapeCompiler.Proofs.Tape.Literals

/-! # Operators on the tape

Each operator's code leaves the operator's result in its target and changes nothing else
(`runs_binary`), if the scratch cells are zero. The loops that compare and divide are read through
the families of stores they go through: `runs_lessThan` takes one cell off another as far as it
goes, `runs_divMod` keeps the quotient and the remainder of what was counted so far. -/

namespace TapeCompiler

variable {w : CellWidth}

/-- **The result of an operator** on two cells: arithmetic modulo the width, comparisons unsigned,
`&&` and `||` one of the two. By zero, a division gives zero and a remainder the dividend. -/
def Operator.onCells (o : Operator) (x y : w.Cell) : w.Cell :=
  match o with
  | .add => x + y
  | .sub => x - y
  | .mul => x * y
  | .div => x / y
  | .mod => x % y
  | .eq => if x = y then 1 else 0
  | .notEq => if x = y then 0 else 1
  | .lt => if x < y then 1 else 0
  | .gt => if y < x then 1 else 0
  | .ltEq => if y < x then 0 else 1
  | .gtEq => if x < y then 0 else 1
  | .and => if x = 0 then 0 else y
  | .or => if x = 0 then y else x

namespace CellWidth

@[simp] theorem cell_one : w.cell 1 = 1 := rfl

theorem one_ne_zero : (1 : w.Cell) ≠ 0 := cell_ne_zero Nat.one_ne_zero w.one_lt_modulus

theorem cell_eq_zero {n : Nat} (h : n < w.modulus) : w.cell n = 0 ↔ n = 0 :=
  ⟨fun h0 => by by_contra hn; exact cell_ne_zero hn h h0, fun h0 => by rw [h0]; rfl⟩

theorem cell_div (x y : w.Cell) : w.cell (x.val / y.val) = x / y := by
  apply Fin.ext
  rw [val_cell (lt_of_le_of_lt (Nat.div_le_self _ _) x.isLt)]
  rfl

theorem cell_mod (x y : w.Cell) : w.cell (x.val % y.val) = x % y := by
  apply Fin.ext
  rw [val_cell (lt_of_le_of_lt (Nat.mod_le _ _) x.isLt)]
  rfl

end CellWidth

/-- All scratch cells are zero. -/
def Scratch.Clean (s : Scratch) (σ : Store w) : Prop :=
  ∀ k < scratchCells, σ.cells (s.base + k) = 0

namespace Code

variable {σ ρ : Store w} {s : Scratch}

theorem ready_of_clean (h : s.Clean σ) : Ready σ s :=
  ⟨h 0 (by decide), h 2 (by decide), h 3 (by decide)⟩

theorem Runs.assoc {c d e : Code} {τ : Store w} (h : (c ++ (d ++ e)).Runs σ τ) :
    (c ++ d ++ e).Runs σ τ := by
  obtain ⟨ρ, hc, υ, hd, he⟩ := h
  exact ⟨υ, ⟨ρ, hc, hd⟩, he⟩

/-! ### Tests -/

theorem runs_isNonzero {test target : Nat} (h : test ≠ target) :
    (isNonzero test target).Runs ρ
      ((ρ.set test 0).set target (if ρ.cells test = 0 then 0 else 1)) := by
  refine Runs.seq (runs_clear target) ?_
  have ht : (ρ.set target 0).cells test = ρ.cells test := Store.cells_set_of_ne _ _ h
  split_ifs with h0
  · refine (runs_loop_zero (ht.trans h0)).to (Store.ext (fun x => ?_) rfl rfl)
    simp only [Store.cells_set]
    grind
  · refine (runs_loop_once (by rw [ht]; exact h0) (Runs.seq (runs_clear _) (runs_add _ _))
      (by simp [Store.cells_set, h])).to (Store.ext (fun x => ?_) rfl rfl)
    simp only [Store.cells_set, CellWidth.cell_one]
    grind

theorem runs_isZero {test target : Nat} (h : test ≠ target) :
    (isZero test target).Runs ρ
      ((ρ.set test 0).set target (if ρ.cells test = 0 then 1 else 0)) := by
  refine Runs.seq (Runs.seq (runs_clear target) (runs_add _ _)) ?_
  have ht : ((ρ.set target 0).set target ((ρ.set target 0).cells target + w.cell 1)).cells test =
      ρ.cells test := by simp [Store.cells_set, h]
  split_ifs with h0
  · refine (runs_loop_zero (ht.trans h0)).to (Store.ext (fun x => ?_) rfl rfl)
    simp only [Store.cells_set, CellWidth.cell_one]
    grind
  · refine (runs_loop_once (by rw [ht]; exact h0) (Runs.seq (runs_clear _) (runs_sub _ _))
      (by simp [Store.cells_set, h])).to (Store.ext (fun x => ?_) rfl rfl)
    simp only [Store.cells_set, CellWidth.cell_one]
    grind

/-! ### Comparing -/

theorem runs_drop {b g h t : Nat} (hbg : b ≠ g) (hbh : b ≠ h) (hgh : g ≠ h) (hgt : g ≠ t)
    (hg : ρ.cells g = 0) (hh : ρ.cells h = 0) :
    (copyAdd b g h ++ loop g (clear g ++ sub t 1)).Runs ρ
      (if ρ.cells b = 0 then ρ else ρ.set t (ρ.cells t - 1)) := by
  refine Runs.seq (runs_copyAdd hbg hbh hgh hh) ?_
  rw [hg, zero_add]
  split_ifs with h0
  · rw [h0, Store.set_eq_self hg]
    exact runs_loop_zero hg
  · refine (runs_loop_once (by rwa [Store.cells_set_self]) (Runs.seq (runs_clear _) (runs_sub _ _))
      (by simp [Store.cells_set, hgt])).to (Store.ext (fun x => ?_) rfl rfl)
    simp only [Store.cells_set, CellWidth.cell_one]
    grind

/-- **Comparing** takes one cell off another, as far as it goes. -/
theorem runs_lessThan (hg : ρ.cells s.g = 0) (hh : ρ.cells s.h = 0) :
    (lessThan s).Runs ρ
      ((ρ.set s.a 0).set s.b (w.cell ((ρ.cells s.b).val - (ρ.cells s.a).val))) := by
  have hab : s.a ≠ s.b := by simp [Scratch.a, Scratch.b]
  have hag : s.a ≠ s.g := by simp [Scratch.a, Scratch.g]
  have hbg : s.b ≠ s.g := by simp [Scratch.b, Scratch.g]
  have hah : s.a ≠ s.h := by simp [Scratch.a, Scratch.h]
  have hbh : s.b ≠ s.h := by simp [Scratch.b, Scratch.h]
  have hgh : s.g ≠ s.h := by simp [Scratch.g, Scratch.h]
  generalize hx : ρ.cells s.a = x
  generalize hy : ρ.cells s.b = y
  refine runs_countdown_cells (fun k => (ρ.set s.a (w.cell k)).set s.b
    (w.cell (y.val - (x.val - k)))) ?_ (by simp) (fun k => by simp [Store.cells_set, hab])
    fun k hk => ?_
  · refine Store.ext (fun i => ?_) rfl rfl
    simp only [Store.cells_set, hx, Nat.sub_self, Nat.sub_zero, CellWidth.cell_val]
    grind
  · rw [hx] at hk
    have hy' := y.isLt
    generalize hn : y.val - (x.val - (k + 1)) = n
    have hk' : y.val - (x.val - k) = n - 1 := by omega
    have hlt : n < w.modulus := by omega
    have hsub : (sub s.a 1).Runs ((ρ.set s.a (w.cell (k + 1))).set s.b (w.cell n))
        ((ρ.set s.a (w.cell k)).set s.b (w.cell n)) := by
      refine (runs_sub _ _).to (Store.ext (fun i => ?_) rfl rfl)
      simp only [Store.cells_set, CellWidth.cell_succ k]
      grind
    refine Runs.assoc (Runs.seq hsub ((runs_drop hbg hbh hgh hbg.symm ?_ ?_).to ?_))
    · simpa [Store.cells_set, hag.symm, hbg.symm] using hg
    · simpa [Store.cells_set, hah.symm, hbh.symm] using hh
    · rw [Store.cells_set_self, hk']
      split_ifs with h0
      · rw [(CellWidth.cell_eq_zero hlt).mp h0]
      · rw [CellWidth.cell_eq_zero hlt] at h0
        rw [Store.set_set, ← CellWidth.cell_one, ← CellWidth.cell_succ_sub (n - 1),
          Nat.sub_add_cancel (by omega)]

/-! ### Dividing -/

theorem div_mod_succ {i m : Nat} (hm : i % m + 1 ≠ m) :
    (i + 1) / m = i / m ∧ (i + 1) % m = i % m + 1 := by
  rcases Nat.eq_zero_or_pos m with rfl | hpos
  · simp
  · have := Nat.mod_lt i hpos
    have := Nat.mod_add_div i m
    exact (Nat.div_mod_unique hpos).mpr ⟨by omega, by omega⟩

theorem div_mod_succ_of_eq {i m : Nat} (hm : i % m + 1 = m) :
    (i + 1) / m = i / m + 1 ∧ (i + 1) % m = 0 := by
  have := Nat.mod_add_div i m
  refine (Nat.div_mod_unique (by omega)).mpr ⟨?_, by omega⟩
  rw [Nat.mul_add]
  omega

/-- What a division has found when `i` of the dividend are counted and `k` are left. -/
def counted (s : Scratch) (ρ : Store w) (m k i : Nat) : Store w :=
  ((((ρ.set s.a (w.cell k)).set s.b (w.cell m)).set s.c (w.cell m - w.cell (i % m))).set s.d
    (w.cell (i / m))).set s.e (w.cell (i % m))

theorem cell_sub_eq_zero {m n : Nat} (hm : m < w.modulus) (hn : n < w.modulus) :
    w.cell m - w.cell n = 0 ↔ n = m := by
  rw [sub_eq_zero]
  refine ⟨fun h => ?_, fun h => by rw [h]⟩
  have := congrArg Fin.val h
  rw [CellWidth.val_cell hm, CellWidth.val_cell hn] at this
  exact this.symm

theorem runs_count {m k i : Nat} (hf : ρ.cells s.f = 0) (hg : ρ.cells s.g = 0)
    (hh : ρ.cells s.h = 0) (hm : m < w.modulus) (hi : i + 1 < w.modulus) :
    (sub s.a 1 ++ sub s.c 1 ++ add s.e 1 ++ add s.f 1 ++ copyAdd s.c s.g s.h
      ++ loop s.g (clear s.g ++ sub s.f 1)
      ++ loop s.f (add s.d 1 ++ clear s.e ++ copyAdd s.b s.c s.g ++ sub s.f 1)).Runs
      (counted s ρ m (k + 1) i) (counted s ρ m k (i + 1)) := by
  -- what is left of the divisor after one more unit, zero at a multiple
  have hzero : w.cell m - w.cell (i % m) - 1 = 0 ↔ i % m + 1 = m := by
    rw [sub_sub, ← CellWidth.cell_one, ← CellWidth.cell_succ]
    exact cell_sub_eq_zero hm (lt_of_le_of_lt (Nat.succ_le_succ (Nat.mod_le i m)) hi)
  generalize hr : w.cell m - w.cell (i % m) - 1 = r at hzero
  have hsteps : (sub s.a 1 ++ sub s.c 1 ++ add s.e 1 ++ add s.f 1).Runs
      (counted s ρ m (k + 1) i)
      ((((counted s ρ m k i).set s.c r).set s.e (w.cell (i % m) + 1)).set s.f 1) := by
    refine Runs.seq (Runs.seq (Runs.seq (runs_sub _ _) (runs_sub _ _)) (runs_add _ _))
      ((runs_add _ _).to (Store.ext (fun x => ?_) rfl rfl))
    simp only [counted, Store.cells_set, CellWidth.cell_succ k, CellWidth.cell_one, ← hr,
      Scratch.a, Scratch.b, Scratch.c, Scratch.d, Scratch.e, Scratch.f] at hf ⊢
    grind
  generalize hτ : (((counted s ρ m k i).set s.c r).set s.e (w.cell (i % m) + 1)).set s.f 1 = τ
    at hsteps
  have hτg : τ.cells s.g = 0 := by
    rw [← hτ]
    simpa [counted, Store.cells_set, Scratch.a, Scratch.b, Scratch.c, Scratch.d, Scratch.e,
      Scratch.f, Scratch.g] using hg
  have hτh : τ.cells s.h = 0 := by
    rw [← hτ]
    simpa [counted, Store.cells_set, Scratch.a, Scratch.b, Scratch.c, Scratch.d, Scratch.e,
      Scratch.f, Scratch.h] using hh
  have hτc : τ.cells s.c = r := by
    rw [← hτ]
    simp [Store.cells_set, Scratch.c, Scratch.e, Scratch.f]
  have hτf : τ.cells s.f = 1 := by rw [← hτ, Store.cells_set_self]
  refine Runs.seq (Runs.assoc (Runs.seq hsteps (runs_drop (by simp [Scratch.c, Scratch.g])
    (by simp [Scratch.c, Scratch.h]) (by simp [Scratch.g, Scratch.h])
    (by simp [Scratch.g, Scratch.f]) hτg hτh))) ?_
  rw [hτc, hτf, sub_self]
  split_ifs with h0
  · -- a multiple: the quotient grows and the divisor is copied again
    obtain ⟨hdiv, hmod⟩ := div_mod_succ_of_eq (hzero.mp h0)
    refine runs_loop_once (by rw [hτf]; exact CellWidth.one_ne_zero) (Runs.seq (Runs.seq (Runs.seq
      (runs_add _ _) (runs_clear _)) (runs_copyAdd (by simp [Scratch.b, Scratch.c])
      (by simp [Scratch.b, Scratch.g]) (by simp [Scratch.c, Scratch.g]) ?_)) ((runs_sub _ _).to
      (Store.ext (fun x => ?_) (by rw [← hτ]; rfl) (by rw [← hτ]; rfl)))) ?_
    · simpa [Store.cells_set, Scratch.d, Scratch.e, Scratch.g] using hτg
    · rw [← hτ]
      simp only [counted, Store.cells_set, hdiv, hmod, CellWidth.cell_succ (i / m), h0,
        CellWidth.cell_one, CellWidth.cell_zero, sub_zero,
        Scratch.a, Scratch.b, Scratch.c, Scratch.d, Scratch.e, Scratch.f] at hf ⊢
      grind
    · simpa [counted, Store.cells_set, Scratch.a, Scratch.b, Scratch.c, Scratch.d, Scratch.e,
        Scratch.f] using hf
  · obtain ⟨hdiv, hmod⟩ := div_mod_succ (mt hzero.mpr h0)
    refine (runs_loop_zero (by rw [Store.cells_set_self])).to (Store.ext (fun x => ?_)
      (by rw [← hτ]; rfl) (by rw [← hτ]; rfl))
    rw [← hτ]
    simp only [counted, Store.cells_set, hdiv, hmod, CellWidth.cell_succ (i % m), ← hr,
      CellWidth.cell_one, Scratch.a, Scratch.b, Scratch.c, Scratch.d, Scratch.e, Scratch.f] at hf ⊢
    grind

/-- **Dividing** counts the dividend and starts a new remainder at every multiple of the divisor. -/
theorem runs_divMod (h : ∀ x ∈ [s.c, s.d, s.e, s.f, s.g, s.h], ρ.cells x = 0) :
    (divMod s).Runs ρ ((((ρ.set s.a 0).set s.b 0).set s.d (ρ.cells s.a / ρ.cells s.b)).set s.e
      (ρ.cells s.a % ρ.cells s.b)) := by
  have hc := h s.c (by simp)
  have hd := h s.d (by simp)
  have he := h s.e (by simp)
  have hf := h s.f (by simp)
  have hg := h s.g (by simp)
  have hh := h s.h (by simp)
  clear h
  generalize hn : ρ.cells s.a = n
  generalize hm : ρ.cells s.b = m
  have hcopy : (copyAdd s.b s.c s.g).Runs ρ (counted s ρ m.val n.val 0) := by
    refine (runs_copyAdd (by simp [Scratch.b, Scratch.c]) (by simp [Scratch.b, Scratch.g])
      (by simp [Scratch.c, Scratch.g]) hg).to (Store.ext (fun x => ?_) rfl rfl)
    simp only [counted, Store.cells_set, hc, hm, zero_add, Nat.zero_mod, Nat.zero_div,
      CellWidth.cell_val, CellWidth.cell_zero, sub_zero]
    simp only [Scratch.a, Scratch.b, Scratch.c, Scratch.d, Scratch.e] at hn hm hd he ⊢
    grind
  have hloop : (loop s.a (sub s.a 1 ++ sub s.c 1 ++ add s.e 1 ++ add s.f 1 ++ copyAdd s.c s.g s.h
      ++ loop s.g (clear s.g ++ sub s.f 1)
      ++ loop s.f (add s.d 1 ++ clear s.e ++ copyAdd s.b s.c s.g ++ sub s.f 1))).Runs
      (counted s ρ m.val n.val 0) (counted s ρ m.val 0 n.val) := by
    have hround : ∀ k < n.val, (sub s.a 1 ++ sub s.c 1 ++ add s.e 1 ++ add s.f 1
        ++ copyAdd s.c s.g s.h ++ loop s.g (clear s.g ++ sub s.f 1)
        ++ loop s.f (add s.d 1 ++ clear s.e ++ copyAdd s.b s.c s.g ++ sub s.f 1)).Runs
        (counted s ρ m.val (k + 1) (n.val - (k + 1))) (counted s ρ m.val k (n.val - k)) := by
      intro k hk
      have hi : n.val - k = n.val - (k + 1) + 1 := by omega
      rw [hi]
      exact runs_count hf hg hh m.isLt (by omega)
    have hleft : ∀ k ≤ n.val, (counted s ρ m.val k (n.val - k)).cells s.a = w.cell k := by
      simp [counted, Store.cells_set, Scratch.a, Scratch.b, Scratch.c, Scratch.d, Scratch.e]
    simpa using runs_countdown (fun k => counted s ρ m.val k (n.val - k)) n.isLt hleft hround
  refine Runs.seq (Runs.seq (Runs.seq hcopy hloop) (runs_clear _))
    ((runs_clear _).to (Store.ext (fun x => ?_) rfl rfl))
  simp only [counted, Store.cells_set, CellWidth.cell_div, CellWidth.cell_mod,
    CellWidth.cell_zero, Scratch.a, Scratch.b, Scratch.c, Scratch.d, Scratch.e] at hc ⊢
  grind

/-! ### The thirteen operators -/

theorem runs_both (hs : s.Clean σ) {x y : Operand} (hx : ∀ b ∈ x.address?, b < s.base)
    (hy : ∀ b ∈ y.address?, b < s.base) :
    (load w s x s.a ++ load w s y s.b).Runs σ
      ((σ.set s.a (σ.first x)).set s.b (σ.first y)) := by
  have hr := ready_of_clean hs
  have hxa : ∀ b ∈ x.address?, b ≠ s.a := fun b h => by
    have := hx b h
    simp only [Scratch.a]
    omega
  have hyb : ∀ b ∈ y.address?, b ≠ s.b := fun b h => by
    have := hy b h
    simp only [Scratch.b]
    omega
  have hya : (σ.set s.a (σ.first x)).first y = σ.first y := by
    cases y with
    | value v => rfl
    | cells b len =>
      have := hy b rfl
      exact Store.cells_set_of_ne _ _ (by simp only [Scratch.a]; omega)
  have h₁ : (load w s x s.a).Runs σ (σ.set s.a (σ.first x)) := by
    refine (runs_load hr (Or.inl (by unfold Scratch.a; omega)) hx hxa).to ?_
    rw [show σ.cells s.a = 0 from hs 4 (by decide), zero_add]
  have h₂ : (load w s y s.b).Runs (σ.set s.a (σ.first x))
      ((σ.set s.a (σ.first x)).set s.b (σ.first y)) := by
    refine (runs_load (hr.set _ (Or.inr (by unfold Scratch.a; omega)))
      (Or.inl (by unfold Scratch.b; omega)) hy hyb).to ?_
    rw [hya, Store.cells_set_of_ne _ _ (by simp [Scratch.a, Scratch.b]),
      show σ.cells s.b = 0 from hs 5 (by decide), zero_add]
  exact Runs.seq h₁ h₂

section Results
variable {X Y : w.Cell} {t : Nat}

theorem runs_product (hc : ρ.cells s.c = 0) (hta : t ≠ s.a) (htb : t ≠ s.b) (htc : t ≠ s.c) :
    (loop s.a (sub s.a 1 ++ copyAdd s.b t s.c)).Runs ρ
      ((ρ.set s.a 0).set t (ρ.cells t + ρ.cells s.a * ρ.cells s.b)) := by
  have hab : s.a ≠ s.b := by simp [Scratch.a, Scratch.b]
  have hac : s.a ≠ s.c := by simp [Scratch.a, Scratch.c]
  have hbc : s.b ≠ s.c := by simp [Scratch.b, Scratch.c]
  generalize hx : ρ.cells s.a = x
  refine runs_countdown_cells (fun k => (ρ.set s.a (w.cell k)).set t
    (ρ.cells t + (x - w.cell k) * ρ.cells s.b)) ?_ (by simp) (fun k => ?_) fun k _ => ?_
  · refine Store.ext (fun i => ?_) rfl rfl
    simp only [Store.cells_set, hx, CellWidth.cell_val]
    grind
  · simp [Store.cells_set, hta.symm]
  · refine Runs.seq (runs_sub _ _) ((runs_copyAdd htb.symm hbc htc ?_).to
      (Store.ext (fun i => ?_) rfl rfl))
    · simpa [Store.cells_set, hac.symm, htc.symm] using hc
    · simp only [Store.cells_set, CellWidth.cell_succ k, CellWidth.cell_one]
      grind

theorem runs_less (hs : s.Clean σ) : (lessThan s).Runs ((σ.set s.a X).set s.b Y)
    (σ.set s.b (w.cell (Y.val - X.val))) := by
  have hg : σ.cells s.g = 0 := hs 10 (by decide)
  have hh : σ.cells s.h = 0 := hs 11 (by decide)
  have ha : σ.cells s.a = 0 := hs 4 (by decide)
  refine (runs_lessThan ?_ ?_).to (Store.ext (fun i => ?_) rfl rfl)
  · simpa [Store.cells_set, Scratch.a, Scratch.b, Scratch.g] using hg
  · simpa [Store.cells_set, Scratch.a, Scratch.b, Scratch.h] using hh
  · simp only [Store.cells_set, Scratch.a, Scratch.b] at ha ⊢
    grind

theorem runs_quotient (hs : s.Clean σ) : (divMod s).Runs ((σ.set s.a X).set s.b Y)
    ((σ.set s.d (X / Y)).set s.e (X % Y)) := by
  have ha : σ.cells s.a = 0 := hs 4 (by decide)
  have hb : σ.cells s.b = 0 := hs 5 (by decide)
  refine (runs_divMod ?_).to (Store.ext (fun i => ?_) rfl rfl)
  · have hx : ∀ k, 6 ≤ k → k < 12 → ((σ.set s.a X).set s.b Y).cells (s.base + k) = 0 := by
      intro k h6 h12
      rw [Store.cells_set_of_ne _ _ (by unfold Scratch.b; omega),
        Store.cells_set_of_ne _ _ (by unfold Scratch.a; omega)]
      exact hs k h12
    simp only [List.mem_cons, List.not_mem_nil, or_false, forall_eq_or_imp, forall_eq]
    exact ⟨hx 6 (by omega) (by omega), hx 7 (by omega) (by omega), hx 8 (by omega) (by omega),
      hx 9 (by omega) (by omega), hx 10 (by omega) (by omega), hx 11 (by omega) (by omega)⟩
  · simp only [Store.cells_set, Scratch.a, Scratch.b, Scratch.d, Scratch.e] at ha hb ⊢
    grind

theorem runs_and (hs : s.Clean σ) (hta : t ≠ s.a) (htb : t ≠ s.b) (htc : t ≠ s.c) :
    (clear t ++ copyAdd s.a t s.c ++ loop s.a (clear s.a ++ clear t ++ copyAdd s.b t s.c)
      ++ clear s.b).Runs ((σ.set s.a X).set s.b Y) (σ.set t (if X = 0 then 0 else Y)) := by
  have ha : σ.cells s.a = 0 := hs 4 (by decide)
  have hb : σ.cells s.b = 0 := hs 5 (by decide)
  have hc : σ.cells s.c = 0 := hs 6 (by decide)
  have hab : s.a ≠ s.b := by simp [Scratch.a, Scratch.b]
  have hac : s.a ≠ s.c := by simp [Scratch.a, Scratch.c]
  have hbc : s.b ≠ s.c := by simp [Scratch.b, Scratch.c]
  have hcopy : (clear t ++ copyAdd s.a t s.c).Runs ((σ.set s.a X).set s.b Y)
      (((σ.set s.a X).set s.b Y).set t X) := by
    refine Runs.seq (runs_clear _) ((runs_copyAdd hta.symm hac htc ?_).to
      (Store.ext (fun i => ?_) rfl rfl))
    · simp only [Store.cells_set]; grind
    · simp only [Store.cells_set]; grind
  have hloop : (loop s.a (clear s.a ++ clear t ++ copyAdd s.b t s.c)).Runs
      (((σ.set s.a X).set s.b Y).set t X) ((σ.set s.b Y).set t (if X = 0 then 0 else Y)) := by
    split_ifs with h0
    · refine (runs_loop_zero ?_).to (Store.ext (fun i => ?_) rfl rfl)
      · simp only [Store.cells_set]; grind
      · simp only [Store.cells_set]; grind
    · refine runs_loop_once ?_ (Runs.seq (Runs.seq (runs_clear _) (runs_clear _))
        ((runs_copyAdd htb.symm hbc htc ?_).to (Store.ext (fun i => ?_) rfl rfl))) ?_
      · simp only [Store.cells_set]; grind
      · simp only [Store.cells_set]; grind
      · simp only [Store.cells_set]; grind
      · simp only [Store.cells_set]; grind
  refine Runs.seq (Runs.seq hcopy hloop) ((runs_clear _).to (Store.ext (fun i => ?_) rfl rfl))
  simp only [Store.cells_set]; grind

theorem runs_or (hs : s.Clean σ) (hta : t ≠ s.a) (htb : t ≠ s.b) (htc : t ≠ s.c) (htf : t ≠ s.f) :
    (clear t ++ copyAdd s.a t s.c ++ add s.f 1 ++ loop s.a (clear s.a ++ sub s.f 1)
      ++ loop s.f (clear t ++ copyAdd s.b t s.c ++ sub s.f 1) ++ clear s.b).Runs
      ((σ.set s.a X).set s.b Y) (σ.set t (if X = 0 then Y else X)) := by
  have ha : σ.cells s.a = 0 := hs 4 (by decide)
  have hb : σ.cells s.b = 0 := hs 5 (by decide)
  have hc : σ.cells s.c = 0 := hs 6 (by decide)
  have hf : σ.cells s.f = 0 := hs 9 (by decide)
  have hab : s.a ≠ s.b := by simp [Scratch.a, Scratch.b]
  have hac : s.a ≠ s.c := by simp [Scratch.a, Scratch.c]
  have haf : s.a ≠ s.f := by simp [Scratch.a, Scratch.f]
  have hbc : s.b ≠ s.c := by simp [Scratch.b, Scratch.c]
  have hbf : s.b ≠ s.f := by simp [Scratch.b, Scratch.f]
  have hcf : s.c ≠ s.f := by simp [Scratch.c, Scratch.f]
  have h1 := CellWidth.one_ne_zero (w := w)
  have hcopy : (clear t ++ copyAdd s.a t s.c ++ add s.f 1).Runs ((σ.set s.a X).set s.b Y)
      ((((σ.set s.a X).set s.b Y).set t X).set s.f 1) := by
    refine Runs.seq (Runs.seq (runs_clear _) (runs_copyAdd hta.symm hac htc ?_))
      ((runs_add _ _).to (Store.ext (fun i => ?_) rfl rfl))
    · simp only [Store.cells_set]; grind
    · simp only [Store.cells_set, CellWidth.cell_one]; grind
  have hfirst : (loop s.a (clear s.a ++ sub s.f 1)).Runs
      ((((σ.set s.a X).set s.b Y).set t X).set s.f 1)
      (((σ.set s.b Y).set t X).set s.f (if X = 0 then 1 else 0)) := by
    split_ifs with h0
    · refine (runs_loop_zero ?_).to (Store.ext (fun i => ?_) rfl rfl)
      · simp only [Store.cells_set]; grind
      · simp only [Store.cells_set]; grind
    · refine runs_loop_once ?_ (Runs.seq (runs_clear _) ((runs_sub _ _).to
        (Store.ext (fun i => ?_) rfl rfl))) ?_
      · simp only [Store.cells_set]; grind
      · simp only [Store.cells_set, CellWidth.cell_one]; grind
      · simp only [Store.cells_set]; grind
  have hsecond : (loop s.f (clear t ++ copyAdd s.b t s.c ++ sub s.f 1)).Runs
      (((σ.set s.b Y).set t X).set s.f (if X = 0 then 1 else 0))
      ((σ.set s.b Y).set t (if X = 0 then Y else X)) := by
    split_ifs with h0
    · refine runs_loop_once ?_ (Runs.seq (Runs.seq (runs_clear _)
        (runs_copyAdd htb.symm hbc htc ?_)) ((runs_sub _ _).to
        (Store.ext (fun i => ?_) rfl rfl))) ?_
      · simp only [Store.cells_set]; grind
      · simp only [Store.cells_set]; grind
      · simp only [Store.cells_set, CellWidth.cell_one]; grind
      · simp only [Store.cells_set]; grind
    · refine (runs_loop_zero ?_).to (Store.ext (fun i => ?_) rfl rfl)
      · simp only [Store.cells_set]; grind
      · simp only [Store.cells_set]; grind
  refine Runs.seq (Runs.seq (Runs.seq hcopy hfirst) hsecond)
    ((runs_clear _).to (Store.ext (fun i => ?_) rfl rfl))
  simp only [Store.cells_set]; grind

end Results

theorem cell_sub_val_eq_zero (x y : w.Cell) : w.cell (y.val - x.val) = 0 ↔ ¬ x < y := by
  rw [CellWidth.cell_eq_zero (lt_of_le_of_lt (Nat.sub_le _ _) y.isLt), Fin.lt_def]
  omega

/-- **An operator's code** stores its result and changes nothing else. -/
theorem runs_binary (hs : s.Clean σ) {o : Operator} {x y : Operand}
    (hx : ∀ b ∈ x.address?, b < s.base) (hy : ∀ b ∈ y.address?, b < s.base) {t : Nat}
    (ht : t < s.base ∨ t = s.f ∧ o ≠ .or) :
    (binary w s o x y t).Runs σ (σ.set t (o.onCells (σ.first x) (σ.first y))) := by
  have hxy := runs_both hs hx hy
  have hyx := runs_both hs hy hx
  generalize σ.first x = X at hxy hyx ⊢
  generalize σ.first y = Y at hxy hyx ⊢
  have ha : σ.cells (s.base + 4) = 0 := hs 4 (by decide)
  have hb : σ.cells (s.base + 5) = 0 := hs 5 (by decide)
  have hc : σ.cells (s.base + 6) = 0 := hs 6 (by decide)
  have hd : σ.cells (s.base + 7) = 0 := hs 7 (by decide)
  have he : σ.cells (s.base + 8) = 0 := hs 8 (by decide)
  have hf : σ.cells (s.base + 9) = 0 := hs 9 (by decide)
  have hta : t ≠ s.a := by unfold Scratch.a; unfold Scratch.f at ht; omega
  have htb : t ≠ s.b := by unfold Scratch.b; unfold Scratch.f at ht; omega
  have htc : t ≠ s.c := by unfold Scratch.c; unfold Scratch.f at ht; omega
  have htd : t ≠ s.d := by unfold Scratch.d; unfold Scratch.f at ht; omega
  have hte : t ≠ s.e := by unfold Scratch.e; unfold Scratch.f at ht; omega
  have hab : s.a ≠ s.b := by simp [Scratch.a, Scratch.b]
  have hac : s.a ≠ s.c := by simp [Scratch.a, Scratch.c]
  have hbc : s.b ≠ s.c := by simp [Scratch.b, Scratch.c]
  cases o with
  | add =>
    refine Runs.seq (Runs.seq (Runs.seq hxy (runs_clear _)) (runs_moveAdd hta.symm))
      ((runs_moveAdd htb.symm).to (Store.ext (fun i => ?_) rfl rfl))
    simp only [Store.cells_set, Operator.onCells, Scratch.a, Scratch.b] at hta htb ⊢
    grind
  | sub =>
    refine Runs.seq (Runs.seq (Runs.seq hxy (runs_clear _)) (runs_moveAdd hta.symm))
      ((runs_moveSub htb.symm).to (Store.ext (fun i => ?_) rfl rfl))
    simp only [Store.cells_set, Operator.onCells, Scratch.a, Scratch.b] at hta htb ⊢
    grind
  | mul =>
    refine Runs.seq (Runs.seq (Runs.seq hxy (runs_clear t)) (runs_product ?_ hta htb htc))
      ((runs_clear _).to (Store.ext (fun i => ?_) rfl rfl))
    · rwa [Store.cells_set_of_ne _ _ htc.symm, Store.cells_set_of_ne _ _ hbc.symm,
        Store.cells_set_of_ne _ _ hac.symm]
    · simp only [Store.cells_set, Operator.onCells, Scratch.a, Scratch.b] at hta htb ⊢
      grind
  | div =>
    refine Runs.seq (Runs.seq (Runs.seq (Runs.seq hxy (runs_quotient hs)) (runs_clear _))
      (runs_moveAdd htd.symm)) ((runs_clear _).to (Store.ext (fun i => ?_) rfl rfl))
    simp only [Store.cells_set, Operator.onCells, Scratch.d, Scratch.e] at htd hte ⊢
    grind
  | mod =>
    refine Runs.seq (Runs.seq (Runs.seq (Runs.seq hxy (runs_quotient hs)) (runs_clear _))
      (runs_moveAdd hte.symm)) ((runs_clear _).to (Store.ext (fun i => ?_) rfl rfl))
    simp only [Store.cells_set, Operator.onCells, Scratch.d, Scratch.e] at htd hte ⊢
    grind
  | eq =>
    refine Runs.seq (Runs.seq hxy (runs_moveSub hab.symm))
      ((runs_isZero hta.symm).to (Store.ext (fun i => ?_) rfl rfl))
    simp only [Store.cells_set, Operator.onCells, Scratch.a, Scratch.b] at hta htb ⊢
    grind
  | notEq =>
    refine Runs.seq (Runs.seq hxy (runs_moveSub hab.symm))
      ((runs_isNonzero hta.symm).to (Store.ext (fun i => ?_) rfl rfl))
    simp only [Store.cells_set, Operator.onCells, Scratch.a, Scratch.b] at hta htb ⊢
    grind
  | lt =>
    refine Runs.seq (Runs.seq hxy (runs_less hs))
      ((runs_isNonzero htb.symm).to (Store.ext (fun i => ?_) rfl rfl))
    simp only [Store.cells_set, Operator.onCells, Scratch.b, if_true, cell_sub_val_eq_zero] at htb ⊢
    grind
  | gt =>
    refine Runs.seq (Runs.seq hyx (runs_less hs))
      ((runs_isNonzero htb.symm).to (Store.ext (fun i => ?_) rfl rfl))
    simp only [Store.cells_set, Operator.onCells, Scratch.b, if_true, cell_sub_val_eq_zero] at htb ⊢
    grind
  | ltEq =>
    refine Runs.seq (Runs.seq hyx (runs_less hs))
      ((runs_isZero htb.symm).to (Store.ext (fun i => ?_) rfl rfl))
    simp only [Store.cells_set, Operator.onCells, Scratch.b, if_true, cell_sub_val_eq_zero] at htb ⊢
    grind
  | gtEq =>
    refine Runs.seq (Runs.seq hxy (runs_less hs))
      ((runs_isZero htb.symm).to (Store.ext (fun i => ?_) rfl rfl))
    simp only [Store.cells_set, Operator.onCells, Scratch.b, if_true, cell_sub_val_eq_zero] at htb ⊢
    grind
  | and =>
    obtain ⟨υ, ⟨ν, ⟨μ, h₁, h₂⟩, h₃⟩, h₄⟩ := runs_and (X := X) (Y := Y) hs hta htb htc
    exact Runs.seq (Runs.seq (Runs.seq (Runs.seq hxy h₁) h₂) h₃) h₄
  | or =>
    have htf : t ≠ s.f := by
      have : t < s.base := by simpa using ht
      unfold Scratch.f
      omega
    obtain ⟨υ, ⟨ν, ⟨μ, ⟨κ, ⟨ι, h₁, h₂⟩, h₃⟩, h₄⟩, h₅⟩, h₆⟩ :=
      runs_or (X := X) (Y := Y) hs hta htb htc htf
    exact Runs.seq (Runs.seq (Runs.seq (Runs.seq (Runs.seq (Runs.seq hxy h₁) h₂) h₃) h₄) h₅) h₆

end Code

end TapeCompiler
