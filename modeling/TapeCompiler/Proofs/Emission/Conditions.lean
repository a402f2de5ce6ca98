import TapeCompiler.Proofs.Emission.Plain
import TapeCompiler.Proofs.Passes.Faithful

/-! # Conditions, written out and in cells

A condition that is a value is decided by the truth of the value, before the code runs; a condition
in cells by the first of them, modulo the width. The two flags agree **unless the value is hollow**:
true, and zero in its first cell (`hollow_iff`, `flags_agree_iff`). -/

namespace TapeCompiler

variable {w : CellWidth}

/-- A value that is true though **its first cell is zero**: another multiple of the modulus than
zero, or a text that starts with a character whose number is one. -/
def Value.Hollow (w : CellWidth) : Value → Prop
  | .int n => n ≠ 0 ∧ (w.modulus : Int) ∣ n.toInt
  | .str s => ∃ c ∈ s.toList.head?, w.modulus ∣ c.toNat
  | .bool _ | .null => False

/-! ### Hollow values -/

theorem literal_eq_zero_iff_dvd {n : Int64} : w.literal n = 0 ↔ (w.modulus : Int) ∣ n.toInt := by
  rw [Int.dvd_iff_emod_eq_zero, ← CellWidth.val_literal, Fin.ext_iff]
  exact Int.ofNat_eq_zero.symm

theorem hollow_iff {v : Value} :
    v.Hollow w ↔ v.truthy = true ∧ w.literal v.firstCell = 0 := by
  rw [literal_eq_zero_iff_dvd]
  cases v with
  | int n => exact and_congr_left' decide_eq_true_iff.symm
  | str s =>
    rw [toInt_firstCell_str, Int.natCast_dvd_natCast]
    cases hs : s.toList with
    | nil =>
      obtain rfl := String.toList_eq_nil_iff.mp hs
      simp [Value.Hollow, Value.truthy]
    | cons c cs =>
      have hne : s ≠ "" := by
        rw [ne_eq, ← String.toList_eq_nil_iff, hs]
        exact List.cons_ne_nil c cs
      simp [Value.Hollow, Value.truthy, hne, hs]
  | bool b =>
    refine iff_of_false id ?_
    rintro ⟨hb, hdvd⟩
    obtain rfl : b = true := hb
    have := Int.le_of_dvd Int.one_pos hdvd
    have := w.one_lt_modulus
    omega
  | null => exact iff_of_false id fun h => Bool.noConfusion h.1

/-! ### Flags -/

theorem Store.holds_setAll (σ : Store w) (a len : Nat) (v : Value) :
    (σ.setAll a (v.cells.map w.literal)).holds (.cells a len) =
      decide (w.literal v.firstCell ≠ 0) := by
  obtain ⟨n, rest, hv⟩ := List.exists_cons_of_ne_nil v.cells_ne_nil
  have hcell : (σ.setAll a (v.cells.map w.literal)).cells a = w.literal v.firstCell := by
    rw [Value.firstCell, hv, List.map_cons, cells_setAll_cons]
    rfl
  rw [holds, hcell]

theorem holds_value_iff {v : Value} (σ : Store w) :
    σ.holds (.value v) = decide (w.literal v.firstCell ≠ 0) ↔ ¬ v.Hollow w := by
  rw [hollow_iff]
  show v.truthy = _ ↔ _
  cases hv : v.truthy with
  | true => simp
  | false => simp [firstCell_of_not_truthy hv, literal_zero]

/-- **The flag of a value and the flag of its cells** agree unless the value is hollow. -/
theorem flags_agree_iff {s : Scratch} {σ : Store w} (hs : s.Clean σ) {v : Value} {a : Nat}
    (ha : a + v.size ≤ s.base) (len : Nat) {f g : Nat} (hf : s.base + scratchCells ≤ f)
    (hg : s.base + scratchCells ≤ g) (hne : f ≠ g) (hf0 : σ.cells f = 0) (hg0 : σ.cells g = 0) :
    ∃ τ, (Code.writeValue w s a v ++ Code.setBool s f (.value v)
        ++ Code.setBool s g (.cells a len)).Runs σ τ ∧
      (τ.cells f = τ.cells g ↔ ¬ v.Hollow w) := by
  have hpos := v.size_pos
  generalize hρ : σ.setAll a (v.cells.map w.literal) = ρ
  have hkeep : ∀ b, s.base ≤ b → ρ.cells b = σ.cells b := fun b hb => by
    rw [← hρ]
    refine Store.cells_setAll _ _ _ ?_
    rw [List.length_map, List.mem_range'_1]
    unfold Value.size at ha
    omega
  have hclean : s.Clean ρ := fun k hk => (hkeep _ (Nat.le_add_right _ k)).trans (hs k hk)
  have hwrite : (Code.writeValue w s a v).Runs σ ρ := hρ ▸ Code.runs_writeCells hs ha
  -- the flag of the value, and then the flag of its cells
  have h₁ := Code.runs_setBool hclean f hf (o := .value v) (by simp [Operand.address?])
  rw [hkeep f (by omega), hf0, zero_add] at h₁
  have h₂ := Code.runs_setBool (hclean.set (if ρ.holds (.value v) then 1 else 0) (Or.inr hf)) g hg
    (o := .cells a len) (by simp only [Operand.address?, Option.mem_def, Option.some.injEq]; omega)
  refine ⟨_, Code.Runs.seq (Code.Runs.seq hwrite h₁) h₂, ?_⟩
  have hcells : ∀ u, (ρ.set f u).holds (.cells a len) = decide (w.literal v.firstCell ≠ 0) := by
    intro u
    rw [← σ.holds_setAll a len v, hρ, Store.holds, Store.holds,
      Store.cells_set_of_ne _ _ (by omega)]
  rw [Store.cells_set_of_ne _ _ hne, Store.cells_set_self, Store.cells_set_self,
    Store.cells_set_of_ne _ _ hne.symm, hkeep g (by omega), hg0, zero_add, hcells,
    ← holds_value_iff ρ]
  have h1 := CellWidth.one_ne_zero (w := w)
  cases ρ.holds (.value v) <;> cases decide (w.literal v.firstCell ≠ 0) <;> simp [h1, h1.symm]

/-- On 8 bits 256 is true, and zero in its cell: its flags differ. -/
theorem flags_agree_iff_of_modulus :
    let v : Value := .int 256
    let s : Scratch := ⟨1⟩
    v.Hollow .bits8 ∧ ∃ τ : Store .bits8, (Code.writeValue .bits8 s 0 v
      ++ Code.setBool s 13 (.value v) ++ Code.setBool s 14 (.cells 0 1)).Runs (Store.start []) τ ∧
        τ.cells 13 ≠ τ.cells 14 := by
  intro v s
  have hv : v.Hollow .bits8 := ⟨by decide, by decide⟩
  obtain ⟨τ, hτ, hflags⟩ := flags_agree_iff (s := s) (σ := Store.start []) (fun _ _ => rfl)
    (v := v) (a := 0) (by decide) 1 (f := 13) (g := 14) (by decide) (by decide) (by decide) rfl rfl
  exact ⟨hv, τ, hτ, fun h => hflags.mp h hv⟩

end TapeCompiler
