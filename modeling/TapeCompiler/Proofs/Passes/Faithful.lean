import TapeCompiler.Proofs.Passes.Folding

/-! # Where folding is faithful

Folding computes with integers of 64 bits, code with first cells modulo the width and without signs.
`Faithful` lists the operands on which the two meet: there the first cell of the folded value is
what the operator makes of the first cells (`literal_fold_of_faithful`).

Sums, differences and products are never far apart, because the modulus divides `2 ^ 64`. Orders
agree between two multiples of the modulus, quotients and remainders on the numbers of the width.
Two numbers of the width are faithful to every operator (`faithful_of_inWidth`). -/

namespace TapeCompiler

variable {w : CellWidth} {l r v : Value} {m n : Int64} {o : Operator}

/-! ### Operands -/

/-- A value whose number is, modulo the width, **its first cell**. -/
def Value.Plain (w : CellWidth) (v : Value) (n : Int64) : Prop :=
  v.number? = some n ∧ w.literal n = w.literal v.firstCell

theorem Value.exists_plain (w : CellWidth) (h : ∀ s, v = .str s → s = "") : ∃ n, v.Plain w n := by
  cases v with
  | int n => exact ⟨n, rfl, rfl⟩
  | bool b => exact ⟨ofBool b, rfl, rfl⟩
  | null => exact ⟨0, rfl, rfl⟩
  | str s =>
    obtain rfl := h s rfl
    exact ⟨0, by decide, rfl⟩

/-- Two numbers **between the same multiples** of the modulus. -/
def SameTurn (w : CellWidth) (m n : Int64) : Prop := m.toInt / w.modulus = n.toInt / w.modulus

/-- A number of the width. -/
def CellWidth.Fits (w : CellWidth) (n : Int64) : Prop := 0 ≤ n.toInt ∧ n.toInt < w.modulus

/-- An operator that asks for the order of its operands. -/
def Operator.isOrder : Operator → Bool
  | .lt | .gt | .ltEq | .gtEq => true
  | _ => false

/-- The operands on which folding is **faithful** to the cells of a width. -/
inductive Faithful (w : CellWidth) : Operator → Value → Value → Prop
  /-- A sum of two numbers. -/
  | sum {l r : Value} : (∀ s, l ≠ .str s) → (∀ s, r ≠ .str s) → Faithful w .add l r
  /-- A text behind an empty one. -/
  | behindEmpty (s : String) : Faithful w .add (.str "") (.str s)
  /-- Behind a text, what adds nothing to its first character. -/
  | behindText {s : String} {r : Value} :
    s ≠ "" → w.literal r.firstCell = 0 → Faithful w .add (.str s) r
  | linear {o : Operator} {l r : Value} {m n : Int64} :
    o = .sub ∨ o = .mul → l.Plain w m → r.Plain w n → Faithful w o l r
  | division {o : Operator} {l r : Value} {m n : Int64} :
    o = .div ∨ o = .mod → l.Plain w m → r.Plain w n → w.Fits m → w.Fits n → Faithful w o l r
  | numbers {o : Operator} {l r : Value} {m n : Int64} :
    o.isOrder = true → ((∀ s, l ≠ .str s) ∨ ∀ s, r ≠ .str s) → l.Plain w m → r.Plain w n →
      SameTurn w m n → Faithful w o l r
  | sameText {o : Operator} (s : String) : o.isOrder = true → Faithful w o (.str s) (.str s)
  /-- Texts that differ in their first characters. -/
  | texts {o : Operator} {s t : String} : o.isOrder = true →
    (Value.str s).firstCell ≠ (Value.str t).firstCell →
      SameTurn w (Value.str s).firstCell (Value.str t).firstCell → Faithful w o (.str s) (.str t)
  /-- Equal operands of one kind. -/
  | equal {o : Operator} {l r : Value} : o = .eq ∨ o = .notEq → l.looseEq r = true →
    ((∃ m n, l.Plain w m ∧ r.Plain w n) ∨ ∃ s t, l = .str s ∧ r = .str t) → Faithful w o l r
  | unequal {o : Operator} {l r : Value} : o = .eq ∨ o = .notEq → l.looseEq r = false →
    w.literal l.firstCell ≠ w.literal r.firstCell → Faithful w o l r
  /-- A choice between the operands, by a first one that is true in its first cell too. -/
  | choice {o : Operator} {l r : Value} : o = .and ∨ o = .or →
    (l.truthy = true → w.literal l.firstCell ≠ 0 ∨ w.literal r.firstCell = 0) → Faithful w o l r

/-! ### First cells -/

theorem firstCell_str_of_toList {s : String} {c : Char} {cs : List Char} (h : s.toList = c :: cs) :
    (Value.str s).firstCell = Int64.ofNat c.toNat := by
  have hs : s.isEmpty = false := by
    rw [Bool.eq_false_iff, ne_eq, String.isEmpty_iff, ← String.toList_eq_nil_iff, h]
    exact List.cons_ne_nil _ _
  rw [Value.firstCell, Value.cells, hs, h]
  rfl

/-- The first cell of a text is its first character; an empty text has a zero there. -/
theorem toInt_firstCell_str (s : String) :
    (Value.str s).firstCell.toInt = ((s.toList.head?.elim 0 Char.toNat : Nat) : Int) := by
  cases hs : s.toList with
  | nil =>
    obtain rfl := String.toList_eq_nil_iff.mp hs
    rfl
  | cons c cs =>
    have hc : c.toNat < 2 ^ 32 := c.val.toNat_lt
    rw [firstCell_str_of_toList hs, Int64.toInt_ofNat_of_lt (by omega)]
    rfl

theorem firstCell_append {s : String} (hs : s ≠ "") (t : String) :
    (Value.str (s ++ t)).firstCell = (Value.str s).firstCell := by
  obtain ⟨c, cs, h⟩ := List.exists_cons_of_ne_nil (mt String.toList_eq_nil_iff.mp hs)
  rw [firstCell_str_of_toList h,
    firstCell_str_of_toList (show (s ++ t).toList = c :: (cs ++ t.toList) by simp [h])]

theorem firstCell_of_not_truthy (h : v.truthy = false) : v.firstCell = 0 := by
  cases v with
  | int n =>
    show n = 0
    simpa [Value.truthy] using h
  | bool b => cases b <;> first | rfl | cases h
  | null => rfl
  | str s =>
    have hs : s.isEmpty = true := by simpa [Value.truthy] using h
    rw [Value.firstCell, Value.cells, if_pos hs]
    rfl

theorem literal_zero : w.literal 0 = 0 := by cases w <;> rfl

/-! ### Orders -/

theorem literal_lt_of_sameTurn (h : SameTurn w m n) :
    w.literal m < w.literal n ↔ m.toInt < n.toInt := by
  have hm := Int.emod_add_mul_ediv m.toInt w.modulus
  have hn := Int.emod_add_mul_ediv n.toInt w.modulus
  have hvm := CellWidth.val_literal (w := w) m
  have hvn := CellWidth.val_literal (w := w) n
  rw [SameTurn] at h
  rw [h] at hm
  rw [Fin.lt_def]
  omega

theorem SameTurn.symm (h : SameTurn w m n) : SameTurn w n m := Eq.symm h

/-- Texts with different first characters are ordered **as their first cells** are. -/
theorem compare_texts {s t : String} (h : (Value.str s).firstCell ≠ (Value.str t).firstCell) :
    compare s t = compare (Value.str s).firstCell.toInt (Value.str t).firstCell.toInt := by
  have hne : s ≠ t := fun he => h (by rw [he])
  have hcells : (Value.str s).firstCell.toInt ≠ (Value.str t).firstCell.toInt :=
    mt Int64.toInt_inj.mp h
  have hlt : s < t ↔ (Value.str s).firstCell.toInt < (Value.str t).firstCell.toInt := by
    rw [toInt_firstCell_str, toInt_firstCell_str] at hcells ⊢
    rw [String.lt_iff]
    cases hs : s.toList with
    | nil =>
      cases ht : t.toList with
      | nil => exact absurd (String.toList_inj.mp (hs.trans ht.symm)) hne
      | cons d ds =>
        rw [hs, ht] at hcells
        simp only [List.head?_nil, List.head?_cons, Option.elim_none, Option.elim_some] at hcells ⊢
        exact ⟨fun _ => by omega, fun _ => List.nil_lt_cons d ds⟩
    | cons c cs =>
      cases ht : t.toList with
      | nil =>
        simp only [List.head?_nil, List.head?_cons, Option.elim_none, Option.elim_some]
        exact ⟨fun hc => absurd hc (List.not_lt_nil _), fun hc => by omega⟩
      | cons d ds =>
        rw [hs, ht] at hcells
        simp only [List.head?_cons, Option.elim_some] at hcells ⊢
        have hcd : c ≠ d := fun he => hcells (by rw [he])
        rw [List.cons_lt_cons_iff, Int.ofNat_lt]
        exact ⟨fun hc => hc.resolve_right fun he => hcd he.1, Or.inl⟩
  show compareOfLessAndEq s t = _
  rw [compareOfLessAndEq]
  split_ifs with hst
  · exact (compare_lt_iff_lt.mpr (hlt.mp hst)).symm
  · exact (compare_gt_iff_gt.mpr (lt_of_le_of_ne (not_lt.mp (mt hlt.mpr hst)) hcells.symm)).symm

/-- An order that is that of two numbers, which are the first cells, folds to what cells give. -/
theorem literal_order (ho : o.isOrder = true)
    (hord : l.order? r = some (compare m.toInt n.toInt)) (h : SameTurn w m n)
    (hv : Value.fold o l r = some v) :
    w.literal v.firstCell = o.onCells (w.literal m) (w.literal n) := by
  have hlt := literal_lt_of_sameTurn h
  have hgt := literal_lt_of_sameTurn h.symm
  cases o with
  | lt =>
    rw [Value.fold, hord] at hv
    cases hv
    rw [literal_bool, Operator.onCells]
    simp only [decide_eq_true_eq, hlt, compare_lt_iff_lt]
  | gt =>
    rw [Value.fold, hord] at hv
    cases hv
    rw [literal_bool, Operator.onCells]
    simp only [decide_eq_true_eq, hgt, compare_gt_iff_gt]
  | ltEq =>
    rw [Value.fold, hord] at hv
    cases hv
    rw [literal_bool, Operator.onCells]
    simp only [decide_eq_true_eq, hgt, ne_eq, compare_gt_iff_gt]
    split_ifs <;> simp_all
  | gtEq =>
    rw [Value.fold, hord] at hv
    cases hv
    rw [literal_bool, Operator.onCells]
    simp only [decide_eq_true_eq, hlt, ne_eq, compare_lt_iff_lt]
    split_ifs <;> simp_all
  | _ => cases ho

theorem order?_of_plain (h : (∀ s, l ≠ .str s) ∨ ∀ s, r ≠ .str s) (hl : l.number? = some m)
    (hr : r.number? = some n) : l.order? r = some (compare m.toInt n.toInt) := by
  unfold Value.order?
  split
  · next a b =>
    rcases h with h | h
    · exact absurd rfl (h a)
    · exact absurd rfl (h b)
  · simp only [hl, hr]

/-! ### Arithmetic -/

theorem arith_eq_some {f : Int64 → Int64 → Option Int64} (hl : l.number? = some m)
    (hr : r.number? = some n) (h : Value.arith f l r = some v) :
    ∃ k, f m n = some k ∧ v = .int k := by
  unfold Value.arith at h
  simp only [hl, hr] at h
  obtain ⟨k, hk, rfl⟩ := Option.map_eq_some_iff.mp h
  exact ⟨k, hk, rfl⟩

theorem fold_add_of_numbers (hl : ∀ s, l ≠ .str s) (hr : ∀ s, r ≠ .str s) :
    Value.fold .add l r = Value.arith (fun a b => some (a + b)) l r := by
  cases l with
  | str s => exact absurd rfl (hl s)
  | _ =>
    cases r with
    | str t => exact absurd rfl (hr t)
    | _ => rfl

theorem literal_linear (ho : o = .sub ∨ o = .mul) (hl : l.Plain w m) (hr : r.Plain w n)
    (hv : Value.fold o l r = some v) :
    w.literal v.firstCell = o.onCells (w.literal l.firstCell) (w.literal r.firstCell) := by
  rw [← hl.2, ← hr.2]
  rcases ho with rfl | rfl <;> obtain ⟨k, hk, rfl⟩ := arith_eq_some hl.1 hr.1 hv <;> cases hk
  · exact CellWidth.literal_sub m n
  · exact CellWidth.literal_mul m n

theorem literal_division (ho : o = .div ∨ o = .mod) (hl : l.Plain w m) (hr : r.Plain w n)
    (hm : w.Fits m) (hn : w.Fits n) (hv : Value.fold o l r = some v) :
    w.literal v.firstCell = o.onCells (w.literal l.firstCell) (w.literal r.firstCell) := by
  rw [← hl.2, ← hr.2]
  rcases ho with rfl | rfl <;> obtain ⟨k, hk, rfl⟩ := arith_eq_some hl.1 hr.1 hv <;>
    split_ifs at hk <;> cases hk
  · exact literal_div hm hn
  · exact literal_mod hm hn

/-! ### Equality -/

/-- What is equal and plain has **the same first cell**. -/
theorem literal_of_looseEq (h : l.looseEq r = true) (hl : l.Plain w m) (hr : r.Plain w n) :
    w.literal l.firstCell = w.literal r.firstCell := by
  rw [← hl.2, ← hr.2]
  have hnum : l.number? = r.number? := by
    unfold Value.looseEq at h
    split at h
    · rw [of_decide_eq_true h]
    · rfl
    · cases h
    · cases h
    · simp only [hl.1, hr.1, decide_eq_true_eq] at h
      rw [hl.1, hr.1, h]
  rw [hl.1, hr.1] at hnum
  cases hnum
  rfl

/-- Equality folds to what cells give if it is equality of the first cells. -/
theorem literal_equality (ho : o = .eq ∨ o = .notEq)
    (h : l.looseEq r = true ↔ w.literal l.firstCell = w.literal r.firstCell)
    (hv : Value.fold o l r = some v) :
    w.literal v.firstCell = o.onCells (w.literal l.firstCell) (w.literal r.firstCell) := by
  rcases ho with rfl | rfl <;> cases hv <;> rw [literal_bool, Operator.onCells]
  · simp only [h]
  · by_cases he : w.literal l.firstCell = w.literal r.firstCell
    · simp [he, h.mpr he]
    · simp [he, mt h.mp he]

/-! ### Choice -/

theorem literal_choice (ho : o = .and ∨ o = .or)
    (h : l.truthy = true → w.literal l.firstCell ≠ 0 ∨ w.literal r.firstCell = 0)
    (hv : Value.fold o l r = some v) :
    w.literal v.firstCell = o.onCells (w.literal l.firstCell) (w.literal r.firstCell) := by
  by_cases ht : l.truthy = true
  · rcases ho with rfl | rfl <;> cases hv <;> rw [if_pos ht, Operator.onCells] <;> split_ifs with h0
    · exact (h ht).resolve_left (not_not.mpr h0)
    · rfl
    · rw [(h ht).resolve_left (not_not.mpr h0), h0]
    · rfl
  · have hz : w.literal l.firstCell = 0 := by
      rw [firstCell_of_not_truthy (Bool.not_eq_true _ ▸ ht), literal_zero]
    rcases ho with rfl | rfl <;> cases hv <;> rw [if_neg ht, Operator.onCells, if_pos hz]
    exact hz

/-! ### All operators -/

/-- **Faithful operands fold to what the operator makes of their first cells.** -/
theorem literal_fold_of_faithful (h : Faithful w o l r) (hv : Value.fold o l r = some v) :
    w.literal v.firstCell = o.onCells (w.literal l.firstCell) (w.literal r.firstCell) := by
  cases h with
  | sum hl hr =>
    obtain ⟨m, hm⟩ := Value.exists_plain w fun s hs => absurd hs (hl s)
    obtain ⟨n, hn⟩ := Value.exists_plain w fun s hs => absurd hs (hr s)
    rw [fold_add_of_numbers hl hr] at hv
    obtain ⟨k, hk, rfl⟩ := arith_eq_some hm.1 hn.1 hv
    cases hk
    rw [← hm.2, ← hn.2]
    exact CellWidth.literal_add m n
  | behindEmpty s =>
    have hempty : (Value.str "").firstCell = 0 := rfl
    cases hv
    rw [Operator.onCells, hempty, literal_zero, zero_add]
    simp [Value.text]
  | behindText hs hr =>
    cases hv
    rw [Operator.onCells, hr, add_zero, Value.text, firstCell_append hs]
  | linear ho hl hr => exact literal_linear ho hl hr hv
  | division ho hl hr hm hn => exact literal_division ho hl hr hm hn hv
  | numbers ho ht hl hr h =>
    rw [← hl.2, ← hr.2]
    exact literal_order ho (order?_of_plain ht hl.1 hr.1) h hv
  | sameText s ho =>
    have hcmp : compare s s = .eq := by
      show compareOfLessAndEq s s = .eq
      rw [compareOfLessAndEq, if_neg (String.lt_irrefl s), if_pos rfl]
    refine literal_order (m := (Value.str s).firstCell) ho ?_ rfl hv
    rw [Value.order?, hcmp, compare_eq_iff_eq.mpr rfl]
  | texts ho hne h => exact literal_order ho (by rw [Value.order?, compare_texts hne]) h hv
  | equal ho h hkind =>
    refine literal_equality ho ⟨fun _ => ?_, fun _ => h⟩ hv
    rcases hkind with ⟨m, n, hl, hr⟩ | ⟨s, t, rfl, rfl⟩
    · exact literal_of_looseEq h hl hr
    · obtain rfl : s = t := of_decide_eq_true h
      rfl
  | unequal ho h hne =>
    exact literal_equality ho ⟨fun he => (by rw [h] at he; cases he), fun he => absurd he hne⟩ hv
  | choice ho h => exact literal_choice ho h hv

/-! ### Numbers of the width -/

/-- Numbers of the width are faithful **to every operator**. -/
theorem faithful_of_inWidth (hl : l.InWidth w) (hr : r.InWidth w) (o : Operator) :
    Faithful w o l r := by
  obtain ⟨m, rfl, hm⟩ := hl
  obtain ⟨n, rfl, hn⟩ := hr
  have hpm : (Value.int m).Plain w m := ⟨rfl, rfl⟩
  have hpn : (Value.int n).Plain w n := ⟨rfl, rfl⟩
  have hturn : SameTurn w m n := by
    rw [SameTurn, Int.ediv_eq_zero_of_lt hm.1 hm.2, Int.ediv_eq_zero_of_lt hn.1 hn.2]
  cases o with
  | add => exact .sum (by simp) (by simp)
  | sub => exact .linear (Or.inl rfl) hpm hpn
  | mul => exact .linear (Or.inr rfl) hpm hpn
  | div => exact .division (Or.inl rfl) hpm hpn hm hn
  | mod => exact .division (Or.inr rfl) hpm hpn hm hn
  | lt | gt | ltEq | gtEq => exact .numbers rfl (Or.inl (by simp)) hpm hpn hturn
  | eq | notEq =>
    cases h : Value.looseEq (.int m) (.int n) with
    | true => exact .equal (by simp) h (Or.inl ⟨m, n, hpm, hpn⟩)
    | false =>
      refine .unequal (by simp) h fun he => ?_
      have hne : ¬ m = n := of_decide_eq_false h
      exact hne ((literal_inj_of_inWidth hm hn).mp he)
  | and | or =>
    refine .choice (by simp) fun ht => Or.inl fun h0 => ?_
    have hne : m ≠ 0 := of_decide_eq_true ht
    exact hne ((literal_eq_zero_iff hm).mp h0)

theorem size_fold_int (h : Value.fold o (.int m) (.int n) = some v) : v.size = 1 := by
  cases o with
  | add | sub | mul | eq | notEq | lt | gt | ltEq | gtEq => cases h; rfl
  | div | mod =>
    obtain ⟨k, -, rfl⟩ := Option.map_eq_some_iff.mp h
    rfl
  | and | or =>
    obtain rfl := Option.some.inj h
    split_ifs <;> rfl

/-- **Folding two numbers of the width** gives one cell, and there what the operator gives. -/
theorem literal_fold {a b : Value} (ha : a.InWidth w) (hb : b.InWidth w)
    (h : Value.fold o a b = some v) : v.size = 1 ∧
      w.literal v.firstCell = o.onCells (w.literal a.firstCell) (w.literal b.firstCell) := by
  refine ⟨?_, literal_fold_of_faithful (faithful_of_inWidth ha hb o) h⟩
  obtain ⟨m, rfl, -⟩ := ha
  obtain ⟨n, rfl, -⟩ := hb
  exact size_fold_int h

end TapeCompiler
