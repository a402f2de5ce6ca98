import TapeCompiler.Proofs.Cells.Renaming
import TapeCompiler.Proofs.Emission.Plain
import TapeCompiler.Proofs.Emission.Written

/-! # What the brackets of a tree do

A loop of a tree becomes a loop over a flag that is one while the test holds (`runs_flagged`), a
branch two loops of one round at most (`runs_once`), over flags of which one is set. Flags and
scratch cells are zero on both ends (`Emitter.Idle`), and the instructions in between neither see
nor change them.

* `runs_bracketLoop`, `doesTree_loop`: the code of a loop repeats as the loop does;
* `runs_bracketBranch`, `doesTree_branch`: the code of a branch goes to one side as the branch
  does. -/

namespace TapeCompiler

/-! ### Loops over flags -/

namespace Code

variable {w : CellWidth} {flag : Nat} {body : Code} {σ τ : Store w}

theorem runs_never (h : σ.cells flag = 0) : (loop flag body).Runs σ τ ↔ τ = σ := by
  constructor
  · rintro (_ | ⟨hp, -, -⟩)
    · rfl
    · exact absurd h hp
  · rintro rfl
    exact .stop fun hp => hp h

theorem runs_once (h : σ.cells flag ≠ 0) (hb : ∀ ρ, body.Runs σ ρ → ρ.cells flag = 0) :
    (loop flag body).Runs σ τ ↔ body.Runs σ τ := by
  constructor
  · rintro (hp | ⟨-, hr, hw⟩)
    · exact absurd h hp
    · rwa [(runs_never (hb _ hr)).mp hw]
  · intro hr
    exact .step h hr (.stop fun hp => hp (hb _ hr))

/-- A loop over a **flag that stands for a condition** repeats while the condition holds. The flag
is zero in the stores of `I`, on which rounds work. -/
theorem runs_flagged {I : Store w → Prop} {p : Store w → Bool} {R : Store w → Store w → Prop}
    (hflag : ∀ σ, I σ → σ.cells flag = 0) (hI : ∀ σ τ, I σ → p σ = true → R σ τ → I τ)
    (hb : ∀ σ υ, I σ → p σ = true → (body.Runs (σ.set flag 1) υ ↔
      ∃ τ, R σ τ ∧ υ = τ.set flag (if p τ then 1 else 0))) (hσ : I σ) :
    (loop flag body).Runs (σ.set flag (if p σ then 1 else 0)) τ ↔
      While (fun σ => p σ = true) R σ τ := by
  have hcond : ∀ {σ : Store w},
      ((σ.set flag (if p σ then 1 else 0)).cells flag ≠ 0 ↔ p σ = true) := by
    intro σ
    rw [Store.cells_set_self]
    split_ifs with h
    · exact iff_of_true CellWidth.one_ne_zero h
    · exact iff_of_false (fun h0 => h0 rfl) h
  have hend : ∀ {τ : Store w}, I τ → ¬ p τ = true → τ.set flag (if p τ then 1 else 0) = τ := by
    intro τ hτ hp
    rw [if_neg hp, Store.set_eq_self (hflag τ hτ)]
  constructor
  · intro h
    obtain ⟨τ', hw, hτ', he⟩ := While.simulation
      (S := fun (υ σ : Store w) => I σ ∧ υ = σ.set flag (if p σ then 1 else 0))
      (q := fun σ => p σ = true) (Q := R) (fun υ σ h => by rw [h.2, hcond]) (fun υ σ υ' h hp hr => by
        obtain ⟨hσ, rfl⟩ := h
        rw [hcond] at hp
        rw [if_pos hp, hb σ υ' hσ hp] at hr
        obtain ⟨τ, hτ, he⟩ := hr
        exact ⟨τ, hτ, hI σ τ hσ hp hτ, he⟩) h σ ⟨hσ, rfl⟩
    rw [hend hτ' (hw.invariant hI hσ).2] at he
    exact he ▸ hw
  · intro h
    obtain ⟨υ, hw, hτ, he⟩ := While.simulation
      (S := fun (σ υ : Store w) => I σ ∧ υ = σ.set flag (if p σ then 1 else 0))
      (q := fun υ => υ.cells flag ≠ 0) (Q := body.Runs) (fun σ υ h => by rw [h.2, hcond])
      (fun σ υ τ h hp hr => by
        obtain ⟨hσ, rfl⟩ := h
        refine ⟨_, ?_, hI σ τ hσ hp hr, rfl⟩
        rw [if_pos hp, hb σ _ hσ hp]
        exact ⟨τ, hr, rfl⟩) h _ ⟨hσ, rfl⟩
    rw [hend hτ (h.invariant hI hσ).2] at he
    exact he ▸ hw

theorem Runs.iff_eq {c : Code} (h : c.Runs σ τ) {υ : Store w} : c.Runs σ υ ↔ υ = τ :=
  ⟨fun h' => h'.unique h, fun he => he ▸ h⟩

end Code

/-! ### Idle cells -/

/-- The first flag of a depth. -/
def Emitter.flagAt (e : Emitter) (d : Nat) : Nat := e.flags + 2 * d

/-- The scratch cells are zero, and so are the flags **above them** from a **depth** on. -/
structure Emitter.Idle (e : Emitter) (d : Nat) (σ : Store e.width) : Prop where
  above : e.scratch.base + scratchCells ≤ e.flags
  clean : e.scratch.Clean σ
  flags : ∀ a, e.flagAt d ≤ a → σ.cells a = 0

namespace Emitter.Idle

variable {e : Emitter} {d : Nat} {σ τ : Store e.width}

theorem le_flagAt (h : e.Idle d σ) : e.scratch.base + scratchCells ≤ e.flagAt d :=
  h.above.trans (Nat.le_add_right _ _)

theorem mono {d' : Nat} (h : e.Idle d σ) (hd : d ≤ d') : e.Idle d' σ :=
  ⟨h.above, h.clean, fun a ha => h.flags a (by unfold flagAt at *; omega)⟩

theorem congr (h : e.Idle d σ) (hc : ∀ a, e.scratch.base ≤ a → τ.cells a = σ.cells a) :
    e.Idle d τ := by
  have hle := h.le_flagAt
  exact ⟨h.above, fun k hk => by rw [hc _ (by omega), h.clean k hk],
    fun a ha => by rw [hc _ (by omega), h.flags a ha]⟩

/-- The first flag of a depth may hold anything at the next depth. -/
theorem set (h : e.Idle d σ) (v : e.width.Cell) :
    e.Idle (d + 1) (σ.set (e.flagAt d) v) where
  above := h.above
  clean := h.clean.set v (Or.inr h.le_flagAt)
  flags a ha := by
    unfold flagAt at ha
    rw [Store.cells_set_of_ne _ _ (by unfold flagAt; omega), h.flags a (by unfold flagAt; omega)]

theorem runAll {l : Library} {seg : List Instruction} (h : e.Idle d σ)
    (hs : ∀ i ∈ seg, i.Below e.scratch.base) : e.Idle d (runAll l seg σ) :=
  h.congr fun _ ha => runAll_cells hs ha

theorem runs {l : Library} {t : CodeTree} (h : e.Idle d σ)
    (ht : t.All (Instruction.Below e.scratch.base)) (hr : t.Runs l σ τ) : e.Idle d τ :=
  h.congr fun _ ha => hr.cells ht ha

end Emitter.Idle

/-! ### Brackets -/

section Brackets
variable {e : Emitter} {d : Nat} {σ τ : Store e.width} {cond : Operand}

theorem runs_flag (h : e.Idle d σ) (hc : cond.Below e.scratch.base) :
    (Code.setBool e.scratch (e.flagAt d) cond).Runs σ
      (σ.set (e.flagAt d) (if σ.holds cond then 1 else 0)) := by
  have hle := h.le_flagAt
  have := Code.runs_setBool h.clean (e.flagAt d) (by omega) hc.address
  rwa [h.flags _ (Nat.le_refl _), zero_add] at this

theorem holds_set (hc : cond.Below e.scratch.base) {a : Nat} (ha : e.scratch.base ≤ a)
    (v : e.width.Cell) : (σ.set a v).holds cond = σ.holds cond := by
  cases cond with
  | value => rfl
  | cells b len =>
    have := hc.address b rfl
    simp only [Store.holds, Store.cells_set_of_ne σ v (show b ≠ a by omega)]

/-- Code that does what straight instructions do, on **clean** scratch cells. -/
def Code.Does (e : Emitter) (seg : List Instruction) (c : Code) : Prop :=
  ∀ σ : Store e.width, e.scratch.Clean σ → c.Runs σ (runAll e.library seg σ)

/-- Code that does what a tree does, at a depth. -/
def Code.DoesTree (e : Emitter) (d : Nat) (t : CodeTree) (c : Code) : Prop :=
  ∀ σ τ : Store e.width, e.Idle d σ → (c.Runs σ τ ↔ t.Runs e.library σ τ)

variable {test last : List Instruction} {body yes no : CodeTree} {ctest clast cbody cyes cno : Code}

/-- **The code of a loop** repeats as the loop does. -/
theorem runs_bracketLoop (hc : cond.Below e.scratch.base)
    (ht : ∀ i ∈ test, i.Below e.scratch.base) (hl : ∀ i ∈ last, i.Below e.scratch.base)
    (hb : body.All (Instruction.Below e.scratch.base)) (hbody : cbody.DoesTree e (d + 1) body)
    (hlast : clast.Does e last) (htest : ctest.Does e test) (hσ : e.Idle d σ) :
    (Code.loop (e.flagAt d) (cbody ++ clast ++ ctest
      ++ (.clear (e.flagAt d) ++ .setBool e.scratch (e.flagAt d) cond))).Runs
        (σ.set (e.flagAt d) (if σ.holds cond then 1 else 0)) τ ↔
      While (fun σ => σ.holds cond = true)
        (fun σ τ => ∃ υ, body.Runs e.library σ υ ∧ τ = runAll e.library (last ++ test) υ) σ τ := by
  have hbase := hσ.le_flagAt
  set flag := e.flagAt d with hflag
  have hround : ∀ σ τ : Store e.width, e.Idle d σ → σ.holds cond = true →
      (∃ υ, body.Runs e.library σ υ ∧ τ = runAll e.library (last ++ test) υ) → e.Idle d τ := by
    rintro σ τ hσ - ⟨υ, hυ, rfl⟩
    rw [runAll_append]
    exact ((hσ.runs hb hυ).runAll hl).runAll ht
  refine Code.runs_flagged (I := e.Idle d) (p := fun σ => σ.holds cond)
    (fun σ h => h.flags _ (Nat.le_refl _)) hround (fun σ υ hσ _ => ?_) hσ
  have hset : ∀ ρ : Store e.width, e.Idle d ρ →
      (clast ++ ctest ++ (.clear flag ++ .setBool e.scratch flag cond)).Runs (ρ.set flag 1)
        ((runAll e.library (last ++ test) ρ).set flag
          (if (runAll e.library (last ++ test) ρ).holds cond then 1 else 0)) := by
    intro ρ hρ
    have h₁ := hlast (ρ.set flag 1) (hρ.set 1).clean
    rw [runAll_set hl (by omega)] at h₁
    have hρ' := hρ.runAll (l := e.library) hl
    have h₂ := htest _ (hρ'.set 1).clean
    rw [runAll_set ht (by omega)] at h₂
    have h₃ := runs_flag (hρ'.runAll (l := e.library) ht) hc
    rw [runAll_append]
    refine ⟨_, ⟨_, h₁, h₂⟩, _, Code.runs_clear flag, ?_⟩
    rwa [Store.set_set, Store.set_eq_self ((hρ'.runAll ht).flags _ (Nat.le_refl _))]
  constructor
  · rintro ⟨ρ, ⟨ρ', ⟨ρ'', h₁, h₂⟩, h₃⟩, h₄⟩
    rw [hbody _ _ (hσ.set 1), CodeTree.runs_set hb (by omega)] at h₁
    obtain ⟨τ, hτ, rfl⟩ := h₁
    have hrest : (clast ++ ctest ++ (.clear flag ++ .setBool e.scratch flag cond)).Runs
        (τ.set flag 1) υ := ⟨ρ, ⟨ρ', h₂, h₃⟩, h₄⟩
    exact ⟨_, ⟨τ, hτ, rfl⟩, hrest.unique (hset τ (hσ.runs hb hτ))⟩
  · rintro ⟨τ, ⟨ρ, hρ, rfl⟩, rfl⟩
    obtain ⟨α, ⟨β, h₁, h₂⟩, h₃⟩ := hset ρ (hσ.runs hb hρ)
    refine ⟨α, ⟨β, ⟨ρ.set flag 1, ?_, h₁⟩, h₂⟩, h₃⟩
    rw [hbody _ _ (hσ.set 1), CodeTree.runs_set hb (by omega)]
    exact ⟨ρ, hρ, rfl⟩

/-- In front of a branch the **first flag** is set to whether the condition holds, and the second
to one. -/
theorem runs_branchFlags (hc : cond.Below e.scratch.base) (hσ : e.Idle d σ) :
    (.add (e.flagAt d + 1) 1 ++ .setBool e.scratch (e.flagAt d) cond : Code).Runs σ
      ((σ.set (e.flagAt d + 1) 1).set (e.flagAt d) (if σ.holds cond then 1 else 0)) := by
  have hbase := hσ.le_flagAt
  have hadd : (Code.add (e.flagAt d + 1) 1).Runs σ (σ.set (e.flagAt d + 1) 1) := by
    show _ = _
    rw [hσ.flags _ (Nat.le_succ _), zero_add]
    rfl
  refine ⟨_, hadd, ?_⟩
  have hclean : e.scratch.Clean (σ.set (e.flagAt d + 1) 1) := hσ.clean.set 1 (by omega)
  have hbool := Code.runs_setBool hclean (e.flagAt d) (by omega) hc.address
  rwa [holds_set hc (by omega), Store.cells_set_of_ne _ _ (by omega),
    hσ.flags _ (Nat.le_refl _), zero_add] at hbool

theorem runs_sub_flag (hσ : e.Idle d σ) (v : e.width.Cell) :
    (Code.sub (e.flagAt d + 1) 1).Runs ((σ.set (e.flagAt d + 1) 1).set (e.flagAt d) v)
      (σ.set (e.flagAt d) v) := by
  have ho : σ.cells (e.flagAt d + 1) = 0 := hσ.flags _ (Nat.le_succ _)
  have h1 : e.width.cell 1 = 1 := rfl
  show _ = _
  refine Store.ext (fun x => ?_) rfl rfl
  simp only [Store.cells_set]
  grind

/-- With the first flag set, the first loop does one round, and **takes back the second flag**. -/
theorem runs_firstSide (hy : yes.All (Instruction.Below e.scratch.base))
    (hyes : cyes.DoesTree e (d + 1) yes) (hσ : e.Idle d σ) :
    (Code.loop (e.flagAt d) (.sub (e.flagAt d + 1) 1 ++ cyes ++ .clear (e.flagAt d))).Runs
      ((σ.set (e.flagAt d + 1) 1).set (e.flagAt d) 1) τ ↔ yes.Runs e.library σ τ := by
  have hbase := hσ.le_flagAt
  have hclear : ∀ ρ, yes.Runs e.library σ ρ →
      (Code.clear (e.flagAt d)).Runs (ρ.set (e.flagAt d) 1) ρ := fun ρ hρ => by
    have := Code.runs_clear (σ := ρ.set (e.flagAt d) 1) (e.flagAt d)
    rwa [Store.set_set, Store.set_eq_self ((hσ.runs hy hρ).flags _ (Nat.le_refl _))] at this
  have hround : ∀ ρ, (.sub (e.flagAt d + 1) 1 ++ cyes ++ .clear (e.flagAt d) : Code).Runs
      ((σ.set (e.flagAt d + 1) 1).set (e.flagAt d) 1) ρ ↔ yes.Runs e.library σ ρ := by
    intro ρ
    constructor
    · rintro ⟨α, ⟨β, h₁, h₂⟩, h₃⟩
      rw [h₁.unique (runs_sub_flag hσ 1), hyes _ _ (hσ.set 1), CodeTree.runs_set hy (by omega)]
        at h₂
      obtain ⟨υ, hυ, rfl⟩ := h₂
      exact h₃.unique (hclear υ hυ) ▸ hυ
    · intro hρ
      refine ⟨ρ.set (e.flagAt d) 1, ⟨_, runs_sub_flag hσ 1, ?_⟩, hclear ρ hρ⟩
      rw [hyes _ _ (hσ.set 1), CodeTree.runs_set hy (by omega)]
      exact ⟨ρ, hρ, rfl⟩
  rw [Code.runs_once, hround]
  · rw [Store.cells_set_self]
    exact CellWidth.one_ne_zero
  · exact fun υ hυ => (hσ.runs hy ((hround υ).mp hυ)).flags _ (Nat.le_refl _)

/-- With the second flag set only, the second loop does one round. -/
theorem runs_secondSide (hn : no.All (Instruction.Below e.scratch.base))
    (hno : cno.DoesTree e (d + 1) no) (hσ : e.Idle d σ) :
    (Code.loop (e.flagAt d + 1) (.sub (e.flagAt d + 1) 1 ++ cno)).Runs
      (σ.set (e.flagAt d + 1) 1) τ ↔ no.Runs e.library σ τ := by
  have hf : σ.cells (e.flagAt d) = 0 := hσ.flags _ (Nat.le_refl _)
  have hsub := runs_sub_flag hσ 0
  rw [Store.set_eq_self (by rw [Store.cells_set_of_ne _ _ (by omega), hf]),
    Store.set_eq_self hf] at hsub
  have hround : ∀ ρ, (.sub (e.flagAt d + 1) 1 ++ cno : Code).Runs
      (σ.set (e.flagAt d + 1) 1) ρ ↔ no.Runs e.library σ ρ := by
    intro ρ
    rw [← hno _ _ (hσ.mono (Nat.le_succ d))]
    exact ⟨fun ⟨α, h₁, h₂⟩ => h₁.unique hsub ▸ h₂, fun h => ⟨σ, hsub, h⟩⟩
  rw [Code.runs_once, hround]
  · rw [Store.cells_set_self]
    exact CellWidth.one_ne_zero
  · exact fun υ hυ => (hσ.runs hn ((hround υ).mp hυ)).flags _ (Nat.le_succ _)

/-- **The code of a branch** goes to one side as the branch does. -/
theorem runs_bracketBranch (hc : cond.Below e.scratch.base)
    (hy : yes.All (Instruction.Below e.scratch.base))
    (hn : no.All (Instruction.Below e.scratch.base)) (hyes : cyes.DoesTree e (d + 1) yes)
    (hno : cno.DoesTree e (d + 1) no) (hσ : e.Idle d σ) :
    (.add (e.flagAt d + 1) 1 ++ .setBool e.scratch (e.flagAt d) cond
      ++ .loop (e.flagAt d) (.sub (e.flagAt d + 1) 1 ++ cyes ++ .clear (e.flagAt d))
      ++ .loop (e.flagAt d + 1) (.sub (e.flagAt d + 1) 1 ++ cno) : Code).Runs σ τ ↔
        if σ.holds cond then yes.Runs e.library σ τ else no.Runs e.library σ τ := by
  have hfront := runs_branchFlags hc hσ
  split_ifs at hfront ⊢ with hcond
  · -- the second loop finds its flag at zero
    have hnever : ∀ ρ υ, yes.Runs e.library σ ρ →
        ((Code.loop (e.flagAt d + 1) (.sub (e.flagAt d + 1) 1 ++ cno)).Runs ρ υ ↔ υ = ρ) :=
      fun ρ υ hρ => Code.runs_never ((hσ.runs hy hρ).flags _ (Nat.le_succ _))
    constructor
    · rintro ⟨α, ⟨β, h₁, h₂⟩, h₃⟩
      rw [h₁.unique hfront, runs_firstSide hy hyes hσ] at h₂
      rw [hnever α τ h₂] at h₃
      exact h₃ ▸ h₂
    · intro hτ
      exact ⟨τ, ⟨_, hfront, (runs_firstSide hy hyes hσ).mpr hτ⟩, (hnever τ τ hτ).mpr rfl⟩
  · -- the first loop finds its flag at zero
    have hf : (σ.set (e.flagAt d + 1) 1).cells (e.flagAt d) = 0 := by
      rw [Store.cells_set_of_ne _ _ (by omega), hσ.flags _ (Nat.le_refl _)]
    rw [Store.set_eq_self hf] at hfront
    constructor
    · rintro ⟨α, ⟨β, h₁, h₂⟩, h₃⟩
      rw [h₁.unique hfront, Code.runs_never hf] at h₂
      rwa [h₂, runs_secondSide hn hno hσ] at h₃
    · intro hτ
      exact ⟨_, ⟨_, hfront, (Code.runs_never hf).mpr rfl⟩, (runs_secondSide hn hno hσ).mpr hτ⟩

/-! ### Trees from their parts -/

theorem Code.Does.append {seg seg' : List Instruction} {c c' : Code} (h : c.Does e seg)
    (h' : c'.Does e seg') (hseg : ∀ i ∈ seg, i.Below e.scratch.base) :
    (c ++ c').Does e (seg ++ seg') := fun σ hσ => by
  rw [runAll_append]
  refine ⟨_, h σ hσ, h' _ fun k hk => ?_⟩
  rw [runAll_cells hseg (by omega), hσ k hk]

theorem Code.DoesTree.behind {t : CodeTree} {c c' : Code} (h : c'.DoesTree e d t)
    (hc : c.Does e []) : (c ++ c').DoesTree e d t := fun σ τ hσ => by
  rw [← h σ τ hσ]
  have hsilent : c.Runs σ σ := hc σ hσ.clean
  exact ⟨fun ⟨ρ, h₁, h₂⟩ => h₁.unique hsilent ▸ h₂, fun h => ⟨σ, hsilent, h⟩⟩

variable {before : List Instruction} {n : Nat} {rest : CodeTree} {cfront crest : Code}

theorem doesTree_loop
    (ht : (CodeTree.loop before n test cond body last rest).All (Instruction.Below e.scratch.base))
    (hfront : cfront.Does e (before ++ test)) (hbody : cbody.DoesTree e (d + 1) body)
    (hlast : clast.Does e last) (htest : ctest.Does e test) (hrest : crest.DoesTree e d rest) :
    (cfront ++ .setBool e.scratch (e.flagAt d) cond ++ .loop (e.flagAt d) (cbody ++ clast ++ ctest
      ++ (.clear (e.flagAt d) ++ .setBool e.scratch (e.flagAt d) cond)) ++ crest).DoesTree e d
        (.loop before n test cond body last rest) := by
  intro σ τ hσ
  obtain ⟨hb, -, hte, hj, hbo, -, hla, -, -, hr⟩ := CodeTree.all_loop.mp ht
  have hc : cond.Below e.scratch.base := hj.operands cond (by simp [Instruction.operands])
  have hft : ∀ i ∈ before ++ test, i.Below e.scratch.base :=
    List.forall_mem_append.mpr ⟨hb, hte⟩
  have hσ' := hσ.runAll (l := e.library) hft
  have hset : (cfront ++ .setBool e.scratch (e.flagAt d) cond).Runs σ _ :=
    ⟨_, hfront σ hσ.clean, runs_flag hσ' hc⟩
  have hloop := fun ρ => runs_bracketLoop (τ := ρ) hc hte hla hbo hbody hlast htest hσ'
  have hidle : ∀ ρ, While (fun σ : Store e.width => σ.holds cond = true)
      (fun σ τ => ∃ υ, body.Runs e.library σ υ ∧ τ = runAll e.library (last ++ test) υ)
      (runAll e.library (before ++ test) σ) ρ → e.Idle d ρ := by
    intro ρ hρ
    refine (hρ.invariant (I := e.Idle d) (fun α β hα _ hβ => ?_) hσ').1
    obtain ⟨υ, hυ, he⟩ := hβ
    rw [he, runAll_append]
    exact ((hα.runs hbo hυ).runAll hla).runAll hte
  constructor
  · rintro ⟨ρ, ⟨ρ', h₁, h₂⟩, h₃⟩
    rw [h₁.unique hset, hloop] at h₂
    exact ⟨ρ, h₂, (hrest ρ τ (hidle ρ h₂)).mp h₃⟩
  · rintro ⟨ρ, h₁, h₂⟩
    exact ⟨ρ, ⟨_, hset, (hloop ρ).mpr h₁⟩, (hrest ρ τ (hidle ρ h₁)).mpr h₂⟩

theorem doesTree_branch
    (ht : (CodeTree.branch before n cond yes no rest).All (Instruction.Below e.scratch.base))
    (hfront : cfront.Does e before) (hyes : cyes.DoesTree e (d + 1) yes)
    (hno : cno.DoesTree e (d + 1) no) (hrest : crest.DoesTree e d rest) :
    (cfront ++ (.add (e.flagAt d + 1) 1 ++ .setBool e.scratch (e.flagAt d) cond
      ++ .loop (e.flagAt d) (.sub (e.flagAt d + 1) 1 ++ cyes ++ .clear (e.flagAt d))
      ++ .loop (e.flagAt d + 1) (.sub (e.flagAt d + 1) 1 ++ cno)) ++ crest).DoesTree e d
        (.branch before n cond yes no rest) := by
  intro σ τ hσ
  obtain ⟨hb, hte, hy, -, -, hn, -, hr⟩ := CodeTree.all_branch.mp ht
  have hc : cond.Below e.scratch.base := hte.operands cond (by simp [Instruction.operands])
  have hσ' := hσ.runAll (l := e.library) hb
  have hsides := fun ρ => runs_bracketBranch (τ := ρ) hc hy hn hyes hno hσ'
  have hidle : ∀ ρ, (if (runAll e.library before σ).holds cond
      then yes.Runs e.library (runAll e.library before σ) ρ
      else no.Runs e.library (runAll e.library before σ) ρ) → e.Idle d ρ := by
    intro ρ hρ
    split_ifs at hρ
    · exact hσ'.runs hy hρ
    · exact hσ'.runs hn hρ
  constructor
  · rintro ⟨ρ, ⟨ρ', h₁, h₂⟩, h₃⟩
    rw [h₁.unique (hfront σ hσ.clean), hsides] at h₂
    exact ⟨ρ, h₂, (hrest ρ τ (hidle ρ h₂)).mp h₃⟩
  · rintro ⟨ρ, h₁, h₂⟩
    exact ⟨ρ, ⟨_, hfront σ hσ.clean, (hsides ρ).mpr h₁⟩, (hrest ρ τ (hidle ρ h₁)).mpr h₂⟩

end Brackets

end TapeCompiler
