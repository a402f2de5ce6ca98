import TapeCompiler.Proofs.Cells.Jumping
import TapeCompiler.Proofs.Repetition
import Std.Data.String.ToNat
import Mathlib.Data.List.Nodup

/-! # Trees of instructions

What lowering makes is a tree: straight instructions, a branch with two sides, or a loop whose test
stands once in front of it (`CodeTree`). `flatten` writes a tree with labels and jumps, each label
with the number of its branch or loop. `CodeTree.Runs` is what a tree does.

* `nodup_labelNames`: different labels have different names, so that a label is found where it
  stands (`labelIndex?_eq`);
* `Runs.unique`: a tree has at most one outcome;
* `Matches.simulation`: trees of one form whose straight parts keep a relation between stores keep
  it as wholes. -/

namespace TapeCompiler

variable {w : CellWidth} {l : Library}

/-! ### Labels -/

/-- The labels that lowering makes. -/
inductive LabelKind
  | ifElse
  | ifEnd
  | forTest
  | forUpdate
  | forEnd
  deriving DecidableEq, Repr

namespace LabelKind

/-- The text in front of the number. -/
def text : LabelKind → String
  | ifElse => "if_else_"
  | ifEnd => "if_end_"
  | forTest => "for_test_"
  | forUpdate => "for_update_"
  | forEnd => "for_end_"

/-- The **name of a label**, by its kind and its number. -/
def name (kind : LabelKind) (n : Nat) : String := kind.text ++ toString n

theorem eq_of_take {k k' : LabelKind} (h : k.text.toList.take 5 = k'.text.toList.take 5) :
    k = k' := by
  revert h
  cases k <;> cases k' <;> decide

theorem name_inj {k k' : LabelKind} {n n' : Nat} : k.name n = k'.name n' ↔ k = k' ∧ n = n' := by
  refine ⟨fun h => ?_, fun ⟨hk, hn⟩ => by rw [hk, hn]⟩
  have hlen : ∀ k : LabelKind, 5 ≤ k.text.toList.length := by
    intro k
    cases k <;> decide
  obtain rfl : k = k' := by
    refine eq_of_take ?_
    have := congrArg (fun s => s.toList.take 5) h
    simpa only [name, String.toList_append, List.take_append_of_le_length (hlen _)] using this
  refine ⟨rfl, Nat.repr_injective ?_⟩
  exact (String.append_right_inj _).mp h

end LabelKind

/-- The names of the labels, in order. -/
def labelNames (code : List Instruction) : List String :=
  code.filterMap fun i =>
    match i with
    | .label name => some name
    | _ => none

@[simp] theorem labelNames_nil : labelNames [] = [] := rfl

@[simp] theorem labelNames_append (code code' : List Instruction) :
    labelNames (code ++ code') = labelNames code ++ labelNames code' := List.filterMap_append

@[simp] theorem labelNames_label (name : String) (code : List Instruction) :
    labelNames (.label name :: code) = name :: labelNames code := rfl

@[simp] theorem labelNames_jump (name : String) (code : List Instruction) :
    labelNames (.jump name :: code) = labelNames code := rfl

@[simp] theorem labelNames_jumpUnless (c : Operand) (name : String) (code : List Instruction) :
    labelNames (.jumpUnless c name :: code) = labelNames code := rfl

@[simp] theorem labelNames_branch (c : Operand) (name : String) (code : List Instruction) :
    labelNames (.branch c name :: code) = labelNames code := rfl

theorem Straight.labelNames {code : List Instruction} (h : Straight code) :
    labelNames code = [] := by
  refine List.filterMap_eq_nil_iff.mpr fun i hi => ?_
  have := h i hi
  cases i <;> simp_all [Instruction.isFlow]

/-- A label that no other is named like is **found where it stands**. -/
theorem labelIndex?_eq {code : List Instruction} (h : (labelNames code).Nodup) {k : Nat}
    {name : String} (hk : code[k]? = some (.label name)) : labelIndex? code name = some k := by
  obtain ⟨hlt, hi⟩ := List.getElem?_eq_some_iff.mp hk
  refine List.findIdx?_eq_some_iff_getElem.mpr ⟨hlt, by simp [hi], fun j hj => ?_⟩
  have hpair := List.pairwise_filterMap.mp h
  have hne := List.pairwise_iff_getElem.mp hpair j k (by omega) hlt hj
  cases hc : code[j] <;> simp_all

/-! ### Trees -/

/-- **Instructions as a tree**: straight ones, then a branch or a loop and what is behind it. -/
inductive CodeTree
  | done (code : List Instruction)
  | branch (before : List Instruction) (n : Nat) (condition : Operand) (yes no rest : CodeTree)
  | loop (before : List Instruction) (n : Nat) (test : List Instruction) (condition : Operand)
      (body : CodeTree) (last : List Instruction) (rest : CodeTree)

namespace CodeTree

/-- A tree **written with labels and jumps**. -/
def flatten : CodeTree → List Instruction
  | done code => code
  | branch before n condition yes no rest =>
    before ++ .branch condition (LabelKind.ifElse.name n) :: (yes.flatten
      ++ .jump (LabelKind.ifEnd.name n) :: .label (LabelKind.ifElse.name n) :: (no.flatten
      ++ .label (LabelKind.ifEnd.name n) :: rest.flatten))
  | loop before n test condition body last rest =>
    before ++ .label (LabelKind.forTest.name n) :: (test
      ++ .jumpUnless condition (LabelKind.forEnd.name n) :: (body.flatten
      ++ .label (LabelKind.forUpdate.name n) :: (last
      ++ .jump (LabelKind.forTest.name n) :: .label (LabelKind.forEnd.name n) :: rest.flatten)))

/-- No label or jump but those of the tree. -/
def Straight : CodeTree → Prop
  | done code => TapeCompiler.Straight code
  | branch before _ _ yes no rest =>
    TapeCompiler.Straight before ∧ yes.Straight ∧ no.Straight ∧ rest.Straight
  | loop before _ test _ body last rest =>
    TapeCompiler.Straight before ∧ TapeCompiler.Straight test ∧ body.Straight ∧
      TapeCompiler.Straight last ∧ rest.Straight

/-- The labels, in order. -/
def labels : CodeTree → List (LabelKind × Nat)
  | done _ => []
  | branch _ n _ yes no rest =>
    yes.labels ++ (.ifElse, n) :: (no.labels ++ (.ifEnd, n) :: rest.labels)
  | loop _ n _ _ body _ rest =>
    (.forTest, n) :: (body.labels ++ (.forUpdate, n) :: (.forEnd, n) :: rest.labels)

theorem labelNames_flatten {t : CodeTree} (h : t.Straight) :
    labelNames t.flatten = t.labels.map fun p => p.1.name p.2 := by
  induction t with
  | done code => exact h.labelNames
  | branch before n c yes no rest ihy ihn ihr =>
    obtain ⟨hb, hy, hn, hr⟩ := h
    simp [flatten, labels, hb.labelNames, ihy hy, ihn hn, ihr hr]
  | loop before n test c body last rest ihb ihr =>
    obtain ⟨hb, ht, hbody, hl, hr⟩ := h
    simp [flatten, labels, hb.labelNames, ht.labelNames, hl.labelNames, ihb hbody, ihr hr]

theorem nodup_labelNames {t : CodeTree} (h : t.Straight) (hd : t.labels.Nodup) :
    (labelNames t.flatten).Nodup := by
  rw [labelNames_flatten h]
  have hinj : Function.Injective fun p : LabelKind × Nat => p.1.name p.2 := fun p q hpq => by
    obtain ⟨h₁, h₂⟩ := LabelKind.name_inj.mp hpq
    exact Prod.ext h₁ h₂
  exact List.Nodup.map hinj hd

/-- A tree with its straight parts and its conditions changed. -/
def map (g : List Instruction → List Instruction) (h : Operand → Operand) : CodeTree → CodeTree
  | done code => done (g code)
  | branch before n c yes no rest =>
    branch (g before) n (h c) (yes.map g h) (no.map g h) (rest.map g h)
  | loop before n test c body last rest =>
    loop (g before) n (g test) (h c) (body.map g h) (g last) (rest.map g h)

section Map
variable {g : List Instruction → List Instruction} {h : Operand → Operand}

@[simp] theorem labels_map (t : CodeTree) : (t.map g h).labels = t.labels := by
  induction t with
  | done => rfl
  | branch _ _ _ _ _ _ ihy ihn ihr => simp [map, labels, ihy, ihn, ihr]
  | loop _ _ _ _ _ _ _ ihb ihr => simp [map, labels, ihb, ihr]

theorem Straight.map (hg : ∀ seg, TapeCompiler.Straight seg → TapeCompiler.Straight (g seg))
    {t : CodeTree} (ht : t.Straight) : (t.map g h).Straight := by
  induction t with
  | done seg => exact hg _ ht
  | branch _ _ _ _ _ _ ihy ihn ihr => exact ⟨hg _ ht.1, ihy ht.2.1, ihn ht.2.2.1, ihr ht.2.2.2⟩
  | loop _ _ _ _ _ _ _ ihb ihr =>
    exact ⟨hg _ ht.1, hg _ ht.2.1, ihb ht.2.2.1, hg _ ht.2.2.2.1, ihr ht.2.2.2.2⟩

end Map

/-! ### What a tree does -/

/-- **What a tree does** to a store. The test of a loop is run in front of it and after each
round. -/
def Runs (l : Library) : CodeTree → Store w → Store w → Prop
  | done code, σ, τ => τ = runAll l code σ
  | branch before _ c yes no rest, σ, τ =>
    ∃ ρ, (if (runAll l before σ).holds c then yes.Runs l (runAll l before σ) ρ
      else no.Runs l (runAll l before σ) ρ) ∧ rest.Runs l ρ τ
  | loop before _ test c body last rest, σ, τ =>
    ∃ ρ, While (fun σ => σ.holds c = true)
      (fun σ τ => ∃ υ, body.Runs l σ υ ∧ τ = runAll l (last ++ test) υ)
      (runAll l (before ++ test) σ) ρ ∧ rest.Runs l ρ τ

theorem Runs.unique {t : CodeTree} :
    ∀ {σ τ υ : Store w}, t.Runs l σ τ → t.Runs l σ υ → τ = υ := by
  induction t with
  | done code => intro σ τ υ h h'; exact h.trans h'.symm
  | branch before n c yes no rest ihy ihn ihr =>
    rintro σ τ υ ⟨ρ, h₁, h₂⟩ ⟨ρ', h₁', h₂'⟩
    have hρ : ρ = ρ' := by
      split_ifs at h₁ h₁'
      · exact ihy h₁ h₁'
      · exact ihn h₁ h₁'
    exact ihr h₂ (hρ ▸ h₂')
  | loop before n test c body last rest ihb ihr =>
    rintro σ τ υ ⟨ρ, h₁, h₂⟩ ⟨ρ', h₁', h₂'⟩
    have hρ : ρ = ρ' := h₁.unique (fun α β γ ⟨β', hβ, e⟩ ⟨γ', hγ, e'⟩ => by
      rw [e, e', ihb hβ hγ]) h₁'
    exact ihr h₂ (hρ ▸ h₂')

/-! ### Trees of one form -/

section Matches

/-- Straight instructions, each on a side, **keep a relation** between stores. -/
def Keeps (l : Library) (S : Store w → Store w → Prop) (code code' : List Instruction) : Prop :=
  ∀ σ τ, S σ τ → S (runAll l code σ) (runAll l code' τ)

/-- Two conditions say the same of related stores. -/
def Agree (S : Store w → Store w → Prop) (c c' : Operand) : Prop :=
  ∀ σ τ, S σ τ → σ.holds c = τ.holds c'

/-- **Trees of one form** whose straight parts keep a relation and whose conditions agree. -/
inductive Matches (l : Library) (S : Store w → Store w → Prop) : CodeTree → CodeTree → Prop
  | done {code code' : List Instruction} :
    Keeps l S code code' → Matches l S (done code) (done code')
  | branch {before before' : List Instruction} {n n' : Nat} {c c' : Operand}
    {yes no rest yes' no' rest' : CodeTree} :
    Keeps l S before before' → Agree S c c' → Matches l S yes yes' → Matches l S no no' →
      Matches l S rest rest' →
        Matches l S (branch before n c yes no rest) (branch before' n' c' yes' no' rest')
  | loop {before before' : List Instruction} {n n' : Nat} {test test' : List Instruction}
    {c c' : Operand} {body body' : CodeTree} {last last' : List Instruction}
    {rest rest' : CodeTree} :
    Keeps l S before before' → Keeps l S test test' → Agree S c c' → Matches l S body body' →
      Keeps l S last last' → Matches l S rest rest' →
        Matches l S (loop before n test c body last rest)
          (loop before' n' test' c' body' last' rest')

variable {S : Store w → Store w → Prop} {t t' : CodeTree}

theorem Keeps.append {a a' b b' : List Instruction} (h : Keeps l S a a') (h' : Keeps l S b b') :
    Keeps l S (a ++ b) (a' ++ b') := fun σ τ hs => by
  rw [runAll_append, runAll_append]
  exact h' _ _ (h _ _ hs)

/-- **Related stores lead to related outcomes.** -/
theorem Matches.simulation (h : Matches l S t t') :
    ∀ {σ σ' τ : Store w}, S σ σ' → t.Runs l σ τ → ∃ τ', t'.Runs l σ' τ' ∧ S τ τ' := by
  induction h with
  | done h => rintro σ σ' τ hs rfl; exact ⟨_, rfl, h _ _ hs⟩
  | branch hb hc _ _ _ ihy ihn ihr =>
    rintro σ σ' τ hs ⟨ρ, h₁, h₂⟩
    have hb' := hb _ _ hs
    have hρ := hc _ _ hb'
    split_ifs at h₁ with hif
    · obtain ⟨ρ', h₁', hs'⟩ := ihy hb' h₁
      obtain ⟨τ', h₂', hs''⟩ := ihr hs' h₂
      exact ⟨τ', ⟨ρ', by rwa [if_pos (hρ ▸ hif)], h₂'⟩, hs''⟩
    · obtain ⟨ρ', h₁', hs'⟩ := ihn hb' h₁
      obtain ⟨τ', h₂', hs''⟩ := ihr hs' h₂
      exact ⟨τ', ⟨ρ', by rwa [if_neg (hρ ▸ hif)], h₂'⟩, hs''⟩
  | @loop before before' n n' test test' c c' body body' last last' rest rest' hb ht hc _ hl _
      ihb ihr =>
    rintro σ σ' τ hs ⟨ρ, h₁, h₂⟩
    have hround : ∀ α β α', S α β → α.holds c = true →
        (∃ υ, body.Runs l α υ ∧ α' = runAll l (last ++ test) υ) →
          ∃ β', (∃ υ', body'.Runs l β υ' ∧ β' = runAll l (last' ++ test') υ') ∧ S α' β' := by
      rintro α β α' hab - ⟨υ, hυ, rfl⟩
      obtain ⟨υ', hυ', hs'⟩ := ihb hab hυ
      exact ⟨_, ⟨υ', hυ', rfl⟩, hl.append ht _ _ hs'⟩
    obtain ⟨ρ', h₁', hs'⟩ := h₁.simulation (fun _ _ hab => by rw [hc _ _ hab]) hround _
      (hb.append ht _ _ hs)
    obtain ⟨τ', h₂', hs''⟩ := ihr hs' h₂
    exact ⟨τ', ⟨ρ', h₁', h₂'⟩, hs''⟩

theorem Matches.symm (h : Matches l S t t') : Matches l (fun σ τ => S τ σ) t' t := by
  induction h with
  | done h => exact .done fun σ τ hs => h τ σ hs
  | branch hb hc _ _ _ ihy ihn ihr =>
    exact .branch (fun σ τ hs => hb τ σ hs) (fun σ τ hs => (hc τ σ hs).symm) ihy ihn ihr
  | loop hb ht hc _ hl _ ihb ihr =>
    exact .loop (fun σ τ hs => hb τ σ hs) (fun σ τ hs => ht τ σ hs)
      (fun σ τ hs => (hc τ σ hs).symm) ihb (fun σ τ hs => hl τ σ hs) ihr

end Matches

end CodeTree

end TapeCompiler
