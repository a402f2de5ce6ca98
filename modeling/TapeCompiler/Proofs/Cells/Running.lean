import TapeCompiler.Proofs.Cells.Tree

/-! # Trees on the machine

The machine that runs the instructions of a tree does what the tree does (`halts_flatten`). Both
directions follow the tree: `steps_of_runs` finds the steps of an outcome, and `runs_of_steps` an
outcome in the steps that are left up to the end, by their number where a loop goes round. -/

namespace TapeCompiler

variable {w : CellWidth} {l : Library} {code : List Instruction} {k j n : Nat} {σ : Store w}

/-! ### Single steps -/

theorem step?_label {name : String} (h : code[k]? = some (.label name)) :
    Config.step? l code ⟨k, σ⟩ = some ⟨k + 1, σ⟩ := by
  simp [Config.step?, h, Instruction.next?, Instruction.effect]

theorem step?_jump {name : String} (h : code[k]? = some (.jump name))
    (hj : labelIndex? code name = some j) : Config.step? l code ⟨k, σ⟩ = some ⟨j, σ⟩ := by
  simp [Config.step?, h, Instruction.next?, hj]

theorem step?_test {c : Operand} {name : String}
    (h : code[k]? = some (.jumpUnless c name) ∨ code[k]? = some (.branch c name))
    (hj : labelIndex? code name = some j) :
    Config.step? l code ⟨k, σ⟩ = some ⟨if σ.holds c then k + 1 else j, σ⟩ := by
  rcases h with h | h <;> simp only [Config.step?, h, Option.bind_some, Instruction.next?, hj] <;>
    split_ifs <;> rfl

namespace CodeTree

/-! ### Where the parts of a tree stand -/

theorem stands_branch {before : List Instruction} {c : Operand} {yes no rest : CodeTree} :
    Stands code k (branch before n c yes no rest).flatten ↔
      Stands code k before ∧
      code[k + before.length]? = some (.branch c (LabelKind.ifElse.name n)) ∧
      Stands code (k + before.length + 1) yes.flatten ∧
      code[k + before.length + 1 + yes.flatten.length]? =
        some (.jump (LabelKind.ifEnd.name n)) ∧
      code[k + before.length + 1 + yes.flatten.length + 1]? =
        some (.label (LabelKind.ifElse.name n)) ∧
      Stands code (k + before.length + 1 + yes.flatten.length + 1 + 1) no.flatten ∧
      code[k + before.length + 1 + yes.flatten.length + 1 + 1 + no.flatten.length]? =
        some (.label (LabelKind.ifEnd.name n)) ∧
      Stands code (k + before.length + 1 + yes.flatten.length + 1 + 1 + no.flatten.length + 1)
        rest.flatten := by
  simp only [flatten, stands_append, stands_cons]

theorem stands_loop {before test last : List Instruction} {c : Operand} {body rest : CodeTree} :
    Stands code k (loop before n test c body last rest).flatten ↔
      Stands code k before ∧
      code[k + before.length]? = some (.label (LabelKind.forTest.name n)) ∧
      Stands code (k + before.length + 1) test ∧
      code[k + before.length + 1 + test.length]? =
        some (.jumpUnless c (LabelKind.forEnd.name n)) ∧
      Stands code (k + before.length + 1 + test.length + 1) body.flatten ∧
      code[k + before.length + 1 + test.length + 1 + body.flatten.length]? =
        some (.label (LabelKind.forUpdate.name n)) ∧
      Stands code (k + before.length + 1 + test.length + 1 + body.flatten.length + 1) last ∧
      code[k + before.length + 1 + test.length + 1 + body.flatten.length + 1 + last.length]? =
        some (.jump (LabelKind.forTest.name n)) ∧
      code[k + before.length + 1 + test.length + 1 + body.flatten.length + 1 + last.length + 1]? =
        some (.label (LabelKind.forEnd.name n)) ∧
      Stands code (k + before.length + 1 + test.length + 1 + body.flatten.length + 1 + last.length
        + 1 + 1) rest.flatten := by
  simp only [flatten, stands_append, stands_cons]

theorem length_branch (k : Nat) (before : List Instruction) (n : Nat) (c : Operand)
    (yes no rest : CodeTree) :
    k + (branch before n c yes no rest).flatten.length =
      k + before.length + 1 + yes.flatten.length + 1 + 1 + no.flatten.length + 1
        + rest.flatten.length := by
  simp only [flatten, List.length_append, List.length_cons]
  omega

theorem length_loop (k : Nat) (before : List Instruction) (n : Nat) (test : List Instruction)
    (c : Operand) (body : CodeTree) (last : List Instruction) (rest : CodeTree) :
    k + (loop before n test c body last rest).flatten.length =
      k + before.length + 1 + test.length + 1 + body.flatten.length + 1 + last.length + 1 + 1
        + rest.flatten.length := by
  simp only [flatten, List.length_append, List.length_cons]
  omega

/-! ### From a tree to the machine -/

section Loop
variable (hu : (labelNames code).Nodup)
include hu

/-- **The machine does what a tree does.** -/
theorem steps_of_runs {t : CodeTree} :
    ∀ {k : Nat} {σ τ : Store w}, t.Straight → Stands code k t.flatten → t.Runs l σ τ →
      ∃ n, Steps l code n ⟨k, σ⟩ ⟨k + t.flatten.length, τ⟩ := by
  induction t with
  | done seg => rintro k σ τ hs h rfl; exact ⟨_, steps_straight h hs σ⟩
  | branch before n c yes no rest ihy ihn ihr =>
    rintro k σ τ ⟨hs, hsy, hsn, hsr⟩ h ⟨ρ, hside, hrest⟩
    obtain ⟨hb, htest, hy, hturn, hother, hn, hstop, hr⟩ := stands_branch.mp h
    have hto := step?_test (l := l) (σ := runAll l before σ) (Or.inr htest)
      (labelIndex?_eq hu hother)
    obtain ⟨m, hm⟩ := ihr hsr hr hrest
    have hfront := steps_straight (l := l) hb hs σ
    have hback := Steps.trans (.one (step?_label hstop)) hm
    rw [length_branch]
    split_ifs at hside hto with hc
    · obtain ⟨m', hm'⟩ := ihy hsy hy hside
      have hjump := step?_jump (l := l) (σ := ρ) hturn (labelIndex?_eq hu hstop)
      exact ⟨_, hfront.trans ((Steps.one hto).trans (hm'.trans ((Steps.one hjump).trans hback)))⟩
    · obtain ⟨m', hm'⟩ := ihn hsn hn hside
      have hlabel := step?_label (l := l) (σ := runAll l before σ) hother
      exact ⟨_, hfront.trans ((Steps.one hto).trans ((Steps.one hlabel).trans (hm'.trans hback)))⟩
  | loop before n test c body last rest ihb ihr =>
    rintro k σ τ ⟨hs, hst, hsb, hsl, hsr⟩ h ⟨ρ, hwhile, hrest⟩
    obtain ⟨hb, hhead, ht, hexit, hbody, hagain, hlast, hjump, hstop, hr⟩ := stands_loop.mp h
    obtain ⟨m, hm⟩ := ihr hsr hr hrest
    have hto : ∀ υ : Store w, Config.step? l code ⟨k + before.length + 1 + test.length, υ⟩ = _ :=
      fun υ => step?_test (Or.inl hexit) (labelIndex?_eq hu hstop)
    have hrun : ∀ υ : Store w, Steps l code _ ⟨k + before.length, υ⟩ ⟨_, runAll l test υ⟩ :=
      fun υ => Steps.trans (.one (step?_label hhead)) (steps_straight ht hst υ)
    -- from the test on, round by round
    have hround : ∀ {α β : Store w}, While (fun σ => σ.holds c = true)
        (fun σ τ => ∃ υ, body.Runs l σ υ ∧ τ = runAll l (last ++ test) υ) α β →
          ∃ m, Steps l code m ⟨k + before.length + 1 + test.length, α⟩
            ⟨k + before.length + 1 + test.length + 1 + body.flatten.length + 1 + last.length
              + 1 + 1, β⟩ := by
      intro α β hw
      induction hw with
      | @stop α hc =>
        have hto := hto α
        rw [if_neg hc] at hto
        exact ⟨_, Steps.trans (.one hto) (.one (step?_label hstop))⟩
      | @step α α' β hc hα _ ih =>
        obtain ⟨υ, hυ, rfl⟩ := hα
        have hto := hto α
        rw [if_pos hc] at hto
        obtain ⟨m₁, hm₁⟩ := ihb hsb hbody hυ
        obtain ⟨m₂, hm₂⟩ := ih
        rw [runAll_append] at hm₂
        have hback := step?_jump (l := l) (σ := runAll l last υ) hjump (labelIndex?_eq hu hhead)
        exact ⟨_, Steps.trans (.one hto) (hm₁.trans (Steps.trans (.one (step?_label hagain))
          ((steps_straight hlast hsl υ).trans (Steps.trans (.one hback) ((hrun _).trans hm₂)))))⟩
    rw [runAll_append] at hwhile
    obtain ⟨m', hm'⟩ := hround hwhile
    rw [length_loop]
    exact ⟨_, (steps_straight hb hs σ).trans ((hrun _).trans (hm'.trans hm))⟩

/-! ### From the machine to a tree -/

/-- **The machine does nothing else**: a run to the end passes the end of the tree, with what the
tree makes of the store. -/
theorem runs_of_steps {t : CodeTree} {υ : Store w} :
    ∀ {k n : Nat} {σ : Store w}, t.Straight → Stands code k t.flatten →
      Steps l code n ⟨k, σ⟩ ⟨code.length, υ⟩ →
        ∃ τ m, m ≤ n ∧ t.Runs l σ τ ∧
          Steps l code m ⟨k + t.flatten.length, τ⟩ ⟨code.length, υ⟩ := by
  induction t with
  | done seg =>
    intro k n σ hs h hn
    obtain ⟨m, rfl, hm⟩ := hn.split (steps_straight h hs σ)
    exact ⟨_, m, Nat.le_add_left m _, rfl, hm⟩
  | branch before num c yes no rest ihy ihn ihr =>
    rintro k n σ ⟨hs, hsy, hsn, hsr⟩ h hrun
    obtain ⟨hb, htest, hy, hturn, hother, hn, hstop, hr⟩ := stands_branch.mp h
    have hto := step?_test (l := l) (σ := runAll l before σ) (Or.inr htest)
      (labelIndex?_eq hu hother)
    have hfront := (steps_straight (l := l) hb hs σ).trans (.one hto)
    obtain ⟨n₁, rfl, h₁⟩ := hrun.split hfront
    have hside : ∃ ρ n₂, n₂ ≤ n₁ ∧ (if (runAll l before σ).holds c
        then yes.Runs l (runAll l before σ) ρ else no.Runs l (runAll l before σ) ρ) ∧
          Steps l code n₂ ⟨k + before.length + 1 + yes.flatten.length + 1 + 1 + no.flatten.length,
            ρ⟩ ⟨code.length, υ⟩ := by
      split_ifs at h₁ ⊢ with hc
      · obtain ⟨ρ, n₂, hle, hρ, h₂⟩ := ihy hsy hy h₁
        obtain ⟨n₃, rfl, h₃⟩ := h₂.split (.one (step?_jump hturn (labelIndex?_eq hu hstop)))
        exact ⟨ρ, n₃, by omega, hρ, h₃⟩
      · obtain ⟨n₂, rfl, h₂⟩ := h₁.split (.one (step?_label hother))
        obtain ⟨ρ, n₃, hle, hρ, h₃⟩ := ihn hsn hn h₂
        exact ⟨ρ, n₃, by omega, hρ, h₃⟩
    obtain ⟨ρ, n₂, hle, hρ, h₂⟩ := hside
    obtain ⟨n₃, rfl, h₃⟩ := h₂.split (.one (step?_label hstop))
    obtain ⟨τ, m, hm, hτ, h₄⟩ := ihr hsr hr h₃
    rw [length_branch]
    exact ⟨τ, m, by omega, ⟨ρ, hρ, hτ⟩, h₄⟩
  | loop before num test c body last rest ihb ihr =>
    rintro k n σ ⟨hs, hst, hsb, hsl, hsr⟩ h hrun
    obtain ⟨hb, hhead, ht, hexit, hbody, hagain, hlast, hjump, hstop, hr⟩ := stands_loop.mp h
    have hto : ∀ υ : Store w, Config.step? l code ⟨k + before.length + 1 + test.length, υ⟩ = _ :=
      fun υ => step?_test (Or.inl hexit) (labelIndex?_eq hu hstop)
    have htest : ∀ υ : Store w, Steps l code _ ⟨k + before.length, υ⟩ ⟨_, runAll l test υ⟩ :=
      fun υ => Steps.trans (.one (step?_label hhead)) (steps_straight ht hst υ)
    -- from the test on, by the number of steps left
    have hround : ∀ {n : Nat} {α : Store w},
        Steps l code n ⟨k + before.length + 1 + test.length, α⟩ ⟨code.length, υ⟩ →
          ∃ β m, m ≤ n ∧ While (fun σ => σ.holds c = true)
            (fun σ τ => ∃ υ, body.Runs l σ υ ∧ τ = runAll l (last ++ test) υ) α β ∧
              Steps l code m ⟨k + before.length + 1 + test.length + 1 + body.flatten.length + 1
                + last.length + 1 + 1, β⟩ ⟨code.length, υ⟩ := by
      intro n
      induction n using Nat.strongRecOn with
      | ind n ih =>
        intro α hα
        obtain ⟨n₁, rfl, h₁⟩ := hα.split (.one (hto α))
        split_ifs at h₁ with hc
        · obtain ⟨γ, n₂, hle, hγ, h₂⟩ := ihb hsb hbody h₁
          have hback := step?_jump (l := l) (σ := runAll l last γ) hjump (labelIndex?_eq hu hhead)
          obtain ⟨n₃, rfl, h₃⟩ := h₂.split (Steps.trans (.one (step?_label hagain))
            ((steps_straight hlast hsl γ).trans (Steps.trans (.one hback) (htest _))))
          obtain ⟨β, m, hm, hβ, h₄⟩ := ih n₃ (by omega) h₃
          exact ⟨β, m, by omega, .step hc ⟨γ, hγ, by rw [runAll_append]⟩ hβ, h₄⟩
        · obtain ⟨n₂, rfl, h₂⟩ := h₁.split (.one (step?_label hstop))
          exact ⟨α, n₂, by omega, .stop hc, h₂⟩
    obtain ⟨n₁, rfl, h₁⟩ := hrun.split ((steps_straight hb hs σ).trans (htest _))
    obtain ⟨ρ, n₂, hle, hρ, h₂⟩ := hround h₁
    obtain ⟨τ, m, hm, hτ, h₃⟩ := ihr hsr hr h₂
    rw [length_loop]
    exact ⟨τ, m, by omega, ⟨ρ, by rwa [runAll_append], hτ⟩, h₃⟩

end Loop

/-- **The instructions of a tree halt** with what the tree does. -/
theorem halts_flatten {t : CodeTree} (hs : t.Straight) (hd : t.labels.Nodup) {σ τ : Store w} :
    Halts l t.flatten σ τ ↔ t.Runs l σ τ := by
  have hu : (labelNames t.flatten).Nodup := nodup_labelNames hs hd
  constructor
  · rintro ⟨n, hn⟩
    obtain ⟨τ', m, -, hτ', hm⟩ := runs_of_steps hu hs stands_self hn
    rw [Nat.zero_add] at hm
    obtain ⟨-, he⟩ := hm.eq_of_end
    cases he
    exact hτ'
  · intro h
    obtain ⟨n, hn⟩ := steps_of_runs hu hs stands_self h
    rw [Nat.zero_add] at hn
    exact ⟨n, hn⟩

end CodeTree

end TapeCompiler
