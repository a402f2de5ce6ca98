import TapeCompiler.Proofs.Machine.Safety

/-! # Balanced texts as trees

A text of tape code whose brackets are balanced is that of a `TextTree`, in which a loop holds its
body and every other character stands by itself, whether it is executed or not.

* `TextTree.exists_of_balanced`: every balanced text has a tree;
* `TextTree.ops_flow`: what is executed of a tree is a flow. -/

namespace TapeCompiler

/-- A text as a tree: what stands first, and the rest. -/
inductive TextTree
  | done
  | char (c : Char) (rest : TextTree)
  /-- A body between brackets. -/
  | loop (body rest : TextTree)
  deriving DecidableEq, Repr

namespace TextTree

/-- The characters of a tree, in order. -/
def text : TextTree → List Char
  | done => []
  | char c rest => c :: rest.text
  | loop body rest => '[' :: body.text ++ ']' :: rest.text

/-- Brackets stand **around bodies only**. -/
def Proper : TextTree → Prop
  | done => True
  | char c rest => c ≠ '[' ∧ c ≠ ']' ∧ rest.Proper
  | loop body rest => body.Proper ∧ rest.Proper

/-- What is executed of a tree. -/
def flow : TextTree → Flow
  | done => .done
  | char c rest =>
    match Op.ofChar? c with
    | none => rest.flow
    | some o => .op o rest.flow
  | loop body rest => .loop body.flow rest.flow

/-! ### The tree of a balanced text -/

/-- A text that closes `d` loops more than it opens **falls apart at the brackets that do**. -/
theorem exists_split (l : List Char) : ∀ d,
    (∀ n, (l.take n).count ']' ≤ (l.take n).count '[' + d) → l.count ']' = l.count '[' + d →
      ∃ (t : TextTree) (ts : List TextTree), ts.length = d ∧ t.Proper ∧
        (∀ u ∈ ts, u.Proper) ∧ l = t.text ++ ts.flatMap fun u => ']' :: u.text := by
  -- the induction is on the text; a bracket that opens a loop asks for one more part behind it
  induction l with
  | nil =>
    intro d _ h
    obtain rfl : d = 0 := by simpa using h.symm
    exact ⟨done, [], rfl, trivial, by simp, rfl⟩
  | cons c l ih =>
    intro d hle heq
    have hle' : ∀ n, (c :: l.take n).count ']' ≤ (c :: l.take n).count '[' + d :=
      fun n => hle (n + 1)
    simp only [List.count_cons] at hle' heq
    by_cases ho : c = '['
    · subst ho
      obtain ⟨t, ts, hlen, ht, hts, rfl⟩ := ih (d + 1)
        (fun n => by have := hle' n; simp at this; omega) (by simp at heq; omega)
      obtain ⟨u, ts, rfl⟩ := List.exists_cons_of_length_eq_add_one hlen
      exact ⟨loop t u, ts, by simpa using hlen, ⟨ht, hts u (by simp)⟩,
        fun v hv => hts v (by simp [hv]), by simp [text]⟩
    by_cases hc : c = ']'
    · subst hc
      obtain ⟨d, rfl⟩ : ∃ e, d = e + 1 := by
        have := hle' 0
        simp at this
        exact ⟨d - 1, by omega⟩
      obtain ⟨t, ts, hlen, ht, hts, rfl⟩ := ih d (fun n => by have := hle' n; simp at this; omega)
        (by simp at heq; omega)
      exact ⟨done, t :: ts, by simp [hlen], trivial, by simpa [ht] using hts, by simp [text]⟩
    · obtain ⟨t, ts, hlen, ht, hts, rfl⟩ := ih d
        (fun n => by have := hle' n; simp [ho, hc] at this; omega) (by simp [ho, hc] at heq; omega)
      exact ⟨char c t, ts, hlen, ⟨ho, hc, ht⟩, hts, rfl⟩

/-- **A balanced text has a tree.** -/
theorem exists_of_balanced {code : String} (h : Balanced code) :
    ∃ t : TextTree, t.Proper ∧ t.text = code.toList := by
  obtain ⟨t, ts, hlen, ht, -, heq⟩ := exists_split code.toList 0 (by simpa using h.opened)
    (by simpa using h.closed)
  obtain rfl := List.eq_nil_of_length_eq_zero hlen
  exact ⟨t, ht, by simpa using heq.symm⟩

/-! ### What is executed -/

theorem isBracket_of_ofChar? {c : Char} {o : Op} (ho : c ≠ '[') (hc : c ≠ ']')
    (h : Op.ofChar? c = some o) : o.isBracket = false := by
  unfold Op.ofChar? at h
  split at h <;> simp_all <;> subst h <;> rfl

theorem wellFormed_flow {t : TextTree} (ht : t.Proper) : t.flow.WellFormed := by
  induction t with
  | done => trivial
  | char c rest ih =>
    unfold flow
    split
    · exact ih ht.2.2
    · next o ho => exact ⟨isBracket_of_ofChar? ht.1 ht.2.1 ho, ih ht.2.2⟩
  | loop body rest ihb ihr => exact ⟨ihb ht.1, ihr ht.2⟩

theorem ops_flow (t : TextTree) : t.flow.ops = t.text.filterMap Op.ofChar? := by
  induction t with
  | done => rfl
  | char c rest ih =>
    unfold flow text
    split
    · next h => rw [List.filterMap_cons_none h, ih]
    · next o h => rw [List.filterMap_cons_some h, Flow.ops, ih]
  | loop body rest ihb ihr =>
    have hopen : Op.ofChar? '[' = some .enter := rfl
    have hclose : Op.ofChar? ']' = some .leave := rfl
    rw [flow, text, Flow.ops, ihb, ihr, List.filterMap_append, List.filterMap_cons_some hopen,
      List.filterMap_cons_some hclose]

end TextTree

end TapeCompiler
