import TapeCompiler.Proofs.Machine.TapeEnds

/-! # Which bracket closes which

A closing bracket **closes** an opening one if the text between the two is balanced (`Closes`). It
closes no other and no other closes that one (`Closes.eq_closing`, `Closes.eq_opening`), and in the
text of a tree every bracket has its partner (`TextTree.exists_closes`).

A text that is not that of a tree has a closing bracket that closes none, right behind a balanced
beginning, or it leaves brackets open and is balanced between them (`leavesOpen_or_strays`). The
search for partners stops at the first in the one case and ends with the last in the other
(`partners_of_stray`, `partners_of_open`).

* `brackets_matched`: what the search finds, and what it reports. -/

namespace TapeCompiler

/-! ### Partners in a text -/

/-- The text **strictly between** two positions. -/
def between (code : String) (i j : Nat) : String :=
  String.ofList ((code.toList.take j).drop (i + 1))

/-- The bracket at the second position **closes** the one at the first: what stands between them is
balanced. -/
structure Closes (code : String) (i j : Nat) : Prop where
  opening : code.toList[i]? = some '['
  closing : code.toList[j]? = some ']'
  behind : i < j
  balanced : Balanced (between code i j)

section Between
variable {code : String} {i j k : Nat} {c : Char}

@[simp] theorem toList_between :
    (between code i j).toList = (code.toList.take j).drop (i + 1) := String.toList_ofList

/-- A position between two others **cuts the text between them** in two. -/
theorem toList_between_split (hi : i < j) (hk : j < k) (hc : code.toList[j]? = some c) :
    (between code i k).toList =
      (between code i j).toList ++ c :: (between code j k).toList := by
  simp only [toList_between]
  obtain ⟨hj, hget⟩ := List.getElem?_eq_some_iff.mp hc
  have hlen : j < (code.toList.take k).length := by rw [List.length_take]; omega
  have htail : (code.toList.take k).drop j = c :: (code.toList.take k).drop (j + 1) := by
    rw [List.drop_eq_getElem_cons hlen, List.getElem_take, hget]
  conv_lhs => rw [← List.take_append_drop j (code.toList.take k)]
  rw [List.take_take, min_eq_left hk.le, htail, List.drop_append_of_le_length]
  rw [List.length_take]
  omega

theorem Closes.eq_closing (h : Closes code i j) (h' : Closes code i k) : j = k := by
  -- the first of the two closes one bracket more than the text up to it opens
  have hnot : ∀ {j k}, Closes code i j → Closes code i k → ¬ j < k := by
    intro j k h h' hjk
    have hopened := h'.balanced.opened ((between code i j).toList.length + 1)
    have hclosed := h.balanced.closed
    rw [toList_between_split h.behind hjk h.closing, List.take_length_add_append,
      List.take_succ_cons, List.take_zero] at hopened
    rw [List.count_append, List.count_append, hclosed, List.count_singleton_self,
      List.count_singleton, if_neg (by decide)] at hopened
    omega
  have := hnot h h'
  have := hnot h' h
  omega

theorem Closes.eq_opening (h : Closes code i k) (h' : Closes code j k) : i = j := by
  -- up to the second of the two the text would close one bracket more than it opens
  have hnot : ∀ {i j}, Closes code i k → Closes code j k → ¬ i < j := by
    intro i j h h' hij
    have hsplit := toList_between_split hij h'.behind h'.opening
    have hopened := h.balanced.opened (between code i j).toList.length
    have hclosed := h.balanced.closed
    have hinner := h'.balanced.closed
    rw [hsplit, List.take_left] at hopened
    rw [hsplit, List.count_append, List.count_append, List.count_cons_of_ne (by decide),
      List.count_cons_self] at hclosed
    omega
  have := hnot h h'
  have := hnot h' h
  omega

end Between

/-! ### Partners in a tree -/

/-- One of the two positions of a loop. -/
def Bracket.of : Bracket → Nat × Nat → Nat
  | .opening, p => p.1
  | .closing, p => p.2

namespace TextTree

variable {code : String} {i x : Nat}

theorem balanced {t : TextTree} (ht : t.Proper) : Balanced (String.ofList t.text) :=
  balanced_of_ops (wellFormed_flow ht) (by rw [ops_flow, opsOf, String.toList_ofList])

/-- The positions of the **brackets of every loop**, the first character having a position. -/
def loops : TextTree → Nat → List (Nat × Nat)
  | done, _ => []
  | char _ rest, i => rest.loops (i + 1)
  | loop body rest, i =>
    (i, i + 1 + body.text.length) :: body.loops (i + 1) ++ rest.loops (i + body.text.length + 2)

theorem closes_of_mem_loops {t : TextTree} (ht : t.Proper) : ∀ {i},
    t.text <+: code.toList.drop i → ∀ p ∈ t.loops i, Closes code p.1 p.2 := by
  induction t with
  | done => intro i _ p hp; exact absurd hp List.not_mem_nil
  | char c rest ih => exact fun h => ih ht.2.2 (prefix_drop_succ h)
  | loop body rest ihb ihr =>
    intro i h p hp
    have hbody := prefix_drop_succ h
    have hclosing := prefix_drop_add hbody
    rcases List.mem_append.mp hp with hp | hp
    · rcases List.mem_cons.mp hp with rfl | hp
      · refine ⟨getElem?_of_prefix_drop h, getElem?_of_prefix_drop hclosing, by omega, ?_⟩
        have hinside : (code.toList.take (i + 1 + body.text.length)).drop (i + 1) = body.text := by
          rw [List.drop_take, Nat.add_sub_cancel_left]
          exact (List.prefix_iff_eq_take.mp ((List.prefix_append _ _).trans hbody)).symm
        rw [between, hinside]
        exact balanced ht.1
      · exact ihb ht.1 ((List.prefix_append _ _).trans hbody) p hp
    · refine ihr ht.2 ?_ p hp
      have hrest := prefix_drop_succ hclosing
      rwa [show i + 1 + body.text.length + 1 = i + body.text.length + 2 by omega] at hrest

/-- **Every bracket of a tree** is one of a loop. -/
theorem mem_loops_of_bracket {t : TextTree} (ht : t.Proper) {b : Bracket} : ∀ {i x},
    t.text[x]? = some b.char → ∃ p ∈ t.loops i, b.of p = i + x := by
  induction t with
  | done => intro i x h; simp [text] at h
  | char c rest ih =>
    intro i x h
    cases x with
    | zero =>
      obtain rfl : c = b.char := by simpa [text] using h
      cases b
      · exact absurd rfl ht.1
      · exact absurd rfl ht.2.1
    | succ x =>
      obtain ⟨p, hp, hx⟩ := ih ht.2.2 (i := i + 1) (show rest.text[x]? = some b.char from h)
      exact ⟨p, hp, by omega⟩
  | loop body rest ihb ihr =>
    intro i x h
    have hloop : (i, i + 1 + body.text.length) ∈ (loop body rest).loops i := by simp [loops]
    cases x with
    | zero =>
      cases b with
      | opening => exact ⟨_, hloop, rfl⟩
      | closing => simp [text, Bracket.char] at h
    | succ x =>
      have h : (body.text ++ ']' :: rest.text)[x]? = some b.char := h
      rcases Nat.lt_trichotomy x body.text.length with hx | rfl | hx
      · rw [List.getElem?_append_left hx] at h
        obtain ⟨p, hp, hx⟩ := ihb ht.1 (i := i + 1) h
        exact ⟨p, by simp [loops, hp], by omega⟩
      · cases b with
        | opening => simp [Bracket.char] at h
        | closing => exact ⟨_, hloop, show i + 1 + body.text.length = _ by omega⟩
      · obtain ⟨y, rfl⟩ : ∃ y, x = body.text.length + 1 + y :=
          ⟨x - (body.text.length + 1), by omega⟩
        rw [List.getElem?_append_right (by omega),
          show body.text.length + 1 + y - body.text.length = y + 1 by omega,
          List.getElem?_cons_succ] at h
        obtain ⟨p, hp, hy⟩ := ihr ht.2 (i := i + body.text.length + 2) h
        exact ⟨p, by simp [loops, hp], by omega⟩

/-- **Every bracket of a tree has its partner**, which is one of the tree. -/
theorem exists_closes {t : TextTree} (ht : t.Proper) {b : Bracket}
    (hp : t.text <+: code.toList.drop i) (h : t.text[x]? = some b.char) :
    ∃ p ∈ t.loops i, b.of p = i + x ∧ Closes code p.1 p.2 := by
  obtain ⟨p, hmem, hx⟩ := mem_loops_of_bracket ht (i := i) h
  exact ⟨p, hmem, hx, closes_of_mem_loops ht hp p hmem⟩

theorem bounds_of_mem_loops {t : TextTree} : ∀ {i}, ∀ p ∈ t.loops i,
    i ≤ p.1 ∧ p.2 < i + t.text.length := by
  induction t with
  | done => intro i p hp; exact absurd hp List.not_mem_nil
  | char c rest ih =>
    intro i p hp
    have := ih p hp
    simp only [text, List.length_cons]
    omega
  | loop body rest ihb ihr =>
    intro i p hp
    simp only [loops, List.cons_append, List.mem_cons, List.mem_append] at hp
    simp only [text, List.length_cons, List.length_append]
    rcases hp with rfl | hp | hp
    · simp only
      omega
    · have := ihb p hp
      omega
    · have := ihr p hp
      omega

end TextTree

/-! ### Texts that are not balanced -/

/-- A text that closes nothing it did not open: the text of a tree, or one behind an **opening
bracket that is left open**. -/
inductive LeavesOpen : List Char → Prop
  | whole {t : TextTree} : t.Proper → LeavesOpen t.text
  | bracket {front : List Char} {t : TextTree} : LeavesOpen front → t.Proper →
    LeavesOpen (front ++ '[' :: t.text)

/-- A text **begins with a tree and a closing bracket**. -/
def Strays (l : List Char) : Prop :=
  ∃ (t : TextTree) (rest : List Char), t.Proper ∧ l = t.text ++ ']' :: rest

theorem LeavesOpen.prepend {p l : List Char} (h : LeavesOpen l)
    (hp : ∀ t : TextTree, t.Proper → LeavesOpen (p ++ t.text)) : LeavesOpen (p ++ l) := by
  induction h with
  | whole ht => exact hp _ ht
  | bracket _ ht ih => rw [← List.append_assoc]; exact .bracket ih ht

/-- **A text leaves brackets open at most, or it strays.** -/
theorem leavesOpen_or_strays (l : List Char) : LeavesOpen l ∨ Strays l := by
  -- the induction is on the length: behind a loop the text goes on
  induction hn : l.length using Nat.strongRecOn generalizing l with
  | ind n ih =>
    subst hn
    cases l with
    | nil => exact .inl (.whole (t := .done) trivial)
    | cons c l =>
      by_cases hclose : c = ']'
      · subst hclose
        exact .inr ⟨.done, l, trivial, rfl⟩
      obtain h | ⟨t, rest, ht, rfl⟩ := ih l.length (Nat.lt_succ_self _) l rfl
      · refine .inl (h.prepend (p := [c]) fun t ht => ?_)
        by_cases hopen : c = '['
        · subst hopen
          have hnone : LeavesOpen [] := .whole (t := .done) trivial
          exact hnone.bracket ht
        · exact .whole (t := .char c t) ⟨hopen, hclose, ht⟩
      by_cases hopen : c = '['
      · subst hopen
        have hlen : rest.length < ('[' :: (t.text ++ ']' :: rest)).length := by
          simp only [List.length_cons, List.length_append]
          omega
        have heq : ∀ rest : List Char,
            '[' :: (t.text ++ ']' :: rest) = ('[' :: t.text ++ [']']) ++ rest := by simp
        obtain h | ⟨u, rest, hu, rfl⟩ := ih rest.length hlen rest rfl
        · rw [heq]
          refine .inl (h.prepend fun u hu => ?_)
          rw [← heq]
          exact .whole (t := .loop t u) ⟨ht, hu⟩
        · exact .inr ⟨.loop t u, rest, ⟨ht, hu⟩, by simp [TextTree.text]⟩
      · exact .inr ⟨.char c t, rest, ⟨hopen, hclose, ht⟩, rfl⟩

/-- A closing bracket that **closes none**. -/
def Unopened (code : String) (j : Nat) : Prop :=
  code.toList[j]? = some ']' ∧ ∀ i, ¬ Closes code i j

/-- An opening bracket that **none closes**. -/
def Unclosed (code : String) (i : Nat) : Prop :=
  code.toList[i]? = some '[' ∧ ∀ j, ¬ Closes code i j

/-- **The bracket to blame**: the first closing bracket that closes none, or else the last opening
bracket that none closes. -/
inductive Blamed (code : String) : Bracket → Nat → Prop
  | closing {p : Nat} : Unopened code p → (∀ q < p, ¬ Unopened code q) → Blamed code .closing p
  | opening {p : Nat} : (∀ q, ¬ Unopened code q) → Unclosed code p → (∀ q > p, ¬ Unclosed code q) →
    Blamed code .opening p

section Blame
variable {code : String} {t : TextTree} {front rest : List Char} {i x : Nat}

/-- A bracket of a tree is not left alone. -/
theorem closed_of_tree (ht : t.Proper) (hp : t.text <+: code.toList.drop i) (hi : i ≤ x)
    (hx : x < i + t.text.length) : ¬ Unopened code x ∧ ¬ Unclosed code x := by
  obtain ⟨y, rfl⟩ := Nat.exists_eq_add_of_le hi
  have hchar : code.toList[i + y]? = t.text[y]? := by
    obtain ⟨l, hl⟩ := hp
    rw [← List.getElem?_drop, ← hl, List.getElem?_append_left (by omega)]
  constructor
  · rintro ⟨hc, hnone⟩
    obtain ⟨p, -, hpos, hcl⟩ := TextTree.exists_closes ht (b := .closing) hp (hchar ▸ hc)
    exact hnone p.1 (hpos ▸ hcl)
  · rintro ⟨hc, hnone⟩
    obtain ⟨p, -, hpos, hcl⟩ := TextTree.exists_closes ht (b := .opening) hp (hchar ▸ hc)
    exact hnone p.2 (hpos ▸ hcl)

/-- No closing bracket of a text that leaves brackets open **closes none**. -/
theorem LeavesOpen.closed (h : LeavesOpen front) : ∀ {code : String}, front <+: code.toList →
    ∀ x < front.length, ¬ Unopened code x := by
  induction h with
  | whole ht =>
    intro code hp x hx
    exact (closed_of_tree ht (i := 0) (by simpa using hp) (Nat.zero_le x) (by omega)).1
  | @bracket front t _ ht ih =>
    rintro code ⟨l, hl⟩ x hx
    rw [List.append_assoc, List.cons_append] at hl
    rw [List.length_append, List.length_cons] at hx
    rcases Nat.lt_trichotomy x front.length with hlt | rfl | hlt
    · exact ih ⟨_, hl⟩ x hlt
    · rintro ⟨hc, -⟩
      rw [← hl] at hc
      simp at hc
    · refine (closed_of_tree ht (i := front.length + 1) ?_ hlt (by omega)).1
      rw [← hl, ← List.drop_drop, List.drop_left]
      exact List.prefix_append _ _

/-- **The first stray closing bracket** is to blame. -/
theorem blamed_of_stray (ht : t.Proper) (h : code.toList = t.text ++ ']' :: rest) :
    Blamed code .closing t.text.length := by
  have hp : t.text <+: code.toList.drop 0 := h ▸ List.prefix_append _ _
  refine .closing ⟨by simp [h], fun i hc => ?_⟩ fun q hq =>
    (closed_of_tree ht hp (Nat.zero_le q) (by omega)).1
  have hopening : t.text[i]? = some Bracket.opening.char := by
    have := hc.opening
    rwa [h, List.getElem?_append_left hc.behind] at this
  obtain ⟨p, hmem, hpos, hcl⟩ := TextTree.exists_closes ht hp hopening
  obtain rfl : p.1 = i := hpos.trans (Nat.zero_add i)
  have := hcl.eq_closing hc
  have := TextTree.bounds_of_mem_loops p hmem
  omega

/-- **The last bracket left open** is to blame. -/
theorem blamed_of_open (hf : LeavesOpen front) (ht : t.Proper)
    (h : code.toList = front ++ '[' :: t.text) : Blamed code .opening front.length := by
  have hp : t.text <+: code.toList.drop (front.length + 1) := by
    rw [h, ← List.drop_drop, List.drop_left]
    exact List.prefix_rfl
  have hlen : code.toList.length = front.length + 1 + t.text.length := by
    rw [h, List.length_append, List.length_cons]
    omega
  refine .opening (fun q hq => ?_) ⟨by simp [h], fun j hc => ?_⟩ fun q hq hopen => ?_
  · have hlt := (List.getElem?_eq_some_iff.mp hq.1).1
    refine (hf.bracket ht).closed (h ▸ List.prefix_rfl) q ?_ hq
    rwa [← h]
  · obtain ⟨y, hy⟩ := Nat.exists_eq_add_of_le (Nat.succ_le_of_lt hc.behind)
    have hclosing : t.text[y]? = some Bracket.closing.char := by
      have := hc.closing
      rwa [h, hy, List.getElem?_append_right (by omega),
        show front.length.succ + y - front.length = y + 1 by omega,
        List.getElem?_cons_succ] at this
    obtain ⟨p, hmem, hpos, hcl⟩ := TextTree.exists_closes ht hp hclosing
    obtain rfl : p.2 = j := hpos.trans hy.symm
    have := hcl.eq_opening hc
    have := TextTree.bounds_of_mem_loops p hmem
    omega
  · have hlt := (List.getElem?_eq_some_iff.mp hopen.1).1
    exact (closed_of_tree ht hp hq (by omega)).2 hopen

end Blame

/-! ### The search -/

section Search
variable {code : String} {t : TextTree} {front rest : List Char}

theorem map_op_operationsFrom (i : Nat) (l : List Char) :
    (operationsFrom i l).map Sited.op = l.filterMap Op.ofChar? := by
  induction l generalizing i with
  | nil => rfl
  | cons c l ih =>
    cases h : Op.ofChar? c with
    | none => rw [operationsFrom_cons_none h, ih, List.filterMap_cons_none h]
    | some o =>
      rw [operationsFrom_cons_some h, List.map_cons, ih, List.filterMap_cons_some h]

/-- The search goes through a tree and **leaves open what was open**. -/
theorem foldlM_text (ht : t.Proper) (i : Nat) (p : Pairing) :
    (operationsFrom i t.text).foldlM Pairing.next p =
      .ok ⟨p.seen + t.size, p.openings, t.flow.fill p.seen p.partner⟩ :=
  Flow.foldlM_next t.flow (TextTree.wellFormed_flow ht) _ p
    (by rw [map_op_operationsFrom, TextTree.ops_flow])

theorem foldlM_bracket (ht : t.Proper) (i : Nat) (p : Pairing) :
    ∃ q : Pairing, (operationsFrom i ('[' :: t.text)).foldlM Pairing.next p = .ok q ∧
      q.openings = (p.seen, i) :: p.openings := by
  have hn : p.next ⟨.enter, i⟩ = .ok ⟨p.seen + 1, (p.seen, i) :: p.openings, p.partner⟩ := rfl
  rw [operationsFrom_cons_some (show Op.ofChar? '[' = some .enter from rfl), List.foldlM_cons, hn]
  exact ⟨_, foldlM_text ht (i + 1) _, rfl⟩

theorem LeavesOpen.foldlM (h : LeavesOpen front) (i : Nat) (p : Pairing) :
    ∃ q, (operationsFrom i front).foldlM Pairing.next p = .ok q := by
  induction h with
  | whole ht => exact ⟨_, foldlM_text ht i p⟩
  | bracket _ ht ih =>
    obtain ⟨q, hq⟩ := ih
    rw [operationsFrom_append, List.foldlM_append, hq]
    obtain ⟨r, hr, -⟩ := foldlM_bracket ht (i + _) q
    exact ⟨r, hr⟩

/-- The search **stops at the first stray closing bracket**. -/
theorem partners_of_stray (ht : t.Proper) (h : code.toList = t.text ++ ']' :: rest) :
    partners (operations code.toList) = .error (.unmatchedBracket .closing t.text.length) := by
  have hops : operations code.toList = operationsFrom 0 t.text ++
      ⟨.leave, t.text.length⟩ :: operationsFrom (t.text.length + 1) rest := by
    rw [show operations code.toList = operationsFrom 0 code.toList from rfl, h,
      operationsFrom_append, Nat.zero_add,
      operationsFrom_cons_some (show Op.ofChar? ']' = some .leave from rfl)]
  unfold partners
  rw [hops, List.foldlM_append, foldlM_text ht]
  rfl

/-- The search **ends with the last bracket left open**. -/
theorem partners_of_open (hf : LeavesOpen front) (ht : t.Proper)
    (h : code.toList = front ++ '[' :: t.text) :
    partners (operations code.toList) = .error (.unmatchedBracket .opening front.length) := by
  have hops : operations code.toList =
      operationsFrom 0 front ++ operationsFrom front.length ('[' :: t.text) := by
    rw [show operations code.toList = operationsFrom 0 code.toList from rfl, h,
      operationsFrom_append, Nat.zero_add]
  obtain ⟨p, hp⟩ := hf.foldlM 0 ⟨0, [], Array.replicate (operations code.toList).length 0⟩
  obtain ⟨q, hq, hopen⟩ := foldlM_bracket ht front.length p
  have hfold : (operations code.toList).foldlM Pairing.next
      ⟨0, [], Array.replicate (operations code.toList).length 0⟩ = .ok q := by
    conv_lhs => rw [hops]
    rw [List.foldlM_append, ← hops, hp]
    exact hq
  unfold partners
  rw [hfold]
  simp only [bind, Except.bind, hopen]

/-- **A code is that of a tree, or a bracket of it is to blame**; the search tells which. -/
theorem partners_cases (code : String) :
    (∃ t : TextTree, t.Proper ∧ t.text = code.toList ∧
      ∃ table, partners (operations code.toList) = .ok table) ∨
    ∃ b p, partners (operations code.toList) = .error (.unmatchedBracket b p) ∧ Blamed code b p := by
  obtain hopen | ⟨t, rest, ht, heq⟩ := leavesOpen_or_strays code.toList
  · obtain ⟨l, hl⟩ : ∃ l, code.toList = l := ⟨_, rfl⟩
    rw [hl] at hopen
    cases hopen with
    | whole ht =>
      obtain ⟨table, htable, -⟩ := Flow.partners_placed (TextTree.wellFormed_flow ht)
        (l := operations code.toList) (by rw [map_op_operations, hl, TextTree.ops_flow])
      exact .inl ⟨_, ht, hl.symm, table, htable⟩
    | bracket hf ht => exact .inr ⟨_, _, partners_of_open hf ht hl, blamed_of_open hf ht hl⟩
  · exact .inr ⟨_, _, partners_of_stray ht heq, blamed_of_stray ht heq⟩

/-- **The fault that is reported** names the bracket to blame. -/
theorem blamed_of_error {f : Fault} (h : partners (operations code.toList) = .error f) :
    ∃ b p, f = .unmatchedBracket b p ∧ Blamed code b p := by
  obtain ⟨-, -, -, table, hok⟩ | ⟨b, p, herror, hblamed⟩ := partners_cases code
  · cases hok.symm.trans h
  · cases herror.symm.trans h
    exact ⟨b, p, rfl, hblamed⟩

theorem exists_tree_of_partners {table : Array Nat}
    (h : partners (operations code.toList) = .ok table) :
    ∃ t : TextTree, t.Proper ∧ t.text = code.toList := by
  obtain ⟨t, ht, htext, -⟩ | ⟨b, p, herror, -⟩ := partners_cases code
  · exact ⟨t, ht, htext⟩
  · cases herror.symm.trans h

end Search

/-! ### The table -/

theorem size_of_next {p q : Pairing} {a : Sited} (h : p.next a = .ok q) :
    q.partner.size = p.partner.size := by
  unfold Pairing.next at h
  split at h
  · cases h
    rfl
  · split at h <;> cases h
    simp
  · cases h
    rfl

theorem size_of_foldlM (ops : List Sited) : ∀ {p q : Pairing},
    ops.foldlM Pairing.next p = .ok q → q.partner.size = p.partner.size := by
  induction ops with
  | nil => intro p q h; cases h; rfl
  | cons a ops ih =>
    intro p q h
    rw [List.foldlM_cons] at h
    cases ha : p.next a with
    | error f => rw [ha] at h; cases h
    | ok r => rw [ha] at h; exact (ih h).trans (size_of_next ha)

theorem size_of_partners {ops : List Sited} {table : Array Nat} (h : partners ops = .ok table) :
    table.size = ops.length := by
  simp only [partners, bind, Except.bind] at h
  split at h
  · cases h
  · next q hq =>
    split at h <;> cases h
    rw [size_of_foldlM ops hq, Array.size_replicate]

/-- The brackets at two positions **name each other** in a table. -/
def Joined (code : String) (table : Array Nat) (i j : Nat) : Prop :=
  ∃ k m : Nat, (operations code.toList)[k]? = some (⟨.enter, i⟩ : Sited) ∧
    (operations code.toList)[m]? = some (⟨.leave, j⟩ : Sited) ∧ table[k]? = some m ∧
      table[m]? = some k

/-- The loops of a tree **name each other's brackets** in the routine it stands in. -/
theorem TextTree.joined_of_mem_loops {r : Routine} (t : TextTree) : ∀ {k i}, t.Placed r k i →
    operationsFrom i t.text <+: r.ops.toList.drop k → ∀ p ∈ t.loops i,
      ∃ n m : Nat, r.ops[n]? = some ⟨.enter, p.1⟩ ∧ r.ops[m]? = some ⟨.leave, p.2⟩ ∧
        r.partner.getD n 0 = m ∧ r.partner.getD m 0 = n := by
  induction t with
  | done => intro k i _ _ p hp; exact absurd hp List.not_mem_nil
  | char c rest ih =>
    intro k i hplaced hops p hp
    cases h : Op.ofChar? c with
    | none =>
      rw [text, operationsFrom_cons_none h] at hops
      exact ih ((placed_char_none h rest).mp hplaced) hops p hp
    | some o =>
      rw [text, operationsFrom_cons_some h] at hops
      exact ih ((placed_char_some h rest).mp hplaced).2.2 (prefix_drop_succ hops) p hp
  | loop body rest ihb ihr =>
    rintro k i ⟨-, hpo, hb, -, hpc, hr⟩ hops p hp
    rw [text, operationsFrom_loop] at hops
    have hbody := prefix_drop_succ hops
    have hclosing := prefix_drop_add hbody
    rw [length_operationsFrom, show k + 1 + body.size = k + body.size + 1 by omega] at hclosing
    simp only [loops, List.cons_append, List.mem_cons, List.mem_append] at hp
    rcases hp with rfl | hp | hp
    · exact ⟨k, k + body.size + 1, by simpa using getElem?_of_prefix_drop hops,
        by simpa using getElem?_of_prefix_drop hclosing, hpo, hpc⟩
    · exact ihb hb ((List.prefix_append _ _).trans hbody) p hp
    · exact ihr hr (prefix_drop_succ hclosing) p hp

/-- A table **matches the brackets** of a code: every bracket is named by the one it names, and the
two are an opening bracket and the one that closes it. -/
structure MatchesBrackets (code : String) (table : Array Nat) : Prop where
  size : table.size = (operations code.toList).length
  opening : ∀ i, code.toList[i]? = some '[' → ∃ j, Closes code i j ∧ Joined code table i j
  closing : ∀ j, code.toList[j]? = some ']' → ∃ i, Closes code i j ∧ Joined code table i j
  involutive : ∀ (k : Nat) (a : Sited), (operations code.toList)[k]? = some a →
    a.op.isBracket = true → ∃ m : Nat, table[k]? = some m ∧ table[m]? = some k

section Table
variable {code : String} {table : Array Nat} {t : TextTree}

/-- **Brackets of a balanced text** name their partners. -/
theorem exists_joined (ht : t.Proper) (htext : t.text = code.toList)
    (h : partners (operations code.toList) = .ok table) {b : Bracket} {x : Nat}
    (hx : code.toList[x]? = some b.char) :
    ∃ p, b.of p = x ∧ Closes code p.1 p.2 ∧ Joined code table p.1 p.2 := by
  have hops : (operations code.toList).map Sited.op = t.flow.ops := by
    rw [map_op_operations, TextTree.ops_flow, htext]
  obtain ⟨table', htable, hpl⟩ := Flow.partners_placed (TextTree.wellFormed_flow ht) hops
  cases htable.symm.trans h
  have hprefix : operationsFrom 0 t.text <+: (operations code.toList).drop 0 := by
    rw [htext]
    exact List.prefix_rfl
  have hp : t.text <+: code.toList.drop 0 := htext ▸ List.prefix_rfl
  rw [← htext] at hx
  obtain ⟨p, hmem, hpos, hcl⟩ := TextTree.exists_closes ht hp hx
  obtain ⟨n, m, hn, hm, hnm, hmn⟩ :=
    t.joined_of_mem_loops (t.placed_of_flow hpl hprefix) hprefix p hmem
  have hsize := size_of_partners h
  have hentry : ∀ {n m o}, (operations code.toList).toArray[n]? = some o → table.getD n 0 = m →
      table[n]? = some m := by
    intro n m o ho hm
    obtain ⟨hlt, -⟩ := Array.getElem?_eq_some_iff.mp ho
    rw [List.size_toArray, ← hsize] at hlt
    rw [Array.getD_eq_getD_getElem?, Array.getElem?_eq_getElem hlt] at hm
    rw [Array.getElem?_eq_getElem hlt, ← hm]
    rfl
  exact ⟨p, hpos.trans (Nat.zero_add x), hcl, n, m, by simpa using hn, by simpa using hm,
    hentry hn hnm, hentry hm hmn⟩

theorem index_unique {k m : Nat} {a b : Sited} (ha : (operations code.toList)[k]? = some a)
    (hb : (operations code.toList)[m]? = some b) (h : a.position = b.position) : k = m := by
  obtain ⟨-, -, hk⟩ := operationsFrom_getElem? (i := 0) code.toList ha
  obtain ⟨-, -, hm⟩ := operationsFrom_getElem? (i := 0) code.toList hb
  rw [← hk, ← hm, h]

/-- **The table of a balanced text** matches its brackets. -/
theorem matches_of_partners (ht : t.Proper) (htext : t.text = code.toList)
    (h : partners (operations code.toList) = .ok table) : MatchesBrackets code table where
  size := size_of_partners h
  opening i hi := by
    obtain ⟨p, rfl, hcl, hjoin⟩ := exists_joined ht htext h (b := .opening) hi
    exact ⟨p.2, hcl, hjoin⟩
  closing j hj := by
    obtain ⟨p, rfl, hcl, hjoin⟩ := exists_joined ht htext h (b := .closing) hj
    exact ⟨p.1, hcl, hjoin⟩
  involutive k a ha hbracket := by
    obtain ⟨o, x⟩ := a
    obtain ⟨-, hchar, -⟩ := operationsFrom_getElem? (i := 0) code.toList ha
    cases o with
    | enter =>
      obtain ⟨p, rfl, -, n, m, hn, -, hnm, hmn⟩ := exists_joined ht htext h (b := .opening) hchar
      obtain rfl := index_unique ha hn rfl
      exact ⟨m, hnm, hmn⟩
    | leave =>
      obtain ⟨p, rfl, -, n, m, -, hm, hnm, hmn⟩ := exists_joined ht htext h (b := .closing) hchar
      obtain rfl := index_unique ha hm rfl
      exact ⟨n, hmn, hnm⟩
    | _ => cases hbracket

end Table

/-- **The search for partners is exact.** It succeeds on the codes whose brackets are balanced, and
its table then names, for every bracket, the one it closes or is closed by, and back. Else it
reports the position, in the whole text, of the first closing bracket that closes none or, if there
is none, of the last opening one that none closes; a run reports the same and leaves the machine as
it was. -/
theorem brackets_matched (code : String) :
    ((∃ table, partners (operations code.toList) = .ok table) ↔ Balanced code) ∧
    (∀ table, partners (operations code.toList) = .ok table → MatchesBrackets code table) ∧
    ∀ f, partners (operations code.toList) = .error f →
      (∃ b p, f = .unmatchedBracket b p ∧ Blamed code b p) ∧
      ∀ (m : Machine) (input : List UInt8), (m.run code input).2 = m ∧
        (m.settings.check = .ok () → (m.run code input).1 = .error f) := by
  refine ⟨⟨fun ⟨table, h⟩ => ?_, fun h => ?_⟩, fun table h => ?_, fun f h => ?_⟩
  · obtain ⟨t, ht, htext⟩ := exists_tree_of_partners h
    rw [← String.ofList_toList (s := code), ← htext]
    exact TextTree.balanced ht
  · obtain ⟨t, ht, htext⟩ := TextTree.exists_of_balanced h
    obtain ⟨table, htable, -⟩ := Flow.partners_placed (TextTree.wellFormed_flow ht)
      (l := operations code.toList) (by rw [map_op_operations, TextTree.ops_flow, htext])
    exact ⟨table, htable⟩
  · obtain ⟨t, ht, htext⟩ := exists_tree_of_partners h
    exact matches_of_partners ht htext h
  · refine ⟨blamed_of_error h, fun m input => ?_⟩
    cases hc : m.settings.check with
    | error g =>
      rw [run_of_refused hc]
      exact ⟨rfl, fun hok => by cases hok⟩
    | ok _ =>
      have hr : routineOf code = .error f := by rw [routineOf, h]; rfl
      rw [run_of_unpaired hc hr]
      exact ⟨rfl, fun _ => rfl⟩

/-- In `a+[b[]` the first of the two opening brackets is to blame, and a run that meets it leaves
its machine as it was. In `[a[]]` the inner loop lies between the brackets of the outer. -/
theorem brackets_matched_of_nested :
    (∃ b p, Fault.unmatchedBracket .opening 2 = .unmatchedBracket b p ∧ Blamed "a+[b[]" b p) ∧
      (Machine.new ⟨2, .bits8, 9, .wrap⟩).run "a+[b[]" [] =
        (.error (.unmatchedBracket .opening 2), Machine.new ⟨2, .bits8, 9, .wrap⟩) ∧
      MatchesBrackets "[a[]]" #[3, 2, 1, 0] := by
  have herror : partners (operations "a+[b[]".toList) = .error (.unmatchedBracket .opening 2) := rfl
  obtain ⟨hblamed, hrun⟩ := (brackets_matched "a+[b[]").2.2 _ herror
  obtain ⟨hkeep, hfault⟩ := hrun (Machine.new ⟨2, .bits8, 9, .wrap⟩) []
  exact ⟨hblamed, Prod.ext (hfault rfl) hkeep, (brackets_matched "[a[]]").2.1 _ rfl⟩

end TapeCompiler
