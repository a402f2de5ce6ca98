import TapeCompiler.Proofs.Script.Headers

/-! # Lines that open and close blocks

Lines whose braces open a block at the end of a header and close one in front (`Tidy`) are matched
by a stack that knows of each open block whether an else may follow it (`stackPast`). A line such as
`\x7d else \x7b` that closes another block than that of a branch only closes: its opening brace is
**overlooked**. So of all blocks opened, those on the stack are open, and one more for every brace
that was overlooked (`openPast_of_stackPast`). -/

namespace TapeCompiler

namespace Source

open Text

variable {w cs : List Char} {st st' : List Bool}

/-! ### Braces -/

/-- The braces of marked text outside of quotes, in order; true for one that **opens a block**. -/
def bracesOf (m : Marked) : List Bool :=
  m.filterMap fun (c, isPlain) =>
    if isPlain ∧ c = '\x7b' then some true else if isPlain ∧ c = '\x7d' then some false else none

/-- The braces of a line. -/
def braces (cs : List Char) : List Bool := bracesOf (plain cs)

/-- The number of blocks open behind braces, unless one of them closes **more than were open**. -/
def openPast : Nat → List Bool → Option Nat
  | n, [] => some n
  | n, true :: r => openPast (n + 1) r
  | 0, false :: _ => none
  | n + 1, false :: r => openPast n r

theorem bracesOf_append (m r : Marked) : bracesOf (m ++ r) = bracesOf m ++ bracesOf r :=
  List.filterMap_append

theorem bracesOf_braceless {m : Marked} (h : Braceless m) : bracesOf m = [] := by
  rw [bracesOf, List.filterMap_eq_nil_iff]
  rintro ⟨c, isPlain⟩ hx
  have hne := h _ hx
  exact (if_neg fun hc => (hne hc.1).1 hc.2).trans (if_neg fun hc => (hne hc.1).2 hc.2)

/-- A text without braces outside of quotes, in which every quotation is closed. -/
structure Quiet (w : List Char) : Prop where
  closed : Closed w
  braceless : Braceless (plain w)

theorem quiet_nil : Quiet [] := ⟨rfl, by simp [Braceless, plain, markFrom]⟩

/-- A text that reads as a header. -/
def isHeader (cs : List Char) : Bool :=
  (functionHeader? cs).isSome || (branchHeader? cs).isSome || (loopHeader? cs).isSome ||
    (elseIf? cs).isSome || isElse cs

/-- A line whose braces are one in front that closes a block and one at its end that opens a block,
or fewer; **without the first, the second ends a header**. -/
inductive Tidy : List Char → Prop
  | quiet {w : List Char} (hw : Quiet w) : Tidy w
  | opens {w : List Char} (hw : Quiet w) (hh : isHeader (w ++ ['\x7b']) = true) :
    Tidy (w ++ ['\x7b'])
  | closes {w : List Char} (hw : Quiet w) : Tidy ('\x7d' :: w)
  | turns {w : List Char} (hw : Quiet w) : Tidy ('\x7d' :: (w ++ ['\x7b']))

/-- Where a scan can stand: inside of **a pair of quotes**, or outside. -/
def Quoting.Proper : Quoting → Prop
  | outside => True
  | inside q | escaped q => isQuote q = true

theorem Quoting.Proper.next {s : Quoting} (h : s.Proper) (c : Char) : (s.next c).Proper := by
  cases s with
  | outside =>
    rw [Quoting.next]
    split
    · next hc => exact hc
    · trivial
  | inside q =>
    rw [Quoting.next]
    split_ifs
    · exact h
    · trivial
    · exact h
  | escaped q => exact h

theorem Quoting.Proper.after {s : Quoting} (h : s.Proper) (cs : List Char) :
    (s.after cs).Proper := by
  induction cs generalizing s with
  | nil => exact h
  | cons c cs ih => exact ih (h.next c)

namespace Quiet

variable (h : Quiet w)
include h

theorem braces_eq : braces w = [] := bracesOf_braceless h.braceless

theorem braces_concat : braces (w ++ ['\x7b']) = [true] := by
  rw [braces, h.closed.plain_append, bracesOf_append, bracesOf_braceless h.braceless]
  rfl

theorem braces_cons : braces ('\x7d' :: w) = [false] := by
  change false :: bracesOf (plain w) = _
  rw [bracesOf_braceless h.braceless]

theorem braces_both : braces ('\x7d' :: (w ++ ['\x7b'])) = [false, true] := by
  change false :: bracesOf (plain (w ++ ['\x7b'])) = _
  rw [← braces, h.braces_concat]

/-- Behind closed quotations a last brace would be **outside of quotes**. -/
theorem getLast?_ne : w.getLast? ≠ some '\x7b' := by
  rw [ne_eq, List.getLast?_eq_some_iff]
  rintro ⟨r, rfl⟩
  have hnext : (Quoting.outside.after r).next '\x7b' = .outside := by
    have := h.closed
    rwa [Closed, after_append] at this
  have hplain : (Quoting.outside.after r) = .outside := by
    have hstart : Quoting.outside.Proper := trivial
    have hproper := hstart.after r
    cases hs : Quoting.outside.after r with
    | outside => rfl
    | inside q =>
      rw [hs] at hnext hproper
      rw [Quoting.next, if_neg (by decide)] at hnext
      split at hnext
      · next hq =>
        have hbrace : isQuote '\x7b' = true := hq ▸ hproper
        exact absurd hbrace (by decide)
      · cases hnext
    | escaped q =>
      rw [hs] at hnext
      cases hnext
  refine (h.braceless ('\x7b', true) ?_ rfl).1 rfl
  rw [plain, markFrom_append, hplain]
  exact List.mem_append_right _ List.mem_cons_self

theorem head?_ne : w.head? ≠ some '\x7d' := by
  rw [ne_eq, List.head?_eq_some_iff]
  rintro ⟨r, rfl⟩
  exact (h.braceless ('\x7d', true) List.mem_cons_self rfl).2 rfl

end Quiet

/-! ### The stack of open blocks -/

/-- Whether an else may follow the block that a line opens. -/
def takesElse (cs : List Char) : Bool := (branchHeader? cs).isSome || (elseIf? cs).isSome

/-- The stack of open blocks behind a line. A brace that opens a block behind one that closes the
block of something else than a branch is **overlooked**. -/
def stackBehind (st : List Bool) (cs : List Char) : Option (List Bool) :=
  match braces cs, st with
  | [], st => some st
  | [true], st => some (takesElse cs :: st)
  | [false], _ :: st => some st
  | [false, true], true :: st => some (takesElse cs :: st)
  | [false, true], false :: st => some st
  | _, _ => none

/-- The stack of open blocks behind lines. -/
def stackPast (st : List Bool) (ls : List (List Char)) : Option (List Bool) :=
  ls.foldlM stackBehind st

/-- The number of braces that are overlooked in a line. -/
def overlooks (st : List Bool) (l : List Char) : Nat :=
  if braces l = [false, true] ∧ st.head? = some false then 1 else 0

/-- The number of braces that are overlooked in lines. -/
def overlooked : List Bool → List (List Char) → Nat
  | _, [] => 0
  | st, l :: ls => overlooks st l + overlooked ((stackBehind st l).getD []) ls

namespace Quiet

variable (h : Quiet w)
include h

theorem stackBehind_eq (st : List Bool) : stackBehind st w = some st := by
  simp only [stackBehind, h.braces_eq]

theorem stackBehind_concat (st : List Bool) :
    stackBehind st (w ++ ['\x7b']) = some (takesElse (w ++ ['\x7b']) :: st) := by
  simp only [stackBehind, h.braces_concat]

theorem stackBehind_cons (st : List Bool) : stackBehind st ('\x7d' :: w) = st.tail? := by
  unfold stackBehind
  rw [h.braces_cons]
  cases st <;> rfl

theorem stackBehind_both (st : List Bool) : stackBehind st ('\x7d' :: (w ++ ['\x7b'])) =
    st.tail?.map fun rest =>
      if st.head? = some true then takesElse ('\x7d' :: (w ++ ['\x7b'])) :: rest else rest := by
  unfold stackBehind
  rw [h.braces_both]
  rcases st with _ | ⟨_ | _, st⟩ <;> rfl

end Quiet

theorem stackPast_cons (st : List Bool) (l : List Char) (ls : List (List Char)) :
    stackPast st (l :: ls) = (stackBehind st l).bind fun st => stackPast st ls :=
  List.foldlM_cons

theorem stackPast_append (st : List Bool) (ls ls' : List (List Char)) :
    stackPast st (ls ++ ls') = (stackPast st ls).bind fun st => stackPast st ls' :=
  List.foldlM_append

/-- A line opens and closes what the stack says, **but for a brace that is overlooked**. -/
theorem openPast_of_stackBehind (ht : Tidy cs) (h : stackBehind st cs = some st') (n : Nat)
    (r : List Bool) : openPast (st.length + n) (braces cs ++ r) =
      openPast (st'.length + (n + overlooks st cs)) r := by
  cases ht with
  | quiet hw =>
    cases (hw.stackBehind_eq st).symm.trans h
    simp [hw.braces_eq, overlooks]
  | opens hw =>
    cases (hw.stackBehind_concat st).symm.trans h
    simp [hw.braces_concat, overlooks, openPast, Nat.add_right_comm]
  | closes hw =>
    rw [hw.stackBehind_cons] at h
    cases st with
    | nil => cases h
    | cons b st =>
      cases h
      simp [hw.braces_cons, overlooks, openPast, Nat.add_right_comm]
  | turns hw =>
    rw [hw.stackBehind_both] at h
    rcases st with _ | ⟨_ | _, st⟩
    · cases h
    · cases h
      simp [hw.braces_both, overlooks, openPast, Nat.add_right_comm, ← Nat.add_assoc]
    · cases h
      simp [hw.braces_both, overlooks, openPast, Nat.add_right_comm]

/-- **Of the blocks opened**, those on the stack are open, and one more for every brace that was
overlooked. -/
theorem openPast_of_stackPast {ls : List (List Char)} (ht : ∀ l ∈ ls, Tidy l)
    (h : stackPast st ls = some st') (n : Nat) :
    openPast (st.length + n) (ls.flatMap braces) = some (st'.length + n + overlooked st ls) := by
  induction ls generalizing st n with
  | nil =>
    cases h
    simp [openPast, overlooked]
  | cons l ls ih =>
    rw [stackPast_cons, Option.bind_eq_some_iff] at h
    obtain ⟨mid, hmid, h⟩ := h
    rw [List.flatMap_cons, openPast_of_stackBehind (ht l (by simp)) hmid,
      ih (fun l hl => ht l (by simp [hl])) h, overlooked, hmid, Option.getD_some]
    simp only [Nat.add_assoc]

/-- Lines that leave every stack **as it was**. -/
def Even (ls : List (List Char)) : Prop := ∀ st, stackPast st ls = some st

theorem even_nil : Even [] := fun _ => rfl

theorem Even.append {ls ls' : List (List Char)} (h : Even ls) (h' : Even ls') :
    Even (ls ++ ls') := fun st => by
  rw [stackPast_append, h, Option.bind_some, h']

/-! ### Lines on the stack -/

theorem getLast?_of_functionHeader? (h : (functionHeader? cs).isSome = true) :
    cs.getLast? = some '\x7b' := by
  by_contra hne
  rw [functionHeader?_eq_none hne] at h
  cases h

theorem getLast?_of_branchHeader? (h : (branchHeader? cs).isSome = true) :
    cs.getLast? = some '\x7b' := by
  by_contra hne
  rw [branchHeader?_eq_none hne] at h
  cases h

theorem getLast?_of_loopHeader? (h : (loopHeader? cs).isSome = true) :
    cs.getLast? = some '\x7b' := by
  by_contra hne
  rw [loopHeader?_eq_none hne] at h
  cases h

theorem suffix_afterBrace (cs : List Char) : afterBrace cs <:+ cs := by
  rw [afterBrace]
  cases h : after? ['\x7d'] cs with
  | none => exact List.dropWhile_suffix _
  | some r => exact (List.dropWhile_suffix _).trans (suffix_of_after? h)

theorem getLast?_of_elseIf? {c : List Char} (h : elseIf? cs = some c) :
    cs.getLast? = some '\x7b' := by
  simp only [elseIf?, Option.bind_eq_bind, Option.bind_eq_some_iff] at h
  obtain ⟨r, hr, r', hr', hc⟩ := h
  have hsuffix : r' <:+ cs :=
    ((suffix_of_blanks? hr').trans (suffix_of_after? hr)).trans (suffix_afterBrace cs)
  exact getLast?_of_suffix hsuffix (getLast?_of_branchHeader? (by simp [hc]))

theorem getLast?_of_isElse (h : isElse cs = true) : cs.getLast? = some '\x7b' := by
  rw [isElse] at h
  split at h
  · next r hr =>
    have hlast : trimFront r = ['\x7b'] := by simpa using h
    have hsuffix : trimFront r <:+ cs :=
      ((List.dropWhile_suffix _).trans (suffix_of_after? hr)).trans (suffix_afterBrace cs)
    exact getLast?_of_suffix hsuffix (by rw [hlast]; rfl)
  · cases h

/-- A line at whose end a block opens **puts it on the stack**. -/
theorem Tidy.stackBehind_opening (ht : Tidy cs) (hlast : cs.getLast? = some '\x7b')
    (hfirst : cs.head? ≠ some '\x7d') (st : List Bool) :
    stackBehind st cs = some (takesElse cs :: st) := by
  cases ht with
  | quiet hw => exact absurd hlast hw.getLast?_ne
  | opens hw => exact hw.stackBehind_concat st
  | closes hw => exact absurd rfl hfirst
  | turns hw => exact absurd rfl hfirst

theorem Tidy.of_depthBehind {d : Nat} (ht : Tidy cs) (hd : depthBehind d (plain cs) = none) :
    ∃ w, Quiet w ∧ (cs = '\x7d' :: w ∨ cs = '\x7d' :: (w ++ ['\x7b'])) := by
  have hbraceless : ∀ {w}, Quiet w → ∀ r, depthBehind d (plain w ++ r) = depthBehind d r :=
    fun hw r => depthBehind_braceless hw.braceless d r
  cases ht with
  | quiet hw =>
    have := hbraceless hw []
    rw [List.append_nil, hd] at this
    cases this
  | opens hw =>
    rw [hw.closed.plain_append, hbraceless hw] at hd
    cases hd
  | closes hw => exact ⟨_, hw, .inl rfl⟩
  | turns hw => exact ⟨_, hw, .inr rfl⟩

/-- A line that ends a block behind which **no else** is read takes it off the stack. -/
theorem Tidy.stackBehind_closing {d : Nat} (ht : Tidy cs)
    (hd : depthBehind d (plain cs) = none) (st : List Bool) :
    stackBehind (false :: st) cs = some st := by
  obtain ⟨w, hw, rfl | rfl⟩ := ht.of_depthBehind hd
  · exact hw.stackBehind_cons _
  · exact hw.stackBehind_both _

end Source

end TapeCompiler
