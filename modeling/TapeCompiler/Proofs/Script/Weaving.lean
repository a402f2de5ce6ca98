import TapeCompiler.Proofs.Script.Printing
import TapeCompiler.Proofs.Script.Words
import TapeCompiler.Script.Statement

/-! # Scanning woven text

A woven text (`Whole`) is made of whole quotations, matched brackets and, outside of both,
characters of a class. Quotations are inert to every scan (`Quotable.whole`), and what stands in
brackets is inert to the scans that look at depth zero only: the cutting at separators
(`piecesAt_woven`), the search for an operator (`findOperator_woven`) and that for the end of a
bracket (`closesLast_woven`). -/

namespace TapeCompiler

namespace Source

open Text

variable {a b cs : List Char}

/-! ### Quotations -/

/-- Where a scan stands behind a text. -/
def Quoting.after (s : Quoting) (cs : List Char) : Quoting := cs.foldl Quoting.next s

theorem markFrom_append (s : Quoting) (a b : List Char) :
    markFrom s (a ++ b) = markFrom s a ++ markFrom (s.after a) b := by
  induction a generalizing s with
  | nil => rfl
  | cons c a ih => exact congrArg _ (ih _)

theorem after_append (s : Quoting) (a b : List Char) : s.after (a ++ b) = (s.after a).after b :=
  List.foldl_append

/-- A text in which every quotation **is closed**. -/
def Closed (cs : List Char) : Prop := Quoting.outside.after cs = .outside

theorem Closed.plain_append (h : Closed a) (b : List Char) :
    plain (a ++ b) = plain a ++ plain b := by
  rw [plain, markFrom_append, h]
  rfl

theorem Closed.append (ha : Closed a) (hb : Closed b) : Closed (a ++ b) := by
  rw [Closed, after_append, ha, hb]

/-- A text in which all characters are marked alike. -/
def markAll (isPlain : Bool) (cs : List Char) : Marked := cs.map fun c => (c, isPlain)

theorem chars_markAll (isPlain : Bool) (cs : List Char) : chars (markAll isPlain cs) = cs := by
  simp [chars, markAll, Function.comp_def]

theorem quoteless (h : ∀ c ∈ cs, isQuote c = false) : plain cs = markAll true cs ∧ Closed cs := by
  induction cs with
  | nil => exact ⟨rfl, rfl⟩
  | cons c cs ih =>
    obtain ⟨hm, hc⟩ := ih fun d hd => h d (by simp [hd])
    have hnext : Quoting.outside.next c = .outside := by simp [Quoting.next, h c]
    constructor
    · rw [plain, markFrom, hnext]
      exact congrArg _ hm
    · rw [Closed, Quoting.after, List.foldl_cons, hnext]
      exact hc

/-- A text that may stand between double quotes: **no character of it ends the quotation**, and it
stays on one line. -/
structure Quotable (t : List Char) : Prop where
  marked : markFrom (.inside '"') t = markAll false t
  stays : (Quoting.inside '"').after t = .inside '"'
  newline : '\n' ∉ t

theorem quotable_nil : Quotable [] := ⟨rfl, rfl, by simp⟩

theorem Quotable.append (ha : Quotable a) (hb : Quotable b) : Quotable (a ++ b) where
  marked := by
    rw [markFrom_append, ha.stays, ha.marked, hb.marked, markAll, markAll, markAll, List.map_append]
  stays := by rw [after_append, ha.stays, hb.stays]
  newline := by simp [ha.newline, hb.newline]

theorem quotable_spell (c : Char) : Quotable (spell c) := by
  unfold spell
  split
  · next h => exact ⟨rfl, rfl, by rcases h with rfl | rfl <;> decide⟩
  split
  · exact ⟨rfl, rfl, by decide⟩
  split
  · exact ⟨rfl, rfl, by decide⟩
  split
  · exact ⟨rfl, rfl, by decide⟩
  split
  · exact ⟨rfl, rfl, by decide⟩
  · next hq hn _ _ _ =>
    rw [not_or] at hq
    exact ⟨rfl, by simp [Quoting.after, Quoting.next, hq.1, hq.2], by simpa [eq_comm] using hn⟩

theorem quotable_flatMap_spell (cs : List Char) : Quotable (cs.flatMap spell) := by
  induction cs with
  | nil => exact quotable_nil
  | cons c cs ih =>
    rw [List.flatMap_cons]
    exact (quotable_spell c).append ih

/-- **A quotation** has no plain character, and it is closed. -/
theorem Quotable.plain_quoted {t : List Char} (h : Quotable t) :
    plain ('"' :: t ++ ['"']) = markAll false ('"' :: t ++ ['"']) ∧ Closed ('"' :: t ++ ['"']) := by
  constructor
  · rw [plain, List.cons_append, markFrom]
    change _ :: markFrom (.inside '"') _ = _
    rw [markFrom_append, h.marked, h.stays, markAll, markAll, List.map_cons, List.map_append]
    rfl
  · rw [Closed, List.cons_append]
    change (Quoting.inside '"').after _ = _
    rw [after_append, h.stays]
    rfl

/-! ### Woven text -/

/-- Whether two brackets match. -/
def Match (opening closing : Char) : Prop :=
  opening = '(' ∧ closing = ')' ∨ opening = '[' ∧ closing = ']'

/-- Whether a character outside of quotes ends a line. -/
def isBreak (c : Char) : Bool := c = '\x7b' || c = '\x7d' || c = '\n'

/-- Marked text without breaks in which brackets match and, outside of them, the plain characters
are **of a class**. -/
inductive Woven : (Char → Bool) → Marked → Prop
  | nil (p : Char → Bool) : Woven p []
  | quoted {p : Char → Bool} {c : Char} {m : Marked} (hc : c ≠ '\n') (h : Woven p m) :
    Woven p ((c, false) :: m)
  | char {p : Char → Bool} {c : Char} {m : Marked} (hp : p c = true) (hn : nesting c = 0)
    (hb : isBreak c = false) (h : Woven p m) : Woven p ((c, true) :: m)
  | group {p : Char → Bool} {o c : Char} {i m : Marked} (hm : Match o c)
    (hi : Woven (fun _ => true) i) (h : Woven p m) : Woven p ((o, true) :: (i ++ (c, true) :: m))

variable {p q : Char → Bool} {m r : Marked}

theorem Woven.append (hm : Woven p m) (hr : Woven p r) : Woven p (m ++ r) := by
  induction hm with
  | nil => exact hr
  | quoted hc _ ih => exact (ih hr).quoted hc
  | char hp hn hb _ ih => exact (ih hr).char hp hn hb
  | group hm hi _ _ ih =>
    rw [List.cons_append, List.append_assoc, List.cons_append]
    exact .group hm hi (ih hr)

theorem Woven.mono (hm : Woven p m) (hpq : ∀ c, p c = true → q c = true) : Woven q m := by
  induction hm with
  | nil => exact .nil q
  | quoted hc _ ih => exact (ih hpq).quoted hc
  | char hp hn hb _ ih => exact (ih hpq).char (hpq _ hp) hn hb
  | group hm hi _ _ ih => exact .group hm hi (ih hpq)

theorem Match.isBreak {o c : Char} (h : Match o c) : isBreak o = false ∧ isBreak c = false := by
  rcases h with ⟨rfl, rfl⟩ | ⟨rfl, rfl⟩ <;> decide

theorem Match.nesting {o c : Char} (h : Match o c) : nesting o = 1 ∧ nesting c = -1 := by
  rcases h with ⟨rfl, rfl⟩ | ⟨rfl, rfl⟩ <;> decide

theorem Match.closing_eq {o c d : Char} (h : Match o c) (h' : Match o d) : c = d := by
  rcases h with ⟨rfl, rfl⟩ | ⟨rfl, rfl⟩ <;> rcases h' with ⟨h, rfl⟩ | ⟨h, rfl⟩ <;> simp_all

theorem Match.apart {o c o' c' : Char} (h : Match o c) (h' : Match o' c') (ho : o ≠ o') :
    o ≠ c' ∧ c ≠ o' ∧ c ≠ c' := by
  rcases h with ⟨rfl, rfl⟩ | ⟨rfl, rfl⟩ <;> rcases h' with ⟨rfl, rfl⟩ | ⟨rfl, rfl⟩ <;> simp_all

theorem Woven.breakless (h : Woven p m) :
    ∀ x ∈ m, x.1 ≠ '\n' ∧ (x.2 = true → x.1 ≠ '\x7b' ∧ x.1 ≠ '\x7d') := by
  have hbreak : ∀ c, isBreak c = false → c ≠ '\n' ∧ (true = true → c ≠ '\x7b' ∧ c ≠ '\x7d') := by
    intro c hc
    simp only [isBreak, Bool.or_eq_false_iff, decide_eq_false_iff_not] at hc
    exact ⟨hc.2, fun _ => hc.1⟩
  induction h with
  | nil => simp
  | quoted hc _ ih => simpa [hc] using ih
  | char _ _ hb _ ih =>
    rintro x (_ | ⟨_, hx⟩)
    · exact hbreak _ hb
    · exact ih x hx
  | group hm _ _ ihi ih =>
    intro x hx
    simp only [List.mem_cons, List.mem_append] at hx
    rcases hx with rfl | hx | rfl | hx
    · exact hbreak _ hm.isBreak.1
    · exact ihi x hx
    · exact hbreak _ hm.isBreak.2
    · exact ih x hx

/-! ### Scans at depth zero -/

theorem chars_group (o c : Char) (i m : Marked) :
    chars ((o, true) :: (i ++ (c, true) :: m)) = o :: (chars i ++ c :: chars m) := by
  simp [chars]

/-- **No separator is found** in woven text, be it that it stands in brackets or that its class has
no separator. -/
theorem piecesAt_woven {sep : Char} (hm : Woven p m) (hs : nesting sep = 0) {depth : Int}
    (hd : 0 ≤ depth) (hp : depth = 0 → ∀ c, p c = true → c ≠ sep) (r : Marked) :
    piecesAt sep depth (m ++ r) = (chars m).foldr consFirst (piecesAt sep depth r) := by
  induction hm generalizing depth r with
  | nil => rfl
  | quoted _ _ ih =>
    rw [List.cons_append, piecesAt, if_neg (by simp), deeper, if_neg (by simp), ih hd hp]
    rfl
  | char hc hn _ _ ih =>
    rw [List.cons_append, piecesAt, if_neg (by rintro ⟨-, he, h0⟩; exact hp h0 _ hc he), deeper,
      if_pos rfl, hn, Int.add_zero, ih hd hp]
    rfl
  | @group _ o c i m hm hi _ ihi ih =>
    obtain ⟨ho, hc⟩ := hm.nesting
    have hin : ∀ s, piecesAt sep (depth + 1) (i ++ s) =
        (chars i).foldr consFirst (piecesAt sep (depth + 1) s) :=
      fun s => ihi (by omega) (by omega) s
    rw [List.cons_append, piecesAt,
      if_neg (by rintro ⟨-, rfl, -⟩; rw [ho] at hs; cases hs), deeper, if_pos rfl, ho,
      List.append_assoc, hin, List.cons_append, piecesAt,
      if_neg (by rintro ⟨-, -, h0⟩; omega), deeper, if_pos rfl, hc,
      show depth + 1 + -1 = depth by omega, ih hd hp, chars_group, List.foldr_cons,
      List.foldr_append, List.foldr_cons]

theorem Woven.depth (hm : Woven p m) (depth : Int) : m.foldl deeper depth = depth := by
  induction hm generalizing depth with
  | nil => rfl
  | quoted _ _ ih => exact ih depth
  | char _ hn _ _ ih => rw [List.foldl_cons, deeper, if_pos rfl, hn, Int.add_zero, ih]
  | group hm _ _ ihi ih =>
    obtain ⟨ho, hc⟩ := hm.nesting
    rw [List.foldl_cons, List.foldl_append, ihi, List.foldl_cons, deeper, deeper, if_pos rfl,
      if_pos rfl, ho, hc, Int.add_neg_cancel_right, ih]

/-- The state of the search for an operator behind a marked character. -/
def Search.next (k : Search) (x : Char × Bool) : Search :=
  ⟨x.1 :: k.passed, deeper k.depth x, if isGap x.1 then k.previous else some x.1⟩

/-- The state of the search for an operator behind marked text. -/
def Search.past (k : Search) (m : Marked) : Search := m.foldl Search.next k

theorem Search.depth_past (k : Search) (m : Marked) :
    (k.past m).depth = m.foldl deeper k.depth := by
  induction m generalizing k with
  | nil => rfl
  | cons x m ih => exact ih (k.next x)

theorem Search.past_append (k : Search) (m r : Marked) : k.past (m ++ r) = (k.past m).past r :=
  List.foldl_append

/-- The characters that operators start with. -/
def isSign (c : Char) : Bool := "=!<>&|+-*/%".toList.contains c

theorem tokenAt?_eq_none {c : Char} (h : isSign c = false) (r : List Char) :
    tokenAt? (c :: r) = none := by
  have hstart : ∀ t ∈ Operator.tokens, ∃ d s, t.1.toList = d :: s ∧ isSign d = true := by
    intro t ht
    simp only [Operator.tokens, List.mem_cons, List.not_mem_nil, or_false] at ht
    rcases ht with rfl | rfl | rfl | rfl | rfl | rfl | rfl | rfl | rfl | rfl | rfl | rfl | rfl |
      rfl | rfl <;> exact ⟨_, _, rfl, rfl⟩
  rw [tokenAt?, List.find?_eq_none]
  simp only [List.mem_map, Prod.forall]
  rintro _ _ ⟨t, ht, heq⟩
  obtain ⟨d, s, hd, hsign⟩ := hstart t ht
  simp only [Prod.mk.injEq] at heq
  rw [← heq.1, hd, after?, if_neg (by rintro rfl; rw [h] at hsign; cases hsign)]
  simp

theorem findOperator_cons {k : Search} {x : Char × Bool}
    (h : x.2 = true → deeper k.depth x = 0 → isSign x.1 = false) (r : Marked) :
    findOperator k (x :: r) = findOperator (k.next x) r := by
  rw [findOperator]
  have hnone : (if x.2 = true ∧ deeper k.depth x = 0 then tokenAt? (x.1 :: chars (r.take 2))
      else none) = none := by
    split
    · next hx => exact tokenAt?_eq_none (h hx.1 hx.2) _
    · rfl
  simp only [hnone]
  rfl

/-- **The search for an operator** passes woven text, be it that it stands in brackets or that its
class has no sign. -/
theorem findOperator_woven (hm : Woven p m) {k : Search} (hk : 0 ≤ k.depth)
    (hp : k.depth = 0 → ∀ c, p c = true → isSign c = false) (r : Marked) :
    findOperator k (m ++ r) = findOperator (k.past m) r := by
  induction hm generalizing k r with
  | nil => rfl
  | @quoted _ c _ _ _ ih =>
    rw [List.cons_append, findOperator_cons (by simp)]
    exact ih (k := k.next (c, false)) hk hp r
  | @char _ c _ hc hn _ _ ih =>
    have hnext : (k.next (c, true)).depth = k.depth := by simp [Search.next, deeper, hn]
    rw [List.cons_append, findOperator_cons (k := k) (x := (c, true))
      fun _ hd => hp (hnext.symm.trans hd) c hc]
    exact ih (by rw [hnext]; exact hk) (by rw [hnext]; exact hp) r
  | @group _ o c i m hm hi _ ihi ih =>
    obtain ⟨ho, hc⟩ := hm.nesting
    have hin : (k.next (o, true)).depth = k.depth + 1 := by simp [Search.next, deeper, ho]
    have hout : (((k.next (o, true)).past i).next (c, true)).depth = k.depth := by
      simp only [Search.next, Search.depth_past, hi.depth, deeper, if_true, ho, hc]
      omega
    have hsign : isSign c = false := by rcases hm with ⟨-, rfl⟩ | ⟨-, rfl⟩ <;> decide
    rw [List.cons_append, findOperator_cons (fun _ hd => by
        simp only [deeper, if_true, ho] at hd
        omega),
      List.append_assoc, ihi (by omega) (by omega), List.cons_append,
      findOperator_cons (fun _ _ => hsign), ih (by rw [hout]; exact hk) (by rw [hout]; exact hp),
      ← List.singleton_append (l := i ++ _), Search.past_append, Search.past_append,
      ← List.singleton_append (l := m), Search.past_append]
    rfl

/-- **The search for the end of a bracket** passes woven text. -/
theorem closesLast_woven {o c : Char} (hoc : Match o c) (hm : Woven p m) {depth : Nat}
    (hd : 1 ≤ depth) (r : Marked) :
    closesLast o c depth (m ++ r) = closesLast o c depth r := by
  induction hm generalizing depth r with
  | nil => rfl
  | quoted _ _ ih =>
    rw [List.cons_append, closesLast, if_neg (by simp), if_neg (by simp), ih hd]
  | @char _ d _ _ hn _ _ ih =>
    obtain ⟨ho, hc⟩ := hoc.nesting
    rw [List.cons_append, closesLast, if_neg (by rintro ⟨-, rfl⟩; rw [ho] at hn; cases hn),
      if_neg (by rintro ⟨-, rfl⟩; rw [hc] at hn; cases hn), ih hd]
  | @group _ o' c' i m hm hi _ ihi ih =>
    have hne : ¬ o = c := by rcases hoc with ⟨rfl, rfl⟩ | ⟨rfl, rfl⟩ <;> decide
    rw [List.cons_append, List.append_assoc, List.cons_append]
    by_cases hsame : o' = o
    · subst hsame
      obtain rfl := hm.closing_eq hoc
      rw [closesLast, if_pos ⟨rfl, rfl⟩, ihi (by omega), closesLast, if_neg (by simp [Ne.symm hne]),
        if_pos ⟨rfl, rfl⟩, if_neg (by omega), Nat.add_sub_cancel, ih hd]
    · have hother := hm.apart hoc hsame
      rw [closesLast, if_neg (by simp [hsame]), if_neg (by simp [hother.1]), ihi hd, closesLast,
        if_neg (by simp [hother.2.1]), if_neg (by simp [hother.2.2]), ih hd]

/-! ### Scans for braces -/

/-- Marked text without a brace outside of quotes. -/
def Braceless (m : Marked) : Prop := ∀ x ∈ m, x.2 = true → x.1 ≠ '\x7b' ∧ x.1 ≠ '\x7d'

theorem Woven.braceless (hm : Woven p m) : Braceless m := fun x hx => (hm.breakless x hx).2

theorem cutBraces_braceless (hm : Braceless m) (gathered : List Char) (r : Marked) :
    cutBraces gathered (m ++ r) = cutBraces ((chars m).reverse ++ gathered) r := by
  induction m generalizing gathered with
  | nil => rfl
  | cons x m ih =>
    obtain ⟨c, isPlain⟩ := x
    have hx := hm (c, isPlain) (by simp)
    rw [List.cons_append, cutBraces, if_neg fun h => (hx h.1).1 h.2,
      if_neg fun h => (hx h.1).2 h.2, ih fun y hy => hm y (by simp [hy])]
    simp [chars]

theorem depthBehind_braceless (hm : Braceless m) (depth : Nat) (r : Marked) :
    depthBehind depth (m ++ r) = depthBehind depth r := by
  induction m with
  | nil => rfl
  | cons x m ih =>
    obtain ⟨c, isPlain⟩ := x
    have hx := hm (c, isPlain) (by simp)
    rw [List.cons_append, depthBehind, if_neg fun h => (hx h.1).1 h.2,
      if_neg fun h => (hx h.1).2 h.2, ih fun y hy => hm y (by simp [hy])]

/-! ### Notes -/

/-- A text in which no note starts, whatever follows it. -/
def Noteless (cs : List Char) : Prop := ∀ r, beforeNote (plain cs ++ r) = cs ++ beforeNote r

theorem Noteless.append (hc : Closed a) (ha : Noteless a) (hb : Noteless b) : Noteless (a ++ b) :=
  fun r => by rw [hc.plain_append, List.append_assoc, ha, hb, List.append_assoc]

theorem beforeNote_append (hm : ∀ x ∈ m, x ≠ ('/', true)) (r : Marked) :
    beforeNote (m ++ r) = chars m ++ beforeNote r := by
  induction m with
  | nil => rfl
  | cons x m ih =>
    obtain ⟨c, isPlain⟩ := x
    rw [List.cons_append, beforeNote, ih fun y hy => hm y (by simp [hy])]
    · rfl
    · rintro _ - rfl rfl
      exact hm _ (by simp) rfl

/-! ### Whole texts -/

/-- Characters that no scan looks at: no quotes, brackets, slashes or breaks. -/
def isInert (c : Char) : Bool := !isQuote c && nesting c = 0 && !isBreak c && c ≠ '/'

/-- A text that scans may pass **as a whole**: quotations and brackets are closed in it, no note
starts in it, and outside of brackets its plain characters are of a class. -/
structure Whole (p : Char → Bool) (cs : List Char) : Prop where
  closed : Closed cs
  woven : Woven p (plain cs)
  noteless : Noteless cs

theorem Whole.append (ha : Whole p a) (hb : Whole p b) : Whole p (a ++ b) :=
  ⟨ha.closed.append hb.closed, ha.closed.plain_append b ▸ ha.woven.append hb.woven,
    ha.noteless.append ha.closed hb.noteless⟩

theorem Whole.mono (h : Whole p cs) (hpq : ∀ c, p c = true → q c = true) : Whole q cs :=
  ⟨h.closed, h.woven.mono hpq, h.noteless⟩

theorem whole_nil (p : Char → Bool) : Whole p [] := ⟨rfl, .nil p, fun _ => rfl⟩

theorem whole_of_all (h : ∀ c ∈ cs, isInert c = true ∧ p c = true) : Whole p cs := by
  have hinert : ∀ c ∈ cs, isQuote c = false ∧ nesting c = 0 ∧ isBreak c = false ∧ c ≠ '/' := by
    intro c hc
    simpa [isInert, and_assoc] using (h c hc).1
  obtain ⟨hm, hc⟩ := quoteless fun c hc => (hinert c hc).1
  have hwoven : ∀ l : List Char, (∀ c ∈ l, c ∈ cs) → Woven p (markAll true l) := by
    intro l hl
    induction l with
    | nil => exact .nil p
    | cons c l ih =>
      have hin := hinert c (hl c (by simp))
      exact .char (h c (hl c (by simp))).2 hin.2.1 hin.2.2.1 (ih fun d hd => hl d (by simp [hd]))
  refine ⟨hc, hm ▸ hwoven cs fun _ => id, fun r => ?_⟩
  rw [hm, beforeNote_append, chars_markAll]
  intro x hx
  obtain ⟨c, hc, rfl⟩ := List.mem_map.1 hx
  simp [(hinert c hc).2.2.2]

theorem whole_literal (h : (cs.all fun c => isInert c && p c) = true) : Whole p cs :=
  whole_of_all fun c hc => Bool.and_eq_true_iff.1 (List.all_eq_true.1 h c hc)

theorem Quotable.whole {t : List Char} (h : Quotable t) (p : Char → Bool) :
    Whole p ('"' :: t ++ ['"']) := by
  obtain ⟨hm, hc⟩ := h.plain_quoted
  have hnewline : '\n' ∉ '"' :: t ++ ['"'] := by simpa using h.newline
  have hwoven : ∀ l : List Char, '\n' ∉ l → Woven p (markAll false l) := by
    intro l hl
    induction l with
    | nil => exact .nil p
    | cons c l ih =>
      simp only [List.mem_cons, not_or] at hl
      exact (ih hl.2).quoted (Ne.symm hl.1)
  refine ⟨hc, hm ▸ hwoven _ hnewline, fun r => ?_⟩
  rw [hm, beforeNote_append, chars_markAll]
  intro x hx
  obtain ⟨c, -, rfl⟩ := List.mem_map.1 hx
  simp

theorem whole_quotation (p : Char → Bool) (cs : List Char) : Whole p (quotation cs) :=
  (quotable_flatMap_spell cs).whole p

theorem Match.closed {o c : Char} (h : Match o c) : Closed [o] ∧ Closed [c] := by
  rcases h with ⟨rfl, rfl⟩ | ⟨rfl, rfl⟩ <;> exact ⟨rfl, rfl⟩

theorem Match.plain {o c : Char} (h : Match o c) :
    plain [o] = [(o, true)] ∧ plain [c] = [(c, true)] := by
  rcases h with ⟨rfl, rfl⟩ | ⟨rfl, rfl⟩ <;> exact ⟨rfl, rfl⟩

theorem Whole.plain_grouped {o c : Char} (hoc : Match o c) (h : Whole p cs) :
    plain (o :: cs ++ [c]) = (o, true) :: (plain cs ++ (c, true) :: []) := by
  change plain ([o] ++ (cs ++ [c])) = _
  rw [hoc.closed.1.plain_append, h.closed.plain_append, hoc.plain.1, hoc.plain.2,
    List.singleton_append]

theorem Whole.grouped {o c : Char} (hoc : Match o c) (h : Whole (fun _ => true) cs)
    (p : Char → Bool) : Whole p (o :: cs ++ [c]) := by
  refine ⟨hoc.closed.1.append (h.closed.append hoc.closed.2),
    h.plain_grouped hoc ▸ .group hoc h.woven (.nil p), fun r => ?_⟩
  have hslash : ∀ d, d = o ∨ d = c → ∀ s, beforeNote ((d, true) :: s) = d :: beforeNote s := by
    intro d hd s
    have hne : d ≠ '/' := by rcases hoc with ⟨rfl, rfl⟩ | ⟨rfl, rfl⟩ <;> rcases hd with rfl | rfl <;>
      decide
    rw [beforeNote]
    exact fun _ _ he => absurd he hne
  rw [h.plain_grouped hoc, List.cons_append, hslash o (.inl rfl), List.append_assoc, h.noteless,
    List.singleton_append, hslash c (.inr rfl)]
  simp

theorem Whole.enclosed (h : Whole (fun _ => true) cs) (p : Char → Bool) :
    Whole p ('(' :: cs ++ [')']) := h.grouped (.inl ⟨rfl, rfl⟩) p

theorem Whole.newline_notMem (h : Whole p cs) : '\n' ∉ cs := fun hn => by
  rw [← chars_plain cs] at hn
  obtain ⟨x, hx, hc⟩ := List.mem_map.1 hn
  exact (h.woven.breakless x hx).1 hc

/-! ### Cutting at separators -/

theorem foldr_consFirst (a t : List Char) (ts : List (List Char)) :
    a.foldr consFirst (t :: ts) = (a ++ t) :: ts := by
  induction a with
  | nil => rfl
  | cons c a ih => rw [List.foldr_cons, ih]; rfl

theorem piecesAt_ne_nil (sep : Char) (depth : Int) (m : Marked) : piecesAt sep depth m ≠ [] := by
  cases m with
  | nil => simp [piecesAt]
  | cons x m =>
    rw [piecesAt]
    split
    · simp
    · cases piecesAt sep (deeper depth x) m <;> simp [consFirst]

variable {sep : Char}

theorem splitTop_blank (hs : ' ' ≠ sep) (cs : List Char) :
    splitTop sep (' ' :: cs) = splitTop sep cs := by
  have hplain : plain (' ' :: cs) = (' ', true) :: plain cs := rfl
  rw [splitTop, hplain, piecesAt, if_neg (by simp [hs])]
  exact map_trim_consFirst_blank (piecesAt_ne_nil _ _ _)

theorem Whole.splitTop_eq (h : Whole p cs) (hs : nesting sep = 0)
    (hp : ∀ c, p c = true → c ≠ sep) : splitTop sep cs = [trim cs] := by
  have hpieces := piecesAt_woven h.woven hs (Int.le_refl 0) (fun _ => hp) []
  rw [List.append_nil, chars_plain, piecesAt, foldr_consFirst, List.append_nil] at hpieces
  rw [splitTop, hpieces]
  rfl

theorem Whole.splitTop_append (h : Whole p a) (hs : isQuote sep = false ∧ nesting sep = 0)
    (hp : ∀ c, p c = true → c ≠ sep) (b : List Char) :
    splitTop sep (a ++ sep :: b) = trim a :: splitTop sep b := by
  have hplain : plain (sep :: b) = (sep, true) :: plain b := by
    simp [plain, markFrom, Quoting.next, hs.1]
  rw [splitTop, h.closed.plain_append, hplain,
    piecesAt_woven h.woven hs.2 (Int.le_refl 0) (fun _ => hp), chars_plain, piecesAt,
    if_pos ⟨rfl, rfl, rfl⟩, foldr_consFirst, List.append_nil]
  rfl

/-- The brackets around a whole text match each other, so **what follows decides** whether the last
character closes the first. -/
theorem Whole.closesLast_grouped {o c : Char} (hoc : Match o c) (h : Whole (fun _ => true) cs)
    (r : Marked) : closesLast o c 0 (plain (o :: cs ++ [c]) ++ r) = r.isEmpty := by
  have hne : c ≠ o := by rcases hoc with ⟨rfl, rfl⟩ | ⟨rfl, rfl⟩ <;> decide
  rw [h.plain_grouped hoc, List.cons_append, closesLast, if_pos ⟨rfl, rfl⟩, List.append_assoc,
    closesLast_woven hoc h.woven (by decide), List.singleton_append, closesLast,
    if_neg fun he => hne he.2, if_pos ⟨rfl, rfl⟩, if_pos (by decide)]

/-- The brackets around a whole text **match each other**. -/
theorem Whole.enclosed?_grouped {o c : Char} (hoc : Match o c) (h : Whole (fun _ => true) cs) :
    enclosed? o c (o :: cs ++ [c]) = some cs := by
  have hcloses := h.closesLast_grouped hoc []
  rw [List.append_nil, List.isEmpty_nil] at hcloses
  rw [List.cons_append] at hcloses ⊢
  rw [enclosed?, if_pos ⟨rfl, hcloses⟩, List.dropLast_concat]

theorem Whole.enclosed?_eq (h : Whole (fun _ => true) cs) :
    enclosed? '(' ')' ('(' :: cs ++ [')']) = some cs := h.enclosed?_grouped (.inl ⟨rfl, rfl⟩)

end Source

end TapeCompiler
