import TapeCompiler.Script.Pattern
import Mathlib.Data.List.TakeWhile
import Mathlib.Tactic.Common

/-! # Blanks and names

No character of a name is blank (`isBlank_of_isNamePart`). A text that starts and ends with no blank
is left alone by trimming (`trim_of_tight`), a name in front of other text is found as a whole
(`name?_append`), and a keyword is told from a longer name that begins with it
(`Apart`). -/

namespace TapeCompiler

namespace Text

/-! ### Classes -/

theorem toNat_of_isAlpha {c : Char} (h : c.isAlpha = true) :
    65 ≤ c.toNat ∧ c.toNat ≤ 90 ∨ 97 ≤ c.toNat ∧ c.toNat ≤ 122 := by
  have h : (decide (c.val ≥ 'A'.val ∧ c.val ≤ 'Z'.val) ||
    (decide (c.val ≥ 'a'.val) && decide (c.val ≤ 'z'.val))) = true := h
  simp only [Bool.or_eq_true, Bool.and_eq_true, decide_eq_true_eq, ge_iff_le,
    UInt32.le_iff_toNat_le] at h
  exact h

theorem toNat_of_isDigit {c : Char} (h : c.isDigit = true) : 48 ≤ c.toNat ∧ c.toNat ≤ 57 := by
  simp only [Char.isDigit, Bool.and_eq_true, decide_eq_true_eq, ge_iff_le,
    UInt32.le_iff_toNat_le] at h
  exact h

theorem toNat_of_isAlphanum {c : Char} (h : c.isAlphanum = true) :
    48 ≤ c.toNat ∧ c.toNat < 0x80 := by
  rw [Char.isAlphanum, Bool.or_eq_true] at h
  rcases h with h | h
  · have := toNat_of_isAlpha h
    omega
  · have := toNat_of_isDigit h
    omega

theorem isNamePart_of_isAlphanum {c : Char} (h : c.isAlphanum = true) : isNamePart c = true := by
  simp [isNamePart, isWord, (toNat_of_isAlphanum h).2, h]

theorem isNamePart_of_isNameStart {c : Char} (h : isNameStart c = true) : isNamePart c = true := by
  simp only [isNameStart, Bool.or_eq_true, decide_eq_true_eq] at h
  rcases h with (h | rfl) | rfl
  · exact isNamePart_of_isAlphanum (by simp [Char.isAlphanum, h])
  · decide
  · decide

theorem isNamePart_of_isDigit {c : Char} (h : c.isDigit = true) : isNamePart c = true :=
  isNamePart_of_isAlphanum (by simp [Char.isAlphanum, h])

theorem isDecimal_of_isDigit {c : Char} (h : c.isDigit = true) : isDecimal c = true := by
  simp [isDecimal, (toNat_of_isAlphanum (c := c) (by simp [Char.isAlphanum, h])).2, h]

theorem isDecimal_of_isNameStart {c : Char} (h : isNameStart c = true) : isDecimal c = false := by
  simp only [isNameStart, Bool.or_eq_true, decide_eq_true_eq] at h
  rcases h with (h | rfl) | rfl
  · have hc := toNat_of_isAlpha h
    rw [isDecimal, if_pos (by omega)]
    by_contra hd
    have := toNat_of_isDigit (eq_true_of_ne_false hd)
    omega
  · decide
  · decide

/-- The blanks beyond ASCII. -/
def wideBlanks : List Nat :=
  [0x85, 0xA0, 0x1680, 0x2000, 0x2001, 0x2002, 0x2003, 0x2004, 0x2005, 0x2006, 0x2007, 0x2008,
    0x2009, 0x200A, 0x2028, 0x2029, 0x202F, 0x205F, 0x3000]

theorem wordTable_wideBlanks : ∀ n ∈ wideBlanks,
    (wordTable.any fun r => r.1 ≤ n && n ≤ r.2) = false := by decide +kernel

theorem toNat_of_isBlank {c : Char} (h : isBlank c = true) :
    c.toNat ≤ 32 ∨ c.toNat ∈ wideBlanks := by
  simp only [isBlank, Bool.or_eq_true, Bool.and_eq_true, decide_eq_true_eq] at h
  simp only [wideBlanks, List.mem_cons, List.not_mem_nil, or_false]
  rcases h with (((((((((( rfl | h) | h) | h) | h) | h) | h) | h) | h) | h) | h)
  · exact .inl (by decide)
  · have hle : c.toNat ≤ '\r'.toNat := by
      simpa [Char.le_def, UInt32.le_iff_toNat_le] using h.2
    have hr : '\r'.toNat = 13 := rfl
    omega
  all_goals omega

theorem isWord_wide {c : Char} (h : c.toNat ∈ wideBlanks) : isWord c = false := by
  have hwide : ∀ n ∈ wideBlanks, 0x80 ≤ n := by decide
  have hc := hwide _ h
  rw [isWord, if_neg (by omega)]
  exact wordTable_wideBlanks _ h

/-- **No character of a name is blank.** -/
theorem isBlank_of_isNamePart {c : Char} (h : isNamePart c = true) : isBlank c = false := by
  by_contra hb
  rw [Bool.not_eq_false] at hb
  simp only [isNamePart, Bool.or_eq_true, decide_eq_true_eq] at h
  rcases h with h | rfl
  · rcases toNat_of_isBlank hb with hc | hc
    · rw [isWord, if_pos (by omega), Bool.or_eq_true, decide_eq_true_eq] at h
      rcases h with h | rfl
      · have := toNat_of_isAlphanum h
        omega
      · exact absurd hc (by decide)
    · rw [isWord_wide hc] at h
      cases h
  · exact absurd hb (by decide)

/-! ### Trimming -/

/-- A character that is no blank. -/
def isInk (c : Char) : Bool := !isBlank c

theorem isInk_of_isNamePart {c : Char} (h : isNamePart c = true) : isInk c = true := by
  simp [isInk, isBlank_of_isNamePart h]

theorem isInk_of_isNameStart {c : Char} (h : isNameStart c = true) : isInk c = true :=
  isInk_of_isNamePart (isNamePart_of_isNameStart h)

/-- A text whose **first** character is of a class. -/
def StartsIn (p : Char → Bool) (cs : List Char) : Prop := ∃ c r, cs = c :: r ∧ p c = true

/-- A text whose **last** character is of a class. -/
def EndsIn (p : Char → Bool) (cs : List Char) : Prop := ∃ r c, cs = r ++ [c] ∧ p c = true

variable {p q : Char → Bool} {a b cs : List Char}

theorem startsIn_cons {c : Char} (h : p c = true) (cs : List Char) : StartsIn p (c :: cs) :=
  ⟨c, cs, rfl, h⟩

theorem endsIn_concat {c : Char} (h : p c = true) (cs : List Char) : EndsIn p (cs ++ [c]) :=
  ⟨cs, c, rfl, h⟩

theorem StartsIn.append (h : StartsIn p a) (b : List Char) : StartsIn p (a ++ b) := by
  obtain ⟨c, r, rfl, hc⟩ := h
  exact startsIn_cons hc (r ++ b)

theorem EndsIn.append (a : List Char) (h : EndsIn p b) : EndsIn p (a ++ b) := by
  obtain ⟨r, c, rfl, hc⟩ := h
  exact ⟨a ++ r, c, by simp, hc⟩

theorem StartsIn.mono (h : StartsIn p cs) (hpq : ∀ c, p c = true → q c = true) : StartsIn q cs := by
  obtain ⟨c, r, rfl, hc⟩ := h
  exact startsIn_cons (hpq c hc) r

theorem EndsIn.mono (h : EndsIn p cs) (hpq : ∀ c, p c = true → q c = true) : EndsIn q cs := by
  obtain ⟨r, c, rfl, hc⟩ := h
  exact endsIn_concat (hpq c hc) r

theorem StartsIn.ne_nil (h : StartsIn p cs) : cs ≠ [] := by
  obtain ⟨c, r, rfl, -⟩ := h
  simp

theorem StartsIn.head?_ne (h : StartsIn p cs) {d : Char} (hd : p d = false) :
    cs.head? ≠ some d := by
  obtain ⟨c, r, rfl, hc⟩ := h
  rintro ⟨⟩
  rw [hc] at hd
  cases hd

theorem StartsIn.ne_cons (h : StartsIn p cs) {d : Char} (hd : p d = false) (r : List Char) :
    cs ≠ d :: r := fun hr => h.head?_ne hd (hr ▸ rfl)

theorem EndsIn.getLast?_ne (h : EndsIn p cs) {d : Char} (hd : p d = false) :
    cs.getLast? ≠ some d := by
  obtain ⟨r, c, rfl, hc⟩ := h
  rw [List.getLast?_concat]
  rintro ⟨⟩
  rw [hc] at hd
  cases hd

theorem StartsIn.trimFront (h : StartsIn isInk cs) : trimFront cs = cs := by
  obtain ⟨c, r, rfl, hc⟩ := h
  rw [isInk, Bool.not_eq_true'] at hc
  simp [Text.trimFront, hc]

theorem EndsIn.trimBack (h : EndsIn isInk cs) : trimBack cs = cs := by
  obtain ⟨r, c, rfl, hc⟩ := h
  rw [isInk, Bool.not_eq_true'] at hc
  simp [Text.trimBack, hc]

theorem trim_of_tight (hs : StartsIn isInk cs) (he : EndsIn isInk cs) : trim cs = cs := by
  rw [trim, hs.trimFront, he.trimBack]

theorem trim_ne_nil (hs : StartsIn isInk cs) : trim cs ≠ [] := by
  rw [trim, hs.trimFront, trimBack]
  obtain ⟨c, r, rfl, hc⟩ := hs
  intro h
  rw [List.reverse_eq_nil_iff, List.dropWhile_eq_nil_iff] at h
  have := h c (by simp)
  simp [isInk, this] at hc

theorem startsIn_of_all (h : cs ≠ []) (hcs : ∀ c ∈ cs, p c = true) : StartsIn p cs := by
  cases cs with
  | nil => exact absurd rfl h
  | cons c r => exact startsIn_cons (hcs c (by simp)) r

theorem endsIn_of_all (h : cs ≠ []) (hcs : ∀ c ∈ cs, p c = true) : EndsIn p cs :=
  ⟨cs.dropLast, cs.getLast h, (List.dropLast_concat_getLast h).symm, hcs _ (List.getLast_mem h)⟩

/-! ### Cutting -/

theorem trimBack_blank (cs : List Char) : trimBack (cs ++ [' ']) = trimBack cs := by
  have hblank : isBlank ' ' = true := rfl
  simp [trimBack, hblank]

theorem trim_append_blank (hs : StartsIn isInk a) (he : EndsIn isInk a) :
    trim (a ++ [' ']) = a := by
  rw [trim, (hs.append [' ']).trimFront, trimBack_blank, he.trimBack]

theorem map_trim_consFirst_blank {ps : List (List Char)} (h : ps ≠ []) :
    (consFirst ' ' ps).map trim = ps.map trim := by
  cases ps with
  | nil => exact absurd rfl h
  | cons t ps => rfl

theorem splitOn_of_notMem {sep : Char} (h : sep ∉ a) : splitOn sep a = [a] := by
  induction a with
  | nil => rfl
  | cons c a ih =>
    simp only [List.mem_cons, not_or] at h
    rw [splitOn, if_neg (Ne.symm h.1), ih h.2, consFirst]

/-- A text **without the separator** in front of one is a piece. -/
theorem splitOn_append {sep : Char} (h : sep ∉ a) (b : List Char) :
    splitOn sep (a ++ sep :: b) = a :: splitOn sep b := by
  induction a with
  | nil => simp [splitOn]
  | cons c a ih =>
    simp only [List.mem_cons, not_or] at h
    rw [List.cons_append, splitOn, if_neg (Ne.symm h.1), ih h.2, consFirst]

theorem mem_intercalate {sep : List Char} {ts : List (List Char)} {c : Char}
    (h : c ∈ sep.intercalate ts) : c ∈ sep ∨ ∃ t ∈ ts, c ∈ t := by
  induction ts with
  | nil => simp at h
  | cons t ts ih =>
    cases ts with
    | nil => exact .inr ⟨t, by simp, by simpa using h⟩
    | cons u ts =>
      rw [List.intercalate_cons_cons, List.mem_append, List.mem_append] at h
      rcases h with (h | h) | h
      · exact .inr ⟨t, by simp, h⟩
      · exact .inl h
      · rcases ih h with h | ⟨v, hv, h⟩
        · exact .inl h
        · exact .inr ⟨v, by simp [hv], h⟩

theorem splitOn_intercalate {sep : Char} {ts : List (List Char)} (hne : ts ≠ [])
    (h : ∀ t ∈ ts, sep ∉ t) : splitOn sep ([sep].intercalate ts) = ts := by
  induction ts with
  | nil => exact absurd rfl hne
  | cons t ts ih =>
    have ht := h t (by simp)
    cases ts with
    | nil => rw [List.intercalate_singleton, splitOn_of_notMem ht]
    | cons u ts =>
      rw [List.intercalate_cons_cons, List.append_assoc, List.singleton_append, splitOn_append ht,
        ih (by simp) fun t ht => h t (by simp [ht])]

end Text

namespace Source

open Text

/-! ### Names in front of a text -/

/-- A text whose first character, if it has one, is not of a class. -/
def Stops (p : Char → Bool) (cs : List Char) : Prop := ∀ c ∈ cs.head?, p c = false

variable {p : Char → Bool} {name rest cs : List Char}

theorem stops_nil (p : Char → Bool) : Stops p [] := fun _ h => by cases h

theorem stops_cons {c : Char} (h : p c = false) (cs : List Char) : Stops p (c :: cs) :=
  fun _ hc => by cases hc; exact h

theorem takeWhile_of_stops (h : Stops p cs) : cs.takeWhile p = [] := by
  cases cs with
  | nil => rfl
  | cons c cs => simp [h c rfl]

theorem takeWhile_append (ha : ∀ c ∈ name, p c = true) (hs : Stops p rest) :
    (name ++ rest).takeWhile p = name := by
  rw [List.takeWhile_append_of_pos ha, takeWhile_of_stops hs, List.append_nil]

theorem dropWhile_append (ha : ∀ c ∈ name, p c = true) (hs : Stops p rest) :
    (name ++ rest).dropWhile p = rest := by
  rw [List.dropWhile_append_of_pos ha]
  cases rest with
  | nil => rfl
  | cons c cs => simp [hs c rfl]

theorem isNamePart_of_isName (h : isName name = true) : ∀ c ∈ name, isNamePart c = true := by
  cases name with
  | nil => simp [isName] at h
  | cons d r =>
    simp only [isName, Bool.and_eq_true, List.all_eq_true] at h
    rintro c (_ | ⟨_, hc⟩)
    · exact isNamePart_of_isNameStart h.1
    · exact h.2 c hc

theorem startsIn_of_isName (h : isName name = true) : StartsIn isNameStart name := by
  cases name with
  | nil => simp [isName] at h
  | cons c r => exact startsIn_cons (Bool.and_eq_true_iff.1 h).1 r

theorem endsIn_of_isName (h : isName name = true) : EndsIn isNamePart name :=
  endsIn_of_all (startsIn_of_isName h).ne_nil (isNamePart_of_isName h)

/-- **A name in front** of a text that does not go on with it. -/
theorem name?_append (hn : isName name = true) (hs : Stops isNamePart rest) :
    name? (name ++ rest) = some (name, rest) := by
  have hp := isNamePart_of_isName hn
  simp [name?, takeWhile_append hp hs, dropWhile_append hp hs, hn]

theorem name?_eq_none (hs : Stops isNameStart cs) : name? cs = none := by
  cases cs with
  | nil => rfl
  | cons c cs =>
    have hc := hs c rfl
    rw [name?, List.takeWhile_cons]
    split
    · simp [isName, hc]
    · rfl

/-! ### Keywords -/

/-- A text that does not start with a word on its own: if it starts with it at all, then the word is
the beginning of **a longer name**. -/
def Apart (word : String) (cs : List Char) : Prop :=
  ∀ r, keyword? word cs = some r → StartsIn isNamePart r

theorem apart_of_isName {word : String} (hw : isName word.toList = true) (hn : isName name = true)
    (hne : name ≠ word.toList) (hs : Stops isNamePart rest) : Apart word (name ++ rest) := by
  intro r h
  rw [keyword?, after?_eq_some] at h
  by_contra hr
  have hstop : Stops isNamePart r := fun c hc => by
    rw [Option.mem_def, List.head?_eq_some_iff] at hc
    obtain ⟨r', rfl⟩ := hc
    exact eq_false_of_ne_true fun hp => hr (startsIn_cons hp r')
  apply hne
  calc name = (name ++ rest).takeWhile isNamePart :=
        (takeWhile_append (isNamePart_of_isName hn) hs).symm
    _ = word.toList := by rw [h, takeWhile_append (isNamePart_of_isName hw) hstop]

theorem apart_of_stops {word : String} (hw : isName word.toList = true)
    (hs : Stops isNamePart cs) : Apart word cs := by
  intro r h
  rw [keyword?, after?_eq_some] at h
  obtain ⟨c, w, hcw, hc⟩ := startsIn_of_isName hw
  have := hs c (by rw [h, hcw]; rfl)
  rw [isNamePart_of_isNameStart hc] at this
  cases this

theorem blanks?_eq_none (h : StartsIn isNamePart cs) : blanks? cs = none := by
  obtain ⟨c, r, rfl, hc⟩ := h
  rw [blanks?, isBlank_of_isNamePart hc]
  rfl

theorem content?_eq_some (hne : cs ≠ []) (h : '\n' ∉ cs) : content? cs = some cs := by
  simp [content?, oneLine?, hne, h]

/-! ### Dotted names -/

/-- The characters of a dotted name. -/
def isDottedPart (c : Char) : Bool := isNamePart c || c = '.'

theorem isDottedPart_cases {c : Char} (h : isDottedPart c = true) :
    isNamePart c = true ∨ c = '.' := by
  simpa [isDottedPart] using h

theorem isInk_of_isDottedPart {c : Char} (h : isDottedPart c = true) : isInk c = true := by
  rcases isDottedPart_cases h with h | rfl
  · exact isInk_of_isNamePart h
  · decide

theorem isDottedPart_of_mem {names : List (List Char)} (h : ∀ n ∈ names, isName n = true)
    {c : Char} (hc : c ∈ ['.'].intercalate names) : isDottedPart c = true := by
  rcases mem_intercalate hc with hdot | ⟨n, hn, hc⟩
  · rw [List.mem_singleton.1 hdot]
    decide
  · simp [isDottedPart, isNamePart_of_isName (h n hn) c hc]

theorem dotted?_append {names : List (List Char)} (hne : names ≠ [])
    (hn : ∀ n ∈ names, isName n = true) (hs : Stops (fun c => isNamePart c || c = '.') rest) :
    dotted? (['.'].intercalate names ++ rest) = some (names, rest) := by
  have hpart : ∀ c ∈ ['.'].intercalate names, (isNamePart c || decide (c = '.')) = true :=
    fun _ => isDottedPart_of_mem hn
  have hsplit : splitOn '.' (['.'].intercalate names) = names :=
    splitOn_intercalate hne fun n h hdot =>
      absurd (isNamePart_of_isName (hn n h) _ hdot) (by decide)
  rw [dotted?]
  simp only [takeWhile_append hpart hs, dropWhile_append hpart hs, hsplit, List.all_eq_true.2 hn,
    if_true]

end Source

end TapeCompiler
