import TapeCompiler.Proofs.Script.OneLine

/-! # Reading headers back

The header of a function is read as its name and its parameters (`functionHeader?_text`), that of a
branch or a loop as what stands in its parentheses (`header?_text`). A line that does not end with
an opening brace is no header (`header?_eq_none`, `functionHeader?_eq_none`). -/

namespace TapeCompiler

namespace Source

open Text

variable {cs r : List Char}

/-! ### Lines that are no headers -/

theorem suffix_of_after? {b : List Char} (h : after? b cs = some r) : r <:+ cs :=
  ⟨b, (after?_eq_some.1 h).symm⟩

theorem suffix_of_blanks? (h : blanks? cs = some r) : r <:+ cs := by
  cases cs with
  | nil => cases h
  | cons c cs =>
    rw [blanks?] at h
    split at h
    · cases h
      exact (List.dropWhile_suffix _).trans (List.suffix_cons _ _)
    · cases h

theorem suffix_of_name? {name : List Char} (h : name? cs = some (name, r)) : r <:+ cs := by
  rw [name?] at h
  split at h
  · cases h
    exact List.dropWhile_suffix _
  · cases h

theorem getLast?_of_suffix {c : Char} (h : r <:+ cs) (hr : r.getLast? = some c) :
    cs.getLast? = some c := by
  obtain ⟨a, rfl⟩ := h
  rw [List.getLast?_append, hr, Option.some_or]

theorem header?_eq_none (h : cs.getLast? ≠ some '\x7b') : header? cs = none := by
  rw [header?]
  cases ha : after? ['('] (trimFront cs) with
  | none => rfl
  | some r =>
    have hsuffix : r <:+ cs := (suffix_of_after? ha).trans (List.dropWhile_suffix _)
    have hlast : before? '\x7b' r = none := by
      rw [before?, if_neg fun hr => h (getLast?_of_suffix hsuffix hr)]
    simp [hlast]

theorem functionHeader?_eq_none (h : cs.getLast? ≠ some '\x7b') : functionHeader? cs = none := by
  rw [Option.eq_none_iff_forall_ne_some]
  intro header hheader
  simp only [functionHeader?, Option.bind_eq_bind, Option.bind_eq_some_iff,
    Option.ite_none_right_eq_some] at hheader
  obtain ⟨r₁, h₁, r₂, h₂, ⟨name, r₃⟩, h₃, r₄, h₄, r₅, h₅, hbrace, -⟩ := hheader
  apply h
  have hname : r₃ <:+ cs :=
    ((suffix_of_name? h₃).trans (suffix_of_blanks? h₂)).trans (suffix_of_after? h₁)
  have hparams : r₄ <:+ cs := ((suffix_of_after? h₄).trans (List.dropWhile_suffix _)).trans hname
  have hlast : trimFront r₅ <:+ cs :=
    ((List.dropWhile_suffix _).trans (suffix_of_after? h₅)).trans
      ((List.dropWhile_suffix _).trans hparams)
  exact getLast?_of_suffix (hbrace ▸ hlast) rfl

theorem branchHeader?_eq_none (h : cs.getLast? ≠ some '\x7b') : branchHeader? cs = none := by
  rw [branchHeader?]
  cases hk : keyword? "if" cs with
  | none => rfl
  | some r => exact header?_eq_none fun hr => h (getLast?_of_suffix (suffix_of_after? hk) hr)

theorem loopHeader?_eq_none (h : cs.getLast? ≠ some '\x7b') : loopHeader? cs = none := by
  rw [loopHeader?]
  cases hk : keyword? "for" cs with
  | none => rfl
  | some r => exact header?_eq_none fun hr => h (getLast?_of_suffix (suffix_of_after? hk) hr)

/-! ### Functions -/

theorem parameters_commaList {names : List (List Char)} (hn : ∀ n ∈ names, isName n = true) :
    ((splitOn ',' (commaList names)).map trim).filter (fun p => !p.isEmpty) = names := by
  by_cases hne : names = []
  · subst hne
    rfl
  · have hcomma : ∀ n ∈ names, ',' ∉ n := fun n h hc =>
      ne_of_isNamePart (isNamePart_of_isName (hn n h) _ hc) (d := ',') rfl rfl
    have htight : ∀ n ∈ names, StartsIn isInk n ∧ EndsIn isInk n := fun n h =>
      ⟨(startsIn_of_isName (hn n h)).mono fun _ => isInk_of_isNameStart,
        (endsIn_of_isName (hn n h)).mono fun _ => isInk_of_isNamePart⟩
    rw [splitOn_commaList hne hcomma, map_trim_of_tight htight, List.filter_eq_self]
    intro n h
    simpa using (htight n h).1.ne_nil

theorem functionHeader?_text {name : String} {params : List String}
    (hn : isIdentifier name = true) (hp : ∀ p ∈ params, isIdentifier p = true) :
    functionHeader? (functionText name params) = some (name.toList, params.map String.toList) := by
  have hname := isName_of_isIdentifier hn
  have hnames : ∀ p ∈ params.map String.toList, isName p = true := by
    simpa using fun p h => isName_of_isIdentifier (hp p h)
  have hkeyword : ∀ r, keyword? "function" ("function ".toList ++ r) = some (' ' :: r) :=
    fun r => after?_eq_some.2 rfl
  have hblanks : ∀ r, blanks? (' ' :: (name.toList ++ r)) = some (name.toList ++ r) := by
    intro r
    have := (((startsIn_of_isName hname).mono fun _ => isInk_of_isNameStart).append r).trimFront
    exact congrArg some this
  have hround : ∀ c ∈ commaList (params.map String.toList), decide (c ≠ ')') = true := by
    intro c hc
    rcases mem_intercalate hc with hc | ⟨p, hp, hc⟩
    · have hsep : ([',', ' '].all fun c => decide (c ≠ ')')) = true := by decide
      exact List.all_eq_true.1 hsep c hc
    · simpa using ne_of_isNamePart (isNamePart_of_isName (hnames p hp) c hc) (d := ')') rfl
  have hstop : Stops (fun c => decide (c ≠ ')')) ") \x7b".toList := stops_cons (by decide) _
  have hrest : functionText name params = "function ".toList ++ (name.toList ++
      ('(' :: (commaList (params.map String.toList) ++ ") \x7b".toList))) := by
    unfold functionText
    simp only [List.append_assoc, List.cons_append]
  have hopen : ∀ r, after? ['('] (trimFront ('(' :: r)) = some r := fun r => after?_eq_some.2 rfl
  rw [functionHeader?, hrest, hkeyword]
  simp only [Option.bind_eq_bind, Option.bind_some, hblanks,
    name?_append hname (stops_cons (c := '(') (by decide) _), hopen,
    takeWhile_append hround hstop, dropWhile_append hround hstop, parameters_commaList hnames]
  rfl

/-! ### Branches and loops -/

theorem header?_text {inner : List Char} (h : '\n' ∉ inner) :
    header? (" (".toList ++ inner ++ ") \x7b".toList) = some inner := by
  have hopen : after? ['('] (trimFront (" (".toList ++ inner ++ ") \x7b".toList)) =
      some (inner ++ [')', ' ', '\x7b']) := after?_eq_some.2 rfl
  have hbrace : before? '\x7b' (inner ++ [')', ' ', '\x7b']) = some (inner ++ [')'] ++ [' ']) := by
    simp [before?]
  have hclose : trimBack (inner ++ [')'] ++ [' ']) = inner ++ [')'] := by
    rw [trimBack_blank, (endsIn_concat (p := isInk) (by decide) inner).trimBack]
  have hround : before? ')' (inner ++ [')']) = some inner := by simp [before?]
  rw [header?, hopen]
  simp only [Option.bind_eq_bind, Option.bind_some, hbrace, hclose, hround, oneLine?,
    List.contains_iff_mem, h, if_false]

theorem branchHeader?_text {inner : List Char} (h : '\n' ∉ inner) :
    branchHeader? (headerText "if" inner) = some inner := by
  have hkeyword : keyword? "if" (headerText "if" inner) =
      some (" (".toList ++ inner ++ ") \x7b".toList) :=
    after?_eq_some.2 (by rw [headerText, List.append_assoc, List.append_assoc, List.append_assoc])
  rw [branchHeader?, hkeyword]
  exact header?_text h

theorem loopHeader?_text {inner : List Char} (h : '\n' ∉ inner) :
    loopHeader? (headerText "for" inner) = some inner := by
  have hkeyword : keyword? "for" (headerText "for" inner) =
      some (" (".toList ++ inner ++ ") \x7b".toList) :=
    after?_eq_some.2 (by rw [headerText, List.append_assoc, List.append_assoc, List.append_assoc])
  rw [loopHeader?, hkeyword]
  exact header?_text h

end Source

end TapeCompiler
