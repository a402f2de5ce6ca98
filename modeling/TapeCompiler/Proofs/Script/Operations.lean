import TapeCompiler.Proofs.Script.Calls

/-! # Reading operators back

Operators have no precedence: an expression is cut at its **first** operator, so a printed operator
has parentheses around a left side that is an operator itself, and never around its right side. The
text of a side (`Side`) is passed as a whole by the search for an operator, be it that it holds
signs in quotes, in brackets or in front of a number, and behind it the operator is found
(`Side.operation?_eq`). By induction every tree of values, names, calls, arrays and operators is read
back from its text (`Expr.Printable.yields`). -/

namespace TapeCompiler

namespace Source

open Text

variable {cs : List Char}

/-! ### Sides of an operator -/

/-- The characters that the text of an expression ends with. -/
def isFinal (c : Char) : Bool := isNamePart c || c = '"' || c = ')' || c = ']'

theorem isFinal_of_isNamePart {c : Char} (h : isNamePart c = true) : isFinal c = true := by
  simp [isFinal, h]

theorem isFinal_cases {c : Char} (h : isFinal c = true) :
    isNamePart c = true ∨ c = '"' ∨ c = ')' ∨ c = ']' := by
  simpa [isFinal, or_assoc] using h

theorem isInk_of_isFinal {c : Char} (h : isFinal c = true) : isInk c = true := by
  obtain h | rfl | rfl | rfl := isFinal_cases h
  · exact isInk_of_isNamePart h
  all_goals decide

/-- A sign behind a final character **takes what stands before it**. -/
theorem beforeSign_of_isFinal {c : Char} (h : isFinal c = true) :
    isGap c = false ∧ beforeSign (some c) = false := by
  obtain h | rfl | rfl | rfl := isFinal_cases h
  · have hne : ∀ d, isNamePart d = false → c ≠ d := fun _ => ne_of_isNamePart h
    simp [isGap, beforeSign, hne ' ' rfl, hne '\t' rfl, hne '\n' rfl, hne '\x0c' rfl, hne '\r' rfl,
      hne '(' rfl, hne '[' rfl, hne ',' rfl, hne '+' rfl, hne '-' rfl, hne '*' rfl, hne '/' rfl,
      hne '%' rfl, hne '<' rfl, hne '>' rfl, hne '=' rfl, hne '!' rfl, hne '&' rfl, hne '|' rfl]
  all_goals decide

/-- The search for an operator before it starts. -/
def Search.start : Search := ⟨[], 0, none⟩

/-- **A text that may stand on the left of an operator**: no scan finds anything in it or stops at
its end. -/
structure Side (cs : List Char) : Prop where
  whole : Whole isItemPart cs
  starts : StartsIn isInk cs
  ends : EndsIn isFinal cs
  passed : ∀ r, findOperator .start (plain cs ++ r) = findOperator (Search.start.past (plain cs)) r
  unenclosed : ∀ r ≠ [], enclosed? '(' ')' (cs ++ r) = none
  unquoted : ∀ r ≠ [], quotation? (cs ++ r) = none

theorem enclosed?_cons {o d : Char} (h : d ≠ o) (c : Char) (r : List Char) :
    enclosed? o c (d :: r) = none := by
  rw [enclosed?, if_neg fun he => h he.1]

theorem quotation?_cons {d : Char} (h : isQuote d = false) (r : List Char) :
    quotation? (d :: r) = none := by
  cases r with
  | nil => rfl
  | cons c r => rw [quotation?, if_neg (by simp [h])]

theorem passed_of_whole (h : Whole isDottedPart cs) (r : Marked) :
    findOperator .start (plain cs ++ r) = findOperator (Search.start.past (plain cs)) r :=
  findOperator_woven h.woven (by decide) (fun _ _ => isSign_of_isDottedPart) r

theorem isItemPart_of_isDottedPart {c : Char} (h : isDottedPart c = true) :
    isItemPart c = true := by
  rcases isDottedPart_cases h with h | rfl
  · simp [isItemPart, ne_of_isNamePart h (d := ',') rfl]
  · decide

theorem side_named (h : Whole isDottedPart cs) (hs : StartsIn isNameStart cs)
    (he : EndsIn isFinal cs) : Side cs where
  whole := h.mono fun _ => isItemPart_of_isDottedPart
  starts := hs.mono fun _ => isInk_of_isNameStart
  ends := he
  passed := passed_of_whole h
  unenclosed r _ := enclosed?_eq_none (hs.append r) (by decide) _
  unquoted r _ :=
    quotation?_eq_none ((hs.append r).mono fun _ => isAtomPart_of_isNameStart)
      fun _ => isAtomPart_of_isQuote

theorem side_group (h : Whole (fun _ => true) cs) : Side ('(' :: cs ++ [')']) where
  whole := h.enclosed _
  starts := startsIn_cons (by decide) _
  ends := endsIn_concat (by decide) _
  passed := passed_of_whole (h.enclosed _)
  unenclosed r hr := by
    have hclosed : Closed ('(' :: cs ++ [')']) := (h.enclosed fun _ => true).closed
    have hopen : closesLast '(' ')' 0 (plain ('(' :: cs ++ [')'] ++ r)) = false := by
      rw [hclosed.plain_append, h.closesLast_grouped (.inl ⟨rfl, rfl⟩)]
      cases r with
      | nil => exact absurd rfl hr
      | cons c r => rfl
    rw [List.cons_append, List.cons_append] at hopen ⊢
    rw [enclosed?, hopen, if_neg (by simp)]
  unquoted _ _ := quotation?_cons rfl _

theorem side_array (h : Whole (fun _ => true) cs) : Side ('[' :: cs ++ [']']) where
  whole := h.grouped (.inr ⟨rfl, rfl⟩) _
  starts := startsIn_cons (by decide) _
  ends := endsIn_concat (by decide) _
  passed := passed_of_whole (h.grouped (.inr ⟨rfl, rfl⟩) _)
  unenclosed _ _ := enclosed?_cons (by decide) _ _
  unquoted _ _ := quotation?_cons rfl _

/-- A quotation: **behind its end the text is spoiled**, even if another one ends it. -/
theorem side_quotation (cs : List Char) : Side (quotation cs) where
  whole := whole_quotation _ cs
  starts := startsIn_cons (by decide) _
  ends := endsIn_concat (by decide) _
  passed := passed_of_whole (whole_quotation _ cs)
  unenclosed _ _ := enclosed?_cons (by decide) _ _
  unquoted r hr := by
    have hspoilt : ∀ s, decode '"' (cs.flatMap spell ++ '"' :: s) = none := by
      intro s
      induction cs with
      | nil => simp [decode]
      | cons c cs ih => rw [List.flatMap_cons, List.append_assoc, decode_spell, ih, Option.map_none]
    have hquotation : quotation cs ++ r = '"' :: (cs.flatMap spell ++ '"' :: r) := by
      simp [quotation]
    have hbefore : (before? '"' (cs.flatMap spell ++ '"' :: r)).bind (decode '"') = none := by
      rw [before?]
      split
      · rw [Option.bind_some, List.dropLast_append_cons, List.dropLast_cons_of_ne_nil hr, hspoilt]
      · rfl
    rw [hquotation]
    cases hbody : cs.flatMap spell ++ '"' :: r with
    | nil => rfl
    | cons d s =>
      rw [quotation?, if_pos (by decide), ← hbody, hbefore]

theorem findOperator_leading_minus (m : Marked) :
    findOperator .start (('-', true) :: m) = findOperator (Search.start.next ('-', true)) m := by
  have htoken : ∀ r, tokenAt? ('-' :: r) = some (['-'], .sub) := fun _ => rfl
  have hunary : ∀ r, splits .start ['-'] '-' r = false := fun r => by
    simp [splits, Search.start, beforeSign]
  rw [findOperator]
  simp only [Search.start, deeper, nesting] at hunary ⊢
  simp [htoken, hunary]
  rfl

/-- An integer; **a sign in front of it** is no operator. -/
theorem side_int (n : Int64) : Side (Literal.int n).text where
  whole := (whole_text n).mono fun c hc => by
    simp only [isAtomPart, Bool.or_eq_true, decide_eq_true_eq] at hc
    rcases hc with hc | rfl
    · exact isItemPart_of_isDottedPart (by simp [isDottedPart, hc])
    · decide
  starts := (Expr.Atomic.int n).starts.mono fun _ => isInk_of_isEdge
  ends := by
    have hdigits : ∀ k, EndsIn isFinal (Nat.toDigits 10 k) := fun k =>
      endsIn_of_all Nat.toDigits_ne_nil fun c hc =>
        isFinal_of_isNamePart (isNamePart_of_isDigit (isDigit_of_mem_toDigits hc))
    rw [Literal.text]
    split
    · exact (hdigits _).append ['-']
    · exact hdigits _
  passed r := by
    have hdigits : ∀ k, Whole isDottedPart (Nat.toDigits 10 k) := fun k =>
      whole_of_all fun c hc => by
        have := isNamePart_of_isDigit (isDigit_of_mem_toDigits hc)
        exact ⟨isInert_of_isNamePart this, by simp [isDottedPart, this]⟩
    rw [Literal.text]
    split
    · have hplain : ∀ k, plain ('-' :: Nat.toDigits 10 k) =
          ('-', true) :: plain (Nat.toDigits 10 k) := fun k => rfl
      rw [hplain, List.cons_append, findOperator_leading_minus,
        findOperator_woven (hdigits _).woven (by decide) fun _ _ => isSign_of_isDottedPart]
      rfl
    · exact passed_of_whole (hdigits _) r
  unenclosed r _ := enclosed?_eq_none ((startsIn_text n).append r) rfl _
  unquoted r _ := quotation?_eq_none ((startsIn_text n).append r) fun _ => isAtomPart_of_isQuote

/-! ### Finding the operator -/

theorem findOperator_token {k : Search} {c : Char} {token : List Char} {o : Operator} {m : Marked}
    (hd : k.depth = 0) (hn : nesting c = 0)
    (ht : tokenAt? (c :: chars (m.take 2)) = some (token, o))
    (hs : splits k token c (chars (m.take 2)) = true) :
    findOperator k ((c, true) :: m) =
      some (k.passed.reverse, o, chars (m.drop (token.length - 1))) := by
  have hdepth : deeper k.depth (c, true) = 0 := by rw [deeper, if_pos rfl, hd, hn, Int.add_zero]
  rw [findOperator]
  simp only [hdepth, and_self, if_true, ht, hs]

/-- An operator is spelled with one or two characters, and a blank ends it. -/
theorem exists_symbol (o : Operator) : ∃ c more, o.symbol.toList = c :: more ∧ nesting c = 0 ∧
    c ≠ ' ' ∧ more.length ≤ 1 ∧ ∀ r, tokenAt? (c :: more ++ ' ' :: r) = some (c :: more, o) := by
  cases o <;> exact ⟨_, _, rfl, rfl, by decide, by decide, fun _ => rfl⟩

/-- **An operator between blanks** is found behind a text that its sign may follow. -/
theorem findOperator_symbol {k : Search} (hd : k.depth = 0) (hp : k.passed.head? = some ' ')
    (hs : beforeSign k.previous = false) (o : Operator) (m : Marked) :
    findOperator k (markAll true o.symbol.toList ++ (' ', true) :: m) =
      some (k.passed.reverse, o, ' ' :: chars m) := by
  obtain ⟨c, more, hsymbol, hn, hc, hmore, htoken⟩ := exists_symbol o
  rw [hsymbol]
  match more with
  | [] =>
    exact findOperator_token (m := (' ', true) :: m) hd hn (htoken _)
      (by simp [splits, chars, hp, hs, Ne.symm hc])
  | [d] =>
    exact findOperator_token (m := (d, true) :: (' ', true) :: m) hd hn (htoken [])
      (by simp [splits])

theorem Search.passed_past (k : Search) (m : Marked) :
    (k.past m).passed = (chars m).reverse ++ k.passed := by
  induction m generalizing k with
  | nil => rfl
  | cons x m ih =>
    refine (ih (k.next x)).trans ?_
    simp [Search.next, chars]

theorem Search.previous_past {k : Search} {m : Marked} (h : EndsIn isFinal (chars m)) :
    beforeSign (k.past m).previous = false := by
  obtain ⟨r, c, hr, hc⟩ := h
  obtain ⟨m', x, rfl, -, hx⟩ := List.map_eq_append_iff.1 hr
  obtain ⟨⟨d, isPlain⟩, rfl, rfl⟩ := List.map_eq_singleton_iff.1 hx
  have hlast : ((k.past m').next (d, isPlain)).previous = some d := by
    simp [Search.next, (beforeSign_of_isFinal hc).1]
  rw [Search.past_append]
  exact (congrArg beforeSign hlast).trans (beforeSign_of_isFinal hc).2

/-- **The first operator of a text is the one behind its left side.** -/
theorem Side.operation?_eq (h : Side cs) (o : Operator) {right : List Char}
    (hs : StartsIn isInk right) (he : EndsIn isInk right) :
    operation? (cs ++ ' ' :: (o.symbol.toList ++ ' ' :: right)) = some (cs, o, right) := by
  have hplain : plain (' ' :: (o.symbol.toList ++ ' ' :: right)) =
      (' ', true) :: (markAll true o.symbol.toList ++ (' ', true) :: plain right) := by
    have hall : (' ' :: o.symbol.toList ++ [' ']).all (fun c => !isQuote c) = true := by
      cases o <;> rfl
    have hquote : ∀ c ∈ ' ' :: o.symbol.toList ++ [' '], isQuote c = false := by
      simpa using List.all_eq_true.1 hall
    have hsplit : ' ' :: (o.symbol.toList ++ ' ' :: right) =
        (' ' :: o.symbol.toList ++ [' ']) ++ right := by simp
    obtain ⟨hmarked, hclosed⟩ := quoteless hquote
    rw [hsplit, hclosed.plain_append, hmarked]
    simp [markAll]
  let k := (Search.start.past (plain cs)).next (' ', true)
  have hdepth : k.depth = 0 := by
    show deeper (Search.start.past (plain cs)).depth (' ', true) = 0
    rw [Search.depth_past, h.whole.woven.depth]
    rfl
  have hpassed : k.passed = ' ' :: cs.reverse := by
    show ' ' :: (Search.start.past (plain cs)).passed = _
    rw [Search.passed_past, chars_plain]
    simp [Search.start]
  have hsign : beforeSign k.previous = false :=
    Search.previous_past (k := Search.start) (by rw [chars_plain]; exact h.ends)
  have hfind : findOperator ⟨[], 0, none⟩ (plain (cs ++ ' ' :: (o.symbol.toList ++ ' ' :: right))) =
      some (cs ++ [' '], o, ' ' :: right) := by
    rw [h.whole.closed.plain_append, hplain]
    refine (h.passed _).trans ?_
    rw [findOperator_cons fun _ _ => by decide]
    refine (findOperator_symbol hdepth (by rw [hpassed]; rfl) hsign o (plain right)).trans ?_
    rw [hpassed, chars_plain, List.reverse_cons, List.reverse_reverse]
  have hleft : trim (cs ++ [' ']) = cs :=
    trim_append_blank h.starts (h.ends.mono fun _ => isInk_of_isFinal)
  have hright : trim (' ' :: right) = right := trim_of_tight hs he
  rw [operation?, hfind, Option.bind_some]
  simp only [hleft, hright]
  rw [if_neg (by simp [h.starts.ne_nil, hs.ne_nil])]

/-- The blanks around an operator and the operator, **a slash too**, belong to no note. -/
theorem whole_operator (o : Operator) : Whole isItemPart (' ' :: (o.symbol.toList ++ [' '])) := by
  cases o with
  | div =>
    refine ⟨rfl, ?_, fun r => rfl⟩
    exact .char rfl rfl rfl (.char rfl rfl rfl (.char rfl rfl rfl (.nil _)))
  | _ => exact whole_literal (by decide)

/-! ### Reading an operator and its sides -/

theorem eq_append_of_decimals? {whole r : List Char} (h : decimals? cs = some (whole, r)) :
    cs = whole ++ r ∧ ' ' ∉ whole := by
  rw [decimals?] at h
  split at h
  · cases h
  · simp only [Option.some.injEq, Prod.mk.injEq] at h
    obtain ⟨rfl, rfl⟩ := h
    exact ⟨(List.takeWhile_append_dropWhile ..).symm, fun hc => absurd (List.mem_takeWhile_imp hc)
      (by decide)⟩

theorem numberText?_eq_none_of_blank (h : ' ' ∈ cs) : numberText? cs = none := by
  have hdigits : ∀ {r whole rest}, ' ' ∈ r → decimals? r = some (whole, rest) → ' ' ∈ rest := by
    intro r whole rest hr hd
    obtain ⟨rfl, hw⟩ := eq_append_of_decimals? hd
    exact (List.mem_append.1 hr).resolve_left hw
  unfold numberText?
  split
  next negative r hsign =>
  have hr : ' ' ∈ r := by
    split at hsign
    · obtain ⟨-, rfl⟩ := Prod.mk.inj hsign
      exact (List.mem_cons.1 h).resolve_left (by decide)
    · obtain ⟨-, rfl⟩ := Prod.mk.inj hsign
      exact h
  split
  · next hd => exact absurd (hdigits hr hd) (by simp)
  · next hd =>
    have hrest := (List.mem_cons.1 (hdigits hr hd)).resolve_left (by decide)
    split
    · next hd' => exact absurd (hdigits hrest hd') (by simp)
    · rfl
  · rfl

/-- **The text of an operator is read side by side.** -/
theorem Side.readExpr_eq (h : Side cs) (o : Operator) {right : List Char}
    (hs : StartsIn isInk right) (he : EndsIn isInk right) (room : Nat) :
    readExpr (room + 1) (cs ++ ' ' :: (o.symbol.toList ++ ' ' :: right)) = do
      let l ← readExpr room cs
      let r ← readExpr room right
      return operation o l r := by
  have hblank : ' ' ∈ cs ++ ' ' :: (o.symbol.toList ++ ' ' :: right) := by simp
  have htrim : trim (cs ++ ' ' :: (o.symbol.toList ++ ' ' :: right)) =
      cs ++ ' ' :: (o.symbol.toList ++ ' ' :: right) := by
    refine trim_of_tight (h.starts.append _) ?_
    have := he.append (cs ++ ' ' :: (o.symbol.toList ++ [' ']))
    simpa using this
  have hwords : ∀ word ∈ ["true", "false", "null", "undefined"], ' ' ∉ word.toList := by decide
  have hword : word? (cs ++ ' ' :: (o.symbol.toList ++ ' ' :: right)) = none :=
    word?_eq_none fun word hw heq => hwords word hw (heq ▸ hblank)
  rw [readExpr]
  simp only [htrim, h.unenclosed _ (List.cons_ne_nil _ _), h.unquoted _ (List.cons_ne_nil _ _),
    numberText?_eq_none_of_blank hblank, hword, h.operation?_eq o hs he]

/-- **A text in parentheses** is read as the text in them, one level deeper. -/
theorem readExpr_group (h : Whole (fun _ => true) cs) (room : Nat) :
    readExpr (room + 1) ('(' :: cs ++ [')']) = readExpr room cs := by
  have htrim : trim ('(' :: cs ++ [')']) = '(' :: cs ++ [')'] :=
    trim_of_tight (startsIn_cons (by decide) _) (endsIn_concat (by decide) _)
  rw [readExpr]
  simp only [htrim, h.enclosed?_eq]

theorem readExpr_array (h : Whole (fun _ => true) cs) (room : Nat) :
    readExpr (room + 1) ('[' :: cs ++ [']']) = do
      return .array (← (items cs).mapM (readExpr room)) := by
  have htrim : trim ('[' :: cs ++ [']']) = '[' :: cs ++ [']'] :=
    trim_of_tight (startsIn_cons (by decide) _) (endsIn_concat (by decide) _)
  have hround : enclosed? '(' ')' ('[' :: cs ++ [']']) = none := enclosed?_cons (by decide) _ _
  have hquote : quotation? ('[' :: cs ++ [']']) = none := quotation?_cons rfl _
  have hnumber : numberText? ('[' :: cs ++ [']']) = none := rfl
  have hclosing : ∀ word ∈ ["true", "false", "null", "undefined"],
      word.toList.getLast? ≠ some ']' := by decide
  have hword : word? ('[' :: cs ++ [']']) = none :=
    word?_eq_none fun word hw heq => hclosing word hw (by rw [← heq, List.getLast?_concat])
  have hoperation := operation?_eq_none (h.grouped (.inr ⟨rfl, rfl⟩) isDottedPart)
    fun _ => isSign_of_isDottedPart
  have hdotted : dotted? ('[' :: cs ++ [']']) = none := rfl
  have hsquare := h.enclosed?_grouped (.inr ⟨rfl, rfl⟩)
  rw [readExpr]
  simp only [htrim, hround, hquote, hnumber, hword, hoperation, readCall, callParts?, members?,
    hdotted, hsquare]
  rfl

/-! ### Words and dotted names -/

theorem readExpr_word {word : String} {value : Literal}
    (h : (word, value) ∈ [("true", Literal.bool true), ("false", .bool false), ("null", .null)])
    (room : Nat) : readExpr (room + 1) word.toList = .ok (.literal value) := by
  simp only [List.mem_cons, Prod.mk.injEq, List.not_mem_nil, or_false] at h
  rcases h with ⟨rfl, rfl⟩ | ⟨rfl, rfl⟩ | ⟨rfl, rfl⟩ <;> rfl

theorem endsIn_dotted {names : List (List Char)} (hne : names ≠ [])
    (h : ∀ n ∈ names, isName n = true) : EndsIn isNamePart (['.'].intercalate names) := by
  induction names with
  | nil => exact absurd rfl hne
  | cons n names ih =>
    cases names with
    | nil =>
      rw [List.intercalate_singleton]
      exact endsIn_of_isName (h n (by simp))
    | cons m names =>
      rw [List.intercalate_cons_cons]
      exact (ih (by simp) fun n hn => h n (by simp [hn])).append _

theorem startsIn_dotted {names : List (List Char)} (hne : names ≠ [])
    (h : ∀ n ∈ names, isName n = true) : StartsIn isNameStart (['.'].intercalate names) := by
  obtain ⟨n, names, rfl⟩ := List.exists_cons_of_ne_nil hne
  have hn := startsIn_of_isName (h n (by simp))
  cases names with
  | nil => rwa [List.intercalate_singleton]
  | cons m names =>
    rw [List.intercalate_cons_cons, List.append_assoc]
    exact hn.append _

theorem side_name {name : List Char} (h : isName name = true) : Side name :=
  side_named ((whole_of_isName h).mono fun c hc => by simp [isDottedPart, hc])
    (startsIn_of_isName h) ((endsIn_of_isName h).mono fun _ => isFinal_of_isNamePart)

theorem side_dotted {names : List (List Char)} (hne : names ≠ [])
    (h : ∀ n ∈ names, isName n = true) : Side (['.'].intercalate names) :=
  side_named (whole_dotted h) (startsIn_dotted hne h)
    ((endsIn_dotted hne h).mono fun _ => isFinal_of_isNamePart)

theorem readExpr_dotted {names : List (List Char)} (hlen : 1 < names.length)
    (h : ∀ n ∈ names, isName n = true) (room : Nat) :
    readExpr (room + 1) (['.'].intercalate names) = .ok (chain names) := by
  have hne : names ≠ [] := by
    rintro rfl
    cases hlen
  have hside := side_dotted hne h
  have hdotted := dotted?_append hne h (stops_nil _)
  rw [List.append_nil] at hdotted
  have hdot : '.' ∈ ['.'].intercalate names := by
    obtain ⟨n, m, names, rfl⟩ : ∃ n m rest, names = n :: m :: rest := by
      match names, hlen with
      | n :: m :: rest, _ => exact ⟨n, m, rest, rfl⟩
    simp [List.intercalate_cons_cons]
  have hwords : ∀ word ∈ ["true", "false", "null", "undefined"], '.' ∉ word.toList := by decide
  have hword : word? (['.'].intercalate names) = none :=
    word?_eq_none fun word hw heq => hwords word hw (heq ▸ hdot)
  have hcall : callParts? (['.'].intercalate names) = none := by
    rw [callParts?, hdotted]
    rfl
  rw [readExpr_named (startsIn_dotted hne h) (hside.ends.mono fun _ => isInk_of_isFinal) hword
    (operation?_eq_none (whole_dotted h) fun _ => isSign_of_isDottedPart), readCall, hcall,
    members?, hdotted]
  simp only [if_pos hlen]
  rfl

end Source

open Source Text

/-! ### Printable expressions -/

/-- **An expression without assignments and steps**: integers, strings and the words of values,
identifiers, dotted names and their calls, arrays and operators, nested to any depth. -/
inductive Expr.Printable : Expr → Prop
  | int (n : Int64) : Printable (.literal (.int n))
  | str (s : String) : Printable (.literal (.str s))
  | bool (b : Bool) : Printable (.literal (.bool b))
  | null : Printable (.literal .null)
  | name {id : String} (h : isIdentifier id = true) : Printable (.name id)
  | dotted {first : String} {more : List String} (hf : isName first.toList = true)
    (hm : ∀ name ∈ more, isName name.toList = true) (hne : more ≠ []) :
    Printable (more.foldl .member (.name first))
  | call {first : String} {more : List String} {args : List Expr}
    (hf : isName first.toList = true) (hm : ∀ name ∈ more, isName name.toList = true)
    (ha : ∀ e ∈ args, Printable e) : Printable (.call (more.foldl .member (.name first)) args)
  | array {es : List Expr} (he : ∀ e ∈ es, Printable e) : Printable (.array es)
  | binary {o : Operator} {l r : Expr} (ho : o.isLogical = false) (hl : Printable l)
    (hr : Printable r) : Printable (.binary o l r)
  | logical {o : Operator} {l r : Expr} (ho : o.isLogical = true) (hl : Printable l)
    (hr : Printable r) : Printable (.logical o l r)

/-- The text of an expression as the left side of an operator. -/
def Expr.sideText (e : Expr) : List Char := if e.isOperation then '(' :: e.text ++ [')'] else e.text

/-- The levels that reading an expression takes as the left side of an operator. -/
def Expr.sideLevels (e : Expr) : Nat := if e.isOperation then e.levels + 1 else e.levels

/-- **An expression that is read back from its text**, alone, in a list and as a side of an
operator. -/
structure Expr.Sound (e : Expr) : Prop where
  whole : Whole isItemPart e.text
  starts : StartsIn isInk e.text
  ends : EndsIn isFinal e.text
  side : e.isOperation = false → Side e.text
  yields : ∀ room, Yields (readExpr room e.text) (e.levels ≤ room) e

namespace Expr.Sound

variable {e l r : Expr}

/-- What takes one level is read back if it is with a level left. -/
theorem of_side (h : Side e.text) (hl : e.levels = 1)
    (hr : ∀ room, readExpr (room + 1) e.text = .ok e) : e.Sound where
  whole := h.whole
  starts := h.starts
  ends := h.ends
  side _ := h
  yields room := by
    rw [hl]
    cases room with
    | zero => exact ⟨fun hroom => absurd hroom (by decide), fun _ => ⟨_, rfl⟩⟩
    | succ room => exact ⟨fun _ => hr room, fun hroom => absurd (by omega) hroom⟩

theorem items {es : List Expr} (h : ∀ e ∈ es, e.Sound) : Items es where
  whole e he := (h e he).whole
  tight e he := ⟨(h e he).starts, (h e he).ends.mono fun _ => isInk_of_isFinal⟩
  yields e he := (h e he).yields

/-- On the left of an operator **parentheses make a side** of what is none. -/
theorem side_sideText (h : e.Sound) : Side e.sideText := by
  rw [Expr.sideText]
  split
  · exact side_group (h.whole.mono fun _ _ => rfl)
  · next ho => exact h.side (eq_false_of_ne_true ho)

theorem yields_sideText (h : e.Sound) (room : Nat) :
    Yields (readExpr room e.sideText) (e.sideLevels ≤ room) e := by
  rw [Expr.sideText, Expr.sideLevels]
  split
  · cases room with
    | zero => exact ⟨fun hroom => absurd hroom (by omega), fun _ => ⟨_, rfl⟩⟩
    | succ room =>
      rw [readExpr_group (h.whole.mono fun _ _ => rfl)]
      exact (h.yields room).congr (by omega)
  · exact h.yields room

theorem operation (hl : l.Sound) (hr : r.Sound) (o : Operator) : (operation o l r).Sound := by
  have htext : (Source.operation o l r).text =
      l.sideText ++ ' ' :: (o.symbol.toList ++ ' ' :: r.text) := by
    unfold Source.operation
    split <;> simp [Expr.text, Expr.sideText]
  have hlevels : (Source.operation o l r).levels = 1 + max l.sideLevels r.levels := by
    unfold Source.operation
    split <;> rfl
  have hside := hl.side_sideText
  have hink : EndsIn isInk r.text := hr.ends.mono fun _ => isInk_of_isFinal
  refine ⟨?_, ?_, ?_, ?_, fun room => ?_⟩
  · have hwhole := (hside.whole.append (whole_operator o)).append hr.whole
    rw [htext]
    simpa using hwhole
  · rw [htext]
    exact hside.starts.append _
  · have hends := hr.ends.append (l.sideText ++ ' ' :: (o.symbol.toList ++ [' ']))
    rw [htext]
    simpa using hends
  · unfold Source.operation
    split <;> simp [Expr.isOperation]
  · rw [htext, hlevels]
    cases room with
    | zero => exact ⟨fun hroom => absurd hroom (by omega), fun _ => ⟨_, rfl⟩⟩
    | succ room =>
      rw [hside.readExpr_eq o hr.starts hink]
      exact ((hl.yields_sideText room).bind
        ((hr.yields room).bind_ok fun r => Source.operation o l r)).congr (by omega)

theorem array {es : List Expr} (h : ∀ e ∈ es, e.Sound) : (Expr.array es).Sound := by
  have hitems := items h
  have hside : Side (Expr.array es).text := by
    rw [Expr.text, Expr.textsOf_eq_map]
    exact side_array hitems.whole_commaList
  refine ⟨hside.whole, hside.starts, hside.ends, fun _ => hside, fun room => ?_⟩
  rw [Expr.text, Expr.textsOf_eq_map, Expr.levels]
  cases room with
  | zero => exact ⟨fun hroom => absurd hroom (by omega), fun _ => ⟨_, rfl⟩⟩
  | succ room =>
    rw [readExpr_array hitems.whole_commaList, hitems.items_eq]
    exact ((hitems.yields_mapM room).bind_ok fun es => Expr.array es).congr (by omega)

theorem call {first : String} {more : List String} {args : List Expr}
    (hf : isName first.toList = true) (hm : ∀ name ∈ more, isName name.toList = true)
    (ha : ∀ e ∈ args, e.Sound) : (Expr.call (more.foldl .member (.name first)) args).Sound := by
  have hitems := items ha
  obtain ⟨c, r, htext, -⟩ := Expr.exists_text_call first more args
  have hstarts := (startsIn_of_isName hf).append (c :: r)
  rw [← htext] at hstarts
  have hends : EndsIn isFinal (Expr.call (more.foldl .member (.name first)) args).text := by
    rw [Expr.text]
    exact endsIn_concat (by decide) _
  have hside := side_named (Expr.whole_call hf hm hitems) hstarts hends
  exact ⟨hside.whole, hside.starts, hside.ends, fun _ => hside,
    yields_readExpr_call hf hm hitems⟩

theorem dotted {first : String} {more : List String} (hf : isName first.toList = true)
    (hm : ∀ name ∈ more, isName name.toList = true) (hne : more ≠ []) :
    (more.foldl Expr.member (.name first)).Sound := by
  have hnames : ∀ n ∈ (first :: more).map String.toList, isName n = true := by
    simpa using ⟨hf, hm⟩
  have htext : (more.foldl Expr.member (.name first)).text =
      ['.'].intercalate ((first :: more).map String.toList) := by
    rw [Expr.text_members, Expr.text, List.map_cons]
  have hlen : 1 < ((first :: more).map String.toList).length := by
    simpa [Nat.pos_iff_ne_zero] using hne
  refine of_side (htext ▸ side_dotted (by simp) hnames) ?_ fun room => ?_
  · rw [← List.dropLast_concat_getLast hne, List.foldl_append]
    rfl
  · rw [htext, readExpr_dotted hlen hnames, chain_map]

end Expr.Sound

/-- **Every printable expression is read back**: by induction, an operator from its sides, a list
from its items. -/
theorem Expr.Printable.sound {e : Expr} (h : e.Printable) : e.Sound := by
  induction h with
  | int n =>
    exact .of_side (by rw [Expr.text]; exact side_int n) rfl (Expr.Atomic.int n).readExpr_text
  | str s =>
    exact .of_side (by rw [Expr.text, Literal.text]; exact side_quotation _) rfl
      (Expr.Atomic.str s).readExpr_text
  | bool b =>
    have hname : isName (if b then "true" else "false").toList = true := by cases b <;> decide
    refine .of_side (by rw [Expr.text, Literal.text]; exact side_name hname) rfl fun room => ?_
    rw [Expr.text, Literal.text]
    exact readExpr_word (by cases b <;> simp) room
  | null =>
    have hname : isName "null".toList = true := by decide
    refine .of_side (by rw [Expr.text, Literal.text]; exact side_name hname) rfl fun room => ?_
    rw [Expr.text, Literal.text]
    exact readExpr_word (by simp) room
  | name hid =>
    exact .of_side (by rw [Expr.text]; exact side_name (isName_of_isIdentifier hid)) rfl
      (Expr.Atomic.name hid).readExpr_text
  | dotted hf hm hne => exact .dotted hf hm hne
  | call hf hm _ ih => exact .call hf hm ih
  | array _ ih => exact .array ih
  | @binary o _ _ ho _ _ ihl ihr => simpa [Source.operation, ho] using ihl.operation ihr o
  | @logical o _ _ ho _ _ ihl ihr => simpa [Source.operation, ho] using ihl.operation ihr o

/-- **Reading undoes printing**: every printable expression that the limit on nesting leaves room
for is read back from its text, and every other one is refused. -/
theorem expressions_round_trip {e : Expr} (h : e.Printable) :
    (e.levels ≤ nestingLimit + 1 → readExpr (roomAt 0) e.text = .ok e) ∧
      (nestingLimit + 1 < e.levels → ∃ b, readExpr (roomAt 0) e.text = .error (.exceeded b)) :=
  ⟨(h.sound.yields _).1, fun hlevels => (h.sound.yields _).2 (Nat.not_le.2 hlevels)⟩

/-- Signs in front of numbers, operators in quotes and in brackets. -/
theorem expressions_round_trip_of_signs :
    readExpr (roomAt 0) "(-1 - -2) * f.g(\"a) + \\\" //\", [x % 3]) && \"'\" / null".toList =
      .ok (.binary .mul (.binary .sub (.literal (.int (-1))) (.literal (.int (-2))))
        (.logical .and (.call (.member (.name "f") "g")
          [.literal (.str "a) + \" //"), .array [.binary .mod (.name "x") (.literal (.int 3))]])
          (.binary .div (.literal (.str "'")) (.literal .null)))) := by
  have hcall : (Expr.call (["g"].foldl .member (.name "f"))
      [.literal (.str "a) + \" //"),
        .array [.binary .mod (.name "x") (.literal (.int 3))]]).Printable := by
    refine .call (by decide) (by decide) ?_
    simp only [List.mem_cons, List.not_mem_nil, or_false, forall_eq_or_imp, forall_eq]
    refine ⟨.str _, .array ?_⟩
    simp only [List.mem_cons, List.not_mem_nil, or_false, forall_eq]
    exact .binary rfl (.name (by decide)) (.int 3)
  have hleft := Expr.Printable.binary (o := .sub) rfl (.int (-1)) (.int (-2))
  have hright := Expr.Printable.logical (o := .and) rfl hcall
    (.binary (o := .div) rfl (.str "'") .null)
  exact (expressions_round_trip (.binary (o := .mul) rfl hleft hright)).1 (by decide)

end TapeCompiler
