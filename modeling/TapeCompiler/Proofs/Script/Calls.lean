import TapeCompiler.Proofs.Script.Atoms

/-! # Reading calls back

What a printed text is read as, with enough nesting left or too little (`Yields`). The texts of a
list are found again between its commas (`items_commaList`), and a call is read back if its
arguments are (`Items`), as a statement (`yields_readCall`) and in an expression
(`yields_readExpr_call`). -/

namespace TapeCompiler

namespace Source

open Text

variable {α β : Type}

/-! ### Reading with enough room -/

/-- A reading **yields** a value if a condition holds, and is refused for its nesting if not. -/
def Yields (x : Except Fault α) (fits : Prop) (a : α) : Prop :=
  (fits → x = .ok a) ∧ (¬fits → ∃ b, x = .error (.exceeded b))

theorem yields_ok (a : α) : Yields (.ok a) True a := ⟨fun _ => rfl, fun h => absurd trivial h⟩

theorem Yields.congr {x : Except Fault α} {p q : Prop} {a : α} (h : Yields x p a) (hpq : p ↔ q) :
    Yields x q a := ⟨fun hq => h.1 (hpq.2 hq), fun hq => h.2 fun hp => hq (hpq.1 hp)⟩

theorem Yields.bind {x : Except Fault α} {g : α → Except Fault β} {p q : Prop} {a : α} {b : β}
    (hx : Yields x p a) (hg : Yields (g a) q b) : Yields (x >>= g) (p ∧ q) b := by
  constructor
  · rintro ⟨hp, hq⟩
    rw [hx.1 hp]
    exact hg.1 hq
  · intro hpq
    by_cases hp : p
    · rw [hx.1 hp]
      exact hg.2 fun hq => hpq ⟨hp, hq⟩
    · obtain ⟨b, hb⟩ := hx.2 hp
      exact ⟨b, by rw [hb]; rfl⟩

theorem Yields.bind_ok {x : Except Fault α} {p : Prop} {a : α} (h : Yields x p a) (g : α → β) :
    Yields (x >>= fun a => .ok (g a)) p (g a) :=
  (h.bind (yields_ok (g a))).congr (iff_of_eq (and_true p))

theorem yields_mapM {g : α → Except Fault β} {p : β → Prop} {text : β → α} {l : List β}
    (h : ∀ b ∈ l, Yields (g (text b)) (p b) b) :
    Yields ((l.map text).mapM g) (∀ b ∈ l, p b) l := by
  induction l with
  | nil => exact (yields_ok []).congr (by simp)
  | cons b l ih =>
    rw [List.map_cons, List.mapM_cons]
    exact ((h b (by simp)).bind ((ih fun c hc => h c (by simp [hc])).bind
      (yields_ok (b :: l)))).congr (by simp)

/-! ### Lists with commas -/

theorem startsIn_commaList {p : Char → Bool} {texts : List (List Char)} (hne : texts ≠ [])
    (h : ∀ t ∈ texts, StartsIn p t) : StartsIn p (commaList texts) := by
  cases texts with
  | nil => exact absurd rfl hne
  | cons t texts =>
    have ht := h t (by simp)
    cases texts with
    | nil => rwa [commaList, List.intercalate_singleton]
    | cons u texts =>
      rw [commaList, List.intercalate_cons_cons, List.append_assoc]
      exact ht.append _

theorem whole_commaList {p : Char → Bool} {texts : List (List Char)} (h : ∀ t ∈ texts, Whole p t) :
    Whole (fun _ => true) (commaList texts) := by
  have hcomma : Whole (fun _ => true) [',', ' '] := whole_literal (by decide)
  induction texts with
  | nil => exact whole_nil _
  | cons t texts ih =>
    have ht := (h t (by simp)).mono (q := fun _ => true) fun _ _ => rfl
    cases texts with
    | nil => rwa [commaList, List.intercalate_singleton]
    | cons u texts =>
      rw [commaList, List.intercalate_cons_cons]
      exact (ht.append hcomma).append (ih fun t ht => h t (by simp [ht]))

theorem splitTop_commaList {p : Char → Bool} {texts : List (List Char)} (hne : texts ≠ [])
    (h : ∀ t ∈ texts, Whole p t) (hp : ∀ c, p c = true → c ≠ ',') :
    splitTop ',' (commaList texts) = texts.map trim := by
  induction texts with
  | nil => exact absurd rfl hne
  | cons t texts ih =>
    have hw := h t (by simp)
    cases texts with
    | nil => rw [commaList, List.intercalate_singleton, hw.splitTop_eq rfl hp, List.map_singleton]
    | cons u texts =>
      have ih := ih (by simp) fun t ht => h t (by simp [ht])
      rw [commaList, List.intercalate_cons_cons, List.append_assoc, List.cons_append,
        hw.splitTop_append ⟨rfl, rfl⟩ hp, List.singleton_append, splitTop_blank (by decide)]
      exact congrArg _ ih

theorem splitOn_commaList {texts : List (List Char)} (hne : texts ≠ [])
    (h : ∀ t ∈ texts, ',' ∉ t) :
    (splitOn ',' (commaList texts)).map trim = texts.map trim := by
  induction texts with
  | nil => exact absurd rfl hne
  | cons t texts ih =>
    have ht := h t (by simp)
    cases texts with
    | nil => rw [commaList, List.intercalate_singleton, splitOn_of_notMem ht]
    | cons u texts =>
      have ih := ih (by simp) fun t ht => h t (by simp [ht])
      rw [commaList, List.intercalate_cons_cons, List.append_assoc, List.cons_append,
        splitOn_append ht, List.singleton_append, List.map_cons, splitOn, if_neg (by decide),
        map_trim_consFirst_blank (splitOn_ne_nil _ _)]
      exact congrArg _ ih

theorem map_trim_of_tight {texts : List (List Char)}
    (h : ∀ t ∈ texts, StartsIn isInk t ∧ EndsIn isInk t) : texts.map trim = texts := by
  rw [List.map_congr_left fun t ht => trim_of_tight (h t ht).1 (h t ht).2, List.map_id']

/-- **The texts of a list** are found again between its commas. -/
theorem items_commaList {p : Char → Bool} {texts : List (List Char)}
    (h : ∀ t ∈ texts, Whole p t) (hp : ∀ c, p c = true → c ≠ ',')
    (ht : ∀ t ∈ texts, StartsIn isInk t ∧ EndsIn isInk t) : items (commaList texts) = texts := by
  by_cases hne : texts = []
  · subst hne
    rfl
  · have hfull := trim_ne_nil (startsIn_commaList hne fun t h => (ht t h).1)
    rw [items, if_neg (by simpa using hfull), splitTop_commaList hne h hp, map_trim_of_tight ht]

/-! ### Calls -/

theorem callParts?_eq {p : Char → Bool} {names texts : List (List Char)} (hne : names ≠ [])
    (hn : ∀ n ∈ names, isName n = true) (h : ∀ t ∈ texts, Whole p t)
    (hp : ∀ c, p c = true → c ≠ ',') (ht : ∀ t ∈ texts, StartsIn isInk t ∧ EndsIn isInk t) :
    callParts? (['.'].intercalate names ++ ('(' :: commaList texts ++ [')'])) =
      some (names, texts) := by
  have hw := whole_commaList h
  have hline : '\n' ∉ '(' :: commaList texts ++ [')'] :=
    (hw.enclosed fun _ => true).newline_notMem
  have hfront : trimFront ('(' :: commaList texts ++ [')']) = '(' :: commaList texts ++ [')'] := rfl
  have hstop : Stops (fun c => isNamePart c || c = '.') ('(' :: commaList texts ++ [')']) :=
    stops_cons (by decide) _
  rw [callParts?, dotted?_append hne hn hstop]
  simp only [Option.bind_eq_bind, Option.bind_some, hfront, oneLine?, List.contains_iff_mem, hline,
    if_false, hw.enclosed?_eq, items_commaList h hp ht]
  rfl

end Source

open Source Text

theorem Expr.Atomic.yields {e : Expr} (h : e.Atomic) (room : Nat) :
    Yields (readExpr room e.text) (e.levels ≤ room) e := by
  rw [h.levels]
  cases room with
  | zero => exact ⟨fun hroom => absurd hroom (by decide), fun _ => ⟨_, rfl⟩⟩
  | succ room => exact ⟨fun _ => h.readExpr_text room, fun hroom => absurd (by omega) hroom⟩

/-! ### Lists of expressions -/

/-- The characters that may stand in a list **outside of brackets**. -/
def Source.isItemPart (c : Char) : Bool := c ≠ ','

/-- **Expressions that are read back from a list** of their texts: no text is cut by a comma of the
list or trimmed, and each is read back. -/
structure Source.Items (es : List Expr) : Prop where
  whole : ∀ e ∈ es, Whole isItemPart e.text
  tight : ∀ e ∈ es, StartsIn isInk e.text ∧ EndsIn isInk e.text
  yields : ∀ e ∈ es, ∀ room, Yields (readExpr room e.text) (e.levels ≤ room) e

namespace Source.Items

variable {es : List Expr} (h : Items es)
include h

theorem whole_commaList : Whole (fun _ => true) (commaList (es.map Expr.text)) :=
  Source.whole_commaList (p := isItemPart) (by simpa using h.whole)

theorem items_eq : items (commaList (es.map Expr.text)) = es.map Expr.text :=
  items_commaList (p := isItemPart) (by simpa using h.whole) (by simp [isItemPart])
    (by simpa using h.tight)

theorem yields_mapM (room : Nat) :
    Yields ((es.map Expr.text).mapM (readExpr room)) (Expr.levelsOf es ≤ room) es :=
  (Source.yields_mapM (g := readExpr room) fun e he => h.yields e he room).congr
    Expr.levelsOf_le.symm

end Source.Items

theorem Source.items_of_atomic {es : List Expr} (h : ∀ e ∈ es, e.Atomic) : Items es where
  whole e he := (h e he).whole.mono fun c hc => by
    simp only [isItemPart, decide_eq_true_eq]
    rintro rfl
    exact absurd hc (by decide)
  tight e he := ⟨(h e he).starts.mono fun _ => isInk_of_isEdge,
    (h e he).ends.mono fun _ => isInk_of_isEdge⟩
  yields e he := (h e he).yields

/-! ### Texts of calls -/

theorem Expr.text_members (e : Expr) (more : List String) :
    (more.foldl .member e).text = ['.'].intercalate (e.text :: more.map String.toList) := by
  induction more generalizing e with
  | nil => rw [List.foldl_nil, List.map_nil, List.intercalate_singleton]
  | cons m more ih =>
    rw [List.foldl_cons, ih, Expr.text, List.map_cons, List.intercalate_cons_cons]
    cases more with
    | nil => simp
    | cons n more => simp [List.intercalate_cons_cons]

theorem Source.chain_map (first : String) (more : List String) :
    chain ((first :: more).map String.toList) = more.foldl .member (.name first) := by
  simp [chain, List.foldl_map]

theorem Source.isSign_of_isDottedPart {c : Char} (h : isDottedPart c = true) :
    isSign c = false := by
  rcases isDottedPart_cases h with h | rfl
  · exact isSign_of_isNamePart h
  · decide

theorem Source.whole_dotted {names : List (List Char)} (h : ∀ n ∈ names, isName n = true) :
    Whole isDottedPart (['.'].intercalate names) := by
  refine whole_of_all fun c hc => ?_
  have hpart := isDottedPart_of_mem h hc
  rcases isDottedPart_cases hpart with hc | rfl
  · exact ⟨isInert_of_isNamePart hc, hpart⟩
  · exact ⟨by decide, hpart⟩

section Calls
variable {first : String} {more : List String} {args : List Expr}

theorem Expr.text_call (first : String) (more : List String) (args : List Expr) :
    (Expr.call (more.foldl .member (.name first)) args).text =
      ['.'].intercalate ((first :: more).map String.toList) ++
        ('(' :: commaList (args.map Expr.text) ++ [')']) := by
  rw [Expr.text, Expr.text_members, Expr.text, Expr.textsOf_eq_map, List.append_assoc,
    List.map_cons]

/-- Behind the first name of a call stands a parenthesis or a dot. -/
theorem Expr.exists_text_call (first : String) (more : List String) (args : List Expr) :
    ∃ c r, (Expr.call (more.foldl .member (.name first)) args).text = first.toList ++ c :: r ∧
      (c = '(' ∨ c = '.') := by
  rw [Expr.text_call]
  cases more with
  | nil => exact ⟨'(', commaList (args.map Expr.text) ++ [')'], by simp, .inl rfl⟩
  | cons m more =>
    refine ⟨'.', ['.'].intercalate ((m :: more).map String.toList) ++
      ('(' :: commaList (args.map Expr.text) ++ [')']), ?_, .inr rfl⟩
    rw [List.map_cons, List.map_cons, List.intercalate_cons_cons]
    simp

variable (hf : isName first.toList = true) (hm : ∀ name ∈ more, isName name.toList = true)
  (ha : Items args)
include hf hm ha

theorem Expr.whole_call :
    Whole isDottedPart (Expr.call (more.foldl .member (.name first)) args).text := by
  have hname : ∀ n ∈ (first :: more).map String.toList, isName n = true := by
    simpa using ⟨hf, hm⟩
  rw [Expr.text_call]
  exact (whole_dotted hname).append (ha.whole_commaList.enclosed _)

/-- **A call** is read back if its arguments are. -/
theorem Source.yields_readCall (room : Nat) :
    Yields (readCall (readExpr room) (Expr.call (more.foldl .member (.name first)) args).text)
      (Expr.levelsOf args ≤ room) (some (.call (more.foldl .member (.name first)) args)) := by
  have hname : ∀ n ∈ (first :: more).map String.toList, isName n = true := by
    simpa using ⟨hf, hm⟩
  have hwhole : ∀ t ∈ args.map Expr.text, Whole isItemPart t := by simpa using ha.whole
  have hparts := callParts?_eq (by simp) hname hwhole (by simp [isItemPart])
    (by simpa using ha.tight)
  rw [Expr.text_call, readCall, hparts, ← chain_map]
  exact (ha.yields_mapM room).bind_ok fun args => some (Expr.call _ args)

/-- **A call in an expression** is read back if its arguments are. -/
theorem Source.yields_readExpr_call (room : Nat) :
    Yields (readExpr room (Expr.call (more.foldl .member (.name first)) args).text)
      ((Expr.call (more.foldl .member (.name first)) args).levels ≤ room)
      (.call (more.foldl .member (.name first)) args) := by
  rw [Expr.levels]
  cases room with
  | zero => exact ⟨fun hroom => by omega, fun _ => ⟨_, rfl⟩⟩
  | succ room =>
    obtain ⟨c, r, htext, -⟩ := Expr.exists_text_call first more args
    have hstart := (startsIn_of_isName hf).append (c :: r)
    rw [← htext] at hstart
    have hend : EndsIn isInk (Expr.call (more.foldl .member (.name first)) args).text := by
      rw [Expr.text]
      exact endsIn_concat (by decide) _
    have hclosing : ∀ word ∈ ["true", "false", "null", "undefined"],
        word.toList.getLast? ≠ some ')' := by decide
    have hword : word? (Expr.call (more.foldl .member (.name first)) args).text = none :=
      word?_eq_none fun word hw heq =>
        hclosing word hw (by rw [← heq, Expr.text, List.getLast?_concat])
    have hoperation :=
      operation?_eq_none (Expr.whole_call hf hm ha) fun _ => isSign_of_isDottedPart
    rw [readExpr_named hstart hend hword hoperation]
    exact ((yields_readCall hf hm ha room).bind_ok fun call => call.getD _).congr (by omega)

end Calls

end TapeCompiler
