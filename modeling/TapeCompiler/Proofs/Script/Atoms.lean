import TapeCompiler.Proofs.Script.Simple
import TapeCompiler.Proofs.Script.Weaving
import TapeCompiler.Proofs.Script.Words

/-! # Reading atoms back

The digits of an integer are read as that integer (`readInt64_text`), a quotation stands for the
text it quotes, whatever that text is (`decode_flatMap_spell`), and with a level of nesting left the
text of a number, a string or an identifier is read as that expression
(`Expr.Atomic.readExpr_text`). -/

namespace TapeCompiler

namespace Source

open Text

variable {cs : List Char}

/-! ### Numbers -/

theorem digitValue?_of_isDigit {c : Char} (h : c.isDigit = true) :
    digitValue? c = some (c.toNat - '0'.toNat) := by
  simp only [Char.isDigit, Bool.and_eq_true, decide_eq_true_eq] at h
  rw [digitValue?, if_pos ⟨h.1, h.2⟩]

theorem foldl_digitValue? (h : ∀ c ∈ cs, c.isDigit = true) (k : Nat) :
    cs.foldl (fun n c => n.bind fun n => (digitValue? c).map fun d => 10 * n + d) (some k) =
      some (Nat.ofDigitChars 10 cs k) := by
  induction cs generalizing k with
  | nil => rfl
  | cons c cs ih =>
    rw [List.foldl_cons, Option.bind_some, digitValue?_of_isDigit (h c (by simp)), Option.map_some,
      ih fun d hd => h d (by simp [hd])]
    rfl

theorem isDigit_of_mem_toDigits {n : Nat} {c : Char} (h : c ∈ Nat.toDigits 10 n) :
    c.isDigit = true := Nat.isDigit_of_mem_toDigits (by decide) (by decide) h

theorem startsIn_toDigits (n : Nat) : StartsIn Char.isDigit (Nat.toDigits 10 n) :=
  startsIn_of_all Nat.toDigits_ne_nil fun _ => isDigit_of_mem_toDigits

theorem readDigits_toDigits (n : Nat) : readDigits (Nat.toDigits 10 n) = some n := by
  rw [readDigits, if_neg (by simp), foldl_digitValue? fun _ => isDigit_of_mem_toDigits,
    Nat.ofDigitChars_ten_toDigits]

theorem readInt64_text (n : Int64) : readInt64 (Literal.int n).text = some n := by
  have hlow := n.le_toInt
  have hhigh := n.toInt_lt
  have hpow : pow2 63 = 2 ^ 63 := rfl
  rw [Literal.text]
  split
  · next hneg =>
    have hvalue : -(n.toInt.natAbs : Int) = n.toInt := by omega
    rw [readInt64, readDigits_toDigits, Option.bind_some, if_pos (by omega), hvalue,
      Int64.ofInt_toInt]
  · next hpos =>
    have hvalue : (n.toInt.natAbs : Int) = n.toInt := by omega
    have hhead := startsIn_toDigits n.toInt.natAbs
    rw [readInt64, readDigits_toDigits, Option.bind_some, if_pos (by omega), hvalue,
      Int64.ofInt_toInt]
    · exact hhead.ne_cons rfl
    · exact hhead.ne_cons rfl

/-! ### Quotations -/

theorem decode_spell (c : Char) (r : List Char) :
    decode '"' (spell c ++ r) = (decode '"' r).map (c :: ·) := by
  unfold spell
  split
  · next h => rcases h with rfl | rfl <;> rfl
  split
  · next h => subst h; rfl
  split
  · next h => subst h; rfl
  split
  · next h => subst h; rfl
  split
  · next h => subst h; rfl
  · next h _ _ _ _ =>
    rw [List.singleton_append, decode, if_neg (by simpa [or_comm] using h)]
    rintro _ _ rfl -
    simp at h

theorem decode_flatMap_spell (cs : List Char) : decode '"' (cs.flatMap spell) = some cs := by
  induction cs with
  | nil => rfl
  | cons c cs ih => rw [List.flatMap_cons, decode_spell, ih, Option.map_some]

/-- A quotation **stands for what is decoded** from between its quotes. -/
theorem quotation?_quoted {t : List Char} (h : decode '"' t = some cs) :
    quotation? ('"' :: t ++ ['"']) = some cs := by
  have hlast : before? '"' (t ++ ['"']) = some t := by simp [before?]
  cases hbody : t ++ ['"'] with
  | nil => simp at hbody
  | cons c r =>
    have hquote : isQuote '"' = true := rfl
    rw [List.cons_append, hbody, quotation?, if_pos hquote, ← hbody, hlast, Option.bind_some, h]

theorem quotation?_quotation (cs : List Char) : quotation? (quotation cs) = some cs :=
  quotation?_quoted (decode_flatMap_spell cs)

/-! ### Number texts -/

theorem numberText?_text (n : Int64) : ∃ negative whole,
    numberText? (Literal.int n).text = some ⟨negative, whole, none⟩ := by
  have hdecimal : ∀ k, decimals? (Nat.toDigits 10 k) = some (Nat.toDigits 10 k, []) := by
    intro k
    have hall : ∀ c ∈ Nat.toDigits 10 k, isDecimal c = true := fun c hc =>
      isDecimal_of_isDigit (isDigit_of_mem_toDigits hc)
    have htake := takeWhile_append hall (stops_nil isDecimal)
    have hdrop := dropWhile_append hall (stops_nil isDecimal)
    rw [List.append_nil] at htake hdrop
    rw [decimals?, htake, hdrop, if_neg (by simp)]
  rw [Literal.text]
  split
  · exact ⟨true, _, by rw [numberText?, hdecimal]⟩
  · refine ⟨false, Nat.toDigits 10 n.toInt.natAbs, ?_⟩
    rw [numberText?, hdecimal]
    exact (startsIn_toDigits _).ne_cons rfl

theorem numberText?_eq_none (h : StartsIn isNameStart cs) : numberText? cs = none := by
  have hstop : Stops isDecimal cs := by
    obtain ⟨c, r, rfl, hc⟩ := h
    exact stops_cons (isDecimal_of_isNameStart hc) r
  rw [numberText?, decimals?, takeWhile_of_stops hstop]
  · rfl
  · exact h.ne_cons rfl

/-! ### Characters of a simple program -/

theorem ne_of_isNamePart {c d : Char} (h : isNamePart c = true) (hd : isNamePart d = false) :
    c ≠ d := by
  rintro rfl
  rw [h] at hd
  cases hd

theorem isInert_of_isNamePart {c : Char} (h : isNamePart c = true) : isInert c = true := by
  have hne : ∀ d, isNamePart d = false → c ≠ d := fun _ => ne_of_isNamePart h
  simp [isInert, isQuote, nesting, isBreak, hne '"' rfl, hne '\'' rfl, hne '(' rfl, hne ')' rfl,
    hne '[' rfl, hne ']' rfl, hne '\x7b' rfl, hne '\x7d' rfl, hne '\n' rfl, hne '/' rfl]

/-- The characters that the lines of a simple program start and end with, **braces apart**. -/
def isEdge (c : Char) : Bool := isNamePart c || c = '"' || c = '+' || c = '-' || c = ')'

theorem isEdge_of_isNamePart {c : Char} (h : isNamePart c = true) : isEdge c = true := by
  simp [isEdge, h]

theorem isEdge_of_isNameStart {c : Char} (h : isNameStart c = true) : isEdge c = true :=
  isEdge_of_isNamePart (isNamePart_of_isNameStart h)

theorem isInk_of_isEdge {c : Char} (h : isEdge c = true) : isInk c = true := by
  simp only [isEdge, Bool.or_eq_true, decide_eq_true_eq] at h
  rcases h with (((h | rfl) | rfl) | rfl) | rfl
  · exact isInk_of_isNamePart h
  all_goals decide

/-- The characters of numbers and names. -/
def isAtomPart (c : Char) : Bool := isNamePart c || c = '-'

theorem isName_of_isIdentifier {id : String} (h : isIdentifier id = true) :
    isName id.toList = true := (Bool.and_eq_true_iff.1 h).1

theorem startsIn_of_isIdentifier {id : String} (h : isIdentifier id = true) :
    StartsIn isEdge id.toList :=
  (startsIn_of_isName (isName_of_isIdentifier h)).mono fun _ => isEdge_of_isNameStart

theorem endsIn_of_isIdentifier {id : String} (h : isIdentifier id = true) :
    EndsIn isEdge id.toList :=
  (endsIn_of_isName (isName_of_isIdentifier h)).mono fun _ => isEdge_of_isNamePart

theorem ne_of_isIdentifier {id word : String} (h : isIdentifier id = true)
    (hw : word ∈ reservedWords) : id ≠ word := by
  rintro rfl
  simp [isIdentifier, hw] at h

theorem whole_of_isName (h : isName cs = true) : Whole isNamePart cs :=
  whole_of_all fun c hc =>
    ⟨isInert_of_isNamePart (isNamePart_of_isName h c hc), isNamePart_of_isName h c hc⟩

theorem whole_text (n : Int64) : Whole isAtomPart (Literal.int n).text := by
  have hdigits : ∀ k, ∀ c ∈ Nat.toDigits 10 k, isInert c = true ∧ isAtomPart c = true := by
    intro k c hc
    have := isNamePart_of_isDigit (isDigit_of_mem_toDigits hc)
    exact ⟨isInert_of_isNamePart this, by simp [isAtomPart, this]⟩
  rw [Literal.text]
  split
  · refine whole_of_all fun c hc => ?_
    rcases List.mem_cons.1 hc with rfl | hc
    · decide
    · exact hdigits _ c hc
  · exact whole_of_all (hdigits _)

/-! ### Texts of another form -/

variable {p : Char → Bool}

theorem enclosed?_eq_none {o : Char} (h : StartsIn p cs) (ho : p o = false) (c : Char) :
    enclosed? o c cs = none := by
  obtain ⟨d, r, rfl, hd⟩ := h
  rw [enclosed?, if_neg]
  rintro ⟨rfl, -⟩
  rw [hd] at ho
  cases ho

theorem quotation?_eq_none (h : StartsIn p cs) (hp : ∀ c, isQuote c = true → p c = false) :
    quotation? cs = none := by
  obtain ⟨c, r, rfl, hc⟩ := h
  cases r with
  | nil => rfl
  | cons d r =>
    rw [quotation?, if_neg]
    intro hq
    rw [hp c hq] at hc
    cases hc

/-- No operator is found in a whole text **without signs** outside of its brackets. -/
theorem operation?_eq_none (h : Whole p cs) (hp : ∀ c, p c = true → isSign c = false) :
    operation? cs = none := by
  have hnone := findOperator_woven h.woven (k := ⟨[], 0, none⟩) (by decide) (fun _ => hp) []
  rw [List.append_nil] at hnone
  rw [operation?, hnone]
  rfl

theorem isSign_of_isNamePart {c : Char} (h : isNamePart c = true) : isSign c = false := by
  have hne : ∀ d, isNamePart d = false → c ≠ d := fun _ => ne_of_isNamePart h
  simp [isSign, hne '=' rfl, hne '!' rfl, hne '<' rfl, hne '>' rfl, hne '&' rfl, hne '|' rfl,
    hne '+' rfl, hne '-' rfl, hne '*' rfl, hne '/' rfl, hne '%' rfl]

theorem startsIn_text (n : Int64) : StartsIn isAtomPart (Literal.int n).text := by
  rw [Literal.text]
  split
  · exact startsIn_cons rfl _
  · exact (startsIn_toDigits _).mono fun c hc => by simp [isAtomPart, isNamePart_of_isDigit hc]

theorem isEdge_of_isAtomPart {c : Char} (h : isAtomPart c = true) : isEdge c = true := by
  simp only [isAtomPart, Bool.or_eq_true, decide_eq_true_eq] at h
  rcases h with h | rfl
  · exact isEdge_of_isNamePart h
  · rfl

theorem isAtomPart_of_isQuote {c : Char} (h : isQuote c = true) : isAtomPart c = false := by
  simp only [isQuote, Bool.or_eq_true, decide_eq_true_eq] at h
  rcases h with rfl | rfl <;> rfl

theorem isAtomPart_of_isNameStart {c : Char} (h : isNameStart c = true) : isAtomPart c = true := by
  simp [isAtomPart, isNamePart_of_isNameStart h]

/-- A text that starts like a name, is no word and has no operator is read as a call, a chain of
members or a name. -/
theorem readExpr_named (hs : StartsIn isNameStart cs) (he : EndsIn isInk cs) (hw : word? cs = none)
    (ho : operation? cs = none) (room : Nat) : readExpr (room + 1) cs = do
    let call ← readCall (readExpr room) cs
    return call.getD ((members? cs).getD (.name (String.ofList cs))) := by
  have hpart := hs.mono fun _ => isAtomPart_of_isNameStart
  have htrim : trim cs = cs :=
    trim_of_tight (hpart.mono fun c hc => isInk_of_isEdge (isEdge_of_isAtomPart hc)) he
  have hround := enclosed?_eq_none hpart (o := '(') rfl ')'
  have hsquare := enclosed?_eq_none hpart (o := '[') rfl ']'
  have hquote := quotation?_eq_none hpart fun _ => isAtomPart_of_isQuote
  rw [readExpr]
  simp only [htrim, hround, hsquare, hquote, numberText?_eq_none hs, hw, ho]
  cases readCall (readExpr room) cs with
  | error f => rfl
  | ok call =>
    cases call with
    | some call => rfl
    | none => cases members? cs <;> rfl

theorem word?_eq_none (h : ∀ word ∈ ["true", "false", "null", "undefined"], cs ≠ word.toList) :
    word? cs = none := by
  have hne : ∀ word ∈ ["true", "false", "null", "undefined"], String.ofList cs ≠ word := by
    rintro word hw rfl
    exact h _ hw String.toList_ofList.symm
  rw [word?]
  split
  · next heq => exact absurd heq (hne _ (by decide))
  · next heq => exact absurd heq (hne _ (by decide))
  · next heq => exact absurd heq (hne _ (by decide))
  · next heq => exact absurd heq (hne _ (by decide))
  · rfl

end Source

open Source Text

namespace Expr.Atomic

variable {e : Expr}

theorem whole (h : e.Atomic) : Whole isAtomPart e.text := by
  cases h with
  | int n => exact whole_text n
  | str s => exact whole_quotation _ _
  | name hid =>
    exact (whole_of_isName (isName_of_isIdentifier hid)).mono fun c hc => by simp [isAtomPart, hc]

theorem starts (h : e.Atomic) : StartsIn isEdge e.text := by
  cases h with
  | int n => exact (startsIn_text n).mono fun _ => isEdge_of_isAtomPart
  | str s => exact startsIn_cons rfl _
  | name hid => exact startsIn_of_isIdentifier hid

theorem ends (h : e.Atomic) : EndsIn isEdge e.text := by
  cases h with
  | int n =>
    have hdigits : ∀ k, EndsIn isEdge (Nat.toDigits 10 k) := fun k =>
      endsIn_of_all Nat.toDigits_ne_nil fun c hc =>
        isEdge_of_isNamePart (isNamePart_of_isDigit (isDigit_of_mem_toDigits hc))
    rw [Expr.text, Literal.text]
    split
    · exact (hdigits _).append ['-']
    · exact hdigits _
  | str s => exact endsIn_concat rfl _
  | name hid => exact endsIn_of_isIdentifier hid

theorem trim_text (h : e.Atomic) : trim e.text = e.text :=
  trim_of_tight (h.starts.mono fun _ => isInk_of_isEdge) (h.ends.mono fun _ => isInk_of_isEdge)

theorem readExpr_text (h : e.Atomic) (room : Nat) : readExpr (room + 1) e.text = .ok e := by
  cases h with
  | int n =>
    have hpart := startsIn_text n
    have hround := enclosed?_eq_none hpart (o := '(') rfl ')'
    have hquote := quotation?_eq_none hpart fun _ => isAtomPart_of_isQuote
    obtain ⟨negative, whole, hnumber⟩ := numberText?_text n
    have htrim := (Expr.Atomic.int n).trim_text
    rw [Expr.text] at htrim ⊢
    rw [readExpr]
    simp only [htrim, hround, hquote, hnumber, readNumber, readInt64_text]
    rfl
  | str s =>
    have hround := enclosed?_eq_none (Expr.Atomic.str s).starts (o := '(') rfl ')'
    have htrim := (Expr.Atomic.str s).trim_text
    rw [Expr.text, Literal.text] at hround htrim ⊢
    rw [readExpr]
    simp only [htrim, hround, quotation?_quotation, String.ofList_toList]
  | @name id hid =>
    have hname := isName_of_isIdentifier hid
    have hdotted : dotted? id.toList = some ([id.toList], []) := by
      have hnames : ∀ n ∈ [id.toList], isName n = true := by simpa using hname
      have := dotted?_append (List.cons_ne_nil _ _) hnames (stops_nil _)
      simpa using this
    have hcall : callParts? id.toList = none := by
      rw [callParts?, hdotted]
      rfl
    have hreserved : ∀ word ∈ ["true", "false", "null", "undefined"], word ∈ reservedWords := by
      decide
    have hword : word? id.toList = none := word?_eq_none fun word hw heq =>
      ne_of_isIdentifier hid (hreserved word hw) (String.toList_inj.1 heq)
    rw [Expr.text, readExpr_named (startsIn_of_isName hname)
      ((endsIn_of_isName hname).mono fun _ => isInk_of_isNamePart) hword
      (operation?_eq_none (whole_of_isName hname) fun _ => isSign_of_isNamePart),
      readCall, hcall, members?, hdotted, String.ofList_toList]
    rfl

end Expr.Atomic

end TapeCompiler
