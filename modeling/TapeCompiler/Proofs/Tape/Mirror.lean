import TapeCompiler.Proofs.Tape.Flowing

/-! # Tape code on the machine

On a tape that holds all cells that code names, the machine does with the text of the code what the
code means, in either pointer mode. A snapshot `Mirrors` a store when its tape shows the cells of
the store, its pointer is where the writer left it, and input and output agree.

* `Code.reaches_of_runs`, `Code.runs_of_reaches`: the flow of code ends if and only if
  the code does;
* `Code.completes_of_runs`, `Code.runs_of_completes`: so does the run of its text;
* `Code.ends_iff`: the run of the text shows what the code does. -/

namespace TapeCompiler

/-- A snapshot with the pointer on `p` **shows a store** on a tape of `size` cells. -/
structure Mirrors {w : CellWidth} (size p : Nat) (σ : Store w) (s : Snapshot) : Prop where
  length : s.tape.size = size
  pointer : s.pointer = p
  cells : ∀ a < size, s.tape.getD a 0 = (σ.cells a).val
  input : s.input = σ.input
  output : s.output.toList = σ.output

/-- The tape that shows a store. -/
def Store.tape {w : CellWidth} (size : Nat) (σ : Store w) : Array Nat :=
  Array.ofFn fun i : Fin size => (σ.cells i).val

section Steps
variable {w : CellWidth} {mode : PointerMode} {size p : Nat} {σ : Store w} {s : Snapshot}

theorem mirrors_start (size : Nat) (input : List UInt8) :
    Mirrors size 0 (Store.start input : Store w) (.start size input) where
  length := Array.size_replicate
  pointer := rfl
  cells a ha := by simp [Snapshot.start, Store.start, ha]
  input := rfl
  output := rfl

theorem Mirrors.cell_eq (h : Mirrors size p σ s) (hp : p < size) : s.cell = (σ.cells p).val := by
  unfold Snapshot.cell
  rw [h.pointer, h.cells p hp]

theorem Mirrors.tape_eq (h : Mirrors size p σ s) : s.tape = σ.tape size := by
  refine Array.ext (by rw [h.length, Store.tape, Array.size_ofFn]) fun i hi hi' => ?_
  have := h.cells i (h.length ▸ hi)
  rw [Array.getD_eq_getD_getElem?, Array.getElem?_eq_getElem hi, Option.getD_some] at this
  rw [this]
  simp [Store.tape]

theorem Mirrors.tick (h : Mirrors size p σ s) : Mirrors size p σ s.tick :=
  ⟨h.length, h.pointer, h.cells, h.input, h.output⟩

theorem Mirrors.put (h : Mirrors size p σ s) (hp : p < size) {v : w.Cell} {n : Nat}
    (hn : n = v.val) : Mirrors size p (σ.set p v) (s.put n) where
  length := by simp [Snapshot.put, h.length]
  pointer := h.pointer
  cells a ha := by
    have := h.cells a ha
    simp only [Snapshot.put, Array.getD_eq_getD_getElem?, h.pointer] at this ⊢
    by_cases hap : a = p
    · subst hap
      rw [Array.getElem?_setIfInBounds_self_of_lt (by rw [h.length]; exact hp),
        Store.cells_set_self]
      simp [hn]
    · rw [Array.getElem?_setIfInBounds_ne (Ne.symm hap), this, Store.cells_set_of_ne _ _ hap]
  input := h.input
  output := h.output

theorem Mirrors.goTo (h : Mirrors size p σ s) (q : Nat) : Mirrors size q σ (s.goTo q) :=
  ⟨h.length, rfl, h.cells, h.input, h.output⟩

theorem reaches_moves (mode : PointerMode) (h : Mirrors size p σ s) (hp : p < size) {q : Nat}
    (hq : q < size) :
    ∃ t, (Flow.ofOps (moves p q)).Reaches w mode s t ∧ Mirrors size q σ t := by
  unfold moves
  split_ifs with hpq
  · obtain ⟨k, rfl⟩ : ∃ k, q = p + k := ⟨q - p, by omega⟩
    rw [Nat.add_sub_cancel_left]
    clear hpq
    induction k generalizing p s with
    | zero => exact ⟨s, ⟨0, .done⟩, h⟩
    | succ k ih =>
      have hs : s.exec? w mode .right = some (s.goTo (p + 1)) := by
        simp only [Snapshot.exec?, h.length, h.pointer]
        rw [if_pos (by omega)]
      obtain ⟨t, ht, hm⟩ := ih (h.goTo (p + 1)) (by omega) (by omega)
      rw [show p + (k + 1) = p + 1 + k by omega]
      exact ⟨t, Flow.reaches_ofOps_cons hs ht, hm⟩
  · obtain ⟨k, rfl⟩ : ∃ k, p = q + k := ⟨p - q, by omega⟩
    rw [Nat.add_sub_cancel_left]
    clear hpq
    induction k generalizing s with
    | zero => exact ⟨s, ⟨0, .done⟩, h⟩
    | succ k ih =>
      have hs : s.exec? w mode .left = some (s.goTo (q + k)) := by
        simp only [Snapshot.exec?, h.pointer]
        rw [if_pos (by omega), show q + (k + 1) - 1 = q + k by omega]
      obtain ⟨t, ht, hm⟩ := ih (h.goTo (q + k)) (by omega)
      exact ⟨t, Flow.reaches_ofOps_cons hs ht, hm⟩

theorem val_add_one (v : w.Cell) : (v.val + 1) % w.modulus = (v + w.cell 1).val := by
  simp [CellWidth.cell, Fin.val_add]

theorem val_sub_one (v : w.Cell) : (v.val + w.modulus - 1) % w.modulus = (v - w.cell 1).val := by
  have h : (1 : Nat) % w.modulus = 1 := by cases w <;> rfl
  have := v.isLt
  simp only [CellWidth.cell, Fin.sub_def, Fin.val_ofNat, h]
  congr 1
  omega

theorem val_neg (v : w.Cell) : (w.modulus - v.val) % w.modulus = (-v).val := by
  rw [Fin.neg_def]

theorem reaches_inc (h : Mirrors size p σ s) (hp : p < size) (n : Nat) :
    ∃ t, (Flow.ofOps (List.replicate n .inc)).Reaches w mode s t ∧
      Mirrors size p (σ.set p (σ.cells p + w.cell n)) t := by
  induction n generalizing σ s with
  | zero => exact ⟨s, ⟨0, .done⟩, by simpa using h⟩
  | succ n ih =>
    have hv : (s.cell + 1) % w.modulus = (σ.cells p + w.cell 1).val := by
      rw [h.cell_eq hp, val_add_one]
    obtain ⟨t, ht, hm⟩ := ih (h.put hp hv)
    refine ⟨t, Flow.reaches_ofOps_cons rfl ht, ?_⟩
    rw [CellWidth.cell_succ', ← add_assoc]
    simpa using hm

theorem reaches_dec (h : Mirrors size p σ s) (hp : p < size) (n : Nat) :
    ∃ t, (Flow.ofOps (List.replicate n .dec)).Reaches w mode s t ∧
      Mirrors size p (σ.set p (σ.cells p - w.cell n)) t := by
  induction n generalizing σ s with
  | zero => exact ⟨s, ⟨0, .done⟩, by simpa using h⟩
  | succ n ih =>
    have hv : (s.cell + w.modulus - 1) % w.modulus = (σ.cells p - w.cell 1).val := by
      rw [h.cell_eq hp, val_sub_one]
    obtain ⟨t, ht, hm⟩ := ih (h.put hp hv)
    refine ⟨t, Flow.reaches_ofOps_cons rfl ht, ?_⟩
    rw [CellWidth.cell_succ', ← sub_sub]
    simpa using hm

theorem reaches_act (h : Mirrors size p σ s) (hp : p < size) {o : Op}
    (ho : o = .write ∨ o = .read ∨ o = .negate) :
    ∃ t, (Flow.ofOps [o]).Reaches w mode s t ∧ Mirrors size p (σ.act p o) t := by
  have hv := h.cell_eq hp
  rcases ho with rfl | rfl | rfl
  · refine ⟨_, Flow.reaches_ofOps_cons rfl ⟨0, .done⟩, h.length, h.pointer, h.cells, h.input, ?_⟩
    simp [Store.act, Store.put, h.output, hv]
  · cases hi : σ.input with
    | nil =>
      have hs : s.exec? w mode .read = some (s.put 0) := by simp [Snapshot.exec?, h.input, hi]
      refine ⟨_, Flow.reaches_ofOps_cons hs ⟨0, .done⟩, ?_⟩
      simp only [Store.act, Store.receive, hi]
      exact h.put hp rfl
    | cons byte rest =>
      have hs : s.exec? w mode .read =
          some { s.put (byte.toNat % w.modulus) with input := rest } := by
        simp [Snapshot.exec?, h.input, hi]
      refine ⟨_, Flow.reaches_ofOps_cons hs ⟨0, .done⟩, ?_⟩
      simp only [Store.act, Store.receive, hi]
      have := h.put hp (v := w.cell byte.toNat) (n := byte.toNat % w.modulus) rfl
      exact ⟨this.length, this.pointer, this.cells, rfl, this.output⟩
  · exact ⟨_, Flow.reaches_ofOps_cons rfl ⟨0, .done⟩, h.put hp (by rw [hv]; exact val_neg _)⟩

end Steps

/-! ### Code and its flow -/

section Adequacy
variable {w : CellWidth} {mode : PointerMode} {size : Nat} {N : Nat → Prop}

namespace Code

theorem reaches_behind_moves {p a : Nat} {σ τ : Store w} {s : Snapshot} {f : Flow}
    (h : Mirrors size p σ s) (hp : p < size) (ha : a < size)
    (hf : ∀ u, Mirrors size a σ u → ∃ t, f.Reaches w mode u t ∧ Mirrors size a τ t) :
    ∃ t, (Flow.ofOps (moves p a) ++ f).Reaches w mode s t ∧ Mirrors size a τ t := by
  obtain ⟨u, hu, hm⟩ := reaches_moves mode h hp ha
  obtain ⟨t, ht, hmt⟩ := hf u hm
  exact ⟨t, Flow.reaches_append.mpr ⟨u, hu, ht⟩, hmt⟩

/-- **Code that ends is executed.** -/
theorem reaches_of_runs (mode : PointerMode) {c : Code} (hc : c.Within (· < size) N) :
    ∀ {σ τ : Store w} {p : Nat} {s : Snapshot}, p < size → c.Runs σ τ → Mirrors size p σ s →
      ∃ t, (c.flow p).Reaches w mode s t ∧ Mirrors size (c.last p) τ t := by
  induction c with
  | skip | text => rintro σ τ p s hp rfl h; exact ⟨s, ⟨0, .done⟩, h⟩
  | move a => rintro σ τ p s hp rfl h; exact reaches_moves mode h hp hc
  | add a n =>
    rintro σ τ p s hp rfl h
    exact reaches_behind_moves h hp hc fun u hu => reaches_inc hu hc n
  | sub a n =>
    rintro σ τ p s hp rfl h
    exact reaches_behind_moves h hp hc fun u hu => reaches_dec hu hc n
  | on a o =>
    rintro σ τ p s hp rfl h
    exact reaches_behind_moves h hp hc.1 fun u hu => reaches_act hu hc.1 (hc.2.imp_right
      fun ho => ho.imp_right And.left)
  | opening | closing => exact hc.elim
  | seq first second ih₁ ih₂ =>
    rintro σ τ p s hp ⟨ρ, h₁, h₂⟩ h
    obtain ⟨t, ht, hm⟩ := ih₁ hc.1 hp h₁ h
    obtain ⟨u, hu, hm'⟩ := ih₂ hc.2 (last_within hc.1 hp) h₂ hm
    exact ⟨u, Flow.reaches_append.mpr ⟨t, ht, hu⟩, hm'⟩
  | loop a body ih =>
    rintro σ τ p s hp hw h
    obtain ⟨ha, hb⟩ := hc
    refine reaches_behind_moves h hp ha fun u hu => ?_
    clear h
    change While (fun σ => σ.cells a ≠ 0) body.Runs σ τ at hw
    induction hw generalizing u with
    | stop h0 =>
      have h0 : u.cell = 0 := by rw [hu.cell_eq ha, not_not.mp h0]; rfl
      exact ⟨u.tick, ⟨_, .skip h0 .done⟩, hu.tick⟩
    | @step σ ρ τ h0 hr _ ihw =>
      have h0 : u.cell ≠ 0 := by
        rw [hu.cell_eq ha]
        exact fun h => h0 (Fin.ext h)
      obtain ⟨v, hv, hmv⟩ := ih hb ha hr hu.tick
      obtain ⟨x, hx, hmx⟩ := reaches_moves mode hmv (last_within hb ha) ha
      obtain ⟨n, hn⟩ := Flow.reaches_append.mpr ⟨v, hv, hx⟩
      obtain ⟨t, ⟨m, hm⟩, hmt⟩ := ihw x hmx
      exact ⟨t, ⟨_, .again h0 hn hm⟩, hmt⟩

/-- **Code that is executed to its end ends.** -/
theorem runs_of_reaches (mode : PointerMode) {c : Code} (hc : c.Within (· < size) N) :
    ∀ {σ : Store w} {p : Nat} {s t : Snapshot}, p < size → (c.flow p).Reaches w mode s t →
      Mirrors size p σ s → ∃ τ, c.Runs σ τ ∧ Mirrors size (c.last p) τ t := by
  -- code without loops has an outcome, and its flow no other
  have straight : ∀ {c : Code} (_ : c.Within (· < size) N) {σ τ : Store w} {p : Nat}
      {s t : Snapshot}, p < size → (c.flow p).Reaches w mode s t → Mirrors size p σ s →
        c.Runs σ τ → ∃ τ, c.Runs σ τ ∧ Mirrors size (c.last p) τ t := by
    intro c hc σ τ p s t hp ht h hr
    obtain ⟨t', ht', hm⟩ := reaches_of_runs mode hc hp hr h
    obtain rfl := ht.unique ht'
    exact ⟨τ, hr, hm⟩
  induction c with
  | skip | move | text | add | sub | on =>
    intro σ p s t hp ht h
    exact straight hc hp ht h rfl
  | opening | closing => exact hc.elim
  | seq first second ih₁ ih₂ =>
    intro σ p s t hp ht h
    obtain ⟨u, hu, ht⟩ := Flow.reaches_append.mp ht
    obtain ⟨ρ, hρ, hm⟩ := ih₁ hc.1 hp hu h
    obtain ⟨τ, hτ, hm'⟩ := ih₂ hc.2 (last_within hc.1 hp) ht hm
    exact ⟨τ, ⟨ρ, hρ, hτ⟩, hm'⟩
  | loop a body ih =>
    intro σ p s t hp ht h
    obtain ⟨ha, hb⟩ := hc
    obtain ⟨u, hu, n, hn⟩ := Flow.reaches_append.mp ht
    obtain ⟨u', hu', hm⟩ := reaches_moves mode h hp ha
    obtain rfl := hu.unique hu'
    clear h hu hu' ht
    generalize hf : Flow.loop (body.flow a ++ .ofOps (moves (body.last a) a)) .done = f at hn
    induction hn generalizing σ with
    | done | op => cases hf
    | skip h0 hr =>
      cases hf
      cases hr
      refine ⟨σ, .stop (not_not.mpr ?_), hm.tick⟩
      rw [hm.cell_eq ha] at h0
      exact Fin.ext h0
    | @again _ _ s v t _ _ h0 hr _ _ iha =>
      cases hf
      obtain ⟨x, hx, hy⟩ := Flow.reaches_append.mp ⟨_, hr⟩
      obtain ⟨ρ, hρ, hmx⟩ := ih hb ha hx hm.tick
      obtain ⟨v', hv', hmv⟩ := reaches_moves mode hmx (last_within hb ha) ha
      obtain rfl := hy.unique hv'
      obtain ⟨τ, hτ, hmt⟩ := iha hmv rfl
      refine ⟨τ, .step (fun h => h0 ?_) hρ hτ, hmt⟩
      rw [hm.cell_eq ha, h]
      rfl

/-! ### The run of a text -/

theorem opsOf_textFrom {P N : Nat → Prop} {c : Code} (hc : c.Within P N) :
    opsOf (c.textFrom 0) = (c.flow 0).ops :=
  (opsOf_write hc (.on 0)).1

variable {input : List UInt8} {text : String}

/-- **The text of code that ends completes**, under every limit from some on. -/
theorem completes_of_runs (mode : PointerMode) {c : Code} (hc : c.Within (· < size) N)
    (hs : 0 < size)
    (htext : opsOf text = (c.flow 0).ops) {τ : Store w} (h : c.Runs (Store.start input) τ) :
    ∃ least, ∀ limit ≥ least, ∃ e m,
      CompletesWithin ⟨size, w, limit, mode⟩ text input e m ∧
      e.outputCells = τ.output ∧ m.tape = τ.tape size ∧ m.pointer = c.last 0 := by
  obtain ⟨t, ⟨n, ht⟩, hm⟩ := reaches_of_runs mode hc hs h (mirrors_start size input)
  refine ⟨n + 1, fun limit hl => ?_⟩
  obtain ⟨e, m, hem, ho, htp, hp⟩ := TapeCompiler.completes_of_runs (wellFormed_flow hc 0)
    htext hs ht limit hl
  exact ⟨e, m, hem, ho.trans hm.output, by rw [htp, hm.tape_eq], by rw [hp, hm.pointer]⟩

/-- **Code whose text completes ends.** -/
theorem runs_of_completes {c : Code} (hc : c.Within (· < size) N) (hs : 0 < size)
    (htext : opsOf text = (c.flow 0).ops) {e : Execution} {m : Machine}
    (h : Completes size w mode text input e m) :
    ∃ τ : Store w, c.Runs (Store.start input) τ ∧ e.outputCells = τ.output ∧
      m.tape = τ.tape size ∧ m.pointer = c.last 0 := by
  obtain ⟨n, t, ht, ho, htp, hp⟩ := TapeCompiler.runs_of_completes (wellFormed_flow hc 0)
    htext hs h
  obtain ⟨τ, hτ, hm⟩ := runs_of_reaches mode hc hs ⟨n, ht⟩ (mirrors_start size input)
  exact ⟨τ, hτ, ho.trans hm.output, by rw [htp, hm.tape_eq], by rw [hp, hm.pointer]⟩

/-- **How the run of a text ends** is what its code does. -/
theorem ends_iff {c : Code} (hc : c.Within (· < size) N) (hs : 0 < size)
    (htext : opsOf text = (c.flow 0).ops) {o : List Nat} {t : Array Nat} {p : Nat} :
    Ends size w mode text input o t p ↔ ∃ τ : Store w, c.Runs (Store.start input) τ ∧
      τ.output = o ∧ τ.tape size = t ∧ c.last 0 = p := by
  constructor
  · rintro ⟨e, m, h, rfl, rfl, rfl⟩
    obtain ⟨τ, hτ, ho, ht, hp⟩ := runs_of_completes hc hs htext h
    exact ⟨τ, hτ, ho.symm, ht.symm, hp.symm⟩
  · rintro ⟨τ, hτ, rfl, rfl, rfl⟩
    obtain ⟨least, h⟩ := completes_of_runs mode hc hs htext hτ
    obtain ⟨e, m, hem, ho, ht, hp⟩ := h least (Nat.le_refl _)
    exact ⟨e, m, ⟨least, hem⟩, ho, ht, hp⟩

theorem ends_unique {c : Code} (hc : c.Within (· < size) N) (hs : 0 < size)
    (htext : opsOf text = (c.flow 0).ops) {o o' : List Nat} {t t' : Array Nat} {p p' : Nat}
    (h : Ends size w mode text input o t p) (h' : Ends size w mode text input o' t' p') :
    o = o' ∧ t = t' ∧ p = p' := by
  obtain ⟨τ, hτ, rfl, rfl, rfl⟩ := (ends_iff hc hs htext).mp h
  obtain ⟨υ, hυ, rfl, rfl, rfl⟩ := (ends_iff hc hs htext).mp h'
  obtain rfl := hτ.unique hυ
  exact ⟨rfl, rfl, rfl⟩

end Code

end Adequacy

end TapeCompiler
