import TapeCompiler.Proofs.Emission.Footprint

/-! # Calls expanded in place

The text of an expanded call is **neutral** (`Emitter.Neutral`): it is appended to what stands
before without moving the writer, and from every tape at rest it is executed, ends on the cell it
started on, leaves the scratch block zero and changes no cell but those of its result.

* `neutral_expandOr`: the call of a library function is expanded to a neutral text that does what
  the function does.
* `prints_alike`: the printing functions write what the instruction that prints writes.
* `expansions_exact`: what each of the known functions leaves behind. -/

namespace TapeCompiler

variable {w : CellWidth} {s : Scratch}

/-! ### Runs of no cells -/

/-- The operand with one cell at least: a run of cells **always names its first one**. -/
def Operand.settled : Operand → Operand
  | value v => value v
  | cells a len => cells a (max len 1)

namespace Operand

theorem below_settled {limit : Nat} {o : Operand} (h : ∀ a ∈ o.settled.span, a < limit) :
    o.settled.Below limit := by
  cases o with
  | value => trivial
  | cells a len =>
    have hlast := h (a + (max len 1 - 1)) (by simp only [settled, span, List.mem_range'_1]; omega)
    unfold settled Below
    omega

end Operand

theorem Snapshot.shown_settled (t : Snapshot) (o : Operand) :
    t.shown w o.settled = t.shown w o := by
  cases o with
  | value => rfl
  | cells a len =>
    have hlen : max len 1 - 1 = len - 1 := by omega
    simp only [Operand.settled, shown, hlen]

theorem Store.first_settled (σ : Store w) (o : Operand) : σ.first o.settled = σ.first o := by
  cases o <;> rfl

namespace Code

theorem load_settled (o : Operand) : load w s o.settled = load w s o := by
  cases o <;> rfl

theorem printOperand_settled (o : Operand) :
    printOperand w s o.settled = printOperand w s o := by
  cases o with
  | value => rfl
  | cells a len =>
    have hlen : max len 1 - 1 = len - 1 := by omega
    simp only [Operand.settled, printOperand, hlen]

theorem binary_settled (o : Operator) (x y : Operand) :
    binary w s o x.settled y.settled = binary w s o x y := by
  funext target
  unfold binary
  simp only [load_settled]

end Code

namespace Builtin

theorem choose_settled (site : Site) (o : Operator) (x y : Operand) :
    choose site o x.settled y.settled = choose site o x y := by
  funext target
  simp only [choose, Code.binary_settled, Code.load_settled]

theorem code_settled (b : Builtin) (site : Site) (args : List Operand) :
    b.code site (args.map Operand.settled) = b.code site args := by
  cases b with
  | print => simp only [code, List.foldr_map, Code.printOperand_settled]
  | prompt => rfl
  | smaller | larger =>
    match args with
    | [] => rfl
    | [_] => rfl
    | [x, y] => simp only [code, pick, choose_settled, List.map_cons, List.map_nil]
    | _ :: _ :: _ :: _ => rfl

end Builtin

/-! ### Received bytes -/

namespace Store

theorem input_receive (σ : Store w) (a : Nat) : (σ.receive a).input = σ.input.tail := by
  obtain ⟨cells, input, output⟩ := σ
  cases input <;> rfl

theorem output_receive (σ : Store w) (a : Nat) : (σ.receive a).output = σ.output := by
  obtain ⟨cells, input, output⟩ := σ
  cases input <;> rfl

/-- A received byte **fits every width**; without one the cell is zero. -/
theorem val_receive (σ : Store w) (a : Nat) :
    ((σ.receive a).cells a).val = (σ.input.head?.map UInt8.toNat).getD 0 := by
  obtain ⟨cells, input, output⟩ := σ
  cases input with
  | nil =>
    show ((Store.set ⟨cells, [], output⟩ a (0 : w.Cell)).cells a).val = 0
    rw [cells_set_self, Fin.val_zero]
  | cons byte rest =>
    have hbyte : byte.toNat < w.modulus := byte.toNat_lt.trans_le (by cases w <;> decide)
    show ((Store.set ⟨cells, byte :: rest, output⟩ a (w.cell byte.toNat)).cells a).val = _
    rw [cells_set_self, CellWidth.val_cell hbyte]
    rfl

end Store

/-! ### Neutral texts -/

namespace Emitter

variable {e : Emitter} {p : Nat} {name under : String} {args : List Operand} {target : Option Nat}

/-- **Neutral code.** Written with the pointer on a cell, it is appended to any text, and its own
text leads from every tape at rest back to this cell. -/
structure Neutral (e : Emitter) (p : Nat) (cells : List Nat) (c : Code)
    (does : Snapshot → Snapshot → Prop) : Prop where
  /-- The writer stays on the cell. -/
  written : ∀ text, c.write ⟨text, p⟩ = ⟨text ++ c.textFrom p, p⟩
  /-- So does the machine; scratch is zero again, and no cell but those listed has changed. -/
  ends : ∀ (size limit : Nat) (mode : PointerMode) (t : Snapshot), t.AtRest e.width e.scratch →
    t.pointer = p → ∃ u, Executes ⟨size, e.width, limit, mode⟩ (c.textFrom p) t u ∧
      u.pointer = p ∧ t.ChangesOnly e.width e.scratch cells u ∧ does t u

theorem Neutral.imp {cells : List Nat} {c : Code} {does does' : Snapshot → Snapshot → Prop}
    (h : e.Neutral p cells c does)
    (himp : ∀ t u, t.AtRest e.width e.scratch → u.AtRest e.width e.scratch → does t u →
      does' t u) : e.Neutral p cells c does' where
  written := h.written
  ends size limit mode t ht hp := by
    obtain ⟨u, hu, hq, hkeep, hdoes⟩ := h.ends size limit mode t ht hp
    exact ⟨u, hu, hq, hkeep, himp t u ht hkeep.rest hdoes⟩

/-- **A call that fits its template** is expanded to a neutral text that does what the function
does. -/
theorem neutral_expandOr {b : Builtin} (hf : e.library.find? name = some (b.template under))
    (hb : b.Takes args.length)
    (ha : ∀ o ∈ args, ∀ a ∈ o.settled.span, a < e.scratch.base)
    (ht : ∀ a ∈ target, a < e.scratch.base) (cells : List Nat) (hcells : ∀ a ∈ cells, a ∈ target)
    (hframe : ∀ (σ : Store e.width) (a : Nat), a ∉ cells →
      (b.effect (args.map Operand.settled) target σ).cells a = σ.cells a) (instead : Warned) :
    ∃ c, e.expandOr p name args target instead = (c, []) ∧
      e.Neutral p cells c fun before after =>
        after.store e.width =
          b.effect (args.map Operand.settled) target (before.store e.width) := by
  set site : Site := ⟨p, e.scratch, target, e.width⟩
  have hpointer : ((b.code site args).write (.on p)).pointer = p := b.pointer_code site args ""
  refine ⟨_, expandOr_of_takes hf hb p target instead, fun text => ?_, ?_⟩
  · rw [Code.write_eq _ ⟨text, p⟩, hpointer]
  · rintro size limit mode before h rfl
    have hbelow : ∀ o ∈ args.map Operand.settled, o.Below e.scratch.base := by
      simp only [List.mem_map, forall_exists_index, and_imp, forall_apply_eq_imp_iff₂]
      exact fun o ho => Operand.below_settled (ha o ho)
    have hroom := h.room
    have hwithin : (b.code site args).Within (· < before.tape.size) (· = e.scratch.neg) := by
      rw [← b.code_settled]
      exact within_builtin h.allowed (N := (· = e.scratch.neg)) rfl (fun a ha => by omega) h.inside
        hbelow ht b
    have hruns : (b.code site args).Runs (before.store e.width)
        (b.effect (args.map Operand.settled) target (before.store e.width)) := by
      rw [← b.code_settled]
      exact Code.runs_builtin h.clean hbelow ht b
    obtain ⟨after, hexec, hend, hkeep, hstore⟩ := Code.executes_of_runs h hwithin hruns cells
      (fun a hm => ht a (hcells a hm)) (fun a hm => hframe _ a hm) size limit mode
    exact ⟨after, hexec, hend.trans hpointer, hkeep, hstore⟩

/-! ### Printing -/

/-- The emitter without a library: **printing is built in**. -/
def bare (e : Emitter) : Emitter := { e with library := .empty }

/-- **A printing function writes what the instruction that prints writes**, from every tape. -/
theorem prints_alike (hf : e.library.find? name = some (Builtin.print.template under))
    (ha : ∀ o ∈ args, ∀ a ∈ o.settled.span, a < e.scratch.base)
    (ht : ∀ a ∈ target, a < e.scratch.base) (instead : Warned) :
    ∃ c, e.expandOr p name args target instead = (c, []) ∧
      e.Neutral p [] c fun before after => after.input = before.input ∧
        after.output.toList = before.output.toList ++ args.flatMap (before.shown e.width) ∧
        ∀ size limit mode, before.pointer = p → ∃ printed,
          Executes ⟨size, e.width, limit, mode⟩ ((e.bare.plain p (.print args)).1.textFrom p)
            before printed ∧ printed.output = after.output := by
  obtain ⟨c, hexpand, hneutral⟩ := neutral_expandOr hf (fun _ hm => by cases hm) ha ht []
    (by simp) (fun _ _ _ => rfl) instead
  refine ⟨c, hexpand, hneutral.imp fun before after hb ha' hstore => ?_⟩
  have houtput : after.output.toList = before.output.toList ++
      ((args.map Operand.settled).flatMap (before.store e.width).shown).map Fin.val :=
    congrArg Store.output hstore
  refine ⟨congrArg Store.input hstore, ?_, ?_⟩
  · rw [houtput, List.map_flatMap, List.flatMap_map]
    exact congrArg _ (List.flatMap_congr fun o _ => by rw [hb.shown_store, before.shown_settled])
  · rintro size limit mode rfl
    have hbelow : (Instruction.print (args.map Operand.settled)).Below e.scratch.base :=
      ⟨by
        simp only [Instruction.operands, List.mem_map, forall_exists_index, and_imp,
          forall_apply_eq_imp_iff₂]
        exact fun o ho => Operand.below_settled (ha o ho), by simp [Instruction.readsBeside],
        by simp [Instruction.writes]⟩
    obtain ⟨printed, hexec, -, -, hprinted⟩ := executes_plain
      (e := e.bare) Library.known_empty hbelow hb size limit mode
    have hcode : (e.bare.plain before.pointer (.print (args.map Operand.settled))).1 =
        (e.bare.plain before.pointer (.print args)).1 := by
      have hnone : e.bare.library.find? printCallee = none := rfl
      simp only [plain, expandOr_of_none hnone, List.map_map, Function.comp_def,
        Code.printOperand_settled]
    rw [hcode] at hexec
    exact ⟨printed, hexec,
      Array.toList_inj.mp ((congrArg Store.output hprinted).trans houtput.symm)⟩

/-! ### Choosing and reading -/

/-- **A choice of two** leaves the chosen one in its target, and nothing without a target. -/
theorem neutral_choice {b : Builtin} (pick : e.width.Cell → e.width.Cell → e.width.Cell)
    (heffect : ∀ (x y : Operand) (a : Nat) (σ : Store e.width),
      b.effect [x, y] (some a) σ = σ.set a (pick (σ.first x) (σ.first y)))
    (hnone : ∀ (x y : Operand) (σ : Store e.width), b.effect [x, y] none σ = σ)
    (hf : e.library.find? name = some (b.template under)) (hb : b.Takes 2) {x y : Operand}
    (ha : ∀ o ∈ [x, y], ∀ a ∈ o.settled.span, a < e.scratch.base)
    (ht : ∀ a ∈ target, a < e.scratch.base) (instead : Warned) :
    ∃ c, e.expandOr p name [x, y] target instead = (c, []) ∧
      e.Neutral p target.toList c fun before after =>
        after.input = before.input ∧ after.output = before.output ∧
          ∀ a ∈ target, after.peek a =
            (pick ((before.store e.width).first x) ((before.store e.width).first y)).val := by
  have hboth : b.Takes [x, y].length := hb
  obtain ⟨c, hexpand, hneutral⟩ := neutral_expandOr hf hboth ha ht target.toList
    (by simp) (fun σ a hm => Instruction.cells_builtinEffect _ _ _ _ (by simpa using hm)) instead
  refine ⟨c, hexpand, hneutral.imp fun before after _ hafter hstore => ?_⟩
  simp only [List.map_cons, List.map_nil] at hstore
  cases target with
  | none =>
    rw [hnone] at hstore
    exact ⟨congrArg Store.input hstore, Array.toList_inj.mp (congrArg Store.output hstore), by simp⟩
  | some a =>
    rw [heffect, Store.first_settled, Store.first_settled] at hstore
    refine ⟨congrArg Store.input hstore, Array.toList_inj.mp (congrArg Store.output hstore), ?_⟩
    rintro b ⟨⟩
    rw [← hafter.val_store, hstore, Store.cells_set_self]

/-- **Reading** takes one byte off the input, if there is one, and leaves it in the target, zero if
there is none. -/
theorem neutral_prompt (hf : e.library.find? name = some (Builtin.prompt.template under))
    (ha : ∀ o ∈ args, ∀ a ∈ o.settled.span, a < e.scratch.base)
    (ht : ∀ a ∈ target, a < e.scratch.base) (instead : Warned) :
    ∃ c, e.expandOr p name args target instead = (c, []) ∧
      e.Neutral p target.toList c fun before after =>
        after.input = before.input.tail ∧ after.output = before.output ∧
          ∀ a ∈ target, after.peek a = (before.input.head?.map UInt8.toNat).getD 0 := by
  obtain ⟨c, hexpand, hneutral⟩ := neutral_expandOr hf (fun _ hm => by cases hm) ha ht
    target.toList
    (by simp) (fun σ a hm => Instruction.cells_builtinEffect _ _ _ _ (by simpa using hm)) instead
  refine ⟨c, hexpand, hneutral.imp fun before after _ hafter hstore => ?_⟩
  cases target with
  | none =>
    exact ⟨congrArg Store.input hstore, Array.toList_inj.mp (congrArg Store.output hstore), by simp⟩
  | some a =>
    have hreceive : after.store e.width = (before.store e.width).receive a := hstore
    refine ⟨(congrArg Store.input hreceive).trans (Store.input_receive _ a),
      Array.toList_inj.mp ((congrArg Store.output hreceive).trans (Store.output_receive _ a)), ?_⟩
    rintro b ⟨⟩
    rw [← hafter.val_store, hreceive, Store.val_receive]
    rfl

/-! ### The known functions -/

/-- **Library calls are exact and neutral.** -/
theorem expansions_exact (hl : e.library = .standard) (p : Nat) {args : List Operand}
    {target : Option Nat} (ha : ∀ o ∈ args, ∀ a ∈ o.settled.span, a < e.scratch.base)
    (ht : ∀ a ∈ target, a < e.scratch.base) (instead : Warned) :
    (∀ name ∈ ["console.log", "process.stdout.write"],
      ∃ c, e.expandOr p name args target instead = (c, []) ∧
        e.Neutral p [] c fun before after => after.input = before.input ∧
          after.output.toList = before.output.toList ++ args.flatMap (before.shown e.width) ∧
          ∀ size limit mode, before.pointer = p → ∃ printed,
            Executes ⟨size, e.width, limit, mode⟩ ((e.bare.plain p (.print args)).1.textFrom p)
              before printed ∧ printed.output = after.output) ∧
    (∀ x y, args = [x, y] →
      ∀ f ∈ [("Math.min", (min : Nat → Nat → Nat)), ("Math.max", max)],
        ∃ c, e.expandOr p f.1 args target instead = (c, []) ∧
          e.Neutral p target.toList c fun before after =>
            after.input = before.input ∧ after.output = before.output ∧
              ∀ a ∈ target, after.peek a = f.2 (before.first e.width x) (before.first e.width y)) ∧
    (∃ c, e.expandOr p "prompt" args target instead = (c, []) ∧
      e.Neutral p target.toList c fun before after =>
        after.input = before.input.tail ∧ after.output = before.output ∧
          ∀ a ∈ target, after.peek a = (before.input.head?.map UInt8.toNat).getD 0) ∧
    (args.length ≠ 2 → ∀ name ∈ ["Math.min", "Math.max"],
      e.expandOr p name args target instead = (instead.1,
        ("template '" ++ name ++ "' not applied: " ++
          (Fault.argumentCount name 2 args.length).message) :: instead.2)) := by
  have hfind : ∀ name t, Library.standard.find? name = some t → e.library.find? name = some t :=
    fun name t h => by rw [hl, h]
  have hmin := hfind "Math.min" (Builtin.smaller.template "Math.min") rfl
  have hmax := hfind "Math.max" (Builtin.larger.template "Math.max") rfl
  have hprompt := hfind "prompt" (Builtin.prompt.template "prompt") rfl
  refine ⟨fun name hname => ?_, ?_, neutral_prompt hprompt ha ht _, fun hlen name hname => ?_⟩
  · simp only [List.mem_cons, List.not_mem_nil, or_false] at hname
    obtain rfl | rfl := hname
    · exact prints_alike (hfind "console.log" (Builtin.print.template _) rfl) ha ht instead
    · exact prints_alike (hfind "process.stdout.write" (Builtin.print.template _) rfl) ha ht instead
  · rintro x y rfl f hmem
    simp only [List.mem_cons, List.not_mem_nil, or_false] at hmem
    obtain rfl | rfl := hmem
    · obtain ⟨c, hexpand, hneutral⟩ := neutral_choice min (fun _ _ _ _ => rfl)
        (fun _ _ _ => rfl) hmin (by decide) ha ht instead
      refine ⟨c, hexpand, hneutral.imp fun before after hb _ h => ⟨h.1, h.2.1, fun a hm => ?_⟩⟩
      rw [h.2.2 a hm, Fin.coe_min, hb.val_first, hb.val_first]
    · obtain ⟨c, hexpand, hneutral⟩ := neutral_choice max (fun _ _ _ _ => rfl)
        (fun _ _ _ => rfl) hmax (by decide) ha ht instead
      refine ⟨c, hexpand, hneutral.imp fun before after hb _ h => ⟨h.1, h.2.1, fun a hm => ?_⟩⟩
      rw [h.2.2 a hm, Fin.coe_max, hb.val_first, hb.val_first]
  · simp only [List.mem_cons, List.not_mem_nil, or_false] at hname
    obtain rfl | rfl := hname
    · exact expandOr_of_misfit hmin (fun h => hlen (h 2 rfl)) p target instead
    · exact expandOr_of_misfit hmax (fun h => hlen (h 2 rfl)) p target instead

/-- The larger of a cell and −1, put into that cell. -/
theorem expansions_exact_max :
    ∃ c u, Emitter.expandOr ⟨.standard, .bits8, ⟨2⟩, 14, [], []⟩ 1 "Math.max"
        [.cell 0, .value (.int (-1))] (some 0) (.skip, []) = (c, []) ∧
      Executes ⟨14, .bits8, 1, .strict⟩ (c.textFrom 1)
        ⟨#[7, 9] ++ Array.replicate 12 0, 1, [], #[], 0⟩ u ∧
      u.pointer = 1 ∧ u.peek 0 = 255 ∧ u.peek 1 = 9 := by
  obtain ⟨-, hchoose, -⟩ := expansions_exact (e := ⟨.standard, .bits8, ⟨2⟩, 14, [], []⟩) rfl 1
    (show ∀ o ∈ [Operand.cell 0, .value (.int (-1))], ∀ a ∈ o.settled.span, a < 2 by decide)
    (show ∀ a ∈ some 0, a < 2 by decide) (.skip, [])
  obtain ⟨c, hexpand, -, hends⟩ := hchoose _ _ rfl ("Math.max", max) (by simp)
  obtain ⟨u, hu, hpointer, hkeep, -, -, hvalue⟩ := hends 14 1 .strict
    ⟨#[7, 9] ++ Array.replicate 12 0, 1, [], #[], 0⟩ (by decide) rfl
  exact ⟨c, u, hexpand, hu, hpointer, (hvalue 0 rfl).trans (by decide),
    (hkeep.frame 1 (by simp)).trans (by decide)⟩

end Emitter

end TapeCompiler
