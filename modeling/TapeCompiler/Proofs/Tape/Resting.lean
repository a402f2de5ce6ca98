import TapeCompiler.Proofs.Emission.Named
import TapeCompiler.Proofs.Machine.Fragments
import TapeCompiler.Proofs.Machine.Outcomes
import TapeCompiler.Proofs.Tape.Mirror
import TapeCompiler.Proofs.Tape.Operators

/-! # Code on a tape at rest

Between two pieces of code the scratch block is zero and nothing else is known of the tape. Such a
snapshot is **at rest** (`Snapshot.AtRest`). Code that ends on the cells the snapshot shows is
executed from it by the machine, in either pointer mode (`Code.executes_of_runs`), and its text is
the same behind every other text (`Code.write_eq`). -/

namespace TapeCompiler

variable {w : CellWidth} {s : Scratch}

/-! ### Snapshots as stores -/

namespace Snapshot

/-- The number in a cell. -/
def peek (t : Snapshot) (a : Nat) : Nat := t.tape.getD a 0

/-- The cells that a snapshot shows, with its input and output. -/
def store (w : CellWidth) (t : Snapshot) : Store w :=
  ⟨fun a => w.cell (t.peek a), t.input, t.output.toList⟩

theorem peek_of_size_le {t : Snapshot} {a : Nat} (h : t.tape.size ≤ a) : t.peek a = 0 := by
  simp [Snapshot.peek, h]

/-- The cells are below the modulus and the pointer is on the tape. -/
abbrev Sound (w : CellWidth) (t : Snapshot) : Prop := OnTape w t.tape.size t.tape t.pointer

namespace Sound

variable {t : Snapshot} (h : t.Sound w)
include h

theorem peek_lt (a : Nat) : t.peek a < w.modulus := by
  rcases Nat.lt_or_ge a t.tape.size with ha | ha
  · have hmem : t.peek a ∈ t.tape := by
      simp only [peek, Array.getD_eq_getD_getElem?, Array.getElem?_eq_getElem ha, Option.getD_some]
      exact Array.getElem_mem ha
    rw [w.modulus_eq]
    exact h.cells _ hmem
  · rw [peek_of_size_le ha]
    exact w.modulus_pos

theorem val_store (a : Nat) : ((t.store w).cells a).val = t.peek a :=
  CellWidth.val_cell (h.peek_lt a)

theorem mirrors : Mirrors t.tape.size t.pointer (t.store w) t :=
  ⟨rfl, rfl, fun a _ => (h.val_store a).symm, rfl, rfl⟩

end Sound

/-- **At rest** the tape holds numbers of the width, the pointer is on it, and the scratch block
lies on it and is zero. -/
structure AtRest (w : CellWidth) (s : Scratch) (t : Snapshot) : Prop where
  wrapped : ∀ a < t.tape.size, t.peek a < w.modulus
  inside : t.pointer < t.tape.size
  room : s.base + scratchCells ≤ t.tape.size
  zero : ∀ k < scratchCells, t.peek (s.base + k) = 0

instance (w : CellWidth) (s : Scratch) (t : Snapshot) : Decidable (t.AtRest w s) :=
  decidable_of_iff ((∀ a < t.tape.size, t.peek a < w.modulus) ∧ t.pointer < t.tape.size ∧
      s.base + scratchCells ≤ t.tape.size ∧ ∀ k < scratchCells, t.peek (s.base + k) = 0)
    ⟨fun ⟨h₁, h₂, h₃, h₄⟩ => ⟨h₁, h₂, h₃, h₄⟩, fun ⟨h₁, h₂, h₃, h₄⟩ => ⟨h₁, h₂, h₃, h₄⟩⟩

/-- The number that an operand stands for. -/
def first (w : CellWidth) (t : Snapshot) : Operand → Nat
  | .value v => w.wrap v.firstCell
  | .cells a _ => t.peek a

namespace AtRest

variable {t : Snapshot} (h : t.AtRest w s)
include h

theorem sound : t.Sound w where
  length := rfl
  pointer := h.inside
  cells v hv := by
    obtain ⟨a, ha, rfl⟩ := Array.getElem_of_mem hv
    have := h.wrapped a ha
    rw [w.modulus_eq] at this
    simpa [peek, ha] using this

theorem val_store (a : Nat) : ((t.store w).cells a).val = t.peek a := h.sound.val_store a

theorem mirrors : Mirrors t.tape.size t.pointer (t.store w) t := h.sound.mirrors

theorem clean : s.Clean (t.store w) := fun k hk => by
  show w.cell (t.peek (s.base + k)) = 0
  rw [h.zero k hk, CellWidth.cell_zero]

theorem val_first (o : Operand) : ((t.store w).first o).val = t.first w o := by
  cases o with
  | value v => rfl
  | cells a len => exact h.val_store a

theorem allowed : s.Allowed (· < t.tape.size) := fun k hk _ => by
  have := h.room
  omega

end AtRest

end Snapshot

namespace Mirrors

variable {size p : Nat} {τ : Store w} {u : Snapshot}

theorem peek_eq (h : Mirrors size p τ u) {a : Nat} (ha : a < size) :
    u.peek a = (τ.cells a).val :=
  h.cells a ha

/-- A snapshot of a store that is zero past the tape shows exactly this store. -/
theorem store_eq (h : Mirrors size p τ u) (hz : ∀ a ≥ size, τ.cells a = 0) : u.store w = τ := by
  refine Store.ext (fun a => ?_) h.input h.output
  show w.cell (u.peek a) = τ.cells a
  rcases Nat.lt_or_ge a size with ha | ha
  · rw [h.peek_eq ha, CellWidth.cell_val]
  · rw [Snapshot.peek_of_size_le (h.length.symm ▸ ha), hz a ha, CellWidth.cell_zero]

theorem atRest (h : Mirrors size p τ u) (hp : p < size) (hroom : s.base + scratchCells ≤ size)
    (hs : s.Clean τ) : u.AtRest w s where
  wrapped a ha := by
    rw [h.peek_eq (h.length ▸ ha)]
    exact (τ.cells a).isLt
  inside := by
    rw [h.pointer, h.length]
    exact hp
  room := by
    rw [h.length]
    exact hroom
  zero k hk := by
    rw [h.peek_eq (by omega), hs k hk]
    rfl

end Mirrors

/-! ### Texts behind texts -/

/-- A writer with a text in front. -/
def Writer.behind (v : Writer) (text : String) : Writer := ⟨text ++ v.text, v.pointer⟩

namespace Writer

theorem push_behind (v : Writer) (text : String) (c : Char) (n : Nat) :
    (v.behind text).push c n = (v.push c n).behind text := by
  unfold push behind
  congr 1
  apply String.toList_inj.mp
  simp [toList_pushn]

theorem moveTo_behind (v : Writer) (text : String) (a : Nat) :
    (v.behind text).moveTo a = (v.moveTo a).behind text := by
  have hp : (v.behind text).pointer = v.pointer := rfl
  unfold moveTo
  simp only [push_behind, hp]
  split_ifs <;> rfl

theorem append_behind (v : Writer) (text t : String) :
    (v.behind text).append t = (v.append t).behind text := by
  simp [append, behind, String.append_assoc]

end Writer

namespace Code

/-- What stands in front does not change what code writes. -/
theorem write_behind (c : Code) (text : String) (v : Writer) :
    c.write (v.behind text) = (c.write v).behind text := by
  induction c generalizing v with
  | skip => rfl
  | move a => exact v.moveTo_behind text a
  | text t => exact v.append_behind text t
  | add | sub | on | opening | closing =>
    simp only [write, Writer.moveTo_behind, Writer.push_behind]
  | loop a body ih => simp only [write, Writer.moveTo_behind, Writer.push_behind, ih]
  | seq first second ih₁ ih₂ => simp only [write, ih₁, ih₂]

/-- **The text of code depends on the cell it starts on**, and on nothing written before. -/
theorem write_eq (c : Code) (v : Writer) :
    c.write v = ⟨v.text ++ c.textFrom v.pointer, (c.write (.on v.pointer)).pointer⟩ := by
  have hv : v = (Writer.on v.pointer).behind v.text := by simp [Writer.on, Writer.behind]
  conv_lhs => rw [hv, write_behind]
  rfl

end Code

/-! ### Execution -/

/-- What code may do to a tape at rest: it **changes only** some cells, and the tape is at rest
again. -/
structure Snapshot.ChangesOnly (w : CellWidth) (s : Scratch) (cells : List Nat)
    (t u : Snapshot) : Prop where
  rest : u.AtRest w s
  size : u.tape.size = t.tape.size
  frame : ∀ a, a ∉ cells → u.peek a = t.peek a

namespace Code

/-- **Code that ends on the cells that a snapshot shows is executed** from there. The pointer ends
where the writer says, and the cells are those the code ends on. -/
theorem executes_of_runs {c : Code} {N : Nat → Prop} {t : Snapshot} {τ : Store w}
    (h : t.AtRest w s) (hc : c.Within (· < t.tape.size) N) (hr : c.Runs (t.store w) τ)
    (cells : List Nat) (hbelow : ∀ a ∈ cells, a < s.base)
    (hframe : ∀ a, a ∉ cells → τ.cells a = (t.store w).cells a)
    (size limit : Nat) (mode : PointerMode) :
    ∃ u, Executes ⟨size, w, limit, mode⟩ (c.textFrom t.pointer) t u ∧
      u.pointer = (c.write (.on t.pointer)).pointer ∧ t.ChangesOnly w s cells u ∧
      u.store w = τ := by
  obtain ⟨u, hu, hm⟩ := reaches_of_runs mode hc h.inside hr h.mirrors
  obtain ⟨hops, hlast⟩ := opsOf_write hc (.on t.pointer)
  have hroom := h.room
  have hclean : s.Clean τ := fun k hk => by
    rw [hframe _ fun hm => by have := hbelow _ hm; omega, h.clean k hk]
  have hz : ∀ a ≥ t.tape.size, τ.cells a = 0 := fun a ha => by
    rw [hframe a fun hm => by have := hbelow _ hm; omega]
    show w.cell (t.peek a) = 0
    rw [Snapshot.peek_of_size_le ha, CellWidth.cell_zero]
  have hrest : u.AtRest w s := hm.atRest (last_within hc h.inside) hroom hclean
  have hstore := hm.store_eq hz
  refine ⟨u, executes_of_reaches (wellFormed_flow hc _) hops hu, hm.pointer.trans hlast.symm,
    ⟨hrest, hm.length, fun a ha => ?_⟩, hstore⟩
  rw [← hrest.val_store, ← h.val_store, hstore, hframe a ha]

end Code

end TapeCompiler
