import TapeCompiler.Proofs.Machine.Moments
import TapeCompiler.Proofs.Tape.Literals
import TapeCompiler.Proofs.Tape.Mirror
import Mathlib.Logic.Relation

/-! # Exact arithmetic

Tape code computes modulo the width. Code is exact up to a number (`Code.Exact`) if it makes no sum
above that number and no difference below zero on its way. If the number is below the modulus, the
machine that executes the text then reduces nothing: it increments only cells below the number, and
decrements only cells that are not zero (`Code.exact_of_meets`).

Building a constant is exact up to the constant (`exact_build`): the digits read so far stand for no
more than all of them. -/

namespace TapeCompiler

/-- An operation on a cell that holds `v` is **exact up to a number**. -/
def Op.Exact (top v : Nat) (o : Op) : Prop := (o = .inc → v < top) ∧ (o = .dec → v ≠ 0)

namespace Code

variable {w : CellWidth} {top : Nat}

/-- On its way code makes **no sum above a number and no difference below zero**. -/
def Exact (top : Nat) : Code → Store w → Prop
  | add a n, σ => (σ.cells a).val + n ≤ top
  | sub a n, σ => n ≤ (σ.cells a).val
  | loop a body, σ => ∀ ρ, Relation.ReflTransGen (fun σ ρ => σ.cells a ≠ 0 ∧ body.Runs σ ρ) σ ρ →
      ρ.cells a ≠ 0 → body.Exact top ρ
  | seq first second, σ => first.Exact top σ ∧ ∀ ρ, first.Runs σ ρ → second.Exact top ρ
  | skip, _ | move _, _ | on _ _, _ | text _, _ | opening _, _ | closing _, _ => True

variable {σ ρ : Store w} {s t : Snapshot} {size p v : Nat} {o : Op} {mode : PointerMode}
  {N : Nat → Prop}

/-! ### On the machine -/

theorem exact_moves {a : Nat} (hm : (Flow.ofOps (moves p a)).Meets w mode s v o) :
    o.Exact top v := by
  rcases mem_moves (Flow.mem_of_meets_ofOps hm) with rfl | rfl <;> simp [Op.Exact]

/-- Moves change no cell, so what stands **behind the moves to its cell** decides. -/
theorem exact_behind_moves {a : Nat} {f : Flow} (h : Mirrors size p σ s) (hp : p < size)
    (ha : a < size) (hf : ∀ u, Mirrors size a σ u → f.Meets w mode u v o → o.Exact top v)
    (hm : (Flow.ofOps (moves p a) ++ f).Meets w mode s v o) : o.Exact top v := by
  obtain hm | ⟨u, hu, hm⟩ := Flow.meets_append hm
  · exact exact_moves hm
  · obtain ⟨u', hu', hmir⟩ := reaches_moves mode h hp ha
    obtain rfl := hu.unique hu'
    exact hf u hmir hm

theorem exact_inc (htop : top < w.modulus) (hp : p < size) {n : Nat} (h : Mirrors size p σ s)
    (hle : (σ.cells p).val + n ≤ top)
    (hm : (Flow.ofOps (List.replicate n .inc)).Meets w mode s v o) : o.Exact top v := by
  induction n generalizing σ s with
  | zero => cases hm
  | succ n ih =>
    cases hm with
    | here =>
      refine ⟨fun _ => ?_, fun h => nomatch h⟩
      rw [h.cell_eq hp]
      omega
    | behind ht hm =>
      cases ht
      have hv : (s.cell + 1) % w.modulus = (σ.cells p + w.cell 1).val := by
        rw [h.cell_eq hp, val_add_one]
      have hval : (σ.cells p + w.cell 1).val = (σ.cells p).val + 1 := by
        rw [← val_add_one, Nat.mod_eq_of_lt (by omega)]
      refine ih (h.put hp hv) ?_ hm
      rw [Store.cells_set_self, hval]
      omega

theorem exact_dec (hp : p < size) {n : Nat} (h : Mirrors size p σ s)
    (hle : n ≤ (σ.cells p).val)
    (hm : (Flow.ofOps (List.replicate n .dec)).Meets w mode s v o) : o.Exact top v := by
  induction n generalizing σ s with
  | zero => cases hm
  | succ n ih =>
    cases hm with
    | here =>
      refine ⟨fun h => (nomatch h), fun _ => ?_⟩
      rw [h.cell_eq hp]
      omega
    | behind ht hm =>
      cases ht
      have hv : (s.cell + w.modulus - 1) % w.modulus = (σ.cells p - w.cell 1).val := by
        rw [h.cell_eq hp, val_sub_one]
      have hval : (σ.cells p - w.cell 1).val = (σ.cells p).val - 1 := by
        have hlt := (σ.cells p).isLt
        rw [← val_sub_one, show (σ.cells p).val + w.modulus - 1 =
          (σ.cells p).val - 1 + w.modulus by omega, Nat.add_mod_right, Nat.mod_eq_of_lt (by omega)]
      refine ih (h.put hp hv) ?_ hm
      rw [Store.cells_set_self, hval]
      omega

/-- **The flow of exact code** meets exact operations only. -/
theorem exact_of_meets (htop : top < w.modulus) {c : Code} (hc : c.Within (· < size) N) :
    ∀ {σ : Store w} {p : Nat} {s : Snapshot} {v : Nat} {o : Op}, p < size → c.Exact top σ →
      Mirrors size p σ s → (c.flow p).Meets w mode s v o → o.Exact top v := by
  induction c with
  | skip | text => exact fun _ _ _ hm => nomatch hm
  | move a => exact fun _ _ _ hm => exact_moves hm
  | add a n =>
    exact fun hp hx h hm => exact_behind_moves h hp hc (fun u hu => exact_inc htop hc hu hx) hm
  | sub a n =>
    exact fun hp hx h hm => exact_behind_moves h hp hc (fun u hu => exact_dec hc hu hx) hm
  | on a q =>
    refine fun hp _ h hm => exact_behind_moves h hp hc.1 (fun u _ hm => ?_) hm
    obtain rfl := List.mem_singleton.mp (Flow.mem_of_meets_ofOps (l := [q]) hm)
    rcases hc.2 with rfl | rfl | ⟨rfl, -⟩ <;> simp [Op.Exact]
  | opening | closing => exact hc.elim
  | seq first second ih₁ ih₂ =>
    intro σ p s v o hp hx h hm
    obtain hm | ⟨t, ht, hm⟩ := Flow.meets_append hm
    · exact ih₁ hc.1 hp hx.1 h hm
    · obtain ⟨ρ, hρ, hmir⟩ := runs_of_reaches mode hc.1 hp ht h
      exact ih₂ hc.2 (last_within hc.1 hp) (hx.2 ρ hρ) hmir hm
  | loop a body ih =>
    intro σ p s v o hp hx h hm
    obtain ⟨ha, hb⟩ := hc
    refine exact_behind_moves h hp ha (fun u hu hround => ?_) hm
    clear h hm
    -- the loop is met again on a store that a round leads to
    generalize hf : Flow.loop (body.flow a ++ .ofOps (moves (body.last a) a)) .done = f at hround
    induction hround generalizing σ with
    | here | behind => cases hf
    | past _ hrest =>
      cases hf
      cases hrest
    | inside h0 hround =>
      cases hf
      obtain hm | ⟨x, hx', hm⟩ := Flow.meets_append hround
      · rw [hu.cell_eq ha] at h0
        exact ih hb ha (hx σ .refl fun h => h0 (by rw [h]; rfl)) hu.tick hm
      · exact exact_moves hm
    | again h0 hround _ iha =>
      cases hf
      obtain ⟨x, hx', hy⟩ := Flow.reaches_append.mp ⟨_, hround⟩
      obtain ⟨ρ, hρ, hmir⟩ := runs_of_reaches mode hb ha hx' hu.tick
      obtain ⟨y, hy', hmir⟩ := reaches_moves mode hmir (last_within hb ha) ha
      obtain rfl := hy.unique hy'
      rw [hu.cell_eq ha] at h0
      exact iha (fun υ hυ => hx υ (.head ⟨fun h => h0 (by rw [h]; rfl), hρ⟩ hυ)) hmir rfl

/-! ### Counting loops -/

theorem Exact.seq {c d : Code} (hc : c.Exact top σ) (hr : c.Runs σ ρ) (hd : d.Exact top ρ) :
    (c ++ d).Exact top σ :=
  ⟨hc, fun _ h => h.unique hr ▸ hd⟩

/-- **A loop that counts down** is exact if its rounds are. -/
theorem exact_countdown {a : Nat} {body : Code} (F : Nat → Store w) {n : Nat}
    (ha : ∀ k ≤ n, (F k).cells a = w.cell k) (hr : ∀ k < n, body.Runs (F (k + 1)) (F k))
    (hb : ∀ k < n, body.Exact top (F (k + 1))) : (loop a body).Exact top (F n) := by
  intro ρ h hne
  obtain ⟨k, hk, rfl⟩ : ∃ k ≤ n, ρ = F k := by
    clear hne
    induction h with
    | refl => exact ⟨n, Nat.le_refl n, rfl⟩
    | tail _ hround ih =>
      obtain ⟨k, hk, rfl⟩ := ih
      obtain ⟨hne, hround⟩ := hround
      cases k with
      | zero => exact absurd (ha 0 hk) hne
      | succ k => exact ⟨k, by omega, hround.unique (hr k hk)⟩
  cases k with
  | zero => exact absurd (ha 0 hk) hne
  | succ k => exact hb k hk

theorem exact_moveAdd (htop : top < w.modulus) {source target : Nat} (h : source ≠ target)
    (hle : (σ.cells target).val + (σ.cells source).val ≤ top) :
    (moveAdd source target).Exact top σ := by
  have hx := (σ.cells source).isLt
  rw [← moving_start σ]
  refine exact_countdown (moving σ source target) (fun k _ => cells_moving_source h k)
    (fun k _ => runs_moving h k) fun k hk => Exact.seq ?_ (runs_sub _ _) ?_
  · show 1 ≤ _
    rw [cells_moving_source h, CellWidth.val_cell (by omega)]
    omega
  · show _ + 1 ≤ top
    -- what was moved so far
    have hsub : σ.cells source - w.cell (k + 1) = w.cell ((σ.cells source).val - (k + 1)) := by
      rw [sub_eq_iff_eq_add, ← CellWidth.cell_add, Nat.sub_add_cancel hk, CellWidth.cell_val]
    have hsum : σ.cells target + (σ.cells source - w.cell (k + 1)) =
        w.cell ((σ.cells target).val + ((σ.cells source).val - (k + 1))) := by
      rw [hsub, CellWidth.cell_add, CellWidth.cell_val]
    rw [Store.cells_set_of_ne _ _ h.symm, moving, Store.cells_set_self, hsum,
      CellWidth.val_cell (by omega)]
    omega

theorem exact_times16 (htop : top < w.modulus) {a way : Nat} (h : a ≠ way)
    (hw : σ.cells way = 0) (hle : 16 * (σ.cells a).val ≤ top) : (times16 a way).Exact top σ := by
  have hx := (σ.cells a).isLt
  refine Exact.seq (exact_moveAdd htop h ?_) ((runs_moveAdd h).to (multiplying_start h hw).symm)
    (exact_countdown (multiplying σ a way) (fun k _ => cells_multiplying_way h k)
      (fun k hk => runs_multiplying h hk) fun k hk => ?_)
  · rw [hw]
    show 0 + _ ≤ top
    omega
  · refine Exact.seq ?_ (runs_sub _ _) ?_
    · show 1 ≤ _
      rw [cells_multiplying_way h, CellWidth.val_cell (by omega)]
      omega
    · show _ + 16 ≤ top
      rw [Store.cells_set_of_ne _ _ h, multiplying, Store.cells_set_self,
        CellWidth.val_cell (by omega)]
      omega

/-! ### Building -/

theorem le_ofDigits16 (digits : List Nat) (x : Nat) : x ≤ ofDigits16 x digits := by
  induction digits generalizing x with
  | nil => exact Nat.le_refl x
  | cons d digits ih =>
    have : 16 * x + d ≤ ofDigits16 x (d :: digits) := ih (16 * x + d)
    omega

section Building
variable {a way n : Nat} (hn : n < w.modulus) (h : a ≠ way) (hw : σ.cells way = 0)
include hn h hw

/-- **One more digit** is exact up to every number that is no smaller than what it makes. -/
theorem exact_digit {code : Code} {x d : Nat} (hle : 16 * x + d ≤ n) (hx : code.Exact n σ)
    (hc : code.Runs σ (σ.set a (w.cell x))) :
    (code ++ times16 a way ++ add a d).Exact n σ := by
  have hway : (σ.set a (w.cell x)).cells way = 0 := by rw [Store.cells_set_of_ne _ _ h.symm, hw]
  have hcell : ((σ.set a (w.cell x)).cells a).val = x := by
    rw [Store.cells_set_self, CellWidth.val_cell (by omega)]
  have htimes := runs_times16 h hway
  rw [hcell, Store.set_set] at htimes
  refine Exact.seq (Exact.seq hx hc (exact_times16 hn h hway (by omega)))
    (Runs.seq hc htimes) ?_
  show _ + d ≤ n
  rw [Store.cells_set_self, CellWidth.val_cell (by omega)]
  exact hle

theorem exact_digits (rest : List Nat) {code : Code} {x : Nat} (hle : ofDigits16 x rest ≤ n)
    (hx : code.Exact n σ) (hc : code.Runs σ (σ.set a (w.cell x))) :
    (rest.foldl (fun code digit => code ++ times16 a way ++ add a digit) code).Exact n σ := by
  induction rest generalizing code x with
  | nil => exact hx
  | cons d rest ih =>
    have hdigit : 16 * x + d ≤ n := Nat.le_trans (le_ofDigits16 rest (16 * x + d)) hle
    exact ih hle (exact_digit hn h hw hdigit hx hc) (runs_digit h hw hc d)

/-- **Building a number** is exact up to the number. -/
theorem exact_build (ha : σ.cells a = 0) : (build a n way).Exact n σ := by
  have hnumber := ofDigits16_digits16 n
  unfold build
  split
  · trivial
  · next first rest heq =>
    rw [heq] at hnumber
    have hfirst : ofDigits16 first rest = n := by simpa [ofDigits16] using hnumber
    refine exact_digits hn h hw rest (Nat.le_of_eq hfirst) ?_
      ((runs_add a first).to (by simp [ha]))
    show _ + first ≤ n
    rw [ha]
    have := le_ofDigits16 rest first
    show 0 + first ≤ n
    omega

end Building

end Code

end TapeCompiler
