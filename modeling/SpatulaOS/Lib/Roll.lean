import Mathlib.Data.List.Basic
import Mathlib.Data.Nat.Basic
import Mathlib.Logic.Function.Basic
import Mathlib.Tactic.Common

/-!
# A roll of cells behind a window

A roll is an unbounded row of cells with a position, written from left to right; read in
lines of `w` cells it is an unbounded sheet. A window of `h` lines shows the part of it that
begins at line `k` (`Shows`): the cells of the window are those of the roll, the cursor of
the window is the position of the roll, and the roll is blank below the window. Each
operation on the roll has a counterpart in the window, as long as the cursor is in it, and
a window that moves one line down shows the same roll (`Shows.scroll`).
-/

namespace Window

variable {α : Type*} {w h k cur : ℕ} {buffer buffer' : ℕ → α} {blank a : α}

/-- A row of cells without end, with the position of the next one to be written. -/
structure Roll (α : Type*) where
  /-- The cells. -/
  cells : ℕ → α
  /-- The position. -/
  pos : ℕ

/-- Write a cell. -/
def Roll.put (r : Roll α) (a : α) : Roll α := ⟨Function.update r.cells r.pos a, r.pos + 1⟩

/-- Go to the beginning of the next line of `w` cells. -/
def Roll.newline (w : ℕ) (r : Roll α) : Roll α := ⟨r.cells, (r.pos / w + 1) * w⟩

/-- Go back by one cell and blank it. -/
def Roll.erase (blank : α) (r : Roll α) : Roll α := ⟨Function.update r.cells (r.pos - 1) blank, r.pos - 1⟩

/-- The window of `h` lines of `w` cells shows the roll from line `k` on. -/
structure Shows (w h k : ℕ) (blank : α) (buffer : ℕ → α) (cur : ℕ) (r : Roll α) : Prop where
  cells : ∀ i, i < h * w → buffer i = r.cells (k * w + i)
  pos : k * w + cur = r.pos
  blank : ∀ i, (k + h) * w ≤ i → r.cells i = blank

variable {r : Roll α}

theorem Shows.put (hs : Shows w h k blank buffer cur r) (hcur : cur < h * w) :
    Shows w h k blank (Function.update buffer cur a) (cur + 1) (r.put a) := by
  obtain ⟨hc, hp, hb⟩ := hs
  refine ⟨fun i hi => ?_, ?_, fun i hi => ?_⟩
  · show Function.update buffer cur a i = Function.update r.cells r.pos a (k * w + i)
    by_cases hic : i = cur
    · rw [hic, hp, Function.update_self, Function.update_self]
    · rw [Function.update_of_ne hic, Function.update_of_ne (by omega), hc i hi]
  · show k * w + (cur + 1) = r.pos + 1
    omega
  · show Function.update r.cells r.pos a i = blank
    rw [Nat.add_mul] at hi
    rw [Function.update_of_ne (by omega), hb i (by rw [Nat.add_mul]; exact hi)]

theorem Shows.newline (hs : Shows w h k blank buffer cur r) (hw : 0 < w) :
    Shows w h k blank buffer ((cur / w + 1) * w) (r.newline w) := by
  obtain ⟨hc, hp, hb⟩ := hs
  refine ⟨hc, ?_, hb⟩
  have hline : (k * w + cur) / w = k + cur / w := by
    rw [Nat.mul_comm k w, Nat.mul_add_div hw]
  show _ = (r.pos / w + 1) * w
  rw [← hp, hline, Nat.add_assoc, Nat.add_mul k]

theorem Shows.erase (hs : Shows w h k blank buffer cur r) (h0 : 0 < cur) :
    Shows w h k blank (Function.update buffer (cur - 1) blank) (cur - 1) (r.erase blank) := by
  obtain ⟨hc, hp, hb⟩ := hs
  refine ⟨fun i hi => ?_, ?_, fun i hi => ?_⟩
  · show Function.update buffer (cur - 1) blank i = Function.update r.cells (r.pos - 1) blank (k * w + i)
    by_cases hic : i = cur - 1
    · rw [hic, show k * w + (cur - 1) = r.pos - 1 by omega, Function.update_self, Function.update_self]
    · rw [Function.update_of_ne hic, Function.update_of_ne (by omega), hc i hi]
  · show k * w + (cur - 1) = r.pos - 1
    omega
  · show Function.update r.cells (r.pos - 1) blank i = blank
    by_cases hi' : i = r.pos - 1
    · rw [hi', Function.update_self]
    · rw [Function.update_of_ne hi', hb i hi]

/-- The window moves one line down: its lines move up, and the new last line is blank. -/
theorem Shows.scroll (hs : Shows w h k blank buffer cur r) (hcur : w ≤ cur)
    (hup : ∀ i, i + w < h * w → buffer' i = buffer (i + w))
    (hlast : ∀ i, h * w ≤ i + w → i < h * w → buffer' i = blank) :
    Shows w h (k + 1) blank buffer' (cur - w) r := by
  obtain ⟨hc, hp, hb⟩ := hs
  have hk : (k + 1) * w = k * w + w := Nat.succ_mul k w
  refine ⟨fun i hi => ?_, by omega, fun i hi => hb i ?_⟩
  · by_cases hlt : i + w < h * w
    · rw [hup i hlt, hc _ hlt]
      congr 1
      omega
    · rw [hlast i (by omega) hi, hb _ (by rw [Nat.add_mul]; omega)]
  · rw [Nat.add_mul] at hi ⊢
    omega

/-! ### Loops over the cells -/

theorem foldlM_eq_some {β γ : Type*} {f : β → γ → Option β} {g : β → γ → β} {l : List γ} {b : β}
    (h : ∀ b, ∀ x ∈ l, f b x = some (g b x)) : l.foldlM f b = some (l.foldl g b) := by
  induction l generalizing b with
  | nil => rfl
  | cons x l ih =>
    rw [List.foldlM_cons, h b x List.mem_cons_self]
    exact ih fun b y hy => h b y (List.mem_cons_of_mem x hy)

/-- `n` cells are written from `d` on, the `x`-th one with `next` of the cells at that time. -/
def setCells (buffer : ℕ → α) (d : ℕ) (next : (ℕ → α) → ℕ → α) (n : ℕ) : ℕ → α :=
  (List.range n).foldl (fun b x => Function.update b (d + x) (next b x)) buffer

/-- The cells afterwards, if what is written does not depend on the cells that are written. -/
theorem setCells_apply {next : (ℕ → α) → ℕ → α} {v : ℕ → α} {d n : ℕ}
    (hnext : ∀ b, (∀ i, i < d ∨ d + n ≤ i → b i = buffer i) → ∀ x, x < n → next b x = v x) (i : ℕ) :
    setCells buffer d next n i = if d ≤ i ∧ i < d + n then v (i - d) else buffer i := by
  have hrun (j : ℕ) (hj : j ≤ n) (i : ℕ) :
      setCells buffer d next j i = if d ≤ i ∧ i < d + j then v (i - d) else buffer i := by
    induction j generalizing i with
    | zero => exact (if_neg fun h => absurd h.2 (Nat.not_lt.mpr h.1)).symm
    | succ j ih =>
      have hout : ∀ i, i < d ∨ d + n ≤ i → setCells buffer d next j i = buffer i := fun i hi => by
        rw [ih (by omega), if_neg (by omega)]
      have hval := hnext _ hout j (by omega)
      rw [setCells] at hval
      rw [setCells, List.range_succ, List.foldl_append, List.foldl_cons, List.foldl_nil, hval]
      by_cases hij : i = d + j
      · rw [hij, Function.update_self, if_pos (by omega), Nat.add_sub_cancel_left]
      · rw [Function.update_of_ne hij]
        refine (ih (by omega) i).trans ?_
        by_cases hin : d ≤ i ∧ i < d + j
        · rw [if_pos hin, if_pos (by omega)]
        · rw [if_neg hin, if_neg (by omega)]
  exact hrun n le_rfl i

end Window
