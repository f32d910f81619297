import Mathlib.Data.Fintype.EquivFin
import Mathlib.Data.Fintype.Pigeonhole
import Mathlib.Logic.Function.Iterate
import Mathlib.Order.Monotone.Basic

/-!
# Loops on finite types

A loop applies `f` to its state for as long as `c` holds. It ends if some iterate of `f` does not
satisfy `c` (`whileLoop_ends_iff`). On a finite type there are only so many states to go through, so
that it ends exactly if it is in no state twice (`ends_iff`). A loop on a larger state ends if and
only if the loop on the part that decides does (`ends_semiconj`).
-/

namespace Loops

variable {σ τ : Type*} {c : σ → Prop} {f : σ → σ} {s t : σ} {k l : ℕ}

/-- `while (c(s)) s = f(s);` with a bound on the number of its tests. -/
def whileLoop (c : σ → Prop) [DecidablePred c] (f : σ → σ) : ℕ → σ → Option σ
  | 0, _ => none
  | k + 1, s => if c s then whileLoop c f k (f s) else some s

/-- The loop comes to an end. -/
def Ends (c : σ → Prop) (f : σ → σ) (s : σ) : Prop := ∃ k, ¬ c (f^[k] s)

/-- The loop comes back to a state that it was in. -/
def Recurs (c : σ → Prop) (f : σ → σ) (s : σ) : Prop :=
  ∃ i j, i < j ∧ (∀ k, k < j → c (f^[k] s)) ∧ f^[i] s = f^[j] s

/-- The body of the loop is run in the state `t`. -/
def Enters (c : σ → Prop) (f : σ → σ) (s t : σ) : Prop := ∃ k, (∀ i, i ≤ k → c (f^[i] s)) ∧ f^[k] s = t

theorem Enters.first (h : c s) : Enters c f s s :=
  ⟨0, fun i hi => by rw [Nat.le_zero.mp hi]; exact h, rfl⟩

theorem Enters.eq_first (hend : ¬ c (f s)) (ht : Enters c f s t) : t = s := by
  obtain ⟨k, hruns, rfl⟩ := ht
  obtain rfl | hpos := Nat.eq_zero_or_pos k
  · rfl
  · exact absurd (hruns 1 hpos) hend

theorem Enters.later (h : c s) (ht : Enters c f (f s) t) : Enters c f s t := by
  obtain ⟨k, hruns, hk⟩ := ht
  refine ⟨k + 1, fun i hi => ?_, hk⟩
  cases i with
  | zero => exact h
  | succ i => exact hruns i (Nat.le_of_succ_le_succ hi)

/-! ### The bound -/

section Bound

variable [DecidablePred c]

theorem whileLoop_isSome_iff : (∃ t, whileLoop c f k s = some t) ↔ ∃ i, i < k ∧ ¬ c (f^[i] s) := by
  induction k generalizing s with
  | zero => exact iff_of_false (fun ⟨_, h⟩ => absurd h nofun) fun ⟨_, h, _⟩ => Nat.not_lt_zero _ h
  | succ k ih =>
    rw [whileLoop]
    by_cases hc : c s
    · rw [if_pos hc, ih]
      constructor
      · rintro ⟨i, hi, h⟩
        exact ⟨i + 1, Nat.succ_lt_succ hi, h⟩
      · rintro ⟨i, hi, h⟩
        cases i with
        | zero => exact absurd hc h
        | succ i => exact ⟨i, Nat.lt_of_succ_lt_succ hi, h⟩
    · rw [if_neg hc]
      exact iff_of_true ⟨s, rfl⟩ ⟨0, Nat.succ_pos k, hc⟩

/-- The loop gives a result with some bound if it ends. -/
theorem whileLoop_ends_iff : (∃ k t, whileLoop c f k s = some t) ↔ Ends c f s := by
  constructor
  · rintro ⟨k, h⟩
    obtain ⟨i, -, hi⟩ := whileLoop_isSome_iff.mp h
    exact ⟨i, hi⟩
  · rintro ⟨i, hi⟩
    exact ⟨i + 1, whileLoop_isSome_iff.mpr ⟨i, Nat.lt_succ_self i, hi⟩⟩

theorem whileLoop_mono (h : whileLoop c f k s = some t) (hk : k ≤ l) : whileLoop c f l s = some t := by
  induction k generalizing l s with
  | zero => exact absurd h nofun
  | succ k ih =>
    obtain ⟨l, rfl⟩ : ∃ j, l = j + 1 := ⟨l - 1, by omega⟩
    rw [whileLoop] at h ⊢
    split_ifs at h ⊢ with hc
    · exact ih h (Nat.le_of_succ_le_succ hk)
    · exact h

end Bound

/-! ### Loops that end -/

/-- A loop that has come back goes on for ever. -/
theorem Recurs.not_ends (h : Recurs c f s) : ¬ Ends c f s := by
  obtain ⟨i, j, hij, hruns, heq⟩ := h
  have hall (k : ℕ) : c (f^[k] s) := by
    induction k using Nat.strong_induction_on with
    | _ k ih =>
      by_cases hk : k < j
      · exact hruns k hk
      · -- the state was the same one round before
        have hback : f^[k] s = f^[k - j + i] s := by
          rw [Function.iterate_add_apply, heq, ← Function.iterate_add_apply,
            Nat.sub_add_cancel (Nat.le_of_not_lt hk)]
        rw [hback]
        exact ih _ (by omega)
  rintro ⟨k, hk⟩
  exact hk (hall k)

/-- On a finite type a loop ends if and only if it is in no state twice. -/
theorem ends_iff [Finite σ] : Ends c f s ↔ ¬ Recurs c f s := by
  refine ⟨fun h hr => hr.not_ends h, fun h => ?_⟩
  by_contra hends
  have hall (k : ℕ) : c (f^[k] s) := by
    by_contra hk
    exact hends ⟨k, hk⟩
  obtain ⟨i, j, hne, heq⟩ := Finite.exists_ne_map_eq_of_infinite fun k => f^[k] s
  obtain hlt | hlt := Nat.lt_or_gt_of_ne hne
  · exact h ⟨i, j, hlt, fun k _ => hall k, heq⟩
  · exact h ⟨j, i, hlt, fun k _ => hall k, heq.symm⟩

/-- A loop in which something grows is in no state twice. -/
theorem not_recurs_of_lt {μ : σ → ℕ} (hμ : ∀ t, Enters c f s t → μ t < μ (f t)) : ¬ Recurs c f s := by
  rintro ⟨i, j, hij, hruns, heq⟩
  have hstep (k : ℕ) (hk : k < j) : μ (f^[k] s) < μ (f^[k + 1] s) := by
    rw [Function.iterate_succ_apply']
    exact hμ _ ⟨k, fun l hl => hruns l (by omega), rfl⟩
  have hgrows (d : ℕ) (hd : i + d + 1 ≤ j) : μ (f^[i] s) < μ (f^[i + d + 1] s) := by
    induction d with
    | zero => exact hstep i (by omega)
    | succ d ih => exact (ih (by omega)).trans (hstep (i + d + 1) (by omega))
  have hlt := hgrows (j - i - 1) (by omega)
  rw [show i + (j - i - 1) + 1 = j by omega, heq] at hlt
  exact lt_irrefl _ hlt

/-- The part of the state that decides when the loop ends. -/
theorem ends_semiconj {g : τ → σ} {F : τ → τ} (h : Function.Semiconj g F f) (x : τ) :
    Ends (fun x => c (g x)) F x ↔ Ends c f (g x) :=
  exists_congr fun k => not_congr (iff_of_eq (congrArg c ((h.iterate_right k).eq x)))

end Loops
