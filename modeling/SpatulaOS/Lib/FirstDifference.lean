import Mathlib.Algebra.Order.Group.Defs
import Mathlib.Algebra.Order.Group.Basic
import Mathlib.Data.List.Lex
import Mathlib.Data.Sign.Defs
import Mathlib.Order.Defs.Unbundled

/-!
# Comparison by the first difference

Two lists over an ordered group are compared by the difference at the first place in which they
differ; what is behind the end of a list counts as `0`. Lists that have no `0` of their own are
compared as the lists with a `0` behind them are in the lexicographic order (`firstDiff_neg_iff`),
so that this is a linear order on them (`isLinearOrder_firstDiff`). Elements below `0` are smaller
than the end: a list need not be larger than its prefixes.
-/

namespace FirstDifference

variable {α : Type*} [AddCommGroup α] [LinearOrder α]

/-- The first difference. -/
def firstDiff : List α → List α → α
  | x :: xs, y :: ys => if x ≠ y then x - y else firstDiff xs ys
  | [], [] => 0
  | x :: _, [] => x
  | [], y :: _ => -y

variable {xs ys zs : List α}

@[simp] theorem firstDiff_self (xs : List α) : firstDiff xs xs = 0 := by
  induction xs with
  | nil => rfl
  | cons x xs ih => rw [firstDiff, if_neg (not_not.mpr rfl), ih]

/-- Compared the other way round the difference is the opposite one. -/
theorem firstDiff_swap (xs ys : List α) : firstDiff ys xs = -firstDiff xs ys := by
  induction xs generalizing ys with
  | nil =>
    cases ys with
    | nil => exact neg_zero.symm
    | cons y ys => exact (neg_neg y).symm
  | cons x xs ih =>
    cases ys with
    | nil => rfl
    | cons y ys =>
      rw [firstDiff, firstDiff]
      by_cases hxy : x = y
      · rw [if_neg (not_not.mpr hxy.symm), if_neg (not_not.mpr hxy), ih]
      · rw [if_pos (Ne.symm hxy), if_pos hxy, neg_sub]

theorem firstDiff_eq_zero_iff (hx : 0 ∉ xs) (hy : 0 ∉ ys) : firstDiff xs ys = 0 ↔ xs = ys := by
  refine ⟨fun h => ?_, fun h => by rw [h, firstDiff_self]⟩
  induction xs generalizing ys with
  | nil =>
    cases ys with
    | nil => rfl
    | cons y ys => exact absurd (neg_eq_zero.mp h).symm (List.ne_of_not_mem_cons hy)
  | cons x xs ih =>
    cases ys with
    | nil => exact absurd h.symm (List.ne_of_not_mem_cons hx)
    | cons y ys =>
      rw [firstDiff] at h
      split_ifs at h with hxy
      · exact absurd (sub_eq_zero.mp h) hxy
      · rw [not_not.mp hxy, ih (List.not_mem_of_not_mem_cons hx) (List.not_mem_of_not_mem_cons hy) h]

variable [IsOrderedAddMonoid α]

/-- The difference is negative if the one list is before the other, each with its end. -/
theorem firstDiff_neg_iff (hx : 0 ∉ xs) (hy : 0 ∉ ys) : firstDiff xs ys < 0 ↔ xs ++ [0] < ys ++ [0] := by
  induction xs generalizing ys with
  | nil =>
    cases ys with
    | nil => exact iff_of_false (lt_irrefl _) (lt_irrefl _)
    | cons y ys =>
      have h0 : 0 ≠ y := List.ne_of_not_mem_cons hy
      rw [firstDiff, List.nil_append, List.cons_append, List.cons_lt_cons_iff, neg_neg_iff_pos]
      exact ⟨.inl, fun h => h.resolve_right fun h => h0 h.1⟩
  | cons x xs ih =>
    cases ys with
    | nil =>
      have h0 : 0 ≠ x := List.ne_of_not_mem_cons hx
      rw [firstDiff, List.nil_append, List.cons_append, List.cons_lt_cons_iff]
      exact ⟨.inl, fun h => h.resolve_right fun h => h0 h.1.symm⟩
    | cons y ys =>
      rw [firstDiff, List.cons_append, List.cons_append, List.cons_lt_cons_iff]
      split_ifs with hxy
      · rw [sub_neg]
        exact ⟨.inl, fun h => h.resolve_right fun h => hxy h.1⟩
      · rw [not_not] at hxy
        rw [ih (List.not_mem_of_not_mem_cons hx) (List.not_mem_of_not_mem_cons hy), hxy]
        exact ⟨fun h => .inr ⟨rfl, h⟩, fun h => (h.resolve_left (lt_irrefl y)).2⟩

theorem firstDiff_nonpos_iff (hx : 0 ∉ xs) (hy : 0 ∉ ys) : firstDiff xs ys ≤ 0 ↔ xs ++ [0] ≤ ys ++ [0] := by
  rw [← not_lt, ← not_lt, ← firstDiff_neg_iff hy hx, firstDiff_swap xs ys, neg_neg_iff_pos]

theorem firstDiff_trans (hx : 0 ∉ xs) (hy : 0 ∉ ys) (hz : 0 ∉ zs) (h : firstDiff xs ys < 0)
    (h' : firstDiff ys zs < 0) : firstDiff xs zs < 0 := by
  rw [firstDiff_neg_iff hx hz]
  exact ((firstDiff_neg_iff hx hy).mp h).trans ((firstDiff_neg_iff hy hz).mp h')

/-- The comparison is a linear order on values that are told apart by lists without `0`. -/
theorem isLinearOrder_firstDiff {β : Type*} {key : β → List α} (hinj : Function.Injective key)
    (h0 : ∀ b, 0 ∉ key b) : IsLinearOrder β fun a b => firstDiff (key a) (key b) ≤ 0 where
  refl a := (firstDiff_self (key a)).le
  trans a b c hab hbc := by
    rw [firstDiff_nonpos_iff (h0 _) (h0 _)] at hab hbc ⊢
    exact hab.trans hbc
  antisymm a b hab hba := by
    rw [firstDiff_nonpos_iff (h0 _) (h0 _)] at hab hba
    exact hinj (List.append_cancel_right (hab.antisymm hba))
  total a b := by
    rw [firstDiff_nonpos_iff (h0 _) (h0 _), firstDiff_nonpos_iff (h0 _) (h0 _)]
    exact le_total _ _

end FirstDifference
