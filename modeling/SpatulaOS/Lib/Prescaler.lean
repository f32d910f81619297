import Mathlib.Data.Nat.Basic
import Mathlib.Algebra.Order.Ring.Nat
import Mathlib.Tactic.Ring

/-!
# Prescalers

A counter is stepped `n` times and wraps round at `M`. Each step that brings it to a multiple of `d` is
counted by a second counter, so that the second one runs at a `d`-th of the rate. Zero is a multiple of `d`
too: every wrap is counted. In one round of `M` steps that makes `⌈M / d⌉` of them (`carries_rounds`), which
is more than `M / d` unless `d` divides `M`. The difference adds up over the rounds (`carries_eq`).
-/

namespace Prescaler

/-- How often a counter that wraps round at `M` comes to a multiple of `d` in `n` steps from zero. -/
def carries (M d : ℕ) : ℕ → ℕ
  | 0 => 0
  | n + 1 => carries M d n + if (n + 1) % M % d = 0 then 1 else 0

/-- What one round of `M` steps leaves over: `M` is this much short of a multiple of `d`. -/
def shortfall (M d : ℕ) : ℕ := ((M - 1) / d + 1) * d - M

/-- How many of the multiples that are counted in `n` steps the wraps have added: `⌈(q e - t) / d⌉` after `q`
rounds, where `e` is the shortfall and `t` the number of steps since the last multiple. -/
def surplus (M d n : ℕ) : ℕ := (n / M * shortfall M d + (d - 1 - n % M % d)) / d

variable {M d : ℕ}

/-- The count as a number of whole rounds and the part of one. -/
theorem carries_rounds (hM : 0 < M) (n : ℕ) : carries M d n = n / M * ((M - 1) / d + 1) + n % M / d := by
  induction n with
  | zero => simp [carries]
  | succ n ih =>
    rw [carries, ih]
    by_cases hw : n % M + 1 = M
    · -- The counter wraps round: the round that ends has had `(M - 1) / d` multiples before its end.
      have hdvd : M ∣ n + 1 := Nat.dvd_of_mod_eq_zero (by rw [← Nat.mod_add_mod, hw, Nat.mod_self])
      rw [Nat.succ_div_of_dvd hdvd, Nat.mod_eq_zero_of_dvd hdvd, Nat.zero_mod, if_pos rfl, Nat.zero_div,
        Nat.add_one_mul, show n % M = M - 1 by omega]
      omega
    · have hlt : n % M + 1 < M := by have := Nat.mod_lt n hM; omega
      have hdvd : ¬ M ∣ n + 1 := fun h => by
        have := Nat.mod_eq_zero_of_dvd h
        rw [← Nat.mod_add_mod, Nat.mod_eq_of_lt hlt] at this
        omega
      have hmod : (n + 1) % M = n % M + 1 := by rw [← Nat.mod_add_mod, Nat.mod_eq_of_lt hlt]
      rw [Nat.succ_div_of_not_dvd hdvd, hmod, Nat.succ_div, Nat.add_assoc]
      simp only [Nat.dvd_iff_mod_eq_zero]

theorem le_rounds (hd : 0 < d) : M ≤ ((M - 1) / d + 1) * d := by
  have := Nat.lt_div_mul_add (a := M - 1) hd
  rw [Nat.add_one_mul]
  omega

/-- The second counter is ahead of `n / d` by what the wraps have added. -/
theorem carries_eq (hM : 0 < M) (hd : 0 < d) (n : ℕ) : carries M d n = n / d + surplus M d n := by
  rw [carries_rounds hM, surplus]
  set c := (M - 1) / d + 1 with hc
  set t := n % M % d with ht
  have htd : t < d := Nat.mod_lt _ hd
  have hbd : n % d < d := Nat.mod_lt _ hd
  -- With the shortfall of every round the steps are whole multiples of `d`, but for `t`.
  have hn : n + n / M * shortfall M d = d * (n / M * c + n % M / d) + t := by
    have he : shortfall M d + M = c * d := Nat.sub_add_cancel (le_rounds hd)
    calc n + n / M * shortfall M d
        = (M * (n / M) + n % M) + n / M * shortfall M d := by rw [Nat.div_add_mod]
      _ = n / M * (shortfall M d + M) + n % M := by ring
      _ = n / M * (c * d) + (d * (n % M / d) + t) := by rw [he, ht, Nat.div_add_mod]
      _ = d * (n / M * c + n % M / d) + t := by ring
  generalize n / M * c + n % M / d = x at hn ⊢
  have hdiv := Nat.div_add_mod n d
  have hle : n / d ≤ x := by
    refine Nat.le_of_lt_succ (Nat.lt_of_mul_lt_mul_left (a := d) ?_)
    rw [Nat.mul_succ]
    omega
  have hsub : d * (x - n / d) = d * x - d * (n / d) := Nat.mul_sub d x (n / d)
  have hmul : d * (n / d) ≤ d * x := Nat.mul_le_mul_left d hle
  have hs : n / M * shortfall M d + (d - 1 - t) = d * (x - n / d) + (d - 1 - n % d) := by omega
  rw [hs, Nat.mul_add_div hd, Nat.div_eq_of_lt (by omega : d - 1 - n % d < d)]
  omega

end Prescaler
