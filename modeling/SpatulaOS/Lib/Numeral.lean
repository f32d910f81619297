import Mathlib.Data.Nat.Digits.Lemmas

/-!
# Numerals

Positional numerals with the most significant digit first. `value b` reads a row of digits in base `b`, as
a parser does from left to right; `numeral b n` is the row that is written for `n`, without leading
zeros (`canonical_numeral`).
-/

namespace Numeral

variable {b n d k : ℕ} {ds es : List ℕ}

/-- What is read behind `r`, digit for digit. -/
def readFrom (b r : ℕ) (ds : List ℕ) : ℕ := ds.foldl (fun r d => r * b + d) r

/-- The value of a row of digits. -/
def value (b : ℕ) (ds : List ℕ) : ℕ := readFrom b 0 ds

/-- The digits of `n`. -/
def numeral (b n : ℕ) : List ℕ := if n = 0 then [0] else (Nat.digits b n).reverse

/-- The row of digits is the canonical numeral of `n`: zero is written as one digit, and any other
number begins with a digit that is not zero. -/
structure Canonical (b n : ℕ) (ds : List ℕ) : Prop where
  ne_nil : ds ≠ []
  lt : ∀ d ∈ ds, d < b
  zero : n = 0 → ds = [0]
  head : n ≠ 0 → ds.head? ≠ some 0
  value : value b ds = n

theorem readFrom_cons (b r d : ℕ) (ds : List ℕ) : readFrom b r (d :: ds) = readFrom b (r * b + d) ds := rfl

theorem readFrom_eq (b r : ℕ) (ds : List ℕ) : readFrom b r ds = r * b ^ ds.length + value b ds := by
  induction ds generalizing r with
  | nil => rw [List.length_nil, pow_zero, mul_one]; rfl
  | cons d ds ih =>
    rw [value, readFrom_cons, readFrom_cons, ih, ih (0 * b + d), List.length_cons, pow_succ]
    ring

theorem value_append (b : ℕ) (ds es : List ℕ) :
    value b (ds ++ es) = value b ds * b ^ es.length + value b es := by
  rw [← readFrom_eq, value, readFrom, List.foldl_append]
  rfl

theorem value_le_of_prefix (hb : 0 < b) (h : ds <+: es) : value b ds ≤ value b es := by
  obtain ⟨fs, rfl⟩ := h
  rw [value_append]
  exact (Nat.le_mul_of_pos_right _ (Nat.pow_pos hb)).trans (Nat.le_add_right _ _)

theorem value_reverse (b : ℕ) (ds : List ℕ) : value b ds.reverse = Nat.ofDigits b ds := by
  induction ds with
  | nil => rfl
  | cons d ds ih =>
    rw [List.reverse_cons, value_append, ih, Nat.ofDigits_cons, List.length_singleton, pow_one,
      value, readFrom_cons]
    show _ + (0 * b + d) = _
    ring

/-- The numeral of `n` is canonical. -/
theorem canonical_numeral (hb : 1 < b) (n : ℕ) : Canonical b n (numeral b n) := by
  unfold numeral
  by_cases hn : n = 0
  · rw [if_pos hn, hn]
    exact ⟨List.cons_ne_nil _ _, fun d hd => by rw [List.mem_singleton.mp hd]; omega, fun _ => rfl,
      fun h => absurd rfl h, by rw [value, readFrom_cons, Nat.zero_mul]; rfl⟩
  · have hne : Nat.digits b n ≠ [] := Nat.digits_ne_nil_iff_ne_zero.mpr hn
    rw [if_neg hn]
    refine ⟨mt List.reverse_eq_nil_iff.mp hne, fun d hd => Nat.digits_lt_base hb (List.mem_reverse.mp hd),
      fun h => absurd h hn, fun _ => ?_, ?_⟩
    · rw [List.head?_reverse, List.getLast?_eq_some_getLast hne]
      exact fun h => Nat.getLast_digit_ne_zero b hn (Option.some.inj h)
    · rw [value_reverse, Nat.ofDigits_digits]

/-- A number below `b ^ k` has at most `k` digits. -/
theorem length_numeral_le (hb : 1 < b) (hk : 0 < k) (hn : n < b ^ k) : (numeral b n).length ≤ k := by
  unfold numeral
  split_ifs
  · exact hk
  · rw [List.length_reverse]
    exact (Nat.digits_length_le_iff hb n).mpr hn

end Numeral
