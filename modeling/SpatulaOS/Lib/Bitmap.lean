import Mathlib.Data.Finset.Card
import Mathlib.Data.Finset.Range
import Mathlib.Logic.Function.Basic

/-!
# Bitmaps

A bitmap is a sequence of words of `w` bits; bit `f` is bit `f % w` of word `f / w`.
A bit is set and cleared with a mask in its word, which leaves the other bits alone
(`test_mark`, `test_unmark`). `firstClear` searches a number of whole words for a
clear bit, word by word, and finds the least one (`firstClear_eq_some`). The clear
bits below a bound are a finite set, `clear`, which a mark takes a bit from and an
unmark adds one to.
-/

namespace WordBitmap

/-- The words of a bitmap. -/
abbrev Bitmap (w : ℕ) := ℕ → BitVec w

variable {w : ℕ} {b : Bitmap w} {f g i j n : ℕ}

/-- Bit `f`. -/
def test (b : Bitmap w) (f : ℕ) : Bool := (b (f / w)).getLsbD (f % w)

/-- The bitmap with bit `f` set. -/
def mark (b : Bitmap w) (f : ℕ) : Bitmap w :=
  Function.update b (f / w) (b (f / w) ||| 1#w <<< (f % w))

/-- The bitmap with bit `f` cleared. -/
def unmark (b : Bitmap w) (f : ℕ) : Bitmap w :=
  Function.update b (f / w) (b (f / w) &&& ~~~(1#w <<< (f % w)))

/-! ### One bit -/

theorem getLsbD_mask (hj : j < w) : (1#w <<< j).getLsbD i = decide (i = j) := by
  rw [BitVec.getLsbD_shiftLeft, BitVec.getLsbD_one, Bool.eq_iff_iff]
  simp only [Bool.and_eq_true, decide_eq_true_eq, Bool.not_eq_true', decide_eq_false_iff_not]
  omega

theorem and_mask_eq_zero (x : BitVec w) (hj : j < w) : x &&& 1#w <<< j = 0#w ↔ x.getLsbD j = false := by
  constructor
  · intro h
    have hbit := congrArg (fun y => y.getLsbD j) h
    simpa only [BitVec.getLsbD_and, getLsbD_mask hj, decide_true, Bool.and_true,
      BitVec.getLsbD_zero] using hbit
  · intro h
    refine BitVec.eq_of_getLsbD_eq fun i _ => ?_
    rw [BitVec.getLsbD_and, getLsbD_mask hj, BitVec.getLsbD_zero]
    by_cases hij : i = j
    · rw [hij, h, Bool.false_and]
    · rw [decide_eq_false hij, Bool.and_false]

/-- Two bits are the same if they are in the same place of the same word. -/
theorem eq_of_div_mod (hd : f / w = g / w) (hm : f % w = g % w) : f = g := by
  rw [← Nat.div_add_mod f w, ← Nat.div_add_mod g w, hd, hm]

theorem test_mark (hw : 0 < w) (b : Bitmap w) (f g : ℕ) :
    test (mark b f) g = (test b g || decide (g = f)) := by
  unfold test mark
  by_cases hd : g / w = f / w
  · rw [hd, Function.update_self, BitVec.getLsbD_or, getLsbD_mask (Nat.mod_lt f hw)]
    congr 1
    rw [decide_eq_decide]
    exact ⟨fun hm => eq_of_div_mod hd hm, fun h => by rw [h]⟩
  · rw [Function.update_of_ne hd, decide_eq_false fun h => hd (by rw [h]), Bool.or_false]

theorem test_unmark (hw : 0 < w) (b : Bitmap w) (f g : ℕ) :
    test (unmark b f) g = (test b g && !decide (g = f)) := by
  unfold test unmark
  by_cases hd : g / w = f / w
  · rw [hd, Function.update_self, BitVec.getLsbD_and, BitVec.getLsbD_not, getLsbD_mask (Nat.mod_lt f hw),
      decide_eq_true (Nat.mod_lt g hw), Bool.true_and]
    congr 2
    rw [decide_eq_decide]
    exact ⟨fun hm => eq_of_div_mod hd hm, fun h => by rw [h]⟩
  · rw [Function.update_of_ne hd, decide_eq_false fun h => hd (by rw [h]), Bool.not_false, Bool.and_true]

theorem test_word (hj : j < w) : test b (i * w + j) = (b i).getLsbD j := by
  have hw : 0 < w := by omega
  rw [test, Nat.mul_comm i w, Nat.mul_add_div hw, Nat.div_eq_of_lt hj, Nat.add_zero, Nat.mul_add_mod,
    Nat.mod_eq_of_lt hj]

/-- Two bitmaps with the same bits have the same words. -/
theorem eq_of_test {b' : Bitmap w} (h : ∀ f, test b f = test b' f) : b = b' := by
  funext i
  refine BitVec.eq_of_getLsbD_eq fun j hj => ?_
  rw [← test_word hj, ← test_word hj, h]

/-- A bit that was clear is set and cleared again. -/
theorem unmark_mark (hw : 0 < w) (h : test b f = false) : unmark (mark b f) f = b := by
  refine eq_of_test fun g => ?_
  rw [test_unmark hw, test_mark hw]
  by_cases hg : g = f
  · rw [hg, decide_eq_true rfl, Bool.not_true, Bool.and_false, h]
  · rw [decide_eq_false hg, Bool.or_false, Bool.not_false, Bool.and_true]

/-- A bit below a number of words is a bit of one of them. -/
theorem exists_word (hf : f < n * w) : ∃ i j, i < n ∧ j < w ∧ f = i * w + j := by
  have hw : 0 < w := Nat.pos_of_ne_zero fun h => by rw [h, Nat.mul_zero] at hf; exact Nat.not_lt_zero f hf
  exact ⟨f / w, f % w, (Nat.div_lt_iff_lt_mul hw).mpr hf, Nat.mod_lt f hw, (Nat.div_add_mod' f w).symm⟩

/-! ### The search for a clear bit -/

/-- The first clear bit of a word, from bit `i * w` of the bitmap on. -/
def firstClearOf (x : BitVec w) (i : ℕ) : Option ℕ :=
  (List.range w).findSome? fun j => if x &&& 1#w <<< j = 0 then some (i * w + j) else none

/-- The first clear bit of the first `n` words; full words are skipped. -/
def firstClear (n : ℕ) (b : Bitmap w) : Option ℕ :=
  (List.range n).findSome? fun i => if b i ≠ BitVec.allOnes w then firstClearOf (b i) i else none

theorem findSome?_range {α : Type*} {p : ℕ → Option α} {a : α} (h : (List.range n).findSome? p = some a) :
    ∃ i, i < n ∧ p i = some a ∧ ∀ j, j < i → p j = none := by
  induction n with
  | zero => exact absurd h (by simp)
  | succ n ih =>
    rw [List.range_succ, List.findSome?_append] at h
    cases hn : (List.range n).findSome? p with
    | some c =>
      rw [hn, Option.some_or] at h
      obtain ⟨i, hi, hpi, hmin⟩ := ih (hn.trans h)
      exact ⟨i, by omega, hpi, hmin⟩
    | none =>
      rw [hn, Option.none_or, List.findSome?_singleton] at h
      rw [List.findSome?_eq_none_iff] at hn
      exact ⟨n, Nat.lt_succ_self n, h, fun j hj => hn j (List.mem_range.mpr hj)⟩

theorem firstClearOf_eq_some (h : firstClearOf (b i) i = some f) :
    ∃ j, j < w ∧ f = i * w + j ∧ test b f = false ∧ ∀ k, k < j → test b (i * w + k) = true := by
  obtain ⟨j, hj, hp, hmin⟩ := findSome?_range h
  split_ifs at hp with h0
  obtain rfl := Option.some.inj hp
  refine ⟨j, hj, rfl, by rw [test_word hj]; exact (and_mask_eq_zero _ hj).mp h0, fun k hk => ?_⟩
  have hkn := hmin k hk
  split_ifs at hkn with hk0
  rw [test_word (by omega)]
  rwa [← Bool.not_eq_false, ← and_mask_eq_zero _ (by omega)]

theorem firstClearOf_eq_none (h : firstClearOf (b i) i = none) (hj : j < w) : test b (i * w + j) = true := by
  have hjn := List.findSome?_eq_none_iff.mp h j (List.mem_range.mpr hj)
  split_ifs at hjn with h0
  rwa [test_word hj, ← Bool.not_eq_false, ← and_mask_eq_zero _ hj]

/-- A word in which the search finds nothing is full. -/
theorem test_of_skipped (h : (if b i ≠ BitVec.allOnes w then firstClearOf (b i) i else none) = none)
    (hj : j < w) : test b (i * w + j) = true := by
  split_ifs at h with hones
  · exact firstClearOf_eq_none h hj
  · rw [ne_eq, not_not] at hones
    rw [test_word hj, hones, BitVec.getLsbD_allOnes, decide_eq_true hj]

/-- The search finds the least clear bit. -/
theorem firstClear_eq_some (h : firstClear n b = some f) :
    f < n * w ∧ test b f = false ∧ ∀ g, g < f → test b g = true := by
  obtain ⟨i, hi, hp, hmin⟩ := findSome?_range h
  split_ifs at hp
  obtain ⟨j, hj, rfl, hf, hbelow⟩ := firstClearOf_eq_some hp
  have hn : (i + 1) * w ≤ n * w := Nat.mul_le_mul_right w hi
  rw [Nat.succ_mul] at hn
  refine ⟨by omega, hf, fun g hg => ?_⟩
  have hg' : g < (i + 1) * w := by rw [Nat.succ_mul]; omega
  obtain ⟨i', j', hi', hj', rfl⟩ := exists_word hg'
  obtain hlt | rfl := Nat.lt_or_eq_of_le (Nat.le_of_lt_succ hi')
  · exact test_of_skipped (hmin i' hlt) hj'
  · exact hbelow j' (by omega)

/-- The search finds nothing only if every bit is set. -/
theorem firstClear_eq_none (h : firstClear n b = none) (hf : f < n * w) : test b f = true := by
  obtain ⟨i, j, hi, hj, rfl⟩ := exists_word hf
  exact test_of_skipped (List.findSome?_eq_none_iff.mp h i (List.mem_range.mpr hi)) hj

/-! ### The set of clear bits -/

/-- The clear bits below `n`. -/
def clear (b : Bitmap w) (n : ℕ) : Finset ℕ := (Finset.range n).filter fun f => test b f = false

@[simp] theorem mem_clear : f ∈ clear b n ↔ f < n ∧ test b f = false := by
  rw [clear, Finset.mem_filter, Finset.mem_range]

theorem clear_mark (hw : 0 < w) : clear (mark b f) n = (clear b n).erase f := by
  ext g
  rw [Finset.mem_erase, mem_clear, mem_clear, test_mark hw, Bool.or_eq_false_iff, decide_eq_false_iff_not]
  tauto

theorem clear_unmark (hw : 0 < w) (hf : f < n) : clear (unmark b f) n = insert f (clear b n) := by
  ext g
  rw [Finset.mem_insert, mem_clear, mem_clear, test_unmark hw, Bool.and_eq_false_iff, Bool.not_eq_false',
    decide_eq_true_eq]
  constructor
  · rintro ⟨hg, h | h⟩
    · exact .inr ⟨hg, h⟩
    · exact .inl h
  · rintro (rfl | ⟨hg, h⟩)
    · exact ⟨hf, .inr rfl⟩
    · exact ⟨hg, .inl h⟩

theorem countP_clear (b : Bitmap w) (n : ℕ) :
    (List.range n).countP (fun f => test b f = false) = (clear b n).card := by
  rw [List.countP_eq_length_filter]
  rfl

end WordBitmap
