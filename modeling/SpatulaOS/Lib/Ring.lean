import Mathlib.Data.List.Basic
import Mathlib.Data.Nat.ModEq
import Mathlib.Logic.Function.Basic

/-!
# Rings that overwrite

A ring of `n` slots has a head, where the next item is stored, and a tail, where the next
one is read. Storing never looks at the tail: a ring that is full counts as empty, and the
items that are stored from then on overwrite older ones.

`Ring.Holds` relates a ring to the list of all the items that were ever stored and to the
number `p` of the next item to be read. What is read is the newest item whose number is
`p` modulo `n` (`Holds.read`), so that items may be lost but never come out of order; and
as long as fewer than `n` items wait the ring has exactly these (`Holds.contents`).
-/

namespace OverwritingRing

/-- A ring of `n` slots. -/
structure Ring (α : Type*) (n : ℕ) where
  /-- The slots. -/
  slot : ℕ → α
  /-- Where the next item is stored. -/
  head : ℕ
  /-- Where the next item is read. -/
  tail : ℕ
  head_lt : head < n
  tail_lt : tail < n

variable {α : Type*} {n p k : ℕ} {r : Ring α n} {l d : List α}

theorem Ring.pos (r : Ring α n) : 0 < n := Nat.zero_lt_of_lt r.head_lt

/-- The ring with `c` stored. -/
def Ring.push (r : Ring α n) (c : α) : Ring α n where
  slot := Function.update r.slot r.head c
  head := (r.head + 1) % n
  tail := r.tail
  head_lt := Nat.mod_lt _ r.pos
  tail_lt := r.tail_lt

/-- The ring with the tail moved forward. -/
def Ring.advance (r : Ring α n) : Ring α n where
  slot := r.slot
  head := r.head
  tail := (r.tail + 1) % n
  head_lt := r.head_lt
  tail_lt := Nat.mod_lt _ r.pos

/-- What a reader finds from the tail to the head. -/
def Ring.contents (r : Ring α n) : List α :=
  (List.range ((r.head + n - r.tail) % n)).map fun i => r.slot ((r.tail + i) % n)

/-- The items `l` were stored, and the next one to be read has the number `p`. -/
structure Ring.Holds (r : Ring α n) (l : List α) (p : ℕ) : Prop where
  head : r.head = l.length % n
  tail : r.tail = p % n
  le : p ≤ l.length
  /-- The last `n` items are in their slots. -/
  slot : ∀ k, (hk : k < l.length) → l.length ≤ k + n → r.slot (k % n) = l[k]

/-- Numbers less than `n` apart have slots of their own. -/
theorem eq_of_mod_eq {a b : ℕ} (hab : a ≤ b) (hlt : b < a + n) (h : b % n = a % n) : b = a := by
  have hdvd := Nat.dvd_of_mod_eq_zero (Nat.sub_mod_eq_zero_of_mod_eq h)
  have hzero := Nat.eq_zero_of_dvd_of_lt hdvd (by omega)
  omega

/-- Storing an item. -/
theorem Ring.Holds.push (h : r.Holds l p) (c : α) : (r.push c).Holds (l ++ [c]) p := by
  refine ⟨?_, h.tail, ?_, fun k hk hlast => ?_⟩
  · show (r.head + 1) % n = (l ++ [c]).length % n
    rw [h.head, List.length_append, List.length_singleton, Nat.mod_add_mod]
  · rw [List.length_append]
    exact h.le.trans (Nat.le_add_right _ _)
  · rw [List.length_append, List.length_singleton] at hk hlast
    show Function.update r.slot r.head c (k % n) = _
    rw [h.head]
    by_cases hkl : k = l.length
    · subst hkl
      rw [Function.update_self, List.getElem_append_right le_rfl]
      simp
    · have hklt : k < l.length := by omega
      have hne : k % n ≠ l.length % n := fun he => by
        have := eq_of_mod_eq hklt.le (by omega) he.symm
        omega
      rw [Function.update_of_ne hne, List.getElem_append_left hklt]
      exact h.slot k hklt (by omega)

/-- A ring that does not look empty has an item to be read. -/
theorem Ring.Holds.lt (h : r.Holds l p) (hne : r.head ≠ r.tail) : p < l.length := by
  apply Nat.lt_of_le_of_ne h.le
  rintro rfl
  exact hne (h.head.trans h.tail.symm)

/-- A ring in which some items wait, but fewer than `n`, does not look empty. -/
theorem Ring.Holds.ne (h : r.Holds l p) (hp : p < l.length) (hlt : l.length < p + n) : r.head ≠ r.tail := by
  intro he
  rw [h.head, h.tail] at he
  exact hp.ne' (eq_of_mod_eq hp.le hlt he)

/-- What is read is an item not read before: the next one, or if that is overwritten a later
one. -/
theorem Ring.Holds.read (h : r.Holds l p) (hp : p < l.length) :
    ∃ k, ∃ hk : k < l.length, p ≤ k ∧ k % n = p % n ∧ r.slot r.tail = l[k] ∧ (l.length ≤ p + n → k = p) := by
  have hn := r.pos
  have hdm := Nat.div_add_mod (l.length - 1 - p) n
  have hmod := Nat.mod_lt (l.length - 1 - p) hn
  have hk : p + n * ((l.length - 1 - p) / n) < l.length := by omega
  have hkp : (p + n * ((l.length - 1 - p) / n)) % n = p % n := Nat.add_mul_mod_self_left _ _ _
  refine ⟨p + n * ((l.length - 1 - p) / n), hk, Nat.le_add_right _ _, hkp, ?_, fun hle => ?_⟩
  · rw [h.tail, ← hkp]
    exact h.slot _ hk (by omega)
  · rw [Nat.div_eq_of_lt (by omega), Nat.mul_zero, Nat.add_zero]

/-- Moving the tail behind the item that was read. -/
theorem Ring.Holds.advance (h : r.Holds l p) (hk : k < l.length) (hkp : k % n = p % n) :
    r.advance.Holds l (k + 1) := by
  refine ⟨h.head, ?_, hk, h.slot⟩
  show (r.tail + 1) % n = (k + 1) % n
  rw [h.tail, ← hkp, Nat.mod_add_mod]

/-- Nothing is lost as long as fewer than `n` items wait. -/
theorem Ring.Holds.contents (h : r.Holds l p) (hlt : l.length < p + n) : r.contents = l.drop p := by
  have hle := h.le
  have hn := r.pos
  have hcount : (r.head + n - r.tail) % n = l.length - p := by
    have hmod : (r.head + n - r.tail) % n = (l.length - p) % n := by
      have htail := r.tail_lt
      have h1 : r.head + n - r.tail + r.tail ≡ l.length - p + p [MOD n] := by
        rw [Nat.sub_add_cancel (by omega), Nat.sub_add_cancel hle, Nat.ModEq, Nat.add_mod_right,
          h.head, Nat.mod_mod]
      have h2 : r.tail ≡ p [MOD n] := by rw [Nat.ModEq, h.tail, Nat.mod_mod]
      exact h2.add_right_cancel h1
    rw [hmod, Nat.mod_eq_of_lt (by omega)]
  refine List.ext_getElem ?_ fun i h1 h2 => ?_
  · rw [Ring.contents, List.length_map, List.length_range, List.length_drop, hcount]
  · rw [List.length_drop] at h2
    rw [List.getElem_drop]
    simp only [Ring.contents, List.getElem_map, List.getElem_range]
    rw [h.tail, Nat.mod_add_mod]
    exact h.slot _ (by omega) (by omega)

/-! ### What comes out -/

/-- Items that come out in the order of their numbers are a part of what was stored. -/
theorem sublist_take_succ (hd : d.Sublist (l.take p)) (hpk : p ≤ k) (hk : k < l.length) :
    (d ++ [l[k]]).Sublist (l.take (k + 1)) := by
  rw [List.take_succ_eq_append_getElem hk]
  exact (hd.trans (List.take_sublist_take_left hpk)).append (List.Sublist.refl _)

end OverwritingRing
