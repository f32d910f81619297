import Mathlib.Data.Fintype.Pigeonhole
import Mathlib.Data.List.Nodup
import Mathlib.Logic.Function.Iterate

/-!
# Finding a cycle with two pointers

A chain of pointers is a function `f` on a finite type, followed from `x` up to the first
`null`; what `f` gives at `null` does not matter. `race` sends two pointers along the chain,
one twice as fast as the other, until the fast one meets `null` or the slow one. It ends,
and it reports a cycle exactly when the chain never comes to `null` (`race_spec`).
A chain that does is a list of distinct pointers (`Chain.of_iterate`, `Chain.nodup`).
-/

namespace Floyd

variable {α : Type*} {f : α → α} {null x y : α} {l l' : List α} {k i j : ℕ}

/-! ### Chains that end -/

/-- The chain from `x` is the list `l`, with `null` after it. -/
inductive Chain (f : α → α) (null : α) : α → List α → Prop
  /-- The empty chain. -/
  | nil : Chain f null null []
  /-- One more pointer in front. -/
  | cons {x : α} {l : List α} : x ≠ null → Chain f null (f x) l → Chain f null x (x :: l)

theorem Chain.unique (h : Chain f null x l) (h' : Chain f null x l') : l = l' := by
  induction h generalizing l' with
  | nil =>
    cases h' with
    | nil => rfl
    | cons hx _ => exact absurd rfl hx
  | cons hx _ ih =>
    cases h' with
    | nil => exact absurd rfl hx
    | cons _ h' => rw [ih h']

/-- The pointer after one of the chain is one of the chain, unless it is `null`. -/
theorem Chain.next_mem (h : Chain f null x l) (hy : y ∈ l) (hne : f y ≠ null) : f y ∈ l := by
  induction h with
  | nil => exact absurd hy List.not_mem_nil
  | @cons x l _ h ih =>
    obtain rfl | hy := List.mem_cons.mp hy
    · cases h with
      | nil => exact absurd rfl hne
      | cons => exact List.mem_cons_of_mem _ List.mem_cons_self
    · exact List.mem_cons_of_mem _ (ih hy)

/-- From a pointer of the chain on, the chain is no longer. -/
theorem Chain.from_mem (h : Chain f null x l) (hy : y ∈ l) :
    ∃ l', Chain f null y l' ∧ l'.length ≤ l.length := by
  induction h with
  | nil => exact absurd hy List.not_mem_nil
  | @cons x l hx h ih =>
    obtain rfl | hy := List.mem_cons.mp hy
    · exact ⟨y :: l, .cons hx h, le_rfl⟩
    · obtain ⟨l', hl', hle⟩ := ih hy
      exact ⟨l', hl', Nat.le_succ_of_le hle⟩

/-- A chain that ends repeats no pointer. -/
theorem Chain.nodup (h : Chain f null x l) : l.Nodup := by
  induction h with
  | nil => exact List.nodup_nil
  | @cons x l hx h ih =>
    have hx' : x ∉ l := by
      intro hmem
      obtain ⟨r, hr, hle⟩ := h.from_mem hmem
      rw [hr.unique (.cons hx h)] at hle
      exact absurd hle (Nat.not_succ_le_self _)
    exact List.nodup_cons.mpr ⟨hx', ih⟩

theorem Chain.of_iterate (h : f^[i] x = null) : ∃ l, Chain f null x l := by
  induction i generalizing x with
  | zero => exact ⟨[], h ▸ .nil⟩
  | succ i ih =>
    by_cases hx : x = null
    · exact ⟨[], hx ▸ .nil⟩
    · obtain ⟨l, hl⟩ := ih (x := f x) h
      exact ⟨x :: l, .cons hx hl⟩

/-! ### The race -/

/-- The race of two pointers, with a bound on the number of its steps: whether they meet. -/
def race [DecidableEq α] (f : α → α) (null : α) : ℕ → α → α → Option Bool
  | 0, _, _ => none
  | k + 1, slow, fast =>
    if fast ≠ null ∧ f fast ≠ null then
      if f slow = f (f fast) then some true else race f null k (f slow) (f (f fast))
    else some false

theorem iterate_fast (f : α → α) (x : α) (i : ℕ) : f^[2 * (i + 1)] x = f (f (f^[2 * i] x)) := by
  rw [show 2 * (i + 1) = 2 * i + 1 + 1 by omega, Function.iterate_succ_apply', Function.iterate_succ_apply']

/-- A chain that has come back to where it was, and met no `null` before, meets none. -/
theorem ne_null_of_meet (hj : 0 < j) (hmeet : f^[j] x = f^[2 * j] x)
    (hlt : ∀ i < 2 * j, f^[i] x ≠ null) (i : ℕ) :
    f^[i] x ≠ null := by
  induction i using Nat.strong_induction_on with
  | _ i ih =>
    by_cases hi : i < 2 * j
    · exact hlt i hi
    · -- the pointer `j` steps before is the same
      have hback : f^[i] x = f^[i - j] x := by
        rw [show i = (i - 2 * j) + 2 * j by omega, Function.iterate_add_apply, ← hmeet,
          ← Function.iterate_add_apply]
        congr 2
        omega
      rw [hback]
      exact ih (i - j) (by omega)

/-- The step at which the race ends. -/
def Ends (f : α → α) (null x : α) (j : ℕ) : Prop :=
  f^[2 * j] x = null ∨ f^[2 * j + 1] x = null ∨ f^[j + 1] x = f^[2 * (j + 1)] x

/-- On a finite type every chain ends or comes back, so the race has an end. -/
theorem exists_ends [Finite α] (f : α → α) (null x : α) : ∃ j, Ends f null x j := by
  obtain ⟨a, b, hab, hx⟩ : ∃ a b, a < b ∧ f^[a] x = f^[b] x := by
    obtain ⟨a, b, hab, hx⟩ := Finite.exists_ne_map_eq_of_infinite fun n => f^[n] x
    obtain hlt | hlt := lt_or_gt_of_ne hab
    · exact ⟨a, b, hlt, hx⟩
    · exact ⟨b, a, hlt, hx.symm⟩
  -- from `a` on the chain has the period `b - a`, so a multiple of it that is past `a` will do
  have hperiod (c q : ℕ) (hc : a ≤ c) : f^[c] x = f^[c + q * (b - a)] x := by
    induction q with
    | zero => rw [Nat.zero_mul, Nat.add_zero]
    | succ q ih =>
      have hnext : c + (q + 1) * (b - a) = (c + q * (b - a) - a) + b := by rw [Nat.succ_mul]; omega
      have hhere : c + q * (b - a) = (c + q * (b - a) - a) + a := by omega
      calc f^[c] x = f^[c + q * (b - a)] x := ih
        _ = f^[c + q * (b - a) - a] (f^[a] x) := by rw [← Function.iterate_add_apply, ← hhere]
        _ = f^[c + (q + 1) * (b - a)] x := by rw [hx, ← Function.iterate_add_apply, ← hnext]
  have hpos : 0 < (a + 1) * (b - a) := Nat.mul_pos (Nat.succ_pos a) (by omega)
  have hle : a + 1 ≤ (a + 1) * (b - a) := Nat.le_mul_of_pos_right _ (by omega)
  refine ⟨(a + 1) * (b - a) - 1, .inr (.inr ?_)⟩
  rw [Nat.sub_add_cancel hpos, Nat.two_mul]
  exact hperiod _ _ (by omega)

variable [DecidableEq α]

/-- One step of a race in which the slow pointer has made `i` steps. -/
theorem race_succ (f : α → α) (null x : α) (k i : ℕ) :
    race f null (k + 1) (f^[i] x) (f^[2 * i] x) =
      if f^[2 * i] x ≠ null ∧ f^[2 * i + 1] x ≠ null then
        if f^[i + 1] x = f^[2 * (i + 1)] x then some true
        else race f null k (f^[i + 1] x) (f^[2 * (i + 1)] x)
      else some false := by
  rw [race, iterate_fast, Function.iterate_succ_apply', Function.iterate_succ_apply']

/-- What the race reports is right, as long as the fast pointer has met no `null` so far. -/
theorem race_sound {b : Bool} (hlt : ∀ l < 2 * i, f^[l] x ≠ null)
    (h : race f null k (f^[i] x) (f^[2 * i] x) = some b) : b = true ↔ ∀ l, f^[l] x ≠ null := by
  induction k generalizing i with
  | zero => exact absurd h nofun
  | succ k ih =>
    rw [race_succ] at h
    split_ifs at h with hne hmeet
    · have hlt' : ∀ l < 2 * (i + 1), f^[l] x ≠ null := by
        intro l hl
        obtain hl | rfl | rfl : l < 2 * i ∨ l = 2 * i ∨ l = 2 * i + 1 := by omega
        · exact hlt l hl
        · exact hne.1
        · exact hne.2
      exact iff_of_true (Option.some.inj h).symm (ne_null_of_meet (Nat.succ_pos i) hmeet hlt')
    · refine ih (fun l hl => ?_) h
      obtain hl | rfl | rfl : l < 2 * i ∨ l = 2 * i ∨ l = 2 * i + 1 := by omega
      · exact hlt l hl
      · exact hne.1
      · exact hne.2
    · refine iff_of_false (fun hb => ?_) fun hall => hne ⟨hall _, hall _⟩
      rw [hb] at h
      exact absurd h nofun

theorem race_ends (hj : Ends f null x j) (hij : i ≤ j) (hk : j - i < k) :
    ∃ b, race f null k (f^[i] x) (f^[2 * i] x) = some b := by
  induction k generalizing i with
  | zero => exact absurd hk (Nat.not_lt_zero _)
  | succ k ih =>
    rw [race_succ]
    split_ifs with hne hmeet
    · exact ⟨true, rfl⟩
    · obtain rfl | hlt := hij.eq_or_lt
      · obtain h | h | h := hj
        · exact absurd h hne.1
        · exact absurd h hne.2
        · exact absurd h hmeet
      · exact ih hlt (by omega)
    · exact ⟨false, rfl⟩

/-- The race ends, and it reports a cycle exactly when the chain never comes to `null`. -/
theorem race_spec [Finite α] (f : α → α) (null x : α) :
    ∃ b k₀, (∀ k, k₀ ≤ k → race f null k x x = some b) ∧ (b = true ↔ ∀ i, f^[i] x ≠ null) := by
  obtain ⟨j, hj⟩ := exists_ends f null x
  obtain ⟨b, hb⟩ := race_ends (i := 0) hj (Nat.zero_le j) (Nat.lt_succ_self _)
  have hsound := race_sound (i := 0) (fun l hl => absurd hl (Nat.not_lt_zero l)) hb
  refine ⟨b, j + 1, fun k hk => ?_, hsound⟩
  obtain ⟨b', hb'⟩ := race_ends (i := 0) hj (Nat.zero_le j) (show j - 0 < k by omega)
  have hsound' := race_sound (i := 0) (fun l hl => absurd hl (Nat.not_lt_zero l)) hb'
  rw [Bool.eq_iff_iff.mpr (hsound.trans hsound'.symm)]
  exact hb'

end Floyd
