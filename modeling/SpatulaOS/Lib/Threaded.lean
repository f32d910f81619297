import Mathlib.Data.List.Basic

/-!
# Doubly linked lists as sequences

An intrusive doubly linked list whose items have keys (their addresses) is a
sequence in which every item satisfies a predicate `node p x n` of the key `p`
of the item before it, the item itself, and the key `n` of the item after it.
`Thread node p l n` says so of the segment `l` that starts after `p` and ends
before `n`; the whole list is a segment between two null keys. Segments split
and join at any place, which is how an update in the middle is proved.
-/

namespace Threaded

variable {α : Type*} (key : α → ℕ) (node node' : ℕ → α → ℕ → Prop)

/-- The key of the first item of `l`, or `n` if there is none. -/
def first (l : List α) (n : ℕ) : ℕ :=
  match l with
  | [] => n
  | x :: _ => key x

/-- The key of the last item of `l`, or `p` if there is none. -/
def last (p : ℕ) : List α → ℕ
  | [] => p
  | x :: l => last (key x) l

/-- The segment `l` of a list, after `p` and before `n`. -/
def Thread (p : ℕ) (l : List α) (n : ℕ) : Prop :=
  match l with
  | [] => True
  | x :: l => node p x (first key l n) ∧ Thread (key x) l n

instance Thread.decidable [∀ p x n, Decidable (node p x n)] :
    ∀ (p : ℕ) (l : List α) (n : ℕ), Decidable (Thread key node p l n)
  | _, [], _ => .isTrue trivial
  | p, x :: l, n =>
    have := Thread.decidable (key x) l n
    inferInstanceAs (Decidable (node p x (first key l n) ∧ Thread key node (key x) l n))

variable {key node node'} {l r : List α} {x y : α} {p n n' : ℕ}

@[simp] theorem first_nil : first key [] n = n := rfl

@[simp] theorem first_cons : first key (x :: l) n = key x := rfl

theorem first_append : first key (l ++ r) n = first key l (first key r n) := by
  cases l <;> rfl

@[simp] theorem last_nil : last key p [] = p := rfl

@[simp] theorem last_append_cons : last key p (l ++ x :: r) = last key (key x) r := by
  induction l generalizing p with
  | nil => rfl
  | cons y l ih => exact ih

/-- The first key is the end, or the key of an item. -/
theorem first_eq_or_mem : first key l n = n ∨ ∃ x ∈ l, first key l n = key x := by
  cases l with
  | nil => exact .inl rfl
  | cons x l => exact .inr ⟨x, List.mem_cons_self, rfl⟩

@[simp] theorem thread_nil : Thread key node p [] n := trivial

@[simp] theorem thread_cons :
    Thread key node p (x :: l) n ↔ node p x (first key l n) ∧ Thread key node (key x) l n := Iff.rfl

/-- A segment splits into the part before a place and the part after it. -/
theorem thread_append : Thread key node p (l ++ r) n ↔
    Thread key node p l (first key r n) ∧ Thread key node (last key p l) r n := by
  induction l generalizing p with
  | nil => simp
  | cons x l ih => simp [ih, first_append, and_assoc, last]

theorem thread_mid : Thread key node p (l ++ x :: r) n ↔
    Thread key node p l (key x) ∧ node (last key p l) x (first key r n) ∧
      Thread key node (key x) r n := by
  rw [thread_append]
  exact Iff.rfl

theorem Thread.imp (h : Thread key node p l n)
    (hi : ∀ x ∈ l, ∀ p n, node p x n → node' p x n) : Thread key node' p l n := by
  induction l generalizing p with
  | nil => trivial
  | cons x l ih =>
    exact ⟨hi x List.mem_cons_self _ _ h.1, ih h.2 fun y hy => hi y (List.mem_cons_of_mem _ hy)⟩

/-- A list is determined by where it starts, if an item and the key after it are
determined by the item's key. `P` is what is known of the items, and `B` of their keys. -/
theorem Thread.unique {P : α → Prop} {B : ℕ → Prop} (h0 : B 0) (hB : ∀ x, P x → B (key x))
    (hP : ∀ x, P x → key x ≠ 0)
    (hnode : ∀ x y p n p' n', P x → P y → B n → B n' → key x = key y → node p x n → node p' y n' →
      x = y ∧ n = n') {p' : ℕ} (hl : Thread key node p l 0) (hr : Thread key node p' r 0)
    (hlP : ∀ x ∈ l, P x) (hrP : ∀ x ∈ r, P x) (he : first key l 0 = first key r 0) : l = r := by
  have hfirst : ∀ l : List α, (∀ x ∈ l, P x) → B (first key l 0) := by
    intro l hlP
    cases l with
    | nil => exact h0
    | cons x l => exact hB x (hlP x List.mem_cons_self)
  induction l generalizing p p' r with
  | nil =>
    cases r with
    | nil => rfl
    | cons y r => exact absurd he.symm (hP y (hrP y List.mem_cons_self))
  | cons x l ih =>
    cases r with
    | nil => exact absurd he (hP x (hlP x List.mem_cons_self))
    | cons y r =>
      obtain ⟨hx, hl⟩ := hl
      obtain ⟨hy, hr⟩ := hr
      have hlP' : ∀ z ∈ l, P z := fun z hz => hlP z (List.mem_cons_of_mem _ hz)
      have hrP' : ∀ z ∈ r, P z := fun z hz => hrP z (List.mem_cons_of_mem _ hz)
      obtain ⟨rfl, hn⟩ := hnode x y _ _ _ _ (hlP x List.mem_cons_self) (hrP y List.mem_cons_self)
        (hfirst l hlP') (hfirst r hrP') he hx hy
      rw [ih hl hr hlP' hrP' hn]

end Threaded
