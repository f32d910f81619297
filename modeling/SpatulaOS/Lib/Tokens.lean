import Mathlib.Algebra.GroupWithZero.Nat
import Mathlib.Algebra.Order.BigOperators.Group.List
import Mathlib.Algebra.Order.Group.Nat
import Mathlib.Data.List.TakeWhile

/-!
# Tokens

The tokens of a list are its maximal parts without separators. A list either has none, or begins
with separators and its first token (`tokens_cases`); what is behind that token is empty or
begins with a separator.
-/

namespace Tokens

variable {α : Type*} [DecidableEq α] {sep : α} {l w rest : List α}

/-- What lies between the separators and is not empty. -/
def tokens (sep : α) (l : List α) : List (List α) := (l.splitOn sep).filter (· ≠ [])

theorem tokens_nil : tokens sep [] = [] := by
  rw [tokens, List.splitOn_nil]
  rfl

/-- A separator separates tokens. -/
theorem tokens_append_cons (sep : α) (l rest : List α) :
    tokens sep (l ++ sep :: rest) = tokens sep l ++ tokens sep rest := by
  rw [tokens, List.splitOn_append_cons_self, List.filter_append]
  rfl

theorem tokens_cons (sep : α) (l : List α) : tokens sep (sep :: l) = tokens sep l := by
  rw [show sep :: l = [] ++ sep :: l from rfl, tokens_append_cons, tokens_nil, List.nil_append]

theorem tokens_of_notMem (hw : sep ∉ w) (hne : w ≠ []) : tokens sep w = [w] := by
  rw [tokens, List.splitOn_eq_singleton hw]
  simpa using hne

theorem tokens_dropWhile (sep : α) (l : List α) : tokens sep (l.dropWhile (· = sep)) = tokens sep l := by
  induction l with
  | nil => rfl
  | cons c l ih =>
    rw [List.dropWhile_cons]
    split_ifs with hc
    · rw [ih, of_decide_eq_true hc, tokens_cons]
    · rfl

theorem tokens_append (hw : sep ∉ w) (hne : w ≠ []) (hrest : ∀ c ∈ rest.head?, c = sep) :
    tokens sep (w ++ rest) = w :: tokens sep rest := by
  cases rest with
  | nil => rw [List.append_nil, tokens_of_notMem hw hne, tokens_nil]
  | cons c rest =>
    rw [hrest c rfl, tokens_append_cons, tokens_of_notMem hw hne, tokens_cons]
    rfl

/-- The first token of a list that does not begin with a separator. -/
theorem tokens_takeWhile {c : α} (hc : c ≠ sep) (l : List α) : tokens sep (c :: l) =
    (c :: l).takeWhile (· ≠ sep) :: tokens sep ((c :: l).dropWhile (· ≠ sep)) := by
  have hw : sep ∉ (c :: l).takeWhile (· ≠ sep) := fun h => by
    have := List.mem_takeWhile_imp h
    simp at this
  have hne : (c :: l).takeWhile (· ≠ sep) ≠ [] := by
    rw [List.takeWhile_cons, if_pos (decide_eq_true hc)]
    exact List.cons_ne_nil _ _
  have hrest : ∀ d ∈ ((c :: l).dropWhile (· ≠ sep)).head?, d = sep := by
    intro d hd
    have := List.head?_dropWhile_not (fun b => decide (b ≠ sep)) (c :: l)
    rw [hd] at this
    simpa using this
  rw [← tokens_append hw hne hrest, List.takeWhile_append_dropWhile]

/-- A list has no token, or begins with separators and its first one. -/
theorem tokens_cases (sep : α) (l : List α) : (tokens sep l = [] ∧ ∀ c ∈ l, c = sep) ∨
    ∃ seps w rest, l = seps ++ (w ++ rest) ∧ (∀ c ∈ seps, c = sep) ∧ w ≠ [] ∧ sep ∉ w ∧
      (∀ c ∈ rest.head?, c = sep) ∧ tokens sep l = w :: tokens sep rest := by
  have hsplit := List.takeWhile_append_dropWhile (p := fun c => decide (c = sep)) (l := l)
  have hseps : ∀ c ∈ l.takeWhile (· = sep), c = sep := fun c hc => by simpa using List.mem_takeWhile_imp hc
  have hhead := List.head?_dropWhile_not (fun c => decide (c = sep)) l
  rw [← tokens_dropWhile]
  cases hd : l.dropWhile (· = sep) with
  | nil =>
    rw [hd, List.append_nil] at hsplit
    exact .inl ⟨tokens_nil, by rwa [hsplit] at hseps⟩
  | cons c rest =>
    rw [hd] at hsplit hhead
    have hc : c ≠ sep := by simpa using hhead
    refine .inr ⟨_, (c :: rest).takeWhile (· ≠ sep), (c :: rest).dropWhile (· ≠ sep), ?_, hseps,
      ?_, fun h => ?_, ?_,
      tokens_takeWhile hc rest⟩
    · rw [List.takeWhile_append_dropWhile, hsplit]
    · rw [List.takeWhile_cons, if_pos (decide_eq_true hc)]
      exact List.cons_ne_nil _ _
    · simpa using List.mem_takeWhile_imp h
    · intro d hd
      have := List.head?_dropWhile_not (fun b => decide (b ≠ sep)) (c :: rest)
      rw [hd] at this
      simpa using this

/-- Induction on the tokens: the first one is between separators and the separator behind it, and
the others are those of what follows. -/
theorem tokens_induction {motive : List α → List (List α) → Prop} (hnil : ∀ l, motive l [])
    (hcons : ∀ seps w rest, w ≠ [] → sep ∉ w → (∀ c ∈ rest.head?, c = sep) →
      motive rest.tail (tokens sep rest) →
      motive (seps ++ (w ++ rest)) (w :: tokens sep rest)) (l : List α) : motive l (tokens sep l) := by
  induction hn : l.length using Nat.strong_induction_on generalizing l with
  | _ n ih =>
    obtain ⟨htok, -⟩ | ⟨seps, w, rest, rfl, -, hne, hw, hrest, htok⟩ := tokens_cases sep l
    · rw [htok]
      exact hnil l
    · rw [htok]
      refine hcons seps w rest hne hw hrest ?_
      cases rest with
      | nil =>
        rw [tokens_nil]
        exact hnil _
      | cons c rest =>
        rw [List.length_append, List.length_append, List.length_cons] at hn
        rw [hrest c rfl, tokens_cons, List.tail_cons]
        exact ih rest.length (by omega) rest rfl

theorem ne_nil_of_mem_tokens (h : w ∈ tokens sep l) : w ≠ [] := by
  rw [tokens, List.mem_filter] at h
  exact of_decide_eq_true h.2

theorem notMem_of_mem_tokens (h : w ∈ tokens sep l) : sep ∉ w := by
  refine tokens_induction (motive := fun _ ts => ∀ w ∈ ts, sep ∉ w) ?_ ?_ l w h
  · rintro - w hw
    cases hw
  · rintro - v rest - hv - ih w hw
    obtain rfl | hw := List.mem_cons.mp hw
    · exact hv
    · exact ih w hw

theorem mem_of_mem_tokens {c : α} (h : w ∈ tokens sep l) (hc : c ∈ w) : c ∈ l := by
  refine tokens_induction (motive := fun l ts => ∀ w ∈ ts, c ∈ w → c ∈ l) ?_ ?_ l w h hc
  · rintro l w hw
    cases hw
  · rintro seps v rest - - - ih w hw hc
    rw [List.mem_append, List.mem_append]
    obtain rfl | hw := List.mem_cons.mp hw
    · exact .inr (.inl hc)
    · exact .inr (.inr (List.mem_of_mem_tail (ih w hw hc)))

/-- Tokens joined by single separators are tokens again. -/
theorem tokens_intercalate {ws : List (List α)} (hne : ∀ w ∈ ws, w ≠ []) (hw : ∀ w ∈ ws, sep ∉ w) :
    tokens sep ([sep].intercalate ws) = ws := by
  by_cases hws : ws = []
  · rw [hws]
    exact tokens_nil
  · rw [tokens, List.splitOn_intercalate sep hw hws, List.filter_eq_self]
    exact fun w hmem => decide_eq_true (hne w hmem)

theorem tokens_flatMap {ws : List (List α)} (hne : ∀ w ∈ ws, w ≠ []) (hw : ∀ w ∈ ws, sep ∉ w) :
    tokens sep (ws.flatMap (· ++ [sep])) = ws := by
  induction ws with
  | nil => exact tokens_nil
  | cons w ws ih =>
    rw [List.flatMap_cons, List.append_assoc, List.singleton_append, tokens_append_cons,
      tokens_of_notMem (hw w List.mem_cons_self) (hne w List.mem_cons_self),
      ih (fun v hv => hne v (List.mem_cons_of_mem _ hv)) fun v hv => hw v (List.mem_cons_of_mem _ hv)]
    rfl

/-- The tokens, each with a separator behind it, are not longer than the list with one. -/
theorem sum_tokens_le (sep : α) (l : List α) :
    ((tokens sep l).map fun w => w.length + 1).sum ≤ l.length + 1 := by
  refine tokens_induction (motive := fun l ts => (ts.map fun w => w.length + 1).sum ≤ l.length + 1) ?_ ?_ l
  · exact fun _ => Nat.zero_le _
  · rintro seps w rest - - - ih
    rw [List.map_cons, List.sum_cons, List.length_append, List.length_append]
    cases rest with
    | nil =>
      rw [tokens_nil, List.map_nil, List.sum_nil]
      omega
    | cons c rest =>
      rw [List.tail_cons] at ih
      rw [List.length_cons]
      omega

theorem length_le_of_mem_tokens (h : w ∈ tokens sep l) : w.length ≤ l.length := by
  have hsum := sum_tokens_le sep l
  have hle := List.le_sum_of_mem (List.mem_map_of_mem (f := fun w : List α => w.length + 1) h)
  omega

end Tokens
