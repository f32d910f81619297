import Mathlib.Data.Int.ConditionallyCompleteOrder
import SpatulaOS.Fs.Ramfs
import SpatulaOS.Lib.FirstDifference

/-!
# Strings

`strcmp` and `strncmp` of `lib/string.c` on strings in memory. The loops stop at the first
difference or at the first terminator, and what they return is the difference of the two characters
there; a character is signed, so that the terminator is larger than the characters from `0x80` on.
Both loops compute `strcmp` of the characters (`strcmpLoop_eq`, `strncmpLoop_eq`), which is a linear
order on strings (`isLinearOrder_strcmp`).
-/

namespace SpatulaOS.Fs

open ByteMemory FirstDifference

/-! ### The loops -/

/-- The loop of `strcmp`, and what is returned behind it. -/
def strcmpLoop (m : Mem) : ℕ → Word → Word → Option ℤ
  | 0, _, _ => none
  | fuel + 1, a, b =>
    if m a ≠ 0 ∧ m b ≠ 0 then
      if m a ≠ m b then some ((m a).toInt - (m b).toInt)
      else strcmpLoop m fuel (a + 1) (b + 1)
    else some ((m a).toInt - (m b).toInt)

/-- The loop of `strncmp`, which counts `n` down, and what is returned behind it. -/
def strncmpLoop (m : Mem) : ℕ → Word → Word → ℤ
  | 0, _, _ => 0
  | n + 1, a, b =>
    if m a ≠ 0 ∧ m b ≠ 0 then
      if m a ≠ m b then (m a).toInt - (m b).toInt
      else strncmpLoop m n (a + 1) (b + 1)
    else (m a).toInt - (m b).toInt

/-- The characters of a string. -/
abbrev Chars := { s : List Byte // 0 ∉ s }

/-- A string in memory: its characters, and the terminator behind them. -/
structure CString (m : Mem) where
  /-- The pointer. -/
  addr : Word
  /-- The characters. -/
  chars : Chars
  held : m.Holds addr (chars.1 ++ [0])

variable {m : Mem} {a b : Word} {s t : List Byte} {n : ℕ}

/-! ### What the loops compute -/

/-- One round of the loops: they stop, and the difference of the characters is `strcmp` of the strings and of
their beginnings, or both strings go on behind the same character. -/
theorem strcmp_round (hs : 0 ∉ s) (ht : 0 ∉ t) (ha : m.Holds a (s ++ [0])) (hb : m.Holds b (t ++ [0])) :
    (¬ (m a ≠ 0 ∧ m b ≠ 0) ∨ m a ≠ m b) ∧ strcmp s t = (m a).toInt - (m b).toInt ∧
      (∀ n, strcmp (s.take (n + 1)) (t.take (n + 1)) = (m a).toInt - (m b).toInt) ∨
    ∃ x s' t', s = x :: s' ∧ t = x :: t' ∧ x ≠ 0 ∧ m a = x ∧ m b = x := by
  cases s with
  | nil =>
    rw [ha.head]
    cases t with
    | nil =>
      rw [hb.head]
      exact .inl ⟨.inl fun h => h.1 rfl, rfl, fun _ => rfl⟩
    | cons y t =>
      rw [hb.head]
      exact .inl ⟨.inl fun h => h.1 rfl, (Int.zero_sub _).symm, fun _ => (Int.zero_sub _).symm⟩
  | cons x s =>
    have hx : x ≠ 0 := (List.ne_of_not_mem_cons hs).symm
    cases t with
    | nil =>
      rw [ha.head, hb.head]
      exact .inl ⟨.inl fun h => h.2 rfl, (Int.sub_zero _).symm, fun _ => (Int.sub_zero _).symm⟩
    | cons y t =>
      by_cases hxy : x = y
      · subst hxy
        exact .inr ⟨x, s, t, rfl, rfl, hx, ha.head, hb.head⟩
      · rw [ha.head, hb.head]
        exact .inl ⟨.inr hxy, if_pos hxy, fun n => if_pos hxy⟩

/-- The loop of `strcmp` ends, and computes `strcmp` of the characters. -/
theorem strcmpLoop_eq {fuel : ℕ} (hs : 0 ∉ s) (ht : 0 ∉ t) (ha : m.Holds a (s ++ [0]))
    (hb : m.Holds b (t ++ [0]))
    (hfuel : s.length < fuel) : strcmpLoop m fuel a b = some (strcmp s t) := by
  induction fuel generalizing s t a b with
  | zero => exact absurd hfuel (Nat.not_lt_zero _)
  | succ fuel ih =>
    rw [strcmpLoop]
    obtain ⟨hstop, hd, -⟩ | ⟨x, s, t, rfl, rfl, hx, hax, hbx⟩ := strcmp_round hs ht ha hb
    · rw [hd]
      split_ifs with hboth heq
      · rfl
      · exact absurd (hstop.resolve_left (not_not.mpr hboth)) heq
      · rfl
    · rw [hax, hbx, if_pos ⟨hx, hx⟩, if_neg (not_not.mpr rfl), strcmp, if_neg (not_not.mpr rfl)]
      exact ih (List.not_mem_of_not_mem_cons hs) (List.not_mem_of_not_mem_cons ht) ha.tail hb.tail
        (Nat.lt_of_succ_lt_succ hfuel)

/-- The loop of `strncmp` computes `strcmp` of the first `n` characters. -/
theorem strncmpLoop_eq (n : ℕ) (hs : 0 ∉ s) (ht : 0 ∉ t) (ha : m.Holds a (s ++ [0]))
    (hb : m.Holds b (t ++ [0])) :
    strncmpLoop m n a b = strcmp (s.take n) (t.take n) := by
  induction n generalizing s t a b with
  | zero => rfl
  | succ n ih =>
    rw [strncmpLoop]
    obtain ⟨hstop, -, hd⟩ | ⟨x, s, t, rfl, rfl, hx, hax, hbx⟩ := strcmp_round hs ht ha hb
    · rw [hd]
      split_ifs with hboth heq
      · rfl
      · exact absurd (hstop.resolve_left (not_not.mpr hboth)) heq
      · rfl
    · rw [hax, hbx, if_pos ⟨hx, hx⟩, if_neg (not_not.mpr rfl), List.take_succ_cons,
        List.take_succ_cons, strcmp,
        if_neg (not_not.mpr rfl)]
      exact ih (List.not_mem_of_not_mem_cons hs) (List.not_mem_of_not_mem_cons ht) ha.tail hb.tail

/-- `strcmp` of two strings in memory: the loop ends within the length of the first one. -/
def CString.strcmp (a b : CString m) : ℤ :=
  (strcmpLoop m (a.chars.1.length + 1) a.addr b.addr).get (by
    rw [strcmpLoop_eq a.chars.2 b.chars.2 a.held b.held (Nat.lt_succ_self _)]
    rfl)

/-- `strncmp` of two strings in memory. -/
def CString.strncmp (a b : CString m) (n : ℕ) : ℤ := strncmpLoop m n a.addr b.addr

theorem CString.strcmp_eq (a b : CString m) : a.strcmp b = Fs.strcmp a.chars.1 b.chars.1 := by
  refine Option.get_of_eq_some _ ?_
  exact strcmpLoop_eq a.chars.2 b.chars.2 a.held b.held (Nat.lt_succ_self _)

theorem CString.strncmp_eq (a b : CString m) (n : ℕ) :
    a.strncmp b n = Fs.strcmp (a.chars.1.take n) (b.chars.1.take n) :=
  strncmpLoop_eq n a.chars.2 b.chars.2 a.held b.held

/-! ### The order -/

/-- The values of the characters, which are signed. -/
def Chars.values (s : Chars) : List ℤ := s.1.map BitVec.toInt

theorem Chars.values_injective : Function.Injective Chars.values := fun _ _ h =>
  Subtype.ext (List.map_injective_iff.mpr (fun _ _ => BitVec.eq_of_toInt_eq) h)

theorem Chars.zero_notMem_values (s : Chars) : 0 ∉ s.values := by
  rintro h
  obtain ⟨x, hx, h0⟩ := List.mem_map.mp h
  obtain rfl : x = 0 := BitVec.eq_of_toInt_eq h0
  exact s.2 hx

theorem strcmp_eq_firstDiff (s t : List Byte) :
    strcmp s t = firstDiff (s.map BitVec.toInt) (t.map BitVec.toInt) := by
  induction s generalizing t with
  | nil => cases t <;> rfl
  | cons x s ih =>
    cases t with
    | nil => rfl
    | cons y t =>
      rw [strcmp, List.map_cons, List.map_cons, firstDiff, ← ih]
      exact if_congr (not_congr BitVec.toInt_inj.symm) rfl rfl

theorem Chars.strcmp_eq (s t : Chars) : strcmp s.1 t.1 = firstDiff s.values t.values :=
  strcmp_eq_firstDiff s.1 t.1

/-- `strcmp` is a linear order on strings. -/
theorem isLinearOrder_strcmp : IsLinearOrder Chars fun s t => strcmp s.1 t.1 ≤ 0 := by
  simp only [Chars.strcmp_eq]
  exact isLinearOrder_firstDiff Chars.values_injective Chars.zero_notMem_values

/-- A character from `0x80` on is before the end of a string. -/
example : strcmp [0x61, 0x80] [0x61] < 0 := by decide

theorem Chars.strcmp_swap (s t : Chars) : strcmp t.1 s.1 = -strcmp s.1 t.1 := by
  rw [strcmp_eq, strcmp_eq, firstDiff_swap]

theorem Chars.strcmp_eq_zero_iff (s t : Chars) : strcmp s.1 t.1 = 0 ↔ s = t := by
  rw [strcmp_eq, firstDiff_eq_zero_iff s.zero_notMem_values t.zero_notMem_values, values_injective.eq_iff]

/-- **`strcmp` is a total order on strings in memory, and `strncmp` compares their first `n` characters.** -/
theorem CString.strcmp_order (a b c : CString m) (n : ℕ) :
    (a.strcmp b = 0 ↔ a.chars = b.chars) ∧
    SignType.sign (b.strcmp a) = -SignType.sign (a.strcmp b) ∧
    (a.strcmp b ≤ 0 ∨ b.strcmp a ≤ 0) ∧
    (a.strcmp b ≤ 0 → b.strcmp c ≤ 0 → a.strcmp c ≤ 0) ∧
    (a.strcmp b < 0 → b.strcmp c < 0 → a.strcmp c < 0) ∧
    SignType.sign (a.strncmp b n) = SignType.sign (Fs.strcmp (a.chars.1.take n) (b.chars.1.take n)) := by
  simp only [strcmp_eq]
  have hlinear := isLinearOrder_strcmp
  refine ⟨Chars.strcmp_eq_zero_iff _ _, ?_, hlinear.total _ _, hlinear.trans _ _ _, fun hab hbc => ?_,
    congrArg _ (strncmp_eq a b n)⟩
  · rw [Chars.strcmp_swap, Left.sign_neg]
  · rw [Chars.strcmp_eq] at hab hbc ⊢
    exact firstDiff_trans (Chars.zero_notMem_values _) (Chars.zero_notMem_values _)
      (Chars.zero_notMem_values _) hab hbc

end SpatulaOS.Fs
