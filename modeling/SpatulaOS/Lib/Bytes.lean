import Mathlib.Data.List.Basic
import SpatulaOS.Lib.Memory

/-!
# Byte buffers

Loops that fill a buffer byte for byte, and buffers that hold a list of bytes. `memcpy` copies
between two places of one memory, `copyIn` copies bytes from outside of it. A buffer that
holds a list holds the list with `b` laid over it at `offset` after `b` is copied there
(`Mem.Holds.copyIn`), and a copy of a buffer holds what the buffer holds (`Mem.Holds.memcpy`).
-/

namespace ByteMemory

variable {m m' : Mem} {a dst src x : Word} {n i off : ℕ} {l b : List Byte} {v : ℕ → Byte} {R : Set ℕ}

/-- The address of the `i`-th byte behind `a`. -/
abbrev byteAddr (a : Word) (i : ℕ) : Word := a + BitVec.ofNat 32 i

/-- `n` bytes stored from `dst` on, the `i`-th one being `next` of the memory at that time. -/
def Mem.fill (m : Mem) (dst : Word) (next : Mem → ℕ → Byte) (n : ℕ) : Mem :=
  (List.range n).foldl (fun m i => m.storeByte (byteAddr dst i) (next m i)) m

/-- `memcpy(dst, src, n)`, where both are in this memory. -/
def Mem.memcpy (m : Mem) (dst src : Word) (n : ℕ) : Mem := m.fill dst (fun m i => m (byteAddr src i)) n

/-- `memcpy(dst, buffer, n)`, where the buffer is somewhere else. -/
def Mem.copyIn (m : Mem) (dst : Word) (buffer : ℕ → Byte) (n : ℕ) : Mem := m.fill dst (fun _ i => buffer i) n

/-- `memcpy(buffer, src, n)`, where the buffer is somewhere else: the bytes that it gets. -/
def Mem.copyOut (m : Mem) (src : Word) (n : ℕ) : List Byte := (List.range n).map fun i => m (byteAddr src i)

theorem byteAddr_inj {j : ℕ} (hi : i < 2 ^ 32) (hj : j < 2 ^ 32)
    (h : byteAddr a i = byteAddr a j) : i = j := by
  have := BitVec.add_right_inj a |>.mp h
  rw [← BitVec.toNat_inj, BitVec.toNat_ofNat, BitVec.toNat_ofNat, Nat.mod_eq_of_lt hi,
    Nat.mod_eq_of_lt hj] at this
  exact this

theorem toNat_byteAddr (h : a.toNat + i < 2 ^ 32) : (byteAddr a i).toNat = a.toNat + i := by
  rw [byteAddr, BitVec.toNat_add, BitVec.toNat_ofNat, Nat.mod_eq_of_lt (a := i) (by omega),
    Nat.mod_eq_of_lt h]

theorem byteAddr_byteAddr (a : Word) (i j : ℕ) : byteAddr (byteAddr a i) j = byteAddr a (i + j) := by
  rw [byteAddr, byteAddr, byteAddr, BitVec.ofNat_add, BitVec.add_assoc]

/-! ### Filling a buffer -/

/-- A byte outside of the buffer is the same afterwards. -/
theorem Mem.fill_of_ne {next : Mem → ℕ → Byte} (h : ∀ i, i < n → x ≠ byteAddr dst i) :
    m.fill dst next n x = m x := by
  induction n with
  | zero => rfl
  | succ n ih =>
    rw [fill, List.range_succ, List.foldl_append, List.foldl_cons, List.foldl_nil]
    refine (if_neg (h n (Nat.lt_succ_self n))).trans ?_
    exact ih fun i hi => h i (Nat.lt_succ_of_lt hi)

/-- The bytes of the buffer, if what is stored does not depend on the buffer. -/
theorem Mem.fill_at {next : Mem → ℕ → Byte} (hn : n ≤ 2 ^ 32)
    (hnext : ∀ m', (∀ x, (∀ i, i < n → x ≠ byteAddr dst i) → m' x = m x) → ∀ i, i < n → next m' i = v i)
    (hi : i < n) :
    m.fill dst next n (byteAddr dst i) = v i := by
  have hrun (k : ℕ) (hk : k ≤ n) (hik : i < k) : m.fill dst next k (byteAddr dst i) = v i := by
    induction k with
    | zero => exact absurd hik (Nat.not_lt_zero i)
    | succ k ih =>
      rw [fill, List.range_succ, List.foldl_append, List.foldl_cons, List.foldl_nil]
      by_cases hk' : i = k
      · subst hk'
        refine (if_pos rfl).trans (hnext _ (fun x hx => ?_) i hi)
        exact fill_of_ne fun j hj => hx j (by omega)
      · refine (if_neg fun h => hk' (byteAddr_inj (by omega) (by omega) h)).trans ?_
        exact ih (by omega) (by omega)
  exact hrun n le_rfl hi

theorem Mem.copyIn_at (m : Mem) (buffer : ℕ → Byte) (hn : n ≤ 2 ^ 32) (hi : i < n) :
    m.copyIn dst buffer n (byteAddr dst i) = buffer i :=
  fill_at hn (fun _ _ _ _ => rfl) hi

theorem Mem.memcpy_at (hn : n ≤ 2 ^ 32)
    (h : ∀ i j, i < n → j < n → byteAddr src i ≠ byteAddr dst j) (hi : i < n) :
    m.memcpy dst src n (byteAddr dst i) = m (byteAddr src i) :=
  fill_at (v := fun i => m (byteAddr src i)) hn (fun _ hm i hi => hm _ fun j hj => h i j hi hj) hi

/-! ### Buffers that hold a list -/

/-- The bytes from `a` on are those of the list. -/
def Mem.Holds (m : Mem) (a : Word) (l : List Byte) : Prop :=
  ∀ i, (hi : i < l.length) → m (byteAddr a i) = l[i]

theorem Mem.Holds.head {c : Byte} (h : m.Holds a (c :: l)) : m a = c := by
  have h0 := h 0 (Nat.succ_pos _)
  rwa [byteAddr, BitVec.add_zero] at h0

theorem Mem.Holds.tail {c : Byte} (h : m.Holds a (c :: l)) : m.Holds (a + 1) l := by
  intro i hi
  have hnext : byteAddr (a + 1) i = byteAddr a (i + 1) := by
    rw [Nat.add_comm, ← byteAddr_byteAddr]
    rfl
  rw [hnext]
  exact h (i + 1) (Nat.succ_lt_succ hi)

/-- The list with `b` laid over it at `offset`. -/
def overlay (l : List Byte) (offset : ℕ) (b : List Byte) : List Byte :=
  l.take offset ++ b ++ l.drop (offset + b.length)

theorem length_overlay (h : off ≤ l.length) : (overlay l off b).length = max l.length (off + b.length) := by
  rw [overlay, List.length_append, List.length_append, List.length_take, List.length_drop, min_eq_left h]
  omega

theorem overlay_overlay (h : off ≤ l.length) (b c : List Byte) :
    overlay (overlay l off b) (off + b.length) c = overlay l off (b ++ c) := by
  have hlen : (l.take off ++ b).length = off + b.length := by
    rw [List.length_append, List.length_take, min_eq_left h]
  have htake : (overlay l off b).take (off + b.length) = l.take off ++ b := List.take_left' hlen
  have hdrop : (overlay l off b).drop (off + b.length + c.length) = l.drop (off + (b ++ c).length) := by
    rw [← List.drop_drop, overlay, List.drop_left' hlen, List.drop_drop, List.length_append, Nat.add_assoc]
  rw [overlay, htake, hdrop, overlay, List.append_assoc (l.take off)]

theorem getElem_overlay (h : off ≤ l.length) (hi : i < (overlay l off b).length) : (overlay l off b)[i] =
    if h1 : off ≤ i ∧ i < off + b.length then b.get ⟨i - off, by omega⟩
    else l.get ⟨i, by rw [length_overlay h] at hi; omega⟩ := by
  have hlen : (l.take off).length = off := by rw [List.length_take, min_eq_left h]
  simp only [List.get_eq_getElem]
  simp only [overlay, List.append_assoc]
  split_ifs with h1
  · rw [List.getElem_append_right (by omega), List.getElem_append_left (by omega)]
    simp only [hlen]
  · by_cases hlt : i < off
    · rw [List.getElem_append_left (by omega), List.getElem_take]
    · rw [List.getElem_append_right (by omega), List.getElem_append_right (by omega), List.getElem_drop]
      simp only [hlen]
      congr 1
      omega

theorem Mem.Holds.keeps (h : m.Holds a l) (hk : Keeps R m m') (ha : a.toNat + l.length ≤ 2 ^ 32)
    (hR : ∀ k, a.toNat ≤ k → k < a.toNat + l.length → k ∉ R) : m'.Holds a l := by
  intro i hi
  rw [← h i hi]
  refine hk _ (hR _ ?_ ?_)
  · rw [toNat_byteAddr (by omega)]
    exact Nat.le_add_right _ _
  · rw [toNat_byteAddr (by omega)]
    omega

/-- Copying into a buffer lays the bytes over what it holds. -/
theorem Mem.Holds.copyIn (h : m.Holds a l) (buffer : ℕ → Byte) (hoff : off ≤ l.length) (ha : off + n ≤ 2 ^ 32)
    (hl : l.length ≤ 2 ^ 32) :
    (m.copyIn (byteAddr a off) buffer n).Holds a (overlay l off ((List.range n).map buffer)) := by
  intro i hi
  have hlen : ((List.range n).map buffer).length = n := by rw [List.length_map, List.length_range]
  rw [getElem_overlay hoff hi]
  rw [length_overlay hoff, hlen] at hi
  split_ifs with h1
  · rw [hlen] at h1
    obtain ⟨j, rfl⟩ := Nat.exists_eq_add_of_le h1.1
    rw [← byteAddr_byteAddr, copyIn_at _ _ (by omega) (by omega), List.get_eq_getElem, List.getElem_map,
      List.getElem_range]
    dsimp only
    rw [Nat.add_sub_cancel_left]
  · rw [hlen] at h1
    rw [List.get_eq_getElem, ← h i (by omega)]
    refine fill_of_ne fun j hj heq => h1 ?_
    rw [byteAddr_byteAddr] at heq
    have := byteAddr_inj (by omega) (by omega) heq
    omega

/-- A copy of a buffer holds what the buffer holds. -/
theorem Mem.Holds.memcpy (h : m.Holds src l) (hs : src.toNat + l.length ≤ 2 ^ 32)
    (hd : dst.toNat + l.length ≤ 2 ^ 32)
    (hne : src.toNat + l.length ≤ dst.toNat ∨ dst.toNat + l.length ≤ src.toNat) :
    (m.memcpy dst src l.length).Holds dst l := by
  intro i hi
  rw [memcpy_at (by omega) (fun i j hi hj heq => ?_) hi, h i hi]
  have := congrArg BitVec.toNat heq
  rw [toNat_byteAddr (by omega), toNat_byteAddr (by omega)] at this
  omega

/-- What is copied out of a buffer is what it holds there. -/
theorem Mem.Holds.copyOut (h : m.Holds a l) (hn : off + n ≤ l.length) :
    m.copyOut (byteAddr a off) n = (l.drop off).take n := by
  refine List.ext_getElem ?_ fun i h1 h2 => ?_
  · rw [Mem.copyOut, List.length_map, List.length_range, List.length_take, List.length_drop]
    omega
  · rw [Mem.copyOut, List.length_map, List.length_range] at h1
    simp only [Mem.copyOut, List.getElem_map, List.getElem_range, List.getElem_take, List.getElem_drop]
    rw [byteAddr_byteAddr]
    exact h (off + i) (by omega)

end ByteMemory
