import SpatulaOS.Mm.HeapCoalesce

/-!
# A repeated `kfree`

A `kfree` that is given the same pointer again leaves everything as it is (`kfree_twice`). It
reads the header of the block again, which may lie inside a merged block or above `heap_end`
by now, and it is refused as long as the free flag there is not `0` (`kfree_refused`). The flag
is `1` after the release of the block, and the merge with the next block leaves it alone. The
merge into the previous block writes a guard word that may fall anywhere on the header and
reads the links of the header afterwards, so it may then write through damaged links; that it
never clears the flag is `free_unlink`.
-/

namespace SpatulaOS.Mm

open ByteMemory Threaded Block SpatulaOS.Video

variable {h h' : Heap} {m : Mem} {b y : Block} {bs pre post : List Block} {a c g n p : ℕ} {k : ℕ}
  {out : List VgaCall}

/-! ### The call that is refused -/

/-- A pointer whose header is marked free is refused, whatever else the header holds. -/
theorem kfree_refused {ptr : Word} (hf : free h.mem (ptr - SIZEOF_HEADER) ≠ 0) :
    ∃ out, ∀ k, kfree k h ptr = some (h, out) := by
  unfold kfree
  dsimp only
  split_ifs
  · exact ⟨_, fun _ => rfl⟩
  · exact ⟨_, fun _ => rfl⟩
  · exact ⟨_, fun _ => rfl⟩
  · exact ⟨_, fun _ => rfl⟩
  · exact ⟨_, fun _ => rfl⟩
  · exact ⟨_, fun _ => rfl⟩

/-! ### The bytes of a header -/

theorem load_ne_zero {i : ℕ} (hi : i < 4) (hm : m.byte (a + i) ≠ 0) : m.load (BitVec.ofNat 32 a) ≠ 0 := by
  intro h0
  have h := m.toNat_load a
  rw [h0, show (0 : Word).toNat = 0 from rfl] at h
  obtain rfl | rfl | rfl | rfl : i = 0 ∨ i = 1 ∨ i = 2 ∨ i = 3 := by omega
  · rw [Nat.add_zero] at hm
    omega
  all_goals omega

/-- The bytes of a word that is stored at another place. -/
theorem byte_store_load (m : Mem) {i : ℕ} (hi : i < 4) :
    (m.store (BitVec.ofNat 32 a) (m.load (BitVec.ofNat 32 c))).byte (a + i) = m.byte (c + i) := by
  have h := (m.store (BitVec.ofNat 32 a) (m.load (BitVec.ofNat 32 c))).toNat_load a
  rw [Mem.load_store_self, Mem.toNat_load] at h
  have hlt := m.byte_lt
  have hlt' := (m.store (BitVec.ofNat 32 a) (m.load (BitVec.ofNat 32 c))).byte_lt
  generalize m.store (BitVec.ofNat 32 a) (m.load (BitVec.ofNat 32 c)) = m' at h hlt' ⊢
  have h0 := hlt c
  have h1 := hlt (c + 1)
  have h2 := hlt (c + 2)
  have h3 := hlt (c + 3)
  have h0' := hlt' a
  have h1' := hlt' (a + 1)
  have h2' := hlt' (a + 2)
  have h3' := hlt' (a + 3)
  obtain rfl | rfl | rfl | rfl : i = 0 ∨ i = 1 ∨ i = 2 ∨ i = 3 := by omega
  · show m'.byte a = m.byte c
    omega
  all_goals omega

theorem byte_guard (m : Mem) (g : ℕ) :
    (m.store (BitVec.ofNat 32 g) HEAP_MAGIC).byte g = 0xEF ∧
      (m.store (BitVec.ofNat 32 g) HEAP_MAGIC).byte (g + 1) = 0xBE ∧
      (m.store (BitVec.ofNat 32 g) HEAP_MAGIC).byte (g + 2) = 0xAD ∧
      (m.store (BitVec.ofNat 32 g) HEAP_MAGIC).byte (g + 3) = 0xDE := by
  have h := (m.store (BitVec.ofNat 32 g) HEAP_MAGIC).toNat_load g
  rw [Mem.load_store_self, show HEAP_MAGIC.toNat = 0xDEADBEEF from rfl] at h
  have hlt := (m.store (BitVec.ofNat 32 g) HEAP_MAGIC).byte_lt
  have h0 := hlt g
  have h1 := hlt (g + 1)
  have h2 := hlt (g + 2)
  have h3 := hlt (g + 3)
  omega

/-! ### The links around a block -/

/-- The end of the merge into the previous block: the links of the blocks around the header. -/
def unlink (m : Mem) (block : Word) : Mem :=
  let m := setNext m (prev m block) (next m block)
  if next m block ≠ 0 then setPrev m (next m block) (prev m block) else m

theorem mergePrev_eq_unlink (m : Mem) (block : Word) : mergePrev m block =
    let m' := setSize m (prev m block) (size m (prev m block) + (SIZEOF_HEADER + size m block + SIZEOF_WORD))
    unlink (m'.store (tail (prev m' block) (size m' (prev m' block))) HEAP_MAGIC) block := rfl

theorem unlink_eq {pw nw : Word} (hp : m.load (BitVec.ofNat 32 (c + 16)) = pw)
    (hn : m.load (BitVec.ofNat 32 (c + 12)) = nw) {m' : Mem}
    (hm' : m' = m.store (pw + BitVec.ofNat 32 12) nw) :
    unlink m (BitVec.ofNat 32 c) = if m'.load (BitVec.ofNat 32 (c + 12)) ≠ 0 then
      m'.store (m'.load (BitVec.ofNat 32 (c + 12)) + BitVec.ofNat 32 16)
        (m'.load (BitVec.ofNat 32 (c + 16))) else m' := by
  have hset : setNext m pw nw = m' := hm'.symm
  unfold unlink
  rw [prev_ofNat, next_ofNat, hp, hn, hset]
  simp only [next_ofNat, prev_ofNat]
  rfl

/-- A word at `a` does not meet the free flag and the links of the header at `c`. -/
def Away (c a : ℕ) : Prop := a + 4 ≤ c + 8 ∨ c + 20 ≤ a

/-- A word of the header is the same if its bytes are. -/
theorem load_eq_of_byte {m' : Mem} (ha : c + 8 ≤ a) (ha' : a + 4 ≤ c + 20)
    (hm : ∀ k, c + 8 ≤ k → k < c + 20 → m'.byte k = m.byte k) :
    m'.load (BitVec.ofNat 32 a) = m.load (BitVec.ofNat 32 a) := by
  refine BitVec.eq_of_toNat_eq ?_
  rw [Mem.toNat_load, Mem.toNat_load, hm a (by omega) (by omega), hm (a + 1) (by omega) (by omega),
    hm (a + 2) (by omega) (by omega), hm (a + 3) (by omega) (by omega)]

/-- A link both halves of which are the same does not lead to the flag of a header at such an address. -/
theorem twice_misses {u v : ℕ} (hhi : c + 20 ≤ heapHi) (hc : c % 65536 = 0xDEAB) (hu : u < 65536)
    (hv : v = 65537 * u) :
    c + 8 < v + 16 ∨ v + 16 + 4 ≤ c + 8 := by
  have hb := heap_bounds
  have hupper : v / 65536 = u := by omega
  have hlower : v % 65536 = u := by omega
  clear hv
  by_contra hno
  have hq : v / 65536 = c / 65536 := by omega
  have hr : 0xDEA0 ≤ v % 65536 := by omega
  omega

section Unlink

variable (hlo : heapLo ≤ c) (hhi : c + 20 ≤ heapHi)
include hlo hhi

/-- A store through a pointer to a field `d` bytes behind it, away from the header. -/
theorem byte_store_away {w v : Word} {d : ℕ} (hd : d ≤ 16) (ha : Away c (w.toNat + d)) (hk : c + 8 ≤ k)
    (hk' : k < c + 20) : (m.store (w + BitVec.ofNat 32 d) v).byte k = m.byte k := by
  have hb := heap_bounds
  unfold Away at ha
  refine Mem.byte_store_of_apart _ _ _ (by omega) (by omega) ?_
  rw [BitVec.toNat_add, toNat_ofNat_of_lt (by omega)]
  omega

/-- The first store is away from the header: the links are read again as they were. -/
theorem unlink_away {pw nw : Word} (hp : m.load (BitVec.ofNat 32 (c + 16)) = pw)
    (hn : m.load (BitVec.ofNat 32 (c + 12)) = nw) (ha : Away c (pw.toNat + 12)) :
    ∃ m', (∀ k, c + 8 ≤ k → k < c + 20 → m'.byte k = m.byte k) ∧
      unlink m (BitVec.ofNat 32 c) = if nw ≠ 0 then m'.store (nw + BitVec.ofNat 32 16) pw else m' := by
  have hkeep : ∀ k, c + 8 ≤ k → k < c + 20 → (m.store (pw + BitVec.ofNat 32 12) nw).byte k = m.byte k :=
    fun k => byte_store_away hlo hhi (by omega) ha
  refine ⟨m.store (pw + BitVec.ofNat 32 12) nw, hkeep, ?_⟩
  rw [unlink_eq hp hn rfl, (load_eq_of_byte (by omega) (by omega) hkeep).trans hn,
    (load_eq_of_byte (by omega) (by omega) hkeep).trans hp]

theorem byte_unlink_away {pw nw : Word} (hp : m.load (BitVec.ofNat 32 (c + 16)) = pw)
    (hn : m.load (BitVec.ofNat 32 (c + 12)) = nw) (ha : Away c (pw.toNat + 12))
    (hna : nw = 0 ∨ Away c (nw.toNat + 16)) (hk : c + 8 ≤ k) (hk' : k < c + 20) :
    (unlink m (BitVec.ofNat 32 c)).byte k = m.byte k := by
  obtain ⟨m', hm', hu⟩ := unlink_away hlo hhi hp hn ha
  rw [hu]
  split_ifs with hne
  · rw [byte_store_away hlo hhi (by omega) (hna.resolve_left hne) hk hk', hm' k hk hk']
  · exact hm' k hk hk'

/-- Away from the header the stores leave the flag alone. -/
theorem free_unlink_away {pw nw : Word} (hp : m.load (BitVec.ofNat 32 (c + 16)) = pw)
    (hn : m.load (BitVec.ofNat 32 (c + 12)) = nw) (ha : Away c (pw.toNat + 12))
    (hna : nw = 0 ∨ Away c (nw.toNat + 16)) (h8 : m.byte (c + 8) ≠ 0) :
    (unlink m (BitVec.ofNat 32 c)).load (BitVec.ofNat 32 (c + 8)) ≠ 0 := by
  refine load_ne_zero (i := 0) (by omega) ?_
  rwa [Nat.add_zero, byte_unlink_away hlo hhi hp hn ha hna (by omega) (by omega)]

/-- The first store falls on the links: a `next` link with large upper bytes is read again as
one that is outside the heap, unless the lower half of it is read twice. -/
theorem relinked_next {w : Word} (hw : m.load (BitVec.ofNat 32 (c + 12)) = w) (h2 : 0x80 ≤ m.byte (c + 14))
    (h3 : 0 < m.byte (c + 15)) (ha : c + 9 ≤ a) (ha' : a < c + 20) :
    heapHi ≤ ((m.store (BitVec.ofNat 32 a) w).load (BitVec.ofNat 32 (c + 12))).toNat ∨
      a = c + 14 ∧ ((m.store (BitVec.ofNat 32 a) w).load (BitVec.ofNat 32 (c + 12))).toNat =
        65537 * (m.byte (c + 12) + 256 * m.byte (c + 13)) := by
  have hb := heap_bounds
  have hin {i : ℕ} (hi : i < 4) : (m.store (BitVec.ofNat 32 a) w).byte (a + i) = m.byte (c + 12 + i) := by
    rw [← hw]
    exact byte_store_load m hi
  have hout {k : ℕ} (hk : c ≤ k) (hk' : k < c + 20) (h : k < a ∨ a + 4 ≤ k) :
      (m.store (BitVec.ofNat 32 a) w).byte k = m.byte k :=
    Mem.byte_store_of_apart _ _ _ (by omega) (by omega) (by rw [toNat_ofNat_of_lt (by omega)]; exact h)
  rw [Mem.toNat_load]
  generalize m.store (BitVec.ofNat 32 a) w = m' at hin hout ⊢
  have i0 := hin (i := 0) (by omega)
  have i1 := hin (i := 1) (by omega)
  have i2 := hin (i := 2) (by omega)
  have i3 := hin (i := 3) (by omega)
  simp only [Nat.add_zero, Nat.add_assoc, Nat.reduceAdd] at i0 i1 i2 i3 ⊢
  obtain rfl | rfl | rfl | rfl | rfl | rfl | rfl | hge : a = c + 9 ∨ a = c + 10 ∨ a = c + 11 ∨ a = c + 12 ∨
      a = c + 13 ∨ a = c + 14 ∨ a = c + 15 ∨ c + 16 ≤ a := by omega
  all_goals try simp only [Nat.add_assoc, Nat.reduceAdd] at i0 i1 i2 i3
  · have o3 := hout (k := c + 15) (by omega) (by omega) (by omega)
    omega
  · have o3 := hout (k := c + 15) (by omega) (by omega) (by omega)
    omega
  · have o3 := hout (k := c + 15) (by omega) (by omega) (by omega)
    omega
  · omega
  · omega
  · have o0 := hout (k := c + 12) (by omega) (by omega) (by omega)
    have o1 := hout (k := c + 13) (by omega) (by omega) (by omega)
    omega
  · have o2 := hout (k := c + 14) (by omega) (by omega) (by omega)
    omega
  · have o3 := hout (k := c + 15) (by omega) (by omega) (by omega)
    omega

/-- What the second store does not meet is as after the first. -/
theorem byte_setPrev_of_miss {w v : Word} (hk : c + 8 ≤ k) (hk' : k < c + 20)
    (h : k < w.toNat + 16 ∨ w.toNat + 16 + 4 ≤ k) :
    (if w ≠ 0 then m.store (w + BitVec.ofNat 32 16) v else m).byte k = m.byte k := by
  have hb := heap_bounds
  split_ifs with hne
  · refine Mem.byte_store_of_apart _ _ _ (by omega) (by omega) ?_
    rw [BitVec.toNat_add, toNat_ofNat_of_lt (by omega)]
    omega
  · rfl

/-- The links are damaged in part: `prev` is below `2 ^ 24` and `next` has large upper bytes. -/
theorem free_unlink_damaged {pw nw : Word} (hp : m.load (BitVec.ofNat 32 (c + 16)) = pw)
    (hn : m.load (BitVec.ofNat 32 (c + 12)) = nw) (hp24 : pw.toNat < 2 ^ 24) (h8 : m.byte (c + 8) ≠ 0)
    (h2 : 0x80 ≤ m.byte (c + 14)) (h3 : 0 < m.byte (c + 15))
    (h1 : 0 < m.byte (c + 13) ∨ pw.toNat % 65536 = 0xDEAD) :
    (unlink m (BitVec.ofNat 32 c)).load (BitVec.ofNat 32 (c + 8)) ≠ 0 := by
  have hb := heap_bounds
  have hnw := m.toNat_load (c + 12)
  rw [hn] at hnw
  simp only [Nat.add_assoc, Nat.reduceAdd] at hnw
  have hnaway : Away c (nw.toNat + 16) := .inr (by omega)
  by_cases ha : Away c (pw.toNat + 12)
  · exact free_unlink_away hlo hhi hp hn ha (.inr hnaway) h8
  unfold Away at ha
  -- the first store meets the flag or the links
  obtain ⟨a, ha12⟩ : ∃ a, a = pw.toNat + 12 := ⟨_, rfl⟩
  have hpw : pw + BitVec.ofNat 32 12 = BitVec.ofNat 32 a := by
    refine BitVec.eq_of_toNat_eq ?_
    rw [BitVec.toNat_add, toNat_ofNat_of_lt (n := 12) (by omega), toNat_ofNat_of_lt (n := a) (by omega)]
    omega
  obtain ⟨m', hm'⟩ : ∃ m', m' = m.store (BitVec.ofNat 32 a) nw := ⟨_, rfl⟩
  have hout {k : ℕ} (hk : c ≤ k) (hk' : k < c + 20) (h : k < a ∨ a + 4 ≤ k) : m'.byte k = m.byte k := by
    rw [hm']
    exact Mem.byte_store_of_apart _ _ _ (by omega) (by omega) (by rw [toNat_ofNat_of_lt (by omega)]; exact h)
  obtain ⟨nw', hnw'⟩ : ∃ w, w = m'.load (BitVec.ofNat 32 (c + 12)) := ⟨_, rfl⟩
  have hu := unlink_eq hp hn (hm'.trans (by rw [hpw]))
  rw [← hnw'] at hu
  have hlast {k : ℕ} (hk : c + 8 ≤ k) (hk' : k < c + 20) (h : k < nw'.toNat + 16 ∨ nw'.toNat + 16 + 4 ≤ k) :
      (unlink m (BitVec.ofNat 32 c)).byte k = m'.byte k := by
    rw [hu]
    exact byte_setPrev_of_miss hlo hhi hk hk' h
  by_cases ha8 : a ≤ c + 8
  · -- the upper byte of `next` falls on the flag
    have hin : m'.byte (a + 3) = m.byte (c + 12 + 3) := by
      rw [hm', ← hn]
      exact byte_store_load m (by omega)
    have hsame : nw' = nw := by
      rw [hnw', ← hn]
      refine BitVec.eq_of_toNat_eq ?_
      rw [Mem.toNat_load, Mem.toNat_load, hout (by omega) (by omega) (by omega),
        hout (by omega) (by omega) (by omega), hout (by omega) (by omega) (by omega),
        hout (by omega) (by omega) (by omega)]
    obtain ⟨i, hi⟩ : ∃ i, a + 3 = c + 8 + i := ⟨a + 3 - (c + 8), by omega⟩
    refine load_ne_zero (i := i) (by omega) ?_
    rw [hlast (by omega) (by omega) (by rw [hsame]; omega), ← hi, hin]
    exact h3.ne'
  · -- the flag is not met, and the `next` link that is read again does not lead to it
    refine load_ne_zero (i := 0) (by omega) ?_
    have hkeep : m'.byte (c + 8) = m.byte (c + 8) := hout (by omega) (by omega) (by omega)
    have hre := relinked_next hlo hhi hn h2 h3 (a := a) (by omega) (by omega)
    rw [← hm', ← hnw'] at hre
    have hmiss : c + 8 < nw'.toNat + 16 ∨ nw'.toNat + 16 + 4 ≤ c + 8 := by
      obtain hfar | ⟨ha14, htwice⟩ := hre
      · omega
      · have hl0 := m.byte_lt (c + 12)
        have hl1 := m.byte_lt (c + 13)
        obtain h1 | h1 := h1
        · omega
        · exact twice_misses hhi (by omega) (by omega) htwice
    rw [Nat.add_zero, hlast (by omega) (by omega) hmiss, hkeep]
    exact h8

/-- The guard word covers the upper bytes of the flag and the lower ones of `next`: the second store
may fall on the flag, but it stores an address of the heap. -/
theorem free_unlink_next {nw : Word} (hp : m.load (BitVec.ofNat 32 (c + 16)) = BitVec.ofNat 32 p)
    (hn : m.load (BitVec.ofNat 32 (c + 12)) = nw) (hp0 : 0 < p) (hpc : p + 20 ≤ c) (h8 : m.byte (c + 8) ≠ 0)
    (h11 : m.byte (c + 11) ≠ 0) :
    (unlink m (BitVec.ofNat 32 c)).load (BitVec.ofNat 32 (c + 8)) ≠ 0 := by
  have hb := heap_bounds
  have hpaway : Away c ((BitVec.ofNat 32 p).toNat + 12) := .inl (by rw [toNat_ofNat_of_lt (by omega)]; omega)
  obtain ⟨m', hm', hu⟩ := unlink_away hlo hhi hp hn hpaway
  rw [hu]
  split_ifs with hne
  swap
  · refine load_ne_zero (i := 0) (by omega) ?_
    rwa [Nat.add_zero, hm' _ (by omega) (by omega)]
  obtain ⟨q, hq⟩ : ∃ q, q = (nw + BitVec.ofNat 32 16).toNat := ⟨_, rfl⟩
  have hkeep {k : ℕ} (hk : c + 8 ≤ k) (hk' : k < c + 20) (h : k < q ∨ q + 4 ≤ k) :
      (m'.store (nw + BitVec.ofNat 32 16) (BitVec.ofNat 32 p)).byte k = m.byte k := by
    rw [hq] at h
    rw [Mem.byte_store_of_apart _ _ _ (by omega) (by omega) h, hm' k hk hk']
  obtain hlt | heq | hgt := lt_trichotomy q (c + 8)
  · refine load_ne_zero (i := 3) (by omega) ?_
    rwa [Nat.add_assoc, hkeep (by omega) (by omega) (by omega)]
  · have hw : nw + BitVec.ofNat 32 16 = BitVec.ofNat 32 (c + 8) := by
      rw [← heq, hq, BitVec.ofNat_toNat, BitVec.setWidth_eq]
    rw [hw, Mem.load_store_self, ne_eq, ofNat_eq_zero_iff (by omega)]
    omega
  · refine load_ne_zero (i := 0) (by omega) ?_
    rwa [Nat.add_zero, hkeep (by omega) (by omega) (by omega)]

/-- A guard word anywhere on the header does not lead to a free flag that is `0`. -/
theorem free_unlink (h8 : m.load (BitVec.ofNat 32 (c + 8)) = 1)
    (hn : m.load (BitVec.ofNat 32 (c + 12)) = BitVec.ofNat 32 n)
    (hp : m.load (BitVec.ofNat 32 (c + 16)) = BitVec.ofNat 32 p) (hp0 : 0 < p) (hpc : p + 20 ≤ c)
    (hnc : n = 0 ∨ c + 20 ≤ n ∧ n + 20 ≤ heapHi) (hg : g + 4 ≤ 2 ^ 32) :
    (unlink (m.store (BitVec.ofNat 32 g) HEAP_MAGIC) (BitVec.ofNat 32 c)).load
      (BitVec.ofNat 32 (c + 8)) ≠ 0 := by
  have hb := heap_bounds
  -- the bytes of the header, under the guard word
  have hone := m.toNat_load (c + 8)
  have hprev := m.toNat_load (c + 16)
  rw [h8, show (1 : Word).toNat = 1 from rfl] at hone
  rw [hp, toNat_ofNat_of_lt (by omega)] at hprev
  simp only [Nat.add_assoc, Nat.reduceAdd] at hone hprev
  obtain ⟨hg0, hg1, hg2, hg3⟩ := byte_guard m g
  obtain ⟨m', hm'⟩ : ∃ m', m' = m.store (BitVec.ofNat 32 g) HEAP_MAGIC := ⟨_, rfl⟩
  have hkeep {k : ℕ} (hk : c + 8 ≤ k) (hk' : k < c + 20) (h : k < g ∨ g + 4 ≤ k) : m'.byte k = m.byte k := by
    rw [hm']
    exact Mem.byte_store_of_apart _ _ _ (by omega) (by omega) (by rw [toNat_ofNat_of_lt (by omega)]; exact h)
  have hloadn (h : g + 4 ≤ c + 12 ∨ c + 16 ≤ g) : m'.load (BitVec.ofNat 32 (c + 12)) = BitVec.ofNat 32 n := by
    rw [hm', Mem.load_store_of_apart _ _ (by omega) (by omega) (by omega), hn]
  have hloadp (h : g + 4 ≤ c + 16 ∨ c + 20 ≤ g) : m'.load (BitVec.ofNat 32 (c + 16)) = BitVec.ofNat 32 p := by
    rw [hm', Mem.load_store_of_apart _ _ (by omega) (by omega) (by omega), hp]
  rw [← hm'] at hg0 hg1 hg2 hg3 ⊢
  have hpaway : Away c ((BitVec.ofNat 32 p).toNat + 12) := .inl (by rw [toNat_ofNat_of_lt (by omega)]; omega)
  have hnaway : BitVec.ofNat 32 n = 0 ∨ Away c ((BitVec.ofNat 32 n).toNat + 16) := by
    obtain rfl | hnc := hnc
    · exact .inl rfl
    · exact .inr (.inr (by rw [toNat_ofNat_of_lt (by omega)]; omega))
  -- the lowest byte of the flag is a byte of the guard word or still `1`
  have hflag : m'.byte (c + 8) ≠ 0 := by
    by_cases hin : g ≤ c + 8 ∧ c + 8 < g + 4
    · obtain h | h | h | h : c + 8 = g ∨ c + 8 = g + 1 ∨ c + 8 = g + 2 ∨ c + 8 = g + 3 := by omega
      all_goals rw [h]; omega
    · rw [hkeep (by omega) (by omega) (by omega)]
      omega
  by_cases hclear : g + 4 ≤ c + 12 ∨ c + 20 ≤ g
  · exact free_unlink_away hlo hhi (hloadp (by omega)) (hloadn (by omega)) hpaway hnaway hflag
  have hnw := m'.toNat_load (c + 12)
  have hpw := m'.toNat_load (c + 16)
  simp only [Nat.add_assoc, Nat.reduceAdd] at hnw hpw
  obtain h | h | h | h | h : (g = c + 9 ∨ g = c + 10 ∨ g = c + 11) ∨ g = c + 12 ∨ (g = c + 13 ∨ g = c + 14) ∨
      g = c + 15 ∨ c + 16 ≤ g := by omega
  · -- on the flag and `next`
    refine free_unlink_next hlo hhi (hloadp (by omega)) rfl hp0 hpc hflag ?_
    obtain rfl | rfl | rfl := h
    all_goals simp only [Nat.add_assoc, Nat.reduceAdd] at hg0 hg1 hg2
    all_goals omega
  · -- on `next`: the magic word is not an address of the heap
    rw [h] at hg3
    simp only [Nat.add_assoc, Nat.reduceAdd] at hg3
    exact free_unlink_away hlo hhi (hloadp (by omega)) rfl hpaway (.inr (.inr (by omega))) hflag
  · -- on `next` and `prev`
    have h19 := hkeep (k := c + 19) (by omega) (by omega) (by omega)
    have h17 := m'.byte_lt (c + 17)
    have h18 := m'.byte_lt (c + 18)
    refine free_unlink_damaged hlo hhi rfl rfl ?_ hflag ?_ ?_ ?_
    all_goals
      obtain rfl | rfl := h
      all_goals
        simp only [Nat.add_assoc, Nat.reduceAdd] at hg0 hg1 hg2 hg3
        omega
  · -- on the upper byte of `next` and on `prev`
    rw [h] at hg0 hg1 hg2 hg3
    simp only [Nat.add_assoc, Nat.reduceAdd] at hg0 hg1 hg2 hg3
    exact free_unlink_away hlo hhi rfl rfl (.inr (by omega)) (.inr (.inr (by omega))) hflag
  · -- on `prev`: the upper byte is one of the magic word
    have hbig : 0xAD ≤ m'.byte (c + 19) := by
      obtain h' | h' | h' | h' : c + 19 = g ∨ c + 19 = g + 1 ∨ c + 19 = g + 2 ∨ c + 19 = g + 3 := by omega
      all_goals rw [h']; omega
    exact free_unlink_away hlo hhi rfl (hloadn (by omega)) (.inr (by omega)) hnaway hflag

end Unlink

/-! ### The repeated call -/

/-- After the merges the freed header is still marked free, wherever it is by then. -/
theorem coalesce_free_ne_zero (hh : Holds h.mem (pre ++ b :: post)) (hp : (pre ++ b :: post).Pairwise Apart)
    (hin : InSpace (pre ++ b :: post)) (hlast : ∀ y, post = [y] → y.free = false)
    (hheap : ∀ y ∈ pre ++ b :: post, heapLo ≤ y.addr ∧ y.stop ≤ heapHi) :
    (coalesce h (BitVec.ofNat 32 b.addr)).load (BitVec.ofNat 32 (b.addr + 8)) ≠ 0 := by
  have hb := heap_bounds
  obtain ⟨m₁, hm₁⟩ : ∃ m₁, m₁ = setFree h.mem (BitVec.ofNat 32 b.addr) 1 := ⟨_, rfl⟩
  obtain ⟨m₂, hm₂⟩ : ∃ m₂, m₂ = if mergeable h m₁ (next m₁ (BitVec.ofNat 32 b.addr)) then
    mergeNext m₁ (BitVec.ofNat 32 b.addr) else m₁ := ⟨_, rfl⟩
  have hm := nextMerged_spec hh hp hin hlast hm₁ hm₂
  have hprev := hm.prev.trans hh.mid.1.prev
  rw [coalesce, ← hm₁, ← hm₂, prev_ofNat, hprev]
  split_ifs with hmer
  swap
  · rw [hm.free]
    decide
  obtain rfl | ⟨r, p, rfl⟩ := List.eq_nil_or_concat pre
  · exact absurd hmer not_mergeable_zero
  rw [List.concat_eq_append] at *
  rw [last_append_cons, last_nil] at hprev
  -- the words that the merge reads
  obtain ⟨sz, hsz, w, hw, hszw⟩ := hm.size
  obtain ⟨n, hn, hnz⟩ := hm.next
  have hpb := ((List.pairwise_append.mp hp).2.2 p (by simp) b (by simp)).le
  have hph := hheap p (by simp)
  have hbh := hheap b (by simp)
  have hwh := hheap w (List.mem_append_right _ hw)
  have hps : p.stop = p.addr + 20 + p.size := rfl
  have hbs : b.stop = b.addr + 20 + b.size := rfl
  have hpsize : m₂.load (BitVec.ofNat 32 (p.addr + 4)) = BitVec.ofNat 32 p.size :=
    (hm.below _ (by omega)).trans (hh.sealed p (by simp)).size
  have hmp : mergePrev m₂ (BitVec.ofNat 32 b.addr) =
      unlink ((m₂.store (BitVec.ofNat 32 (p.addr + 4)) (BitVec.ofNat 32 (p.size + 24 + sz))).store
        (BitVec.ofNat 32 (p.addr + 20 + (p.size + 24 + sz))) HEAP_MAGIC) (BitVec.ofNat 32 b.addr) := by
    rw [mergePrev_eq_unlink]
    simp (disch := omega) only [prev_ofNat, hprev, size_ofNat, hsz, hpsize, merged_size, setSize_ofNat,
      Mem.load_store_of_apart, Mem.load_store_self, tail_ofNat]
  rw [hmp]
  refine free_unlink (n := n) (p := p.addr) hbh.1 (by omega) ?_ ?_ ?_ (by omega) (by omega) ?_ (by omega)
  · rw [Mem.load_store_of_apart _ _ (by omega) (by omega) (by omega)]
    exact hm.free
  · rw [Mem.load_store_of_apart _ _ (by omega) (by omega) (by omega)]
    exact hn
  · rw [Mem.load_store_of_apart _ _ (by omega) (by omega) (by omega)]
    exact hprev
  · refine hnz.imp_right ?_
    rintro ⟨z, hz, rfl⟩
    have hbz := ((List.pairwise_cons.mp (List.pairwise_append.mp hp).2.1).1 z hz).le
    have hzh := hheap z (by simp [hz])
    have hzs : z.stop = z.addr + 20 + z.size := rfl
    omega

/-- **A repeated `kfree` changes nothing**: it leaves the heap as the first one left it, and prints
at most a message. -/
theorem kfree_twice (hw : Intact h (pre ++ b :: post))
    (hheap : ∀ y ∈ pre ++ b :: post, heapLo ≤ y.addr ∧ y.stop ≤ heapHi) (hbf : b.free = false)
    (hk : kfree k h (BitVec.ofNat 32 b.payload) = some (h', out)) :
    ∃ out', ∀ k, kfree k h' (BitVec.ofNat 32 b.payload) = some (h', out') := by
  have hin := hw.inSpace
  have hstart : h.heapStart = BitVec.ofNat 32 h.heapStart.toNat := by
    rw [BitVec.ofNat_toNat, BitVec.setWidth_eq]
  have hend : h.heapEnd = BitVec.ofNat 32 h.heapEnd.toNat := by rw [BitVec.ofNat_toNat, BitVec.setWidth_eq]
  have heq (j : ℕ) :=
    kfree_eq hstart hend h.heapStart.isLt h.heapEnd.isLt hw.rep.holds.mid.2 (hin b (by simp))
    hbf j
  by_cases hacc : Accepts h.heapStart.toNat h.heapEnd.toNat b
  · -- the call went through, and the header is marked free
    have hkf := heq k
    rw [if_pos hacc, hk] at hkf
    obtain ⟨h₁, hret, h1⟩ := Option.map_eq_some_iff.mp hkf.symm
    obtain rfl := (Prod.mk.inj h1).1
    refine kfree_refused ?_
    have hblock : BitVec.ofNat 32 b.payload - SIZEOF_HEADER = BitVec.ofNat 32 b.addr := by
      have hbs := (hin b (by simp)).2
      unfold stop at hbs
      unfold payload SIZEOF_HEADER
      bv_omega
    have hlast : ∀ y, post = [y] → y.free = false := by
      rintro y rfl
      exact hw.last y (by simp)
    rw [hblock, free_ofNat, (retract_some hret).1]
    exact coalesce_free_ne_zero hw.rep.holds hw.pairwise hin hlast hheap
  · -- the call was refused, and is refused again
    have hno := heq 0
    rw [if_neg hacc] at hno
    obtain ⟨msg, hno⟩ := hno
    obtain ⟨rfl, -⟩ := Prod.mk.inj (kfree_unique hk hno)
    exact ⟨[msg], fun j => kfree_mono hno (Nat.zero_le j)⟩

/-- A block between two free ones is freed twice. -/
theorem merged_twice : ∃ h h' out out', kfree 8 h 0x400030 = some (h', out) ∧
    ∀ k, kfree k h' 0x400030 = some (h', out') := by
  obtain ⟨s, -, hout⟩ := exists_reach (k := 8) (fun _ => 0)
    [.malloc 8, .malloc 8, .malloc 8, .malloc 8, .free 0x400014, .free 0x400050]
    (fun s => (decide (Intact s.heap [⟨0x400000, 8, true⟩, ⟨0x40001C, 8, false⟩, ⟨0x40003C, 8, true⟩,
      ⟨0x40005C, 8, false⟩]), (kfree 8 s.heap 0x400030).isSome)) (true, true) (by decide +kernel)
  obtain ⟨hw, hk⟩ := Prod.mk.inj hout
  obtain ⟨⟨h', out⟩, hk⟩ := Option.isSome_iff_exists.mp hk
  have hw : Intact s.heap ([⟨0x400000, 8, true⟩] ++ ⟨0x40001C, 8, false⟩ :: [⟨0x40003C, 8, true⟩,
    ⟨0x40005C, 8, false⟩]) := of_decide_eq_true hw
  obtain ⟨out', hagain⟩ := kfree_twice hw (by decide) rfl hk
  exact ⟨s.heap, h', out, out', hk, hagain⟩

end SpatulaOS.Mm
