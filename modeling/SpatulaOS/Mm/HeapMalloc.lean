import SpatulaOS.Mm.HeapRep

/-!
# `kmalloc` on a well-formed heap

On a state that holds a well-formed arena, `kmalloc` terminates; it returns `NULL`
and changes nothing, or it does what `Arena.Malloc` says and leaves the payloads of
the blocks in use alone (`kmalloc_spec`).
-/

namespace SpatulaOS.Mm

open ByteMemory Threaded Block

variable {h h' : Heap} {A : Arena} {m m' : Mem} {x y b : Block} {bs pre post : List Block} {n e p : ℕ}

/-! ### The rounded size -/

/-- The rounded size, which wraps round to `0` for the seven largest requests. -/
theorem toNat_align (w : Word) : (align w).toNat = (w.toNat + 7) % 2 ^ 32 / 8 * 8 := by
  rw [align, show (7 : Word) = BitVec.ofNat 32 (2 ^ 3 - 1) from rfl, toNat_and_not_low, BitVec.toNat_add]
  rfl

/-- A request that passes the first two tests is rounded up to a positive multiple of 8. -/
theorem align_ok {w : Word} (h0 : w ≠ 0) (h1 : ¬ align w < w) :
    8 ≤ (align w).toNat ∧ 8 ∣ (align w).toNat ∧ w.toNat ≤ (align w).toNat := by
  have h2 := toNat_align w
  have h3 : w.toNat ≤ (align w).toNat := Nat.le_of_not_lt h1
  have h4 : w.toNat ≠ 0 := fun h => h0 (BitVec.eq_of_toNat_eq (by simpa using h))
  omega

theorem ofNat_ge_end (hn : n < 2 ^ 32) : BitVec.ofNat 32 n ≥ KERNEL_HEAP_END ↔ heapHi ≤ n := by
  rw [ge_iff_le, BitVec.le_def, toNat_ofNat_of_lt hn]
  rfl

/-- The test for the room above the break, when there is some. -/
theorem room_of_fit (he : e + 24 ≤ heapHi) (hn : n < 2 ^ 32)
    (hfit : ¬ BitVec.ofNat 32 n > KERNEL_HEAP_END - BitVec.ofNat 32 e - SIZEOF_HEADER - SIZEOF_WORD) :
    e + 24 + n ≤ heapHi := by
  unfold KERNEL_HEAP_END SIZEOF_HEADER SIZEOF_WORD at hfit
  unfold heapHi at *
  bv_omega

/-! ### New blocks -/

/-- The memory with a new block of `n` bytes in use at `e`, whose previous block is `p`. -/
def newMem (m : Mem) (e n p : ℕ) : Mem :=
  (((((m.store (BitVec.ofNat 32 e) HEAP_MAGIC).store (BitVec.ofNat 32 (e + 4))
    (BitVec.ofNat 32 n)).store (BitVec.ofNat 32 (e + 8)) 0).store (BitVec.ofNat 32 (e + 12)) 0).store
    (BitVec.ofNat 32 (e + 16)) (BitVec.ofNat 32 p)).store (BitVec.ofNat 32 (e + 20 + n)) HEAP_MAGIC

theorem keeps_newMem (m : Mem) {e n p : ℕ} (he : e + 24 + n ≤ 2 ^ 32) :
    Keeps (Set.Ico e (e + 24 + n)) m (newMem m e n p) := by
  have hst {m' : Mem} (hm' : Keeps (Set.Ico e (e + 24 + n)) m m') {k : ℕ} (v : Word) (h1 : e ≤ k)
      (h2 : k + 4 ≤ e + 24 + n) : Keeps (Set.Ico e (e + 24 + n)) m (m'.store (BitVec.ofNat 32 k) v) :=
    hm'.store v (by omega) fun j hj => by rw [Set.mem_Ico] at hj ⊢; omega
  unfold newMem
  iterate 6 refine hst ?_ _ (by omega) (by omega)
  exact Keeps.refl _ _

theorem newMem_block (m : Mem) {e n p : ℕ} (he : e + 24 + n ≤ 2 ^ 32) :
    Link (newMem m e n p) p ⟨e, n, false⟩ 0 ∧ Sealed (newMem m e n p) ⟨e, n, false⟩ := by
  refine ⟨⟨?_, ?_⟩, ?_, ?_, ?_, ?_⟩ <;>
    simp (disch := omega) only [newMem, stop, Mem.load_store_of_apart, Mem.load_store_self]
  all_goals decide

/-- The first block, written into an empty heap. -/
theorem kmallocFirst_spec (hm : Models heapLo h A) (hn : A.brk + 24 + n ≤ heapHi) :
    ∃ h', kmallocFirst h (BitVec.ofNat 32 n) = (BitVec.ofNat 32 (A.brk + 20), h') ∧
      Models heapLo h' ⟨[⟨A.brk, n, false⟩], A.brk + 20 + n⟩ := by
  have hb := heap_bounds
  have hend : h.heapEnd + SIZEOF_HEADER + BitVec.ofNat 32 n = BitVec.ofNat 32 (A.brk + 20 + n) := by
    rw [hm.heapEnd]; unfold SIZEOF_HEADER; bv_omega
  have hlt : ¬ BitVec.ofNat 32 (A.brk + 20 + n) ≥ KERNEL_HEAP_END := by
    rw [ofNat_ge_end (by omega)]; omega
  refine ⟨⟨newMem h.mem A.brk n 0, h.heapStart, BitVec.ofNat 32 (A.brk + 20 + n), BitVec.ofNat 32 A.brk⟩,
    ?_, ?_⟩
  · unfold kmallocFirst
    simp only [hend, if_neg hlt]
    rw [hm.heapEnd, BitVec.ofNat_add A.brk 20]
    simp only [setMagic_ofNat, setSize_ofNat, setFree_ofNat, setNext_ofNat, setPrev_ofNat, tail_ofNat]
    rfl
  · obtain ⟨hl, hs⟩ := newMem_block h.mem (e := A.brk) (n := n) (p := 0) (by omega)
    exact ⟨⟨rfl, ⟨hl, trivial⟩, by simpa using hs⟩, hm.heapStart, rfl⟩

/-! ### The search -/

theorem serves_iff (hx : Sealed m x) (hs : x.stop + 4 ≤ 2 ^ 32) (hn : n < 2 ^ 32) :
    (free m (BitVec.ofNat 32 x.addr) ≠ 0 ∧ size m (BitVec.ofNat 32 x.addr) ≥ BitVec.ofNat 32 n) ↔
      x.Serves n := by
  rw [free_ofNat, size_ofNat, hx.free, hx.size, Serves, ge_iff_le, BitVec.le_def, toNat_ofNat_of_lt hn,
    toNat_ofNat_of_lt (by unfold stop at hs; omega)]

/-- The search passes a block that does not serve the request. -/
theorem search_step (fuel : ℕ) (hx : Sealed m x) (hl : Link m p x e) (hs : x.stop + 4 ≤ 2 ^ 32)
    (he : e < 2 ^ 32) (hn : n < 2 ^ 32) (hno : ¬ x.Serves n) :
    search m (BitVec.ofNat 32 n) (fuel + 1) (BitVec.ofNat 32 x.addr) =
      if e = 0 then some (.last (BitVec.ofNat 32 x.addr))
      else search m (BitVec.ofNat 32 n) fuel (BitVec.ofNat 32 e) := by
  rw [search, if_neg (by rwa [serves_iff hx hs hn]), next_ofNat, hl.next]
  simp only [ofNat_eq_zero_iff he]

/-- The search passes the blocks in front that do not serve the request. -/
theorem search_skip {fuel : ℕ} (hl : Thread Block.addr (Link m) p (pre ++ x :: post) 0)
    (hse : ∀ y ∈ pre ++ x :: post, Sealed m y) (hs : InSpace (pre ++ x :: post)) (hn : n < 2 ^ 32)
    (hpre : ∀ y ∈ pre, ¬ y.Serves n) :
    search m (BitVec.ofNat 32 n) (pre.length + fuel)
      (BitVec.ofNat 32 (first Block.addr (pre ++ x :: post) 0)) =
      search m (BitVec.ofNat 32 n) fuel (BitVec.ofNat 32 x.addr) := by
  induction pre generalizing p with
  | nil => simp
  | cons y pre ih =>
    have hs' : InSpace (pre ++ x :: post) := fun z hz => hs z (List.mem_cons_of_mem _ hz)
    have hne : first Block.addr (pre ++ x :: post) 0 ≠ 0 := by
      obtain _ | ⟨z, pre⟩ := pre
      · exact (hs' x (by simp)).1.ne'
      · exact (hs' z (by simp)).1.ne'
    have hstep := search_step (pre.length + fuel) (hse y (by simp)) hl.1 (hs y (by simp)).2
      hs'.first_lt hn (hpre y (by simp))
    rw [List.length_cons, Nat.add_right_comm, List.cons_append, first_cons]
    exact (hstep.trans (if_neg hne)).trans (ih hl.2 (fun z hz => hse z (List.mem_cons_of_mem _ hz)) hs'
      fun z hz => hpre z (List.mem_cons_of_mem _ hz))

/-- The search finds the first free block that is large enough. -/
theorem search_fit {fuel : ℕ} (hl : Thread Block.addr (Link m) p (pre ++ x :: post) 0)
    (hse : ∀ y ∈ pre ++ x :: post, Sealed m y) (hs : InSpace (pre ++ x :: post)) (hn : n < 2 ^ 32)
    (hpre : ∀ y ∈ pre, ¬ y.Serves n) (hx : x.Serves n) (hf : pre.length < fuel) :
    search m (BitVec.ofNat 32 n) fuel (BitVec.ofNat 32 (first Block.addr (pre ++ x :: post) 0)) =
      some (.fit (BitVec.ofNat 32 x.addr)) := by
  obtain ⟨k, rfl⟩ := Nat.exists_eq_add_of_lt hf
  have hxs := (serves_iff (hse x (by simp)) (hs x (by simp)).2 hn).mpr hx
  rw [Nat.add_assoc, search_skip hl hse hs hn hpre, search, if_pos hxs]

/-- The search ends at the last block if no block serves the request. -/
theorem search_last {fuel : ℕ} (hl : Thread Block.addr (Link m) p (pre ++ [x]) 0)
    (hse : ∀ y ∈ pre ++ [x], Sealed m y) (hs : InSpace (pre ++ [x])) (hn : n < 2 ^ 32)
    (hno : ∀ y ∈ pre ++ [x], ¬ y.Serves n) (hf : pre.length < fuel) :
    search m (BitVec.ofNat 32 n) fuel (BitVec.ofNat 32 (first Block.addr (pre ++ [x]) 0)) =
      some (.last (BitVec.ofNat 32 x.addr)) := by
  obtain ⟨k, rfl⟩ := Nat.exists_eq_add_of_lt hf
  rw [Nat.add_assoc, search_skip hl hse hs hn fun y hy => hno y (by simp [hy]),
    search_step k (hse x (by simp)) (thread_mid.mp hl).2.1 (hs x (by simp)).2 (by simp) hn (hno x (by simp))]
  rfl

/-! ### Reusing a free block -/

theorem splits_iff {sx : ℕ} (hn : n ≤ sx) (hs : sx + 32 < 2 ^ 32) :
    BitVec.ofNat 32 sx ≥ BitVec.ofNat 32 n + SIZEOF_HEADER + SIZEOF_WORD + MIN_BLOCK_SIZE ↔
      n + 32 ≤ sx := by
  unfold SIZEOF_HEADER SIZEOF_WORD MIN_BLOCK_SIZE; bv_omega

/-- A free block is taken, after a split if it is large enough for one. -/
theorem take_spec (h : Holds m (pre ++ x :: post)) (hp : (pre ++ x :: post).Pairwise Apart)
    (hs : InSpace (pre ++ x :: post)) (hx : x.Serves n) (hsx : x.size + 32 < 2 ^ 32) :
    Keeps (between x.addr (frontier post)) m (take m (BitVec.ofNat 32 x.addr) (BitVec.ofNat 32 n)) ∧
      Holds (take m (BitVec.ofNat 32 x.addr) (BitVec.ofNat 32 n))
        (pre ++ x.carved n :: (x.remainder n ++ post)) := by
  obtain ⟨a, sx, f⟩ := x
  obtain ⟨rfl, hn⟩ : f = true ∧ n ≤ sx := hx
  have hd := stop_le_frontier (List.pairwise_cons.mp (List.pairwise_append.mp hp).2.1).1
    (hs ⟨a, sx, true⟩ (by simp)).2
  have hin := hs ⟨a, sx, true⟩ (by simp)
  dsimp only [stop] at hd hin hsx
  have hsize : size m (BitVec.ofNat 32 a) = BitVec.ofNat 32 sx := by
    rw [size_ofNat]; exact h.mid.2.size
  unfold take carved remainder
  dsimp only
  simp only [hsize, splits_iff hn hsx]
  by_cases hc : n + 32 ≤ sx
  · simp only [if_pos hc]
    obtain ⟨hk, hh⟩ := h.split hp hs hc
    have hp' : (pre ++ ⟨a, n, true⟩ :: ⟨a + 20 + n, sx - n - 24, true⟩ :: post).Pairwise Apart := by
      have := pairwise_carve (n := n) hp
      simp only [carved, remainder, if_pos hc] at this
      exact pairwise_flag this
    have hs' : InSpace (pre ++ ⟨a, n, true⟩ :: ⟨a + 20 + n, sx - n - 24, true⟩ :: post) := by
      intro y hy
      simp only [List.mem_append, List.mem_cons] at hy
      obtain hy | rfl | rfl | hy := hy
      · exact hs y (by simp [hy])
      · dsimp only [stop]; omega
      · dsimp only [stop]; omega
      · exact hs y (by simp [hy])
    obtain ⟨hk', hh'⟩ := hh.setFree (v := 0) false hp' hs' (by simp)
    refine ⟨hk.trans_same (hk'.mono fun k hk => ?_), hh'⟩
    simp only [between, frontier_cons, Set.mem_union, Set.mem_Ico] at hk ⊢
    omega
  · simp only [if_neg hc]
    exact h.setFree false hp hs (by simp)

/-! ### Appending a block -/

/-- A block is appended at `e` after the last block `x`. -/
theorem append_spec (h : Holds m (pre ++ [x])) (hp : (pre ++ [x]).Pairwise Apart)
    (hs : InSpace (pre ++ [x])) (hx : x.Apart ⟨e, n, false⟩) (he : e + 24 + n ≤ 2 ^ 32) :
    Keeps (Set.Ico (x.addr + 12) (x.addr + 16) ∪ Set.Ico e (e + 24 + n)) m
        ((newMem m e n x.addr).store (BitVec.ofNat 32 (x.addr + 12)) (BitVec.ofNat 32 e)) ∧
      Holds ((newMem m e n x.addr).store (BitVec.ofNat 32 (x.addr + 12)) (BitVec.ofNat 32 e))
        (pre ++ [x, ⟨e, n, false⟩]) := by
  have hsx := hs x (by simp)
  have hle := hx.le
  obtain ⟨hlx, hsealx⟩ := h.mid
  have hlnew := newMem_block m (p := x.addr) he
  have hk0 := keeps_newMem m (p := x.addr) he
  generalize newMem m e n x.addr = m₁ at hlnew hk0 ⊢
  obtain ⟨hlnew, hsnew⟩ := hlnew
  unfold stop at hsx
  simp only [stop] at hle
  have hk1 := keeps_store m₁ (a := x.addr + 12) (BitVec.ofNat 32 e) (by omega)
  have hk : Keeps (Set.Ico (x.addr + 12) (x.addr + 16) ∪ Set.Ico e (e + 24 + n)) m
      (m₁.store (BitVec.ofNat 32 (x.addr + 12)) (BitVec.ofNat 32 e)) :=
    (hk0.trans hk1).mono (by rw [Set.union_comm])
  have hnot : ∀ k, k < e → (k < x.addr + 12 ∨ x.addr + 16 ≤ k) →
      k ∉ Set.Ico (x.addr + 12) (x.addr + 16) ∪ Set.Ico e (e + 24 + n) := by
    intro k h1 h2
    simp only [Set.mem_union, Set.mem_Ico]
    omega
  have hnot' : ∀ k, e ≤ k → k ∉ Set.Ico (x.addr + 12) (x.addr + 12 + 4) := by
    intro k h1
    rw [Set.mem_Ico]
    omega
  have hseal' := hsnew.keeps hk1 (by simp only [stop]; omega) (fun k h1 _ => hnot' k h1)
    fun k h1 _ => hnot' k (by simp only [stop] at h1; omega)
  refine ⟨hk, Holds.splice [] [⟨e, n, false⟩] h hp hs rfl (hk.mono fun k hk => ?_) ?_ ?_ ?_⟩
  · simp only [between, frontier_nil, Set.mem_union, Set.mem_Ico] at hk ⊢
    omega
  · refine ⟨⟨?_, ?_⟩, hlnew.keeps hk1 ?_ fun k h1 _ => hnot' k ?_, trivial⟩
    · rw [first_cons, Mem.load_store_self]
    · rw [hk.load (by omega) fun k h1 h2 => hnot k (by omega) (by omega)]
      exact hlx.prev
    · dsimp only; omega
    · dsimp only at h1; omega
  · intro y hy
    obtain rfl | hy := List.mem_cons.mp hy
    · refine ⟨?_, ?_, ?_, ?_⟩
      · rw [hk.load (by omega) fun k h1 h2 => hnot k (by omega) (by omega)]; exact hsealx.magic
      · rw [hk.load (by omega) fun k h1 h2 => hnot k (by omega) (by omega)]; exact hsealx.size
      · rw [hk.load (by omega) fun k h1 h2 => hnot k (by omega) (by omega)]; exact hsealx.free
      · -- the guard word of the block before coincides with the new header's magic word or lies below it
        obtain heq | hlt := hx
        · rw [heq]; exact hseal'.magic
        · unfold stop at hlt ⊢
          rw [hk.load (by omega) fun k h1 h2 => hnot k (by dsimp only at hlt; omega) (by omega)]
          exact hsealx.guard
    · rw [List.mem_singleton.mp hy]
      exact hseal'
  · intro z r hz
    exact absurd hz (by simp)

theorem append_end (hm : Models heapLo h A) :
    h.heapEnd + SIZEOF_HEADER + BitVec.ofNat 32 n + SIZEOF_WORD = BitVec.ofNat 32 (A.brk + 24 + n) := by
  rw [hm.heapEnd]; unfold SIZEOF_HEADER SIZEOF_WORD; bv_omega

theorem append_eq {c : ℕ} (hm : Models heapLo h A) (hroom : A.brk + 24 + n < heapHi) :
    append h (BitVec.ofNat 32 c) (BitVec.ofNat 32 n) = (BitVec.ofNat 32 (A.brk + 20),
      { h with mem := (newMem h.mem A.brk n c).store (BitVec.ofNat 32 (c + 12)) (BitVec.ofNat 32 A.brk)
               heapEnd := BitVec.ofNat 32 (A.brk + 24 + n) }) := by
  have hb := heap_bounds
  have h1 : ¬ BitVec.ofNat 32 (A.brk + 24 + n) < BitVec.ofNat 32 A.brk := by
    rw [BitVec.lt_def, toNat_ofNat_of_lt (by omega), toNat_ofNat_of_lt (by omega)]; omega
  have h2 : ¬ BitVec.ofNat 32 (A.brk + 24 + n) ≥ KERNEL_HEAP_END := by
    rw [ofNat_ge_end (by omega)]; omega
  unfold append newMem
  simp only [append_end hm]
  rw [hm.heapEnd, if_neg h1, if_neg h2]
  simp (disch := omega) only [setMagic_ofNat, setSize_ofNat, setFree_ofNat, setNext_ofNat, setPrev_ofNat,
    size_ofNat, Mem.load_store_of_apart, Mem.load_store_self, tail_ofNat, BitVec.ofNat_add A.brk 20]
  rfl

/-- An append for which there is no room fails, unless the new break wraps round. -/
theorem append_null {c : Word} (hm : Models heapLo h A) (hA : A.Ok) (hn : n < 2 ^ 32)
    (hfit : ¬ BitVec.ofNat 32 n > KERNEL_HEAP_END - h.heapEnd - SIZEOF_HEADER - SIZEOF_WORD)
    (hwrap : heapHi < A.brk + 24 → 2 ^ 32 ≤ n + 24 → 2 ^ 32 + heapHi ≤ A.brk + 24 + n)
    (hroom : ¬ A.brk + 24 + n < heapHi) : append h c (BitVec.ofNat 32 n) = (0, h) := by
  have hb := heap_bounds
  have hlt := hA.brk_lt
  rw [hm.heapEnd] at hfit
  have hfit' : A.brk + 24 ≤ heapHi → A.brk + 24 + n ≤ heapHi := fun hle => room_of_fit hle hn hfit
  unfold append
  simp only [append_end hm]
  rw [hm.heapEnd]
  by_cases hov : A.brk + 24 + n < 2 ^ 32
  · rw [if_neg, if_pos]
    · rw [ofNat_ge_end hov]; omega
    · rw [BitVec.lt_def, toNat_ofNat_of_lt hov, toNat_ofNat_of_lt (by omega)]; omega
  · have heq : BitVec.ofNat 32 (A.brk + 24 + n) = BitVec.ofNat 32 (A.brk + 24 + n - 2 ^ 32) := by
      bv_omega
    rw [heq]
    by_cases hbig : 2 ^ 32 ≤ n + 24
    · rw [if_neg, if_pos]
      · rw [ofNat_ge_end (by omega)]; omega
      · rw [BitVec.lt_def, toNat_ofNat_of_lt (by omega), toNat_ofNat_of_lt (by omega)]; omega
    · rw [if_pos]
      rw [BitVec.lt_def, toNat_ofNat_of_lt (by omega), toNat_ofNat_of_lt (by omega)]; omega

/-! ### `kmalloc` -/

/-- `kmalloc` hands out the block `x` for a request of `n` bytes, rounded up. -/
structure HandsOut (h : Heap) (A : Arena) (n : ℕ) (x : Block) (h' : Heap) (A' : Arena) : Prop where
  malloc : A.Malloc n x A'
  models : Models heapLo h' A'
  /-- The payloads of the blocks in use stay as they are. -/
  keeps : ∀ y ∈ A.blocks, y.free = false → KeepsPayload h.mem h'.mem y

theorem handsOut_first (hm : Models heapLo h A) (h0 : A.blocks = []) (hroom : A.brk + 24 + n ≤ heapHi) :
    ∃ x h' A', kmallocFirst h (BitVec.ofNat 32 n) = (BitVec.ofNat 32 x.payload, h') ∧
      HandsOut h A n x h' A' := by
  obtain ⟨bs, brk⟩ := A
  obtain rfl : bs = [] := h0
  obtain ⟨h', heq, hm'⟩ := kmallocFirst_spec hm hroom
  exact ⟨⟨brk, n, false⟩, h', _, heq, .first hroom, hm', fun y hy => absurd hy List.not_mem_nil⟩

theorem handsOut_reuse (hm : Models heapLo h A) (hA : A.Ok) (hn : n < 2 ^ 32)
    (hex : ∃ y ∈ A.blocks, y.Serves n) :
    ∃ c x A', (∀ fuel, A.blocks.length < fuel →
        search h.mem (BitVec.ofNat 32 n) fuel h.heapHead = some (.fit c)) ∧
      c + SIZEOF_HEADER = BitVec.ofNat 32 x.payload ∧
      HandsOut h A n x { h with mem := take h.mem c (BitVec.ofNat 32 n) } A' := by
  have hs := hA.inSpace
  obtain ⟨bs, brk⟩ := A
  obtain ⟨pre, x, post, rfl, hx, hpre⟩ : ∃ pre x post, bs = pre ++ x :: post ∧ x.Serves n ∧
      ∀ y ∈ pre, ¬ y.Serves n := by
    obtain ⟨x, hfind⟩ : ∃ x, bs.find? (fun y => decide (y.Serves n)) = some x := by
      rw [← Option.isSome_iff_exists, List.find?_isSome]
      simpa using hex
    obtain ⟨hx, pre, post, rfl, hpre⟩ := List.find?_eq_some_iff_append.mp hfind
    exact ⟨pre, x, post, rfl, by simpa using hx, by simpa using hpre⟩
  have hb := heap_bounds
  have hxok := (hA.block x (by simp)).hi
  obtain ⟨⟨hhead, hholds⟩, hstart, hend⟩ := hm
  obtain ⟨hkeep, hh⟩ := take_spec hholds hA.apart hs hx (by unfold stop at hxok; omega)
  refine ⟨BitVec.ofNat 32 x.addr, x.carved n, _, fun fuel hfuel => ?_, ?_, .reuse hpre hx,
    ⟨⟨?_, hh⟩, hstart, hend⟩, fun y hy hyf => ?_⟩
  · rw [hhead, search_fit hholds.links hholds.sealed hs hn hpre hx (by simp at hfuel; omega)]
  · rw [payload, carved_addr, BitVec.ofNat_add]; rfl
  · rw [hhead, first_append, first_append, first_cons, first_cons, carved_addr]
  · refine (keepsBlock_of_between [] hkeep hA.apart hs ?_).payload
    obtain hy | hy := List.mem_append.mp hy
    · exact .inl hy
    · obtain rfl | hy := List.mem_cons.mp hy
      · rw [hx.1] at hyf; exact absurd hyf (by simp)
      · exact .inr hy

/-- No block serves the request: the search ends at the last one. -/
theorem search_none (hm : Models heapLo h A) (hA : A.Ok) (hn : n < 2 ^ 32) (h0 : A.blocks ≠ [])
    (hno : ∀ y ∈ A.blocks, ¬ y.Serves n) : ∃ pre x, A.blocks = pre ++ [x] ∧
      ∀ fuel, A.blocks.length < fuel →
        search h.mem (BitVec.ofNat 32 n) fuel h.heapHead = some (.last (BitVec.ofNat 32 x.addr)) := by
  have hs := hA.inSpace
  obtain ⟨⟨hhead, hholds⟩, -, -⟩ := hm
  obtain h | ⟨pre, x, hbs⟩ := List.eq_nil_or_concat A.blocks
  · exact absurd h h0
  rw [List.concat_eq_append] at hbs
  rw [hbs] at hhead hholds hs hno
  refine ⟨pre, x, hbs, fun fuel hfuel => ?_⟩
  rw [hhead]
  exact search_last hholds.links hholds.sealed hs hn hno (by simp [hbs] at hfuel; omega)

/-- A block is appended at the break, above all the others. -/
theorem handsOut_append {pre : List Block} {x : Block} (hm : Models heapLo h A) (hA : A.Ok)
    (hbs : A.blocks = pre ++ [x]) (hno : ∀ y ∈ A.blocks, ¬ y.Serves n)
    (hroom : A.brk + 24 + n < heapHi) (hall : ∀ y ∈ A.blocks, y.addr < A.brk) :
    ∃ y h' A', append h (BitVec.ofNat 32 x.addr) (BitVec.ofNat 32 n) = (BitVec.ofNat 32 y.payload, h') ∧
      HandsOut h A n y h' A' := by
  have hb := heap_bounds
  have hs := hA.inSpace
  have heq := append_eq (n := n) (c := x.addr) hm hroom
  obtain ⟨bs, brk⟩ := A
  obtain rfl : bs = pre ++ [x] := hbs
  obtain ⟨⟨hhead, hholds⟩, hstart, -⟩ := hm
  have hxe : x.Apart ⟨brk, n, false⟩ := by
    have h1 := hA.below (x := x) (by simp) (hall x (by simp))
    have h2 := hA.block x (by simp)
    have h3 := h2.addr_dvd
    have h4 := h2.size_dvd
    have h5 := hA.brk_dvd
    unfold Apart stop at *
    dsimp only at *
    omega
  obtain ⟨hkeep, hh⟩ := append_spec hholds hA.apart hs hxe (by dsimp only at hroom; omega)
  refine ⟨⟨brk, n, false⟩, _, _, heq, .append (by simp) hno hroom, ⟨⟨?_, by simpa using hh⟩, hstart, rfl⟩,
    fun y hy _ => ?_⟩
  · dsimp only at hhead ⊢
    rw [hhead, first_append, first_append, first_append]
    rfl
  · have hyb := hA.below hy (hall y hy)
    refine fun a h1 h2 => hkeep a ?_
    have hyx : y = x ∨ y.stop ≤ x.addr := by
      obtain hy | hy := List.mem_append.mp hy
      · exact .inr ((List.pairwise_append.mp hA.apart).2.2 y hy x List.mem_cons_self).le
      · exact .inl (List.mem_singleton.mp hy)
    dsimp only at hyb
    unfold payload at h1
    simp only [Set.mem_union, Set.mem_Ico]
    obtain rfl | hyx := hyx <;> omega

/-- `kmalloc` on a well-formed heap, whatever the number of iterations that it may
take, as long as that is more than the number of blocks. -/
theorem kmalloc_spec (hm : Models heapLo h A) (hA : A.Ok) (w : Word)
    (hclear : 0 < (align w).toNat → A.AppendClear (align w).toNat)
    (hwrap : 0 < (align w).toNat → A.NoWrap (align w).toNat) : ∃ p h',
    (∀ fuel, A.blocks.length < fuel → kmalloc fuel h w = some (p, h')) ∧
      (p = 0 ∧ h' = h ∨ w ≠ 0 ∧ ¬ align w < w ∧
        ∃ x A', p = BitVec.ofNat 32 x.payload ∧ HandsOut h A (align w).toNat x h' A') := by
  by_cases hw : w = 0
  · exact ⟨0, h, fun fuel _ => by rw [kmalloc, if_pos hw], .inl ⟨rfl, rfl⟩⟩
  by_cases hround : align w < w
  · exact ⟨0, h, fun fuel _ => by rw [kmalloc, if_neg hw, if_pos hround], .inl ⟨rfl, rfl⟩⟩
  by_cases hfit : align w > KERNEL_HEAP_END - h.heapEnd - SIZEOF_HEADER - SIZEOF_WORD
  · exact ⟨0, h, fun fuel _ => by rw [kmalloc, if_neg hw, if_neg hround, if_pos hfit],
      .inl ⟨rfl, rfl⟩⟩
  have hn : (align w).toNat < 2 ^ 32 := (align w).isLt
  have hnw : align w = BitVec.ofNat 32 (align w).toNat := by simp
  have hpos : 0 < (align w).toNat := by have := (align_ok hw hround).1; omega
  by_cases h0 : A.blocks = []
  · -- the first allocation always has room, since the heap is in its initial state
    have hroom : A.brk + 24 + (align w).toNat ≤ heapHi := by
      rw [hnw, hm.heapEnd] at hfit
      refine room_of_fit ?_ hn hfit
      rw [hA.empty h0]; decide
    obtain ⟨x, h', A', heq, hout⟩ := handsOut_first hm h0 hroom
    refine ⟨_, h', fun fuel _ => ?_, .inr ⟨hw, hround, x, A', rfl, hout⟩⟩
    rw [kmalloc, if_neg hw, if_neg hround, if_neg hfit,
      if_pos ((hm.rep.head_eq_zero hA.inSpace).mpr h0), ← heq, ← hnw]
  have hhead : h.heapHead ≠ 0 := fun h => h0 ((hm.rep.head_eq_zero hA.inSpace).mp h)
  by_cases hex : ∃ y ∈ A.blocks, y.Serves (align w).toNat
  · obtain ⟨c, x, A', hsearch, hp, hout⟩ := handsOut_reuse hm hA hn hex
    rw [← hnw] at hsearch hout
    refine ⟨_, _, fun fuel hfuel => ?_, .inr ⟨hw, hround, x, A', rfl, hout⟩⟩
    rw [kmalloc, if_neg hw, if_neg hround, if_neg hfit, if_neg hhead, hsearch fuel hfuel, ← hp]
  · have hno : ∀ y ∈ A.blocks, ¬ y.Serves (align w).toNat := fun y hy hys => hex ⟨y, hy, hys⟩
    obtain ⟨pre, x, hbs, hsearch⟩ := search_none hm hA hn h0 hno
    rw [← hnw] at hsearch
    have hk (fuel : ℕ) (hfuel : A.blocks.length < fuel) : kmalloc fuel h w =
        some (append h (BitVec.ofNat 32 x.addr) (BitVec.ofNat 32 (align w).toNat)) := by
      rw [kmalloc, if_neg hw, if_neg hround, if_neg hfit, if_neg hhead, hsearch fuel hfuel, ← hnw]
    by_cases hroom : A.brk + 24 + (align w).toNat < heapHi
    · obtain ⟨y, h', A', heq, hout⟩ := handsOut_append hm hA hbs hno hroom (hclear hpos hno hroom)
      exact ⟨_, h', fun fuel hfuel => by rw [hk fuel hfuel, heq], .inr ⟨hw, hround, y, A', rfl, hout⟩⟩
    · have hnull : append h (BitVec.ofNat 32 x.addr) (BitVec.ofNat 32 (align w).toNat) = (0, h) :=
        append_null hm hA hn (hnw ▸ hfit) (hwrap hpos h0) hroom
      exact ⟨0, h, fun fuel hfuel => by rw [hk fuel hfuel, hnull], .inl ⟨rfl, rfl⟩⟩

/-- `kmalloc` terminates on a well-formed heap, for a request of any size. -/
theorem kmalloc_isSome (hm : Models heapLo h A) (hA : A.Ok) (w : Word) {fuel : ℕ}
    (hfuel : A.blocks.length < fuel) : (kmalloc fuel h w).isSome := by
  have hn : (align w).toNat < 2 ^ 32 := (align w).isLt
  have hnw : BitVec.ofNat 32 (align w).toNat = align w := by simp
  unfold kmalloc
  split_ifs with h1 h2 h3 h4
  · rfl
  · rfl
  · rfl
  · rfl
  · have h0 : A.blocks ≠ [] := fun h0 => h4 ((hm.rep.head_eq_zero hA.inSpace).mpr h0)
    by_cases hex : ∃ y ∈ A.blocks, y.Serves (align w).toNat
    · obtain ⟨c, -, -, hsearch, -⟩ := handsOut_reuse hm hA hn hex
      rw [hnw] at hsearch
      rw [hsearch fuel hfuel]
      rfl
    · obtain ⟨-, x, -, hsearch⟩ := search_none hm hA hn h0 fun y hy hys => hex ⟨y, hy, hys⟩
      rw [hnw] at hsearch
      rw [hsearch fuel hfuel]
      rfl

end SpatulaOS.Mm
