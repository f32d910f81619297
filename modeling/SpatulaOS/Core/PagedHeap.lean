import SpatulaOS.Core.DemandPaging
import SpatulaOS.Mm.HeapCode
import SpatulaOS.Mm.HeapSize

/-!
# The allocator on its paged memory

From `paging_init` on, no page of the heap is present: the headers that `kmalloc` writes, the links
that it follows and the guard words that `kfree` tests lie in pages that are mapped when they are
first touched. As long as the clients' calls are regular all accesses of the allocator lie in the
heap (`calls_within`), so its replies are those of the first-fit ledger there as well, unless the
frames run out (`pagedHeap_replies`). The frames and the faults are as in `Core.DemandPaging`.
-/

namespace SpatulaOS.Core

open ByteMemory OnDemand Threaded SpatulaOS.Mm SpatulaOS.Mm.Block SpatulaOS.Video

variable {α β : Type} {m : Mem} {a b v : Word} {x y : Block} {bs pre post : List Block} {n k p e : ℕ}

/-! ### Accesses in the heap -/

/-- A word of the heap. -/
def HeapWord (a : Word) : Prop := heapLo ≤ a.toNat ∧ a.toNat + 4 ≤ heapHi

theorem heapWord_ofNat (hn : n < 2 ^ 32) : HeapWord (BitVec.ofNat 32 n) ↔ heapLo ≤ n ∧ n + 4 ≤ heapHi := by
  rw [HeapWord, toNat_ofNat_of_lt hn]

theorem HeapWord.bytes (h : HeapWord a) : a ∈ heapRange ∧ a + 1 ∈ heapRange ∧ a + 2 ∈ heapRange ∧
    a + 3 ∈ heapRange := by
  obtain ⟨h1, h2⟩ := h
  unfold heapLo heapHi at *
  have hmem {c : Word} (hc : a.toNat ≤ c.toNat ∧ c.toNat < a.toNat + 4) : c ∈ heapRange :=
    ⟨show 0x400000 ≤ c.toNat by omega, show c.toNat < 0x800000 by omega⟩
  exact ⟨hmem (by omega), hmem (by bv_omega), hmem (by bv_omega), hmem (by bv_omega)⟩

theorem load_within (h : HeapWord a) : (HeapCode.load a).Within heapRange m := by
  obtain ⟨h0, h1, h2, h3⟩ := h.bytes
  exact ⟨List.forall_mem_cons.mpr ⟨h0, List.forall_mem_cons.mpr ⟨h1, List.forall_mem_cons.mpr ⟨h2,
    List.forall_mem_singleton.mpr h3⟩⟩⟩, trivial⟩

theorem store_within (h : HeapWord a) : (HeapCode.store a v).Within heapRange m := by
  obtain ⟨h0, h1, h2, h3⟩ := h.bytes
  exact ⟨List.forall_mem_cons.mpr ⟨h0, List.forall_mem_cons.mpr ⟨h1, List.forall_mem_cons.mpr ⟨h2,
    List.forall_mem_singleton.mpr h3⟩⟩⟩, trivial⟩

theorem when_within {c : Prop} {inst : Decidable c} {q : HeapCode Unit} (h : c → q.Within heapRange m) :
    (HeapCode.when c q).Within heapRange m := by
  unfold HeapCode.when
  split_ifs with hc
  · exact h hc
  · exact trivial

theorem both_within {c : Prop} {inst : Decidable c} {q : HeapCode Bool} (h : c → q.Within heapRange m) :
    (HeapCode.both c q).Within heapRange m := by
  unfold HeapCode.both
  split_ifs with hc
  · exact h hc
  · exact trivial

theorem bind_within {q : HeapCode α} {f : α → HeapCode β} {r : α} {m' : Mem}
    (hq : q.Within heapRange m) (hr : q.run m = (r, m'))
    (hf : (f r).Within heapRange m') : (q >>= f).Within heapRange m := by
  rw [within_bind, hr]
  exact ⟨hq, hf⟩

theorem within_bind_pure {q : HeapCode α} {f : α → β} (h : q.Within heapRange m) :
    (q >>= fun r => pure (f r)).Within heapRange m :=
  (within_bind ..).mpr ⟨h, trivial⟩

/-- A header of the heap. -/
def HeapHeader (b : Word) : Prop := heapLo ≤ b.toNat ∧ b.toNat + 20 ≤ heapHi

theorem HeapHeader.field (h : HeapHeader b) {j : Word} (hj : j ≤ 16) : HeapWord (b + j) := by
  obtain ⟨h1, h2⟩ := h
  unfold heapLo heapHi at *
  constructor
  · show 0x400000 ≤ (b + j).toNat
    bv_omega
  · show (b + j).toNat + 4 ≤ 0x800000
    bv_omega

theorem HeapHeader.heapWord (h : HeapHeader b) : HeapWord b := ⟨h.1, by have := h.2; omega⟩

section Header

variable (h : HeapHeader b)

include h

theorem magic_within : (HeapCode.magic b).Within heapRange m := load_within h.heapWord
theorem size_within : (HeapCode.size b).Within heapRange m := load_within (h.field (by decide))
theorem free_within : (HeapCode.free b).Within heapRange m := load_within (h.field (by decide))
theorem next_within : (HeapCode.next b).Within heapRange m := load_within (h.field (by decide))
theorem prev_within : (HeapCode.prev b).Within heapRange m := load_within (h.field (by decide))
theorem setMagic_within : (HeapCode.setMagic b v).Within heapRange m := store_within h.heapWord
theorem setSize_within : (HeapCode.setSize b v).Within heapRange m := store_within (h.field (by decide))
theorem setFree_within : (HeapCode.setFree b v).Within heapRange m := store_within (h.field (by decide))
theorem setNext_within : (HeapCode.setNext b v).Within heapRange m := store_within (h.field (by decide))
theorem setPrev_within : (HeapCode.setPrev b v).Within heapRange m := store_within (h.field (by decide))

end Header

/-! ### `kmalloc` -/

variable {u : Statics} {c w : Word}

theorem kmallocFirst_within (hlo : heapLo ≤ u.heapEnd.toNat)
    (hroom : u.heapEnd.toNat + 24 + w.toNat ≤ heapHi) :
    (HeapCode.kmallocFirst u w).Within heapRange m := by
  have hh : HeapHeader u.heapEnd := ⟨hlo, by omega⟩
  have hguard : HeapWord (tail u.heapEnd w) := by
    unfold heapLo heapHi at *
    unfold tail SIZEOF_HEADER
    constructor
    · show 0x400000 ≤ (u.heapEnd + 20 + w).toNat
      bv_omega
    · show (u.heapEnd + 20 + w).toNat + 4 ≤ 0x800000
      bv_omega
  unfold HeapCode.kmallocFirst
  dsimp only
  split_ifs
  · trivial
  refine bind_within (setMagic_within hh) (HeapCode.setMagic_run ..) ?_
  refine bind_within (setSize_within hh) (HeapCode.setSize_run ..) ?_
  refine bind_within (setFree_within hh) (HeapCode.setFree_run ..) ?_
  refine bind_within (setNext_within hh) (HeapCode.setNext_run ..) ?_
  refine bind_within (setPrev_within hh) (HeapCode.setPrev_run ..) ?_
  exact bind_within (store_within hguard) (HeapCode.store_run ..) trivial

theorem append_within (hlo : heapLo ≤ u.heapEnd.toNat ∧ u.heapEnd.toNat < heapHi)
    (hroom : u.heapEnd.toNat + 24 + w.toNat < heapHi ∨ append (u.heap m) c w = (0, u.heap m))
    (hc : HeapHeader c) :
    (HeapCode.append u c w).Within heapRange m := by
  obtain ⟨hlo, hhi⟩ := hlo
  unfold HeapCode.append
  dsimp only
  split_ifs with h1 h2
  · trivial
  · trivial
  have hr : u.heapEnd.toNat + 24 + w.toNat < heapHi := by
    refine hroom.resolve_right fun hnull => ?_
    have hptr : (append (u.heap m) c w).1 = u.heapEnd + SIZEOF_HEADER :=
      congrArg Prod.fst ((if_neg h1).trans (if_neg h2))
    rw [hnull] at hptr
    unfold heapLo heapHi at *
    unfold SIZEOF_HEADER at hptr
    bv_omega
  have hh : HeapHeader u.heapEnd := ⟨hlo, by omega⟩
  have hguard : HeapWord (tail u.heapEnd w) := by
    unfold heapLo heapHi at *
    unfold tail SIZEOF_HEADER
    constructor
    · show 0x400000 ≤ (u.heapEnd + 20 + w).toNat
      bv_omega
    · show (u.heapEnd + 20 + w).toNat + 4 ≤ 0x800000
      bv_omega
  refine bind_within (setMagic_within hh) (HeapCode.setMagic_run ..) ?_
  refine bind_within (setSize_within hh) (HeapCode.setSize_run ..) ?_
  refine bind_within (setFree_within hh) (HeapCode.setFree_run ..) ?_
  refine bind_within (setNext_within hh) (HeapCode.setNext_run ..) ?_
  refine bind_within (setPrev_within hh) (HeapCode.setPrev_run ..) ?_
  refine bind_within (size_within hh) (HeapCode.size_run ..) ?_
  rw [size_setPrev, size_setNext, size_setFree, size_setSize]
  refine bind_within (store_within hguard) (HeapCode.store_run ..) ?_
  exact bind_within (setNext_within hc) (HeapCode.setNext_run ..) trivial

theorem heapHeader_ofNat (hn : n < 2 ^ 32) : HeapHeader (BitVec.ofNat 32 n) ↔
    heapLo ≤ n ∧ n + 20 ≤ heapHi := by
  rw [HeapHeader, toNat_ofNat_of_lt hn]

/-- The split of a block of `sx` bytes at `a`. -/
theorem split_within {a sx nx n : ℕ} (hlo : heapLo ≤ a) (hhi : a + 20 + sx + 4 ≤ heapHi)
    (hsx : m.load (BitVec.ofNat 32 (a + 4)) = BitVec.ofNat 32 sx)
    (hnx : m.load (BitVec.ofNat 32 (a + 12)) = BitVec.ofNat 32 nx) (hn : n + 32 ≤ sx)
    (hnext : BitVec.ofNat 32 nx ≠ 0 → HeapHeader (BitVec.ofNat 32 nx)) :
    (HeapCode.split (BitVec.ofNat 32 a) (BitVec.ofNat 32 n)).Within heapRange m := by
  have hb := heap_bounds
  have hc : HeapHeader (BitVec.ofNat 32 a) := (heapHeader_ofNat (by omega)).mpr ⟨hlo, by omega⟩
  have hnew : HeapHeader (tail (BitVec.ofNat 32 a) (BitVec.ofNat 32 n)) := by
    rw [tail_ofNat]
    exact (heapHeader_ofNat (by omega)).mpr ⟨by omega, by omega⟩
  unfold HeapCode.split
  dsimp only
  refine bind_within (setMagic_within hnew) (HeapCode.setMagic_run ..) ?_
  refine bind_within (size_within hc) (HeapCode.size_run ..) ?_
  refine bind_within (setSize_within hnew) (HeapCode.setSize_run ..) ?_
  refine bind_within (setFree_within hnew) (HeapCode.setFree_run ..) ?_
  refine bind_within (next_within hc) (HeapCode.next_run ..) ?_
  refine bind_within (setNext_within hnew) (HeapCode.setNext_run ..) ?_
  refine bind_within (setPrev_within hnew) (HeapCode.setPrev_run ..) ?_
  refine bind_within (size_within hnew) (HeapCode.size_run ..) ?_
  refine bind_within (store_within ?_) (HeapCode.store_run ..) ?_
  · -- the guard word of the second block ends where that of the first one did
    simp (disch := omega) only [tail_ofNat, setMagic_ofNat, size_ofNat, setSize_ofNat, next_ofNat,
      setFree_ofNat,
      setNext_ofNat, setPrev_ofNat, Mem.load_store_of_apart, Mem.load_store_self, hsx, remainder_size]
    exact (heapWord_ofNat (by omega)).mpr ⟨by omega, by omega⟩
  refine bind_within (next_within hnew) (HeapCode.next_run ..) ?_
  refine bind_within (when_within fun h => setPrev_within ?_) (HeapCode.when_run ..) ?_
  · simp (disch := omega) only [tail_ofNat, setMagic_ofNat, size_ofNat, setSize_ofNat, next_ofNat,
      setFree_ofNat,
      setNext_ofNat, setPrev_ofNat, Mem.load_store_of_apart, Mem.load_store_self, hsx,
        remainder_size, hnx] at h ⊢
    exact hnext h
  refine bind_within (setSize_within hc) (HeapCode.setSize_run ..) ?_
  refine bind_within (setNext_within hc) (HeapCode.setNext_run ..) ?_
  exact store_within hnew.heapWord

theorem header_of_ok (hx : x.Ok) : HeapHeader (BitVec.ofNat 32 x.addr) := by
  have hb := heap_bounds
  have h1 := hx.lo
  have h2 := hx.hi
  unfold stop at h2
  exact (heapHeader_ofNat (by omega)).mpr ⟨h1, by omega⟩

/-- The link of a block of the arena to the one behind it. -/
theorem header_of_first (hok : ∀ y ∈ post, y.Ok) (h0 : BitVec.ofNat 32 (first Block.addr post 0) ≠ 0) :
    HeapHeader (BitVec.ofNat 32 (first Block.addr post 0)) := by
  cases post with
  | nil => exact absurd rfl h0
  | cons y post => exact header_of_ok (hok y List.mem_cons_self)

/-- The link of a block of the arena to the one before it. -/
theorem header_of_last (hok : ∀ y ∈ pre, y.Ok) (h0 : BitVec.ofNat 32 (last Block.addr 0 pre) ≠ 0) :
    HeapHeader (BitVec.ofNat 32 (last Block.addr 0 pre)) := by
  obtain rfl | ⟨r, p, rfl⟩ := List.eq_nil_or_concat pre
  · exact absurd rfl h0
  · rw [List.concat_eq_append, last_append_cons, last_nil]
    exact header_of_ok (hok p (by simp))

theorem take_within (h : Holds m (pre ++ x :: post)) (hok : ∀ y ∈ pre ++ x :: post, y.Ok) (hx : x.Serves n) :
    (HeapCode.take (BitVec.ofNat 32 x.addr) (BitVec.ofNat 32 n)).Within heapRange m := by
  have hb := heap_bounds
  have hxok := hok x (by simp)
  have hhi := hxok.hi
  unfold stop at hhi
  have hheader := header_of_ok hxok
  have hsize : size m (BitVec.ofNat 32 x.addr) = BitVec.ofNat 32 x.size := by
    rw [size_ofNat]
    exact h.mid.2.size
  refine bind_within (size_within hheader) (HeapCode.size_run ..) ?_
  refine bind_within (when_within fun hsplit => ?_) (HeapCode.when_run ..) (setFree_within hheader)
  rw [hsize, splits_iff hx.2 (by omega)] at hsplit
  exact split_within hxok.lo hhi h.mid.2.size h.mid.1.next hsplit
    (header_of_first fun y hy => hok y (by simp [hy]))

theorem search_within {p : ℕ} (hl : Thread Block.addr (Link m) p bs 0) (hok : ∀ x ∈ bs, x.Ok)
    (hne : bs ≠ []) (k : ℕ) :
    (HeapCode.search w k (BitVec.ofNat 32 (first Block.addr bs 0))).Within heapRange m := by
  induction bs generalizing p k with
  | nil => exact absurd rfl hne
  | cons x bs ih =>
    obtain _ | k := k
    · trivial
    have hx := header_of_ok (hok x List.mem_cons_self)
    rw [first_cons, HeapCode.search]
    refine bind_within ?_ (HeapCode.serves_run ..) ?_
    · exact bind_within (free_within hx) (HeapCode.free_run ..) (both_within fun _ =>
        bind_within (size_within hx) (HeapCode.size_run ..) trivial)
    split_ifs
    · trivial
    refine bind_within (next_within hx) (HeapCode.next_run ..) ?_
    rw [next_ofNat, hl.1.next]
    split_ifs with h0
    · trivial
    · refine ih hl.2 (fun y hy => hok y (List.mem_cons_of_mem _ hy)) ?_ k
      rintro rfl
      exact h0 rfl

theorem exists_first_serving (h : ∃ y ∈ bs, y.Serves n) :
    ∃ pre x post, bs = pre ++ x :: post ∧ x.Serves n ∧ ∀ y ∈ pre, ¬ y.Serves n := by
  obtain ⟨x, hfind⟩ : ∃ x, bs.find? (fun y => decide (y.Serves n)) = some x := by
    rw [← Option.isSome_iff_exists, List.find?_isSome]
    simpa using h
  obtain ⟨hx, pre, post, rfl, hpre⟩ := List.find?_eq_some_iff_append.mp hfind
  exact ⟨pre, x, post, rfl, by simpa using hx, by simpa using hpre⟩

variable {A : Arena}

/-- The accesses of `kmalloc` lie in the heap. -/
theorem kmalloc_within (hm : Models heapLo (u.heap m) A) (hA : A.Ok) (ho : A.Allows (.malloc w))
    (hk : A.blocks.length < k) : (HeapCode.kmalloc k u w).Within heapRange m := by
  have hb := heap_bounds
  have hend : u.heapEnd = BitVec.ofNat 32 A.brk := hm.heapEnd
  have hhead : u.heapHead = BitVec.ofNat 32 (first Block.addr A.blocks 0) := hm.rep.head
  have hbrk : u.heapEnd.toNat = A.brk := by rw [hend, toNat_ofNat_of_lt hA.brk_lt_space]
  have hlo := hA.brk_ge
  have hhi := hA.brk_lt
  unfold HeapCode.kmalloc
  split_ifs with h1 h2 h3 h4
  · trivial
  · trivial
  · trivial
  · -- the first block of an empty heap
    have hempty := hA.empty ((hm.rep.head_eq_zero hA.inSpace).mp h4)
    have hroom : A.brk + 24 + (align w).toNat ≤ heapHi := by
      refine room_of_fit (by omega) (align w).isLt ?_
      rwa [BitVec.ofNat_toNat, BitVec.setWidth_eq, ← hend]
    exact bind_within (kmallocFirst_within (by omega) (by omega)) (HeapCode.kmallocFirst_run ..) trivial
  have h0 : A.blocks ≠ [] := fun h => h4 ((hm.rep.head_eq_zero hA.inSpace).mpr h)
  obtain ⟨hpos, -, -⟩ := align_ok h1 h2
  obtain ⟨hclear, hwrap⟩ := ho (by omega)
  have hnw : BitVec.ofNat 32 (align w).toNat = align w := by rw [BitVec.ofNat_toNat, BitVec.setWidth_eq]
  refine bind_within ?_ (HeapCode.search_run ..) ?_
  · rw [hhead]
    exact search_within hm.rep.holds.links hA.block h0 k
  by_cases hex : ∃ y ∈ A.blocks, y.Serves (align w).toNat
  · obtain ⟨pre, x, post, hbs, hx, hpre⟩ := exists_first_serving hex
    have hholds := hm.rep.holds
    have hok := hA.block
    have hin := hA.inSpace
    rw [hbs] at hhead hholds hok hin hk
    have hfound : search m (align w) k u.heapHead = some (.fit (BitVec.ofNat 32 x.addr)) := by
      rw [hhead, ← hnw]
      exact search_fit hholds.links hholds.sealed hin (align w).isLt hpre hx (by simp at hk; omega)
    have htake := take_within hholds hok hx
    rw [hnw] at htake
    rw [hfound]
    exact bind_within htake (HeapCode.take_run ..) trivial
  · have hno : ∀ y ∈ A.blocks, ¬ y.Serves (align w).toNat := fun y hy hys => hex ⟨y, hy, hys⟩
    obtain ⟨pre, x, hbs, hsearch⟩ := search_none hm hA (align w).isLt h0 hno
    have hfound : search m (align w) k u.heapHead = some (.last (BitVec.ofNat 32 x.addr)) := by
      rw [← hnw]
      exact hsearch k hk
    have hx := header_of_ok (hA.block x (by simp [hbs]))
    rw [hfound]
    refine bind_within (append_within ⟨by omega, by omega⟩ ?_ hx) (HeapCode.append_run ..) trivial
    by_cases hroom : A.brk + 24 + (align w).toNat < heapHi
    · exact .inl (by omega)
    · have hnull := append_null (c := BitVec.ofNat 32 x.addr) hm hA (align w).isLt
        (by rw [hnw]; exact h3) (hwrap h0) hroom
      rw [hnw] at hnull
      exact .inr hnull

/-! ### `kfree` -/

theorem mergeable_within {y : Word} (hy : y ≠ 0 → HeapHeader y) :
    (HeapCode.mergeable u y).Within heapRange m :=
  both_within fun h => bind_within (free_within (hy h.1)) (HeapCode.free_run ..) trivial

/-- The merge with the next block, when the merged block has room for its guard word. -/
theorem mergeNext_within (h : Holds m (pre ++ x :: y :: post)) (hp : (pre ++ x :: y :: post).Pairwise Apart)
    (hok : ∀ z ∈ pre ++ x :: y :: post, z.Ok) (hroom : (x.join y).stop + 4 ≤ heapHi) :
    (HeapCode.mergeNext (BitVec.ofNat 32 x.addr)).Within heapRange m := by
  have hb := heap_bounds
  have hx := header_of_ok (hok x (by simp))
  have hy := header_of_ok (hok y (by simp))
  have hlo := (hok x (by simp)).lo
  have hin : InSpace (pre ++ x :: y :: post) :=
    fun z hz => ⟨by have := (hok z hz).lo; omega, by have := (hok z hz).hi; omega⟩
  obtain ⟨hsy, hny, hxy, hyy, hfirst, hstop⟩ := join_reads h hp hin (by omega)
  have hnx := h.mid.1.next
  have hsx := h.mid.2.size
  rw [first_cons] at hnx
  simp only [stop, join_addr, join_size] at hroom
  unfold HeapCode.mergeNext
  refine bind_within (size_within hx) (HeapCode.size_run ..) ?_
  refine bind_within (next_within hx) (HeapCode.next_run ..) ?_
  refine bind_within (size_within ?_) (HeapCode.size_run ..) ?_
  · rw [next_ofNat, hnx]
    exact hy
  refine bind_within (setSize_within hx) (HeapCode.setSize_run ..) ?_
  refine bind_within (next_within hx) (HeapCode.next_run ..) ?_
  refine bind_within (next_within ?_) (HeapCode.next_run ..) ?_
  · simp (disch := omega) only [setSize_ofNat, next_ofNat, Mem.load_store_of_apart, hnx]
    exact hy
  refine bind_within (setNext_within hx) (HeapCode.setNext_run ..) ?_
  refine bind_within (size_within hx) (HeapCode.size_run ..) ?_
  refine bind_within (store_within ?_) (HeapCode.store_run ..) ?_
  · simp (disch := omega) only [next_ofNat, size_ofNat, setSize_ofNat, setNext_ofNat, hsx, hnx,
      hsy, merged_size,
      Mem.load_store_of_apart, hny, Mem.load_store_self, tail_ofNat]
    exact (heapWord_ofNat (by omega)).mpr ⟨by omega, by omega⟩
  refine bind_within (next_within hx) (HeapCode.next_run ..) (when_within fun h0 => setPrev_within ?_)
  simp (disch := omega) only [next_ofNat, size_ofNat, setSize_ofNat, setNext_ofNat, hsx, hnx,
    hsy, merged_size,
    Mem.load_store_of_apart, hny, Mem.load_store_self, tail_ofNat] at h0 ⊢
  exact header_of_first (fun z hz => hok z (by simp [hz])) h0

/-- The merge into the previous block, when the guard word that it writes does not fall on the links
that it reads. -/
theorem mergePrev_within (h : Holds m (pre ++ x :: y :: post)) (hp : (pre ++ x :: y :: post).Pairwise Apart)
    (hok : ∀ z ∈ pre ++ x :: y :: post, z.Ok) (hroom : (x.join y).stop + 4 ≤ heapHi)
    (hclear : (x.join y).stop + 4 ≤ y.addr + 12 ∨ y.addr + 20 ≤ (x.join y).stop) :
    (HeapCode.mergePrev (BitVec.ofNat 32 y.addr)).Within heapRange m := by
  have hb := heap_bounds
  have hx := header_of_ok (hok x (by simp))
  have hy := header_of_ok (hok y (by simp))
  have hlo := (hok x (by simp)).lo
  have hin : InSpace (pre ++ x :: y :: post) :=
    fun z hz => ⟨by have := (hok z hz).lo; omega, by have := (hok z hz).hi; omega⟩
  obtain ⟨hsy, hny, hxy, hyy, hfirst, hstop⟩ := join_reads h hp hin (by omega)
  have hpy := h.prev_eq
  have hsx := h.mid.2.size
  simp only [stop, join_addr, join_size] at hroom hclear
  unfold HeapCode.mergePrev
  refine bind_within (prev_within hy) (HeapCode.prev_run ..) ?_
  refine bind_within (size_within ?_) (HeapCode.size_run ..) ?_
  · rw [prev_ofNat, hpy]
    exact hx
  refine bind_within (size_within hy) (HeapCode.size_run ..) ?_
  refine bind_within (setSize_within ?_) (HeapCode.setSize_run ..) ?_
  · rw [prev_ofNat, hpy]
    exact hx
  refine bind_within (prev_within hy) (HeapCode.prev_run ..) ?_
  refine bind_within (size_within ?_) (HeapCode.size_run ..) ?_
  · simp (disch := omega) only [prev_ofNat, size_ofNat, setSize_ofNat, hpy, Mem.load_store_of_apart]
    exact hx
  refine bind_within (store_within ?_) (HeapCode.store_run ..) ?_
  · simp (disch := omega) only [prev_ofNat, size_ofNat, setSize_ofNat, hpy, hsx, hsy, merged_size,
      Mem.load_store_of_apart,
      Mem.load_store_self, tail_ofNat]
    exact (heapWord_ofNat (by omega)).mpr ⟨by omega, by omega⟩
  refine bind_within (prev_within hy) (HeapCode.prev_run ..) ?_
  refine bind_within (next_within hy) (HeapCode.next_run ..) ?_
  refine bind_within (setNext_within ?_) (HeapCode.setNext_run ..) ?_
  · simp (disch := omega) only [prev_ofNat, size_ofNat, setSize_ofNat, hpy, hsx, hsy, merged_size,
      Mem.load_store_of_apart,
      Mem.load_store_self, tail_ofNat]
    exact hx
  refine bind_within (next_within hy) (HeapCode.next_run ..) ?_
  refine bind_within (prev_within hy) (HeapCode.prev_run ..) (when_within fun h0 => setPrev_within ?_)
  simp (disch := omega) only [prev_ofNat, next_ofNat, size_ofNat, setSize_ofNat, setNext_ofNat,
    hpy, hsx, hny, hsy, merged_size,
    Mem.load_store_of_apart, Mem.load_store_self, tail_ofNat] at h0 ⊢
  exact header_of_first (fun z hz => hok z (by simp [hz])) h0

/-- The block that the merge with the next one leaves lies in the heap. -/
theorem ok_of_absorbNext {b c : Block} {r : List Block} (hA : A.Ok) (hbs : A.blocks = pre ++ b :: post)
    (hlt : b.addr < A.brk) (hc : CoalesceFits heapLo A.brk pre b post)
    (hnext : absorbNext heapLo A.brk b.released post = (c, r)) : c.Ok := by
  have hb := heap_bounds
  have hbok := hA.block b (by simp [hbs])
  have hap := hA.apart
  rw [hbs] at hap
  have hparts : mergeParts heapLo A.brk [] b post = ([], c, r) := by
    rw [mergeParts, hnext]
    rfl
  obtain ⟨l, t, hl, rfl, -, hsize, -, ht⟩ := mergeParts_spec hparts
  obtain rfl : l = [] := by simpa using hl.symm
  have haddr : c.addr = b.addr := by
    have h := absorbNext_addr heapLo A.brk b.released (t ++ r)
    rwa [hnext] at h
  have hsplit : A.blocks = (pre ++ []) ++ b :: (t ++ r) := by rw [hbs, List.append_nil]
  refine hA.merged hsplit hlt (.inl ⟨rfl, haddr⟩)
    (ht.imp_left And.left) hsize (guardRoom_of_fits hparts ⟨hc.1, fun pre' p h => absurd h (by simp)⟩
      (List.pairwise_append.mp hap).2.1 (by have := hbok.hi; omega))

/-- The block that both merges leave lies in the heap. -/
theorem ok_of_mergeParts {b c : Block} {pre' r : List Block} (hA : A.Ok) (hbs : A.blocks = pre ++ b :: post)
    (hlt : b.addr < A.brk) (hc : CoalesceFits heapLo A.brk pre b post)
    (hparts : mergeParts heapLo A.brk pre b post = (pre', c, r)) : c.Ok := by
  have hb := heap_bounds
  have hbok := hA.block b (by simp [hbs])
  have hap := hA.apart
  rw [hbs] at hap
  have hroom := guardRoom_of_fits hparts hc hap (by have := hbok.hi; omega)
  obtain ⟨l, t, rfl, rfl, -, hsize, hl, ht⟩ := mergeParts_spec hparts
  exact hA.merged hbs hlt (hl.imp_left fun h => And.intro h.1 h.2.1) (ht.imp_left And.left) hsize hroom

/-- The accesses of the two merges lie in the heap, if neither goes wrong. -/
theorem coalesce_within {b : Block} (hm : Models heapLo (u.heap m) A) (hA : A.Ok)
    (hbs : A.blocks = pre ++ b :: post)
    (hlt : b.addr < A.brk) (hc : CoalesceFits heapLo A.brk pre b post) :
    (HeapCode.coalesce u (BitVec.ofNat 32 b.addr)).Within heapRange m := by
  have hok := hA.block
  have hp := hA.apart
  have hin := hA.inSpace
  have hholds : Holds m A.blocks := hm.rep.holds
  rw [hbs] at hok hp hin hholds
  have hbok := hok b (by simp)
  have hb := header_of_ok hbok
  have hbd := heap_bounds
  have he := hA.brk_lt_space
  have hstart (m' : Mem) : (u.heap m').heapStart = BitVec.ofNat 32 heapLo := hm.heapStart
  have hend (m' : Mem) : (u.heap m').heapEnd = BitVec.ofNat 32 A.brk := hm.heapEnd
  obtain ⟨c, post₂, hnext⟩ : ∃ c post₂, absorbNext heapLo A.brk b.released post = (c, post₂) := ⟨_, _, rfl⟩
  have hcok := ok_of_absorbNext hA hbs hlt hc hnext
  have hca : c.addr = b.addr := by
    have h := absorbNext_addr heapLo A.brk b.released post
    rwa [hnext] at h
  -- the block is marked free
  refine bind_within (setFree_within hb) (HeapCode.setFree_run ..) ?_
  set m₁ := setFree m (BitVec.ofNat 32 b.addr) 1 with hm₁
  have hh₁ : Holds m₁ (pre ++ b.released :: post) := (hholds.setFree (v := 1) true hp hin (by decide)).2
  have hp₁ : (pre ++ b.released :: post).Pairwise Apart := pairwise_flag hp
  have hin₁ := inSpace_released hin
  have hlink : next m₁ (BitVec.ofNat 32 b.addr) = BitVec.ofNat 32 (first Block.addr post 0) := by
    rw [next_ofNat]
    exact hh₁.mid.1.next
  refine bind_within (next_within hb) (HeapCode.next_run ..) ?_
  refine bind_within (mergeable_within ?_) (HeapCode.mergeable_run ..) ?_
  · rw [hlink]
    exact header_of_first fun z hz => hok z (by simp [hz])
  refine bind_within (when_within fun hmerge => ?_) (HeapCode.when_run ..) ?_
  · rw [decide_eq_true_eq, hlink] at hmerge
    obtain _ | ⟨y, r⟩ := post
    · exact absurd hmerge not_mergeable_zero
    rw [first_cons,
      mergeable_iff (hstart _) (hend _) (by omega) he (hh₁.sealed y (by simp))
      (hin₁ y (by simp))] at hmerge
    obtain ⟨rfl, rfl⟩ := Prod.mk.inj (hnext.symm.trans (if_pos hmerge))
    refine mergeNext_within (x := b.released) hh₁ hp₁ (fun z hz => ?_) hcok.hi
    rw [List.mem_append, List.mem_cons] at hz
    obtain hz | rfl | hz := hz
    · exact hok z (by simp [hz])
    · exact ⟨hbok.lo, hbok.hi, hbok.size_ge, hbok.size_dvd, hbok.addr_dvd⟩
    · exact hok z (by simp [hz])
  -- the merge with the next block
  simp only [decide_eq_true_eq, HeapCode.mergeNext_run]
  set m₂ := if mergeable (u.heap m₁) m₁ (next m₁ (BitVec.ofNat 32 b.addr)) then
    mergeNext m₁ (BitVec.ofNat 32 b.addr)
    else m₁ with hm₂
  have h₂ : Merged m₁ m₂ pre c post₂ :=
    mergeNext_spec (hstart m₁) (hend m₁) (by omega) he hh₁ hp₁ hin₁ hnext hc.1 hm₂
  have hback : prev m₂ (BitVec.ofNat 32 b.addr) = BitVec.ofNat 32 (last Block.addr 0 pre) := by
    rw [prev_ofNat, ← hca]
    exact h₂.holds.mid.1.prev
  refine bind_within (prev_within hb) (HeapCode.prev_run ..) ?_
  refine bind_within (mergeable_within ?_) (HeapCode.mergeable_run ..) (when_within fun hmerge => ?_)
  · rw [hback]
    exact header_of_last fun z hz => hok z (by simp [hz])
  rw [decide_eq_true_eq, hback] at hmerge
  obtain rfl | ⟨r, p, rfl⟩ := List.eq_nil_or_concat pre
  · exact absurd hmerge not_mergeable_zero
  rw [List.concat_eq_append] at *
  have hh₂ := h₂.holds
  have hp₂ := h₂.apart
  rw [last_append_cons, last_nil, mergeable_iff (hstart _) (hend _) (by omega) he (hh₂.sealed p (by simp))
    (h₂.inSpace p (by simp))] at hmerge
  have hparts : mergeParts heapLo A.brk (r ++ [p]) b post = (r, p.join c, post₂) := by
    rw [mergeParts, hnext]
    dsimp only
    rw [absorbPrev_append_singleton, if_pos hmerge]
  obtain ⟨-, hclear⟩ := hc.2 r p rfl hmerge
  rw [hnext, ← hca] at hclear
  rw [List.append_assoc, List.singleton_append] at hh₂ hp₂
  rw [← hca]
  refine mergePrev_within hh₂ hp₂ (fun z hz => ?_) (ok_of_mergeParts hA hbs hlt hc hparts).hi hclear
  rw [List.mem_append, List.mem_cons, List.mem_cons] at hz
  obtain hz | rfl | rfl | hz := hz
  · exact hok z (by simp [hz])
  · exact hok z (by simp)
  · exact hcok
  · exact hok z
      (by simp [mem_of_mem_absorbNext
      (show z ∈ (absorbNext heapLo A.brk b.released post).2 by rwa [hnext])])

theorem isFree_within (hb : b ≠ 0 → HeapHeader b) : (HeapCode.isFree b).Within heapRange m :=
  both_within fun h => bind_within (free_within (hb h)) (HeapCode.free_run ..) trivial

theorem lastBlock_within {p : ℕ} (hl : Thread Block.addr (Link m) p bs 0) (hok : ∀ x ∈ bs, x.Ok) (k : ℕ) :
    (HeapCode.lastBlock k (BitVec.ofNat 32 (first Block.addr bs 0))).Within heapRange m := by
  induction k generalizing bs p with
  | zero => trivial
  | succ k ih =>
    cases bs with
    | nil => exact trivial
    | cons x bs =>
      have hx := header_of_ok (hok x List.mem_cons_self)
      rw [first_cons, HeapCode.lastBlock]
      split_ifs
      · trivial
      refine bind_within (next_within hx) (HeapCode.next_run ..) ?_
      rw [next_ofNat, hl.1.next]
      split_ifs
      · trivial
      · exact ih hl.2 fun y hy => hok y (List.mem_cons_of_mem _ hy)

theorem retract_within (hh : Holds m bs) (hok : ∀ x ∈ bs, x.Ok) (hin : InSpace bs)
    (hhead : u.heapHead = BitVec.ofNat 32 (first Block.addr bs 0)) (hk : bs.length < k) :
    (HeapCode.retract k u).Within heapRange m := by
  have hfirst : u.heapHead ≠ 0 → HeapHeader u.heapHead := by
    rw [hhead]
    exact header_of_first hok
  have hlast : lastBlock m k u.heapHead = some (BitVec.ofNat 32 (last Block.addr 0 bs)) := by
    rw [hhead]
    exact lastBlock_eq hh.links hin hk
  unfold HeapCode.retract
  refine bind_within ?_ (HeapCode.isFreeAlone_run ..) ?_
  · refine bind_within (isFree_within hfirst) (HeapCode.isFree_run ..) (both_within fun h => ?_)
    exact bind_within (next_within (hfirst (of_decide_eq_true h).1)) (HeapCode.next_run ..) trivial
  split_ifs
  · trivial
  refine bind_within ?_ (HeapCode.lastBlock_run ..) ?_
  · rw [hhead]
    exact lastBlock_within hh.links hok k
  rw [hlast]
  exact bind_within (isFree_within (header_of_last hok)) (HeapCode.isFree_run ..) trivial

/-- The accesses of `kfree` lie in the heap, if no merge goes wrong. -/
theorem kfree_within {ptr : Word} (hm : Models heapLo (u.heap m) A) (hA : A.Ok) (ho : A.Allows (.free ptr))
    (hbs : A.blocks = pre ++ x :: post) (hptr : ptr = BitVec.ofNat 32 x.payload) (hk : A.blocks.length < k) :
    (HeapCode.kfree k u ptr).Within heapRange m := by
  have hb := heap_bounds
  have hend : u.heapEnd = BitVec.ofNat 32 A.brk := hm.heapEnd
  have hbrk : u.heapEnd.toNat = A.brk := by rw [hend, toNat_ofNat_of_lt hA.brk_lt_space]
  have hxok := hA.block x (by simp [hbs])
  have hx := header_of_ok hxok
  have hhi := hxok.hi
  unfold stop at hhi
  have hblock : ptr - SIZEOF_HEADER = BitVec.ofNat 32 x.addr := by
    rw [hptr, payload]
    unfold SIZEOF_HEADER
    bv_omega
  unfold HeapCode.kfree
  split_ifs with h0
  · trivial
  dsimp only
  rw [hblock]
  split_ifs with hrange
  · trivial
  have hlt : x.addr < A.brk := by
    by_contra hge
    refine hrange (.inr ?_)
    show u.heapEnd.toNat ≤ (BitVec.ofNat 32 x.addr).toNat
    rw [hbrk, toNat_ofNat_of_lt (by omega)]
    omega
  have hc := ho pre x post hbs hptr hlt
  have hp := hA.apart
  have hin := hA.inSpace
  have hok := hA.block
  have hholds : Holds m A.blocks := hm.rep.holds
  have hhead : u.heapHead = BitVec.ofNat 32 (first Block.addr A.blocks 0) := hm.rep.head
  rw [hbs] at hp hin hok hholds hhead hk
  have hsize : size m (BitVec.ofNat 32 x.addr) = BitVec.ofNat 32 x.size := by
    rw [size_ofNat]
    exact hholds.mid.2.size
  refine bind_within (magic_within hx) (HeapCode.magic_run ..) ?_
  split_ifs
  · trivial
  refine bind_within (size_within hx) (HeapCode.size_run ..) ?_
  refine bind_within (load_within ?_) (HeapCode.load_run ..) ?_
  · rw [hsize, tail_ofNat]
    exact (heapWord_ofNat (by omega)).mpr ⟨by have := hxok.lo; omega, by omega⟩
  split_ifs
  · trivial
  · trivial
  refine bind_within (free_within hx) (HeapCode.free_run ..) ?_
  split_ifs
  · trivial
  refine bind_within (coalesce_within hm hA hbs hlt hc) (HeapCode.coalesce_run ..) ?_
  -- the list that the merges leave
  obtain ⟨pre', y, post', hparts⟩ := exists_mergeParts heapLo A.brk pre x post
  have hmer : Merged m (coalesce (u.heap m) (BitVec.ofNat 32 x.addr)) pre' y post' :=
    coalesce_spec hm.heapStart hm.heapEnd (by omega) hA.brk_lt_space hholds hp hin hc hparts
  obtain ⟨hfirst, hlen⟩ := first_mergeParts hparts
  obtain ⟨l, r, hl, hr, -⟩ := mergeParts_spec hparts
  have hok' : ∀ z ∈ pre' ++ y :: post', z.Ok := by
    intro z hz
    rw [List.mem_append, List.mem_cons] at hz
    obtain hz | rfl | hz := hz
    · exact hok z (by simp [hl, hz])
    · exact ok_of_mergeParts hA hbs hlt hc hparts
    · exact hok z (by simp [hr, hz])
  refine within_bind_pure ?_
  exact retract_within hmer.holds hok' hmer.inSpace (hhead.trans (congrArg _ hfirst.symm)) (by omega)

/-! ### `heap_dump` -/

theorem dumpLoop_within {p : ℕ} (hl : Thread Block.addr (Link m) p bs 0) (hok : ∀ x ∈ bs, x.Ok)
    (k : ℕ) (i : Word) :
    (HeapCode.dumpLoop k (BitVec.ofNat 32 (first Block.addr bs 0)) i).Within heapRange m := by
  induction k generalizing bs p i with
  | zero => trivial
  | succ k ih =>
    cases bs with
    | nil => exact trivial
    | cons x bs =>
      have hx := header_of_ok (hok x List.mem_cons_self)
      rw [first_cons, HeapCode.dumpLoop]
      split_ifs
      · trivial
      refine bind_within (size_within hx) (HeapCode.size_run ..) ?_
      refine bind_within (free_within hx) (HeapCode.free_run ..) ?_
      refine bind_within (next_within hx) (HeapCode.next_run ..) (within_bind_pure ?_)
      rw [next_ofNat, hl.1.next]
      exact ih hl.2 (fun y hy => hok y (List.mem_cons_of_mem _ hy)) _

theorem heapDump_within (hm : Models heapLo (u.heap m) A) (hA : A.Ok) (k : ℕ) :
    (HeapCode.heapDump k u).Within heapRange m := by
  have hhead : u.heapHead = BitVec.ofNat 32 (first Block.addr A.blocks 0) := hm.rep.head
  unfold HeapCode.heapDump
  split_ifs
  · trivial
  · rw [hhead]
    exact within_bind_pure (dumpLoop_within hm.rep.holds.links hA.block k 0)

/-! ### Calls -/

theorem mem_heapRange_of_live {s : Clients} (hi : s.Inv A) (ha : InLive s.live a) : a ∈ heapRange := by
  obtain ⟨q, hq, h1, h2⟩ := ha
  obtain ⟨x, hx, -, hqx, -, hle⟩ := hi.block q hq
  have hxok := hi.ok.block x hx
  have hlo := hxok.lo
  have hhi := hxok.hi
  rw [hqx, toNat_ofNat_of_lt (hi.ok.payload_lt hx)] at h1 h2
  unfold stop at hhi
  unfold payload at h1 h2
  unfold heapLo heapHi at *
  exact ⟨show 0x400000 ≤ a.toNat by omega, show a.toNat < 0x800000 by omega⟩

variable {L L' : FirstFit} {s : Holder}

/-- The accesses of a regular call lie in the heap. -/
theorem call_within {d : HeapCall} (h : L.Rep (s.clients m)) (ho : L.Regular d)
    (hk : L.arena.blocks.length < k) :
    (HeapCode.call k s d).Within heapRange m := by
  cases d with
  | malloc w => exact within_bind_pure (kmalloc_within h.inv.models h.inv.ok (ho _ rfl) hk)
  | free ptr =>
    rw [HeapCode.call]
    split_ifs with hptr
    · obtain ⟨pre, x, post, hbs, -, hpx⟩ := h.inv.live_block hptr
      exact within_bind_pure (kfree_within h.inv.models h.inv.ok (ho _ rfl) hbs hpx hk)
    · trivial
  | write a v =>
    rw [HeapCode.call]
    split_ifs with ha
    · exact ⟨List.forall_mem_singleton.mpr (mem_heapRange_of_live h.inv ha), trivial⟩
    · trivial
  | read a =>
    rw [HeapCode.call]
    split_ifs with ha
    · exact ⟨List.forall_mem_singleton.mpr (mem_heapRange_of_live h.inv ha), trivial⟩
    · trivial
  | dump => exact within_bind_pure (heapDump_within h.inv.models h.inv.ok k)

/-- The accesses of regular calls, one after the other. -/
theorem calls_within {cs : List HeapCall} {rs : List HeapReply} (h : L.Rep (s.clients m))
    (ho : L.RegularCalls cs)
    (hc : L.calls cs = some (rs, L')) (hk : L.arena.blocks.length + cs.length < k) :
    (HeapCode.calls k cs s).Within heapRange m := by
  induction cs generalizing L s m rs with
  | nil => trivial
  | cons d cs ih =>
    obtain ⟨⟨r, L₁⟩, hr, hc⟩ := Option.bind_eq_some_iff.mp hc
    obtain ⟨⟨rs', L₂⟩, hrs, heq⟩ := Option.map_eq_some_iff.mp hc
    obtain ⟨rfl, rfl⟩ := Prod.mk.inj heq
    rw [List.length_cons] at hk
    obtain ⟨⟨t, ht, h₁⟩, hlen⟩ := h.call ho.1 hr
    refine bind_within (call_within h ho.1 (by omega)) (HeapCode.call_run _ (ht k (by omega))) ?_
    exact within_bind_pure (ih (s := t.holder) h₁ (ho.2 _ hr) hrs (by omega))

end SpatulaOS.Core
