import SpatulaOS.Mm.HeapClients
import Mathlib.Data.List.Chain

/-!
# When a `kfree` leaves the other blocks alone

On a doubly linked list of intact blocks that do not overlap, with the last one in
use, a `kfree` either is refused, or merges the block with its free neighbours. The
merges add the size of a header and of a guard word for each neighbour, whether or
not the guard word had room of its own. If every merge has room (`CoalesceFits`) the
list stays in order and no other block is changed; in a heap of aligned blocks it is
only then.
-/

namespace SpatulaOS.Mm

open ByteMemory Threaded Block Runs SpatulaOS.Video

variable {h h' : Heap} {m : Mem} {x y b : Block} {bs pre post post' : List Block} {s e k : ℕ}

/-! ### Intact lists -/

/-- A list of intact blocks: doubly linked, with magic and guard words, in order without
overlaps, and with the last block in use. -/
structure Intact (h : Heap) (bs : List Block) : Prop where
  rep : Rep h bs
  inSpace : InSpace bs
  order : bs.IsChain fun x y => x.stop ≤ y.addr
  last : ∀ x, bs.getLast? = some x → x.free = false

instance (h : Heap) (bs : List Block) : Decidable (Intact h bs) :=
  decidable_of_iff (_ ∧ _ ∧ _ ∧ ∀ x ∈ bs.getLast?, x.free = false)
    ⟨fun h => ⟨h.1, h.2.1, h.2.2.1, h.2.2.2⟩, fun h => ⟨h.1, h.2, h.3, h.4⟩⟩

/-- Intact guard and magic words do not overlap in part. -/
theorem apart_of_sealed (hx : Sealed m x) (hy : Sealed m y) (hle : x.stop ≤ y.addr) : x.Apart y := by
  by_contra hno
  obtain ⟨j, hj, hj1, hyj⟩ : ∃ j, j < 4 ∧ 0 < j ∧ y.addr = x.stop + j :=
    ⟨y.addr - x.stop, by unfold Apart at hno; omega, by unfold Apart at hno; omega, by omega⟩
  -- the first byte of the magic word is another byte of the guard word
  have h1 := Mem.load_byte m (BitVec.ofNat 32 x.stop) hj
  have h2 := Mem.load_lowByte m (BitVec.ofNat 32 y.addr)
  rw [hx.guard, ← BitVec.ofNat_add, ← hyj] at h1
  rw [hy.magic] at h2
  rw [← h2] at h1
  obtain rfl | rfl | rfl : j = 1 ∨ j = 2 ∨ j = 3 := by omega
  all_goals exact absurd h1 (by decide)

instance : Trans Apart Apart Apart := ⟨Apart.trans⟩

theorem Intact.pairwise (hw : Intact h bs) : bs.Pairwise Apart := by
  rw [← List.isChain_iff_pairwise]
  exact hw.order.imp_of_mem_imp fun x y hx hy hxy =>
    apart_of_sealed (hw.rep.holds.sealed x hx) (hw.rep.holds.sealed y hy) hxy

/-- What the list of intact blocks in order looks like from `heap_head`. -/
theorem Rep.in_order {c : Word} (hr : Rep h bs) (hin : InSpace bs) (hp : bs.Pairwise Apart)
    (hc : Listed h c) (hne : next h.mem c ≠ 0) : prev h.mem (next h.mem c) = c ∧
      c.toNat + 20 + (size h.mem c).toNat ≤ (next h.mem c).toNat := by
  obtain ⟨pre, x, post, rfl, rfl⟩ := hc.exists_block hr
  obtain ⟨hl, hsx⟩ := hr.holds.mid
  rw [next_ofNat, hl.next] at hne ⊢
  obtain _ | ⟨y, post⟩ := post
  · exact absurd rfl hne
  have hx := (hin x (by simp)).2
  have hy := (hin y (by simp)).2
  have hxy := ((List.pairwise_cons.mp (List.pairwise_append.mp hp).2.1).1 y List.mem_cons_self).le
  unfold stop at hx hy hxy
  rw [first_cons, prev_ofNat, hr.holds.prev_eq, size_ofNat, hsx.size, toNat_ofNat_of_lt (by omega),
    toNat_ofNat_of_lt (by omega), toNat_ofNat_of_lt (by omega)]
  exact ⟨rfl, hxy⟩

/-! ### Frees that leave the other blocks alone -/

/-- The blocks other than `b` and the free neighbours that are merged with it. -/
def unmerged (h : Heap) (pre : List Block) (b : Block) (post : List Block) : List Block :=
  let parts := mergeParts h.heapStart.toNat h.heapEnd.toNat pre b post
  parts.1 ++ parts.2.2

/-- The call frees `b` cleanly: it ends with a list whose headers are from the old one, doubly
linked and in order without overlaps, and the other blocks are still in it, with the same
magic words, sizes and free flags. -/
def FreesCleanly (h : Heap) (pre : List Block) (b : Block) (post : List Block) : Prop :=
  ∃ k h' out, kfree k h (BitVec.ofNat 32 b.payload) = some (h', out) ∧
    (∀ c, Listed h' c → Listed h c ∧ (next h'.mem c ≠ 0 → prev h'.mem (next h'.mem c) = c ∧
      c.toNat + 20 + (size h'.mem c).toNat ≤ (next h'.mem c).toNat)) ∧
    ∀ w ∈ unmerged h pre b post, Listed h' (BitVec.ofNat 32 w.addr) ∧
      magic h'.mem (BitVec.ofNat 32 w.addr) = magic h.mem (BitVec.ofNat 32 w.addr) ∧
      size h'.mem (BitVec.ofNat 32 w.addr) = size h.mem (BitVec.ofNat 32 w.addr) ∧
      free h'.mem (BitVec.ofNat 32 w.addr) = free h.mem (BitVec.ofNat 32 w.addr)

/-- The condition: if the call is accepted, no merge goes wrong. -/
def FitsIfAccepted (h : Heap) (pre : List Block) (b : Block) (post : List Block) : Prop :=
  Accepts h.heapStart.toNat h.heapEnd.toNat b → CoalesceFits h.heapStart.toNat h.heapEnd.toNat pre b post

theorem KeepsBlock.fields {m' : Mem} (hk : KeepsBlock m m' x) (hx : x.addr + 16 ≤ 2 ^ 32) :
    magic m' (BitVec.ofNat 32 x.addr) = magic m (BitVec.ofNat 32 x.addr) ∧
      size m' (BitVec.ofNat 32 x.addr) = size m (BitVec.ofNat 32 x.addr) ∧
      free m' (BitVec.ofNat 32 x.addr) = free m (BitVec.ofNat 32 x.addr) := by
  rw [magic_ofNat, magic_ofNat, size_ofNat, size_ofNat, free_ofNat, free_ofNat]
  refine ⟨?_, ?_, ?_⟩ <;>
    exact Mem.load_congr (by omega) fun a h1 h2 => hk a (.inl ⟨by omega, by omega⟩)

/-- A block that is not merged is one of the list. -/
theorem mem_of_mem_unmerged {w : Block} (hw : w ∈ unmerged h pre b post) : w ∈ pre ++ b :: post := by
  obtain ⟨pre', x, post', hparts⟩ := exists_mergeParts h.heapStart.toNat h.heapEnd.toNat pre b post
  rw [unmerged, hparts, List.mem_append] at hw
  have := mem_of_mem_mergeParts hparts hw
  rw [List.mem_append, List.mem_cons]
  tauto

theorem freesCleanly_of_refused (hw : Intact h (pre ++ b :: post)) (hbf : b.free = false)
    (hacc : ¬ Accepts h.heapStart.toNat h.heapEnd.toNat b) : FreesCleanly h pre b post := by
  have hin := hw.inSpace
  have hk := kfree_eq (s := h.heapStart.toNat) (e := h.heapEnd.toNat) (by simp) (by simp) h.heapStart.isLt
    h.heapEnd.isLt hw.rep.holds.mid.2 (hin b (by simp)) hbf 0
  rw [if_neg hacc] at hk
  obtain ⟨msg, hk⟩ := hk
  refine ⟨0, h, [msg], hk, fun c hcl => ⟨hcl, hw.rep.in_order hin hw.pairwise hcl⟩,
    fun w hwm => ⟨?_, rfl, rfl, rfl⟩⟩
  obtain ⟨l₁, l₂, hl⟩ := List.append_of_mem (mem_of_mem_unmerged hwm)
  exact hw.rep.listed hin hl

/-- The blocks of the coalesced sequence are at addresses of the old one. -/
theorem exists_addr_eq {pre' post' : List Block} {w : Block}
    (hparts : mergeParts s e pre b post = (pre', x, post'))
    (hwm : w ∈ pre' ++ x :: post') : ∃ z ∈ pre ++ b :: post, z.addr = w.addr := by
  obtain ⟨l, r, rfl, rfl, -, -, hl, -⟩ := mergeParts_spec hparts
  simp only [List.mem_append, List.mem_cons] at hwm
  obtain hwm | rfl | hwm := hwm
  · exact ⟨w, by simp [hwm], rfl⟩
  · obtain ⟨-, hxa, -⟩ | ⟨p, rfl, -, hxa⟩ := hl
    · exact ⟨b, by simp, hxa.symm⟩
    · exact ⟨p, by simp, hxa.symm⟩
  · exact ⟨w, by simp [hwm], rfl⟩

/-- The condition is enough, on every list of intact blocks. -/
theorem freesCleanly_of_fits (hw : Intact h (pre ++ b :: post)) (hbf : b.free = false)
    (hc : FitsIfAccepted h pre b post) : FreesCleanly h pre b post := by
  by_cases hacc : Accepts h.heapStart.toNat h.heapEnd.toNat b
  swap
  · exact freesCleanly_of_refused hw hbf hacc
  have hap := hw.pairwise
  have hin := hw.inSpace
  obtain ⟨pre', x, post', hparts⟩ := exists_mergeParts h.heapStart.toNat h.heapEnd.toNat pre b post
  have hm : Models h.heapStart.toNat h ⟨pre ++ b :: post, h.heapEnd.toNat⟩ := ⟨hw.rep, by simp, by simp⟩
  obtain ⟨h', hrun, hm', hin', -, hkeep⟩ := kfree_spec hm hap hin h.heapStart.isLt h.heapEnd.isLt hbf hacc
    (hc hacc) hparts
  have hap' := pairwise_coalesced (hc hacc) hap (hin b (by simp)).2
  rw [coalesced_of_parts hparts] at hap'
  have hrep := hm'.rep
  -- the list is the coalesced sequence, or it was reset and there are no other blocks
  have hset : Rep h' (pre' ++ x :: post') ∨ pre' = [] ∧ post' = [] ∧ Rep h' [] := by
    obtain hset | ⟨hlen, hset⟩ := settled_blocks h.heapStart.toNat ⟨pre' ++ x :: post', h.heapEnd.toNat⟩
    · exact .inl (by rwa [hset] at hrep)
    · rw [hset] at hrep
      simp only [List.length_append, List.length_cons] at hlen
      exact .inr ⟨List.length_eq_zero_iff.mp (by omega), List.length_eq_zero_iff.mp (by omega), hrep⟩
  refine ⟨_, h', [], hrun _ (Nat.lt_succ_self _), fun c hcl => ?_, fun w hwm => ?_⟩
  · obtain hrep | ⟨-, -, hrep⟩ := hset
    · refine ⟨?_, hrep.in_order hin' hap' hcl⟩
      obtain ⟨pre₁, w, post₁, hw₁, rfl⟩ := hcl.exists_block hrep
      obtain ⟨z, hz, hzw⟩ := exists_addr_eq hparts (w := w) (by rw [hw₁]; simp)
      obtain ⟨l₁, l₂, hl⟩ := List.append_of_mem hz
      rw [← hzw]
      exact hw.rep.listed hin hl
    · obtain ⟨pre₁, w, post₁, hw₁, -⟩ := hcl.exists_block hrep
      exact absurd hw₁ (by simp)
  · have hwin := hin w (mem_of_mem_unmerged hwm)
    replace hwm : w ∈ pre' ∨ w ∈ post' := by rwa [unmerged, hparts, List.mem_append] at hwm
    unfold stop at hwin
    refine ⟨?_, (hkeep w hwm).fields (by omega)⟩
    obtain hrep | ⟨rfl, rfl, -⟩ := hset
    · have hwm' : w ∈ pre' ++ x :: post' := by
        rw [List.mem_append, List.mem_cons]
        exact hwm.imp_right .inr
      obtain ⟨l₁, l₂, hl⟩ := List.append_of_mem hwm'
      exact hrep.listed hin' hl
    · exact absurd hwm (by simp)

/-! ### What happens when a merge goes wrong -/

/-- The blocks lie in the kernel heap and are aligned. -/
def InHeap (bs : List Block) : Prop :=
  ∀ x ∈ bs, heapLo ≤ x.addr ∧ x.stop + 4 ≤ heapHi ∧ 4 ∣ x.addr ∧ 4 ∣ x.size

section Clash

variable {a c sx sy n : ℕ} (hsx : m.load (BitVec.ofNat 32 (a + 4)) = BitVec.ofNat 32 sx)
  (hsy : m.load (BitVec.ofNat 32 (c + 4)) = BitVec.ofNat 32 sy)
  (hpy : m.load (BitVec.ofNat 32 (c + 16)) = BitVec.ofNat 32 a) (hac : a + 20 ≤ c) (hc : c + 20 ≤ heapHi)

include hsx hsy hpy hac hc

/-- The guard word of the merged block falls on the `next` link of the absorbed one: the
magic word becomes the link. -/
theorem mergePrev_next_clash (he : a + 20 + (sx + 24 + sy) = c + 12) :
    mergePrev m (BitVec.ofNat 32 c) =
      (((m.store (BitVec.ofNat 32 (a + 4)) (BitVec.ofNat 32 (sx + 24 + sy))).store
      (BitVec.ofNat 32 (c + 12)) HEAP_MAGIC).store (BitVec.ofNat 32 (a + 12)) HEAP_MAGIC).store
      (BitVec.ofNat 32 (0xDEADBEEF + 16)) (BitVec.ofNat 32 a) := by
  have hb := heap_bounds
  have hset (m' : Mem) (v : Word) :
      setPrev m' HEAP_MAGIC v = m'.store (BitVec.ofNat 32 (0xDEADBEEF + 16)) v := rfl
  unfold mergePrev
  simp (disch := omega) only [prev_ofNat, next_ofNat, size_ofNat, setSize_ofNat, setNext_ofNat, hsx, hpy, hsy,
    merged_size, Mem.load_store_of_apart, Mem.load_store_self, tail_ofNat, he, hset]
  exact if_pos (by decide)

/-- The guard word falls on the `prev` link: the magic word is taken for the previous block. -/
theorem mergePrev_prev_clash (hny : m.load (BitVec.ofNat 32 (c + 12)) = BitVec.ofNat 32 n)
    (hn : n + 20 ≤ heapHi)
    (he : a + 20 + (sx + 24 + sy) = c + 16) :
    mergePrev m (BitVec.ofNat 32 c) =
      let m' := ((m.store (BitVec.ofNat 32 (a + 4)) (BitVec.ofNat 32 (sx + 24 + sy))).store
        (BitVec.ofNat 32 (c + 16)) HEAP_MAGIC).store (BitVec.ofNat 32 (0xDEADBEEF + 12)) (BitVec.ofNat 32 n)
      if n = 0 then m' else m'.store (BitVec.ofNat 32 (n + 16)) HEAP_MAGIC := by
  have hb := heap_bounds
  have hset (m' : Mem) (v : Word) :
      setNext m' HEAP_MAGIC v = m'.store (BitVec.ofNat 32 (0xDEADBEEF + 12)) v := rfl
  unfold mergePrev
  simp (disch := omega) only [prev_ofNat, next_ofNat, size_ofNat, setSize_ofNat, setPrev_ofNat, hsx, hpy, hsy,
    merged_size, Mem.load_store_of_apart, Mem.load_store_self, tail_ofNat, he, hset, hny, ne_eq,
    ofNat_eq_zero_iff (show n < 2 ^ 32 by omega), ite_not]

/-- An overrun stays: a magic word on the size of the block behind is there after the
merge into the previous block, if it was there before or if this merge writes it. -/
theorem mergePrev_overrun {z : ℕ} (hny : m.load (BitVec.ofNat 32 (c + 12)) = BitVec.ofNat 32 z)
    (hcz : c + 20 ≤ z) (hz : z + 20 ≤ heapHi) (hdvd : 4 ∣ a ∧ 4 ∣ c ∧ 4 ∣ z ∧ 4 ∣ sx ∧ 4 ∣ sy)
    (hxc : a + 20 + sx ≤ c) (he : a + 20 + (sx + 24 + sy) ≤ z + 8)
    (hm : m.load (BitVec.ofNat 32 (z + 4)) = HEAP_MAGIC ∨ a + 20 + (sx + 24 + sy) = z + 4) :
    (mergePrev m (BitVec.ofNat 32 c)).load (BitVec.ofNat 32 (z + 4)) = HEAP_MAGIC := by
  have hb := heap_bounds
  obtain hclear | hclash | hclash :
      (a + 20 + (sx + 24 + sy) + 4 ≤ c + 12 ∨ c + 20 ≤ a + 20 + (sx + 24 + sy)) ∨
      a + 20 + (sx + 24 + sy) = c + 12 ∨ a + 20 + (sx + 24 + sy) = c + 16 := by omega
  · rw [mergePrev_eq hsx hsy hny hxc (by omega) (by omega) (by omega) hpy hclear, joinMem,
      load_linkBack (by omega) (by omega)]
    by_cases hez : a + 20 + (sx + 24 + sy) = z + 4
    · rw [hez, Mem.load_store_self]
    · rw [Mem.load_store_of_apart _ _ (by omega) (by omega) (by omega),
        Mem.load_store_of_apart _ _ (by omega) (by omega) (by omega),
        Mem.load_store_of_apart _ _ (by omega) (by omega) (by omega)]
      exact hm.resolve_right hez
  · rw [mergePrev_next_clash hsx hsy hpy hac hc hclash]
    simp (disch := omega) only [Mem.load_store_of_apart]
    exact hm.resolve_right (by omega)
  · rw [mergePrev_prev_clash hsx hsy hpy hac hc hny hz hclash, if_neg (by omega)]
    simp (disch := omega) only [Mem.load_store_of_apart]
    exact hm.resolve_right (by omega)

end Clash

/-- The end of `kfree` changes no memory, and it leaves `heap_head` alone if there is a
block behind the first. -/
theorem retract_some (hr : retract k h = some h') :
    h'.mem = h.mem ∧ (next h.mem h.heapHead ≠ 0 → h'.heapHead = h.heapHead) := by
  unfold retract at hr
  split_ifs at hr with h1
  · cases hr
    exact ⟨rfl, fun hne => absurd h1.2.2 hne⟩
  · cases hl : lastBlock h.mem k h.heapHead with
    | none => rw [hl] at hr; exact absurd hr (by simp)
    | some c =>
      rw [hl] at hr
      dsimp only at hr
      split_ifs at hr <;> cases hr <;> exact ⟨rfl, fun _ => rfl⟩

theorem release_spec (hh : Holds m (pre ++ b :: post)) (hp : (pre ++ b :: post).Pairwise Apart)
    (hin : InSpace (pre ++ b :: post)) :
      Holds (setFree m (BitVec.ofNat 32 b.addr) 1) (pre ++ b.released :: post) ∧
      (pre ++ b.released :: post).Pairwise Apart ∧ InSpace (pre ++ b.released :: post) :=
  ⟨(hh.setFree (v := 1) true hp hin (by decide)).2, pairwise_flag hp, inSpace_released hin⟩

/-- What the first merge leaves of the words around its block. -/
theorem load_joinMem (m : Mem) {a sz nx : ℕ} (ha : a + 20 ≤ nx) (hn : nx + 20 ≤ 2 ^ 32)
    (hs : nx + 4 ≤ a + 20 + sz)
    (hs' : a + 20 + sz + 4 ≤ nx + 16) :
    (∀ k, k + 4 ≤ a + 4 ∨ a + 16 ≤ k ∧ k + 4 ≤ a + 20 →
      (joinMem m a sz nx).load (BitVec.ofNat 32 k) = m.load (BitVec.ofNat 32 k)) ∧
    (joinMem m a sz nx).load (BitVec.ofNat 32 (a + 4)) = BitVec.ofNat 32 sz ∧
    (joinMem m a sz nx).load (BitVec.ofNat 32 (a + 12)) = BitVec.ofNat 32 nx ∧
    (joinMem m a sz nx).load (BitVec.ofNat 32 (a + 20 + sz)) = HEAP_MAGIC := by
  refine ⟨fun k hk => ?_, ?_, ?_, ?_⟩ <;>
    simp (disch := omega) only [joinMem, load_linkBack, Mem.load_store_of_apart, Mem.load_store_self]

/-- The merge with the next block overruns: its guard word is the size of the block behind. -/
theorem coalesce_next_overrun {z : Block} (hstart : h.heapStart = BitVec.ofNat 32 s)
    (hend : h.heapEnd = BitVec.ofNat 32 e) (hs : s < 2 ^ 32) (he : e < 2 ^ 32)
    (hh : Holds h.mem (pre ++ b :: y :: z :: post)) (hp : (pre ++ b :: y :: z :: post).Pairwise Apart)
    (hin : InSpace (pre ++ b :: y :: z :: post)) (hheap : InHeap (pre ++ b :: y :: z :: post))
    (hy : y.Merges s e) (hstop : b.addr + 20 + (b.size + 24 + y.size) = z.addr + 4) :
    (coalesce h (BitVec.ofNat 32 b.addr)).load (BitVec.ofNat 32 (z.addr + 4)) = HEAP_MAGIC := by
  have hb := heap_bounds
  obtain ⟨hh1, hpr, hinr⟩ := release_spec hh hp hin
  obtain ⟨m1, hm1⟩ : ∃ m1, m1 = setFree h.mem (BitVec.ofNat 32 b.addr) 1 := ⟨_, rfl⟩
  rw [coalesce, ← hm1]
  rw [← hm1] at hh1
  have hz := hheap z (by simp)
  have hbz := ((List.pairwise_cons.mp (List.pairwise_append.mp hp).2.1).1 z (by simp)).le
  have hbh := hheap b (by simp)
  have hends : b.stop = b.addr + 20 + b.size ∧ z.stop = z.addr + 20 + z.size ∧
      (b.released.join y).stop = b.addr + 20 + (b.size + 24 + y.size) := ⟨rfl, rfl, rfl⟩
  obtain ⟨h1, h2, h3, h4, h5, h6⟩ := join_reads hh1 hpr hinr (by omega)
  have hnext : m1.load (BitVec.ofNat 32 (b.addr + 12)) = BitVec.ofNat 32 y.addr := hh1.mid.1.next
  have hprev : m1.load (BitVec.ofNat 32 (b.addr + 16)) = BitVec.ofNat 32 (last Block.addr 0 pre) :=
    hh1.mid.1.prev
  have hmer := (mergeable_iff hstart hend hs he (hh1.sealed y (by simp)) (hin y (by simp))).mpr hy
  have hm2 : mergeNext m1 (BitVec.ofNat 32 b.addr) = joinMem m1 b.addr (b.size + 24 + y.size) z.addr :=
    mergeNext_eq hh1.mid.2.size h1 h2 h3 h4 h5 h6 hnext
  obtain ⟨hload, hsize, hnext', hguard⟩ := load_joinMem m1 (show b.addr + 20 ≤ z.addr by omega) (by omega)
    (show z.addr + 4 ≤ b.addr + 20 + (b.size + 24 + y.size) by omega) (by omega)
  rw [hstop] at hguard
  rw [next_ofNat, hnext, if_pos hmer, hm2, prev_ofNat]
  split
  swap
  · exact hguard
  rename_i hmp
  rw [hload _ (by omega), hprev] at hmp
  obtain rfl | ⟨pre, p, rfl⟩ := List.eq_nil_or_concat pre
  · exact absurd hmp not_mergeable_zero
  rw [List.concat_eq_append] at *
  rw [last_append_cons, last_nil] at hprev
  have hpb := (List.pairwise_append.mp hp).2.2 p (by simp) b (by simp)
  have hph := hheap p (by simp)
  have hps : p.stop = p.addr + 20 + p.size := rfl
  have hple := hpb.le
  refine mergePrev_overrun ((hload _ (by omega)).trans (hh1.sealed p (by simp)).size) hsize
    ((hload _ (by omega)).trans hprev) (by omega) (by omega) hnext' (by omega) (by omega) ?_ (by omega)
    (by omega) (.inl hguard)
  refine ⟨?_, ?_, ?_, ?_, ?_⟩ <;> omega

/-- A guard word without room falls on the size of the block behind. -/
theorem overrun_of_not_guardRoom {z : Block} (hheap : InHeap (pre ++ x :: y :: z :: post))
    (hp : (pre ++ x :: y :: z :: post).Pairwise Apart) (hno : ¬ GuardRoom (x.join y).stop (z :: post)) :
    x.addr + 20 + (x.size + 24 + y.size) = z.addr + 4 := by
  have hx := hheap x (by simp)
  have hy := hheap y (by simp)
  have hz := hheap z (by simp)
  have hp' := List.pairwise_cons.mp (List.pairwise_append.mp hp).2.1
  have hxy := hp'.1 y (by simp)
  have hyz := (List.pairwise_cons.mp hp'.2).1 z (by simp)
  simp only [GuardRoom, Apart, stop, join_addr, join_size] at *
  omega

/-- A merged block lies in the heap and is aligned, like its parts. -/
theorem inHeap_join (hheap : InHeap (pre ++ x :: y :: post)) (hg : GuardRoom (x.join y).stop post)
    (hne : post ≠ []) : InHeap (pre ++ x.join y :: post) := by
  obtain _ | ⟨z, post⟩ := post
  · exact absurd rfl hne
  have hx := hheap x (by simp)
  have hy := hheap y (by simp)
  have hz := hheap z (by simp)
  intro w hw
  simp only [List.mem_append, List.mem_cons] at hw
  obtain hw | rfl | hw := hw
  · exact hheap w (by simp [hw])
  · simp only [GuardRoom, stop, join_addr, join_size] at *
    omega
  · obtain rfl | hw := hw
    · exact hz
    · exact hheap w (by simp [hw])

theorem inHeap_released (hheap : InHeap (pre ++ b :: post)) : InHeap (pre ++ b.released :: post) := by
  intro w hw
  simp only [List.mem_append, List.mem_cons] at hw
  obtain hw | rfl | hw := hw
  · exact hheap w (by simp [hw])
  · exact hheap b (by simp)
  · exact hheap w (by simp [hw])

/-- The block after the first merge lies in the heap and is aligned. -/
theorem inHeap_absorbNext {c : Block} (hheap : InHeap (pre ++ b :: post))
    (hnx : absorbNext s e b post = (c, post'))
    (hroom : ∀ y r, post = y :: r → y.Merges s e → GuardRoom (b.join y).stop r ∧ r ≠ []) :
    InHeap (pre ++ c :: post') := by
  obtain _ | ⟨y, post⟩ := post
  · obtain ⟨rfl, rfl⟩ := Prod.mk.inj hnx
    exact hheap
  by_cases hy : y.Merges s e
  · obtain ⟨rfl, rfl⟩ := Prod.mk.inj (hnx.symm.trans (if_pos hy))
    obtain ⟨hg, hne⟩ := hroom y post' rfl hy
    exact inHeap_join hheap hg hne
  · obtain ⟨rfl, rfl⟩ := Prod.mk.inj (hnx.symm.trans (if_neg hy))
    exact hheap

/-- What follows a block that is free is not empty, if the last block is in use. -/
theorem Intact.ne_nil (hw : Intact h (pre ++ x :: post)) (hxf : x.free = true) : post ≠ [] := by
  rintro rfl
  exact absurd (hw.last x (by simp)) (by simp [hxf])

section Second

variable {p : Block} (hh : Holds m (pre ++ p :: b :: post)) (hp : (pre ++ p :: b :: post).Pairwise Apart)
  (hheap : InHeap (pre ++ p :: b :: post))

include hh hp hheap

/-- Where the two blocks lie in the heap, and how they are linked. -/
theorem neighbours : Holds m ((pre ++ [p]) ++ b :: post) ∧
    m.load (BitVec.ofNat 32 (b.addr + 16)) = BitVec.ofNat 32 p.addr ∧ p.addr + 20 + p.size ≤ b.addr ∧
    heapLo ≤ p.addr ∧ b.addr + 20 + b.size + 4 ≤ heapHi ∧ (4 ∣ p.addr ∧ 4 ∣ p.size) ∧ 4 ∣ b.addr ∧
      4 ∣ b.size := by
  have hpb := ((List.pairwise_cons.mp (List.pairwise_append.mp hp).2.1).1 b (by simp)).le
  obtain ⟨hplo, -, hpa⟩ := hheap p (by simp)
  obtain ⟨-, hbhi, hba⟩ := hheap b (by simp)
  exact ⟨by rwa [List.append_assoc], hh.prev_eq, hpb, hplo, hbhi, hpa, hba⟩

theorem mergePrev_prev_overrun (hno : ¬ GuardRoom (p.join b).stop post) :
    ∃ z ∈ post, (mergePrev m (BitVec.ofNat 32 b.addr)).load (BitVec.ofNat 32 (z.addr + 4)) = HEAP_MAGIC := by
  have hb := heap_bounds
  have hp' := List.pairwise_cons.mp (List.pairwise_append.mp hp).2.1
  obtain ⟨hmid, hprev, hpb, hplo, hbhi, hpa, hba⟩ := neighbours hh hp hheap
  obtain _ | ⟨z, post⟩ := post
  · refine absurd ?_ hno
    rw [GuardRoom, join_stop, stop]
    omega
  refine ⟨z, by simp, ?_⟩
  have hstop := overrun_of_not_guardRoom hheap hp hno
  have hz := hheap z (by simp)
  have hbz := ((List.pairwise_cons.mp hp'.2).1 z (by simp)).le
  unfold stop at hz hbz
  refine mergePrev_overrun (hh.mid.2.size) hmid.mid.2.size hprev (by omega) (by omega) hmid.mid.1.next
    (by omega) (by omega) ?_ (by omega) (by omega) (.inr hstop)
  refine ⟨?_, ?_, ?_, ?_, ?_⟩ <;> omega

/-- The guard word of the merge into the previous block falls on the link words: afterwards
the previous block is followed by the magic word, or by a block that does not know it. -/
theorem mergePrev_clash (hno : ¬ ((p.join b).stop + 4 ≤ b.addr + 12 ∨ b.addr + 20 ≤ (p.join b).stop)) :
    (∀ k, k + 4 ≤ p.addr + 4 → (mergePrev m (BitVec.ofNat 32 b.addr)).load (BitVec.ofNat 32 k) =
      m.load (BitVec.ofNat 32 k)) ∧
    ((mergePrev m (BitVec.ofNat 32 b.addr)).load (BitVec.ofNat 32 (p.addr + 12)) = HEAP_MAGIC ∨
      (mergePrev m (BitVec.ofNat 32 b.addr)).load (BitVec.ofNat 32 (p.addr + 12)) = BitVec.ofNat 32 b.addr ∧
      (mergePrev m (BitVec.ofNat 32 b.addr)).load (BitVec.ofNat 32 (b.addr + 16)) = HEAP_MAGIC) := by
  have hb := heap_bounds
  have hp' := List.pairwise_cons.mp (List.pairwise_append.mp hp).2.1
  obtain ⟨hmid, hprev, hpb, hplo, hbhi, hpa, hba⟩ := neighbours hh hp hheap
  have hstop : (p.join b).stop = p.addr + 20 + (p.size + 24 + b.size) := rfl
  rw [hstop] at hno
  obtain he | he : p.addr + 20 + (p.size + 24 + b.size) = b.addr + 12 ∨
      p.addr + 20 + (p.size + 24 + b.size) = b.addr + 16 := by omega
  · rw [mergePrev_next_clash hh.mid.2.size hmid.mid.2.size hprev (by omega) (by omega) he]
    refine ⟨fun k hk => ?_, .inl ?_⟩ <;> simp (disch := omega) only [Mem.load_store_of_apart,
      Mem.load_store_self]
  · have hfirst : first Block.addr post 0 = 0 ∨
        b.addr + 20 ≤ first Block.addr post 0 ∧ first Block.addr post 0 + 20 ≤ heapHi := by
      obtain _ | ⟨z, post⟩ := post
      · exact .inl rfl
      have hz := hheap z (by simp)
      have hbz := ((List.pairwise_cons.mp hp'.2).1 z (by simp)).le
      unfold stop at hz hbz
      rw [first_cons]
      omega
    have hnp : m.load (BitVec.ofNat 32 (p.addr + 12)) = BitVec.ofNat 32 b.addr := hh.mid.1.next
    rw [mergePrev_prev_clash hh.mid.2.size hmid.mid.2.size hprev (by omega) (by omega)
      hmid.mid.1.next (by omega) he,
      ← hnp]
    dsimp only
    split <;> refine ⟨fun k hk => ?_, .inr ⟨?_, ?_⟩⟩ <;>
      simp (disch := omega) only [Mem.load_store_of_apart, Mem.load_store_self]

end Second

/-- If the previous block is merged, the first merge leaves a sequence that the second one starts from. -/
theorem coalesce_eq_mergePrev {p c : Block} (hstart : h.heapStart = BitVec.ofNat 32 s)
    (hend : h.heapEnd = BitVec.ofNat 32 e) (hs : s < 2 ^ 32) (he : e < 2 ^ 32)
    (hh : Holds h.mem ((pre ++ [p]) ++ b :: post)) (hp : ((pre ++ [p]) ++ b :: post).Pairwise Apart)
    (hin : InSpace ((pre ++ [p]) ++ b :: post)) (hnx : absorbNext s e b.released post = (c, post'))
    (hroom : ∀ y r, post = y :: r → y.Merges s e → GuardRoom (b.join y).stop r) (hpm : p.Merges s e) :
    ∃ m₂, Holds m₂ (pre ++ p :: c :: post') ∧ (pre ++ p :: c :: post').Pairwise Apart ∧
      InSpace (pre ++ p :: c :: post') ∧ c.addr = b.addr ∧
      coalesce h (BitVec.ofNat 32 b.addr) = mergePrev m₂ (BitVec.ofNat 32 c.addr) := by
  obtain ⟨hh1, hpr, hinr⟩ := release_spec hh hp hin
  have hca : c.addr = b.addr := by
    have := absorbNext_addr s e b.released post
    rwa [hnx] at this
  obtain ⟨hm, hma, hmi, -⟩ := mergeNext_spec hstart hend hs he hh1 hpr hinr hnx hroom rfl
  rw [released_addr] at hm
  have hprev := hm.mid.1.prev
  rw [last_append_cons, last_nil, hca] at hprev
  have hmer := (mergeable_iff hstart hend hs he (hm.sealed p (by simp)) (hmi p (by simp))).mpr hpm
  rw [List.append_assoc, List.singleton_append] at hm hma hmi
  refine ⟨_, hm, hma, hmi, hca, ?_⟩
  rw [hca, coalesce, prev_ofNat]
  exact if_pos (by rw [hprev]; exact hmer)

/-- The walk to a block sees only the links before it. -/
theorem listed_of_frame {p : Block} (hh : Holds m (pre ++ p :: post)) (hp : (pre ++ p :: post).Pairwise Apart)
    (hin : InSpace (pre ++ p :: post))
    (hhead : h.heapHead = BitVec.ofNat 32 (first Block.addr (pre ++ [p]) 0))
    (hframe : ∀ k, k + 4 ≤ p.addr + 4 → h.mem.load (BitVec.ofNat 32 k) = m.load (BitVec.ofNat 32 k)) :
    Listed h (BitVec.ofNat 32 p.addr) := by
  refine listed_of_thread hhead ((thread_mid.mp hh.links).1.imp fun w hw q n hl => ?_)
    fun z hz => hin z ?_
  · have hwp := ((List.pairwise_append.mp hp).2.2 w hw p (by simp)).le
    unfold stop at hwp
    exact ⟨(hframe _ (by omega)).trans hl.next, (hframe _ (by omega)).trans hl.prev⟩
  · rw [List.mem_append, List.mem_singleton] at hz
    rw [List.mem_append, List.mem_cons]
    tauto

/-- What an accepted call that frees cleanly shows of the memory after the merges. -/
theorem FreesCleanly.after_merges (hw : Intact h (pre ++ b :: post)) (hbf : b.free = false)
    (hacc : Accepts h.heapStart.toNat h.heapEnd.toNat b) (hc : FreesCleanly h pre b post) :
    ∃ h', h'.mem = coalesce h (BitVec.ofNat 32 b.addr) ∧
      (next h'.mem h.heapHead ≠ 0 → h'.heapHead = h.heapHead) ∧
      (∀ c, Listed h' c → Listed h c ∧ (next h'.mem c ≠ 0 → prev h'.mem (next h'.mem c) = c)) ∧
      ∀ w ∈ unmerged h pre b post, h'.mem.load (BitVec.ofNat 32 (w.addr + 4)) = BitVec.ofNat 32 w.size := by
  obtain ⟨k, h', out, hk, hlist, hother⟩ := hc
  have hk' := kfree_eq (s := h.heapStart.toNat) (e := h.heapEnd.toNat) (by simp) (by simp) h.heapStart.isLt
    h.heapEnd.isLt hw.rep.holds.mid.2 (hw.inSpace b (by simp)) hbf k
  rw [if_pos hacc, hk] at hk'
  obtain ⟨h₁, hret, he⟩ := Option.map_eq_some_iff.mp hk'.symm
  obtain ⟨rfl, -⟩ := Prod.mk.inj he
  obtain ⟨hmem, hhead⟩ := retract_some hret
  refine ⟨h₁, hmem, by rwa [hmem], fun c hcl => ⟨(hlist c hcl).1, fun hne => ((hlist c hcl).2 hne).1⟩,
    fun w hwm => ?_⟩
  have hsize := (hother w hwm).2.2.1
  rw [size_ofNat, size_ofNat] at hsize
  rw [hsize]
  exact (hw.rep.holds.sealed w (mem_of_mem_unmerged hwm)).size

/-- A `kfree` that leaves the other blocks alone gives none of them the magic word as its size. -/
theorem ne_magic_of_size {m' : Mem} (hheap : InHeap (pre ++ b :: post))
    (hsize : ∀ w ∈ unmerged h pre b post, m'.load (BitVec.ofNat 32 (w.addr + 4)) = BitVec.ofNat 32 w.size) :
    ∀ z ∈ unmerged h pre b post, m'.load (BitVec.ofNat 32 (z.addr + 4)) ≠ HEAP_MAGIC := by
  intro z hz heq
  have hb := heap_bounds
  have hzh := (hheap z (mem_of_mem_unmerged hz)).2.1
  have hzs := hsize z hz
  rw [heq] at hzs
  unfold stop at hzh
  have := ofNat_inj (a := 0xDEADBEEF) (by omega) (by omega) hzs
  omega

/-- The list starts at its first block as before, so the walk comes to the previous block. -/
theorem next_first_ne {m' : Mem} {p c : Block} (hm : Holds m (pre ++ p :: c :: post))
    (hp : (pre ++ p :: c :: post).Pairwise Apart) (hin : InSpace (pre ++ p :: c :: post))
    (hframe : ∀ k, k + 4 ≤ p.addr + 4 → m'.load (BitVec.ofNat 32 k) = m.load (BitVec.ofNat 32 k))
    (hne : m'.load (BitVec.ofNat 32 (p.addr + 12)) ≠ 0) :
    next m' (BitVec.ofNat 32 (first Block.addr (pre ++ [p]) 0)) ≠ 0 := by
  obtain _ | ⟨w, pre⟩ := pre
  · rw [List.nil_append, first_cons, next_ofNat]
    exact hne
  · have hwp := ((List.pairwise_append.mp hp).2.2 w (by simp) p (by simp)).le
    unfold stop at hwp
    rw [List.cons_append, first_cons, next_ofNat, hframe _ (by omega), ← next_ofNat]
    exact next_ne_zero hm.links hin (by simp)

/-- The condition is necessary in a heap of aligned blocks: a merge without room for its
guard word changes the size of the block behind or breaks the list. -/
theorem fits_of_freesCleanly (hw : Intact h (pre ++ b :: post)) (hbf : b.free = false)
    (hheap : InHeap (pre ++ b :: post)) (hc : FreesCleanly h pre b post) : FitsIfAccepted h pre b post := by
  intro hacc
  have hb := heap_bounds
  obtain ⟨h', hmem, hhead, hlist, hsize⟩ := hc.after_merges hw hbf hacc
  have hin := hw.inSpace
  have hap := hw.pairwise
  have hs := h.heapStart.isLt
  have he := h.heapEnd.isLt
  have hstart : h.heapStart = BitVec.ofNat 32 h.heapStart.toNat := by simp
  have hend : h.heapEnd = BitVec.ofNat 32 h.heapEnd.toNat := by simp
  have hno := ne_magic_of_size hheap hsize
  rw [hmem] at hno
  have hlast : ∀ y r, post = y :: r → y.Merges h.heapStart.toNat h.heapEnd.toNat → r ≠ [] := by
    rintro y r rfl hy
    have hw' : Intact h ((pre ++ [b]) ++ y :: r) := by rwa [List.append_assoc]
    exact hw'.ne_nil hy.1
  have hnext : ∀ y r, post = y :: r → y.Merges h.heapStart.toNat h.heapEnd.toNat →
      GuardRoom (b.join y).stop r := by
    rintro y r rfl hy
    by_contra hng
    obtain ⟨z, r, rfl⟩ := List.exists_cons_of_ne_nil (hlast y r rfl hy)
    refine hno z ?_ (coalesce_next_overrun hstart hend hs he hw.rep.holds hap hin hheap hy
      (overrun_of_not_guardRoom hheap hap hng))
    simp [unmerged, mergeParts, absorbNext, hy]
  refine ⟨hnext, ?_⟩
  rintro pre' p rfl hpm
  obtain ⟨c, post₂, hnx⟩ : ∃ c post₂,
      absorbNext h.heapStart.toNat h.heapEnd.toNat b.released post = (c, post₂) := ⟨_, _, rfl⟩
  obtain ⟨m₂, hm, hma, hmi, hca, hco⟩ :=
    coalesce_eq_mergePrev hstart hend hs he hw.rep.holds hap hin hnx hnext hpm
  have hheap₂ := inHeap_absorbNext (inHeap_released hheap) hnx fun y r hy hym =>
    ⟨hnext y r hy hym, hlast y r hy hym⟩
  rw [List.append_assoc, List.singleton_append] at hheap₂
  rw [hnx, ← hca]
  dsimp only
  constructor
  · by_contra hng
    obtain ⟨z, hz, hload⟩ := mergePrev_prev_overrun hm hma hheap₂ hng
    refine hno z ?_ (by rw [hco, hload])
    rw [unmerged, mergeParts, hnx]
    exact List.mem_append_right _ hz
  · by_contra hclash
    obtain ⟨hframe, hlinks⟩ := mergePrev_clash hm hma hheap₂ hclash
    rw [← hco, ← hmem] at hframe hlinks
    have hph := hheap₂ p (by simp)
    have hch := hheap₂ c (by simp)
    have hpc := ((List.pairwise_cons.mp (List.pairwise_append.mp hma).2.1).1 c (by simp)).lt
    unfold stop at hph hch
    have hne : h'.mem.load (BitVec.ofNat 32 (p.addr + 12)) ≠ 0 := by
      obtain hl | ⟨hl, -⟩ := hlinks
      · rw [hl]; decide
      · rw [hl, ne_eq, ofNat_eq_zero_iff (by omega)]; omega
    have hfirst : h.heapHead = BitVec.ofNat 32 (first Block.addr (pre' ++ [p]) 0) := by
      rw [hw.rep.head, first_append]
      obtain _ | ⟨w, pre'⟩ := pre' <;> rfl
    have hkeep : next h'.mem h.heapHead ≠ 0 := by
      rw [hfirst]
      exact next_first_ne hm hma hmi hframe hne
    have hp' := listed_of_frame hm hma hmi ((hhead hkeep).trans hfirst) hframe
    rw [← next_ofNat] at hne
    obtain hl | ⟨hl, hback⟩ := hlinks
    · obtain ⟨pre₁, w, post₁, heq, hwa⟩ := ((hlist _ (.next hp' hne)).1).exists_block hw.rep
      have hwh := hheap w (by rw [heq]; simp)
      unfold stop at hwh
      rw [next_ofNat, hl] at hwa
      have := ofNat_inj (a := 0xDEADBEEF) (by omega) (by omega) hwa
      omega
    · have hpp := (hlist _ hp').2 hne
      rw [next_ofNat, hl, prev_ofNat, hback] at hpp
      have := ofNat_inj (a := 0xDEADBEEF) (by omega) (by omega) hpp
      omega

/-! ### When a `kfree` leaves the other blocks alone -/

/-- **A `kfree` leaves the other blocks alone if every merge has room for its guard word**; in
a heap of aligned blocks only then. -/
theorem freesCleanly_iff (hw : Intact h (pre ++ b :: post)) (hbf : b.free = false) :
    (FitsIfAccepted h pre b post → FreesCleanly h pre b post) ∧
      (InHeap (pre ++ b :: post) → (FreesCleanly h pre b post ↔ FitsIfAccepted h pre b post)) :=
  ⟨freesCleanly_of_fits hw hbf, fun hheap => ⟨fits_of_freesCleanly hw hbf hheap, freesCleanly_of_fits hw hbf⟩⟩

/-- The free blocks on both sides of a block are merged with it. -/
theorem bothSides_freesCleanly : ∃ h,
    Intact h ([⟨0x400000, 8, true⟩] ++ ⟨0x40001c, 8, false⟩ :: [⟨0x40003c, 8, true⟩, ⟨0x40005c, 8, false⟩]) ∧
    FreesCleanly h [⟨0x400000, 8, true⟩] ⟨0x40001c, 8, false⟩
      [⟨0x40003c, 8, true⟩, ⟨0x40005c, 8, false⟩] := by
  obtain ⟨s, -, hv⟩ := exists_reach (k := 8) (fun _ => 0)
    [.malloc 8, .malloc 8, .malloc 8, .malloc 8, .free 0x400014, .free 0x400050]
    (fun s => (decide (Intact s.heap ([⟨0x400000, 8, true⟩] ++ ⟨0x40001c, 8, false⟩ ::
      [⟨0x40003c, 8, true⟩, ⟨0x40005c, 8, false⟩])), s.heap.heapStart, s.heap.heapEnd))
    (true, 0x400000, 0x40007c) (by decide +kernel)
  obtain ⟨hw, hv⟩ := Prod.mk.inj hv
  obtain ⟨hstart, hend⟩ := Prod.mk.inj hv
  have hw := of_decide_eq_true hw
  refine ⟨s.heap, hw, (freesCleanly_iff hw rfl).1 fun _ => ?_⟩
  rw [hstart, hend]
  decide

/-- Two blocks that are cut from a free block, and merged with the first block again: the guard
word of the first block had no room of its own, so the merge runs over the size of the block
behind. -/
theorem not_freesCleanly : ¬ ∀ h pre b post, Intact h (pre ++ b :: post) → b.free = false →
    FreesCleanly h pre b post := by
  intro hall
  obtain ⟨s, -, hrun⟩ := exists_reach (k := 8) (fun _ => 0)
    [.malloc 200, .malloc 8, .free 0x400014, .malloc 8, .malloc 8, .malloc 136, .free 0x400014]
    (fun s => (decide (Intact s.heap [⟨0x400000, 8, true⟩, ⟨0x40001c, 8, false⟩, ⟨0x400038, 136, false⟩,
      ⟨0x4000dc, 8, false⟩]), (kfree 8 s.heap 0x400030).map fun r => size r.1.mem 0x400038)) (true,
        some HEAP_MAGIC)
    (by decide +kernel)
  obtain ⟨hw, hfree⟩ := Prod.mk.inj hrun
  have hw := of_decide_eq_true hw
  obtain ⟨r, hr, hsize⟩ := Option.map_eq_some_iff.mp hfree
  obtain ⟨k, h', out, hk, -, hother⟩ := hall s.heap [⟨0x400000, 8, true⟩] ⟨0x40001c, 8, false⟩
    [⟨0x400038, 136, false⟩, ⟨0x4000dc, 8, false⟩] hw rfl
  obtain rfl := kfree_unique hr hk
  have hmem : ⟨0x400038, 136, false⟩ ∈ unmerged s.heap [⟨0x400000, 8, true⟩] ⟨0x40001c, 8, false⟩
      [⟨0x400038, 136, false⟩, ⟨0x4000dc, 8, false⟩] := by simp [unmerged, mergeParts, absorbNext, Merges]
  have hc := (hother _ hmem).2.2.1
  rw [show size h'.mem (BitVec.ofNat 32 0x400038) = HEAP_MAGIC from hsize, size_ofNat,
    (hw.rep.holds.sealed ⟨0x400038, 136, false⟩ (by simp)).size] at hc
  exact absurd hc (by decide)

end SpatulaOS.Mm
