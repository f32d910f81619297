import SpatulaOS.Mm.HeapCoalesce
import SpatulaOS.Mm.HeapNull

/-!
# `kfree` undoes `kmalloc`

On an intact list with all the blocks below `heap_end`, a request that is served from a free
block between blocks in use is served from the first block that is large enough
(`kmalloc_served`), and a `kfree` of what `kmalloc` returned puts the list back as it was
(`kfree_kmalloc`): the remainder of a split is merged again, and its header and guard word
with it.
-/

namespace SpatulaOS.Mm

open ByteMemory Threaded Block

variable {h h₁ h₂ : Heap} {x y z : Block} {bs pre post : List Block} {n b w : Word} {k : ℕ}

/-! ### The block that serves a request -/

theorem servesAt_iff (hx : Sealed h.mem x) (hs : x.stop + 4 ≤ 2 ^ 32) :
    ServesAt h.mem n (BitVec.ofNat 32 x.addr) ↔ x.Serves n.toNat := by
  have h := serves_iff hx hs n.isLt
  rwa [BitVec.ofNat_toNat, BitVec.setWidth_eq] at h

/-- A block that the search comes to is one of the sequence, behind blocks that do not serve the
request. -/
theorem Searched.exists_block (hb : Searched h n b) (hr : Rep h bs) (hs : InSpace bs) :
    ∃ pre x post, bs = pre ++ x :: post ∧ b = BitVec.ofNat 32 x.addr ∧ ∀ y ∈ pre, ¬ y.Serves n.toNat := by
  induction hb with
  | head h0 =>
    cases bs with
    | nil => exact absurd hr.head h0
    | cons x post => exact ⟨[], x, post, rfl, hr.head, fun y hy => absurd hy List.not_mem_nil⟩
  | @next b _ hno hne ih =>
    obtain ⟨pre, x, post, rfl, rfl, hpre⟩ := ih
    rw [next_ofNat, hr.holds.mid.1.next] at hne ⊢
    rw [servesAt_iff hr.holds.mid.2 (hs x (by simp)).2] at hno
    cases post with
    | nil => exact absurd rfl hne
    | cons y post =>
      refine ⟨pre ++ [x], y, post, by simp, rfl, fun z hz => ?_⟩
      obtain hz | hz := List.mem_append.mp hz
      · exact hpre z hz
      · rw [List.mem_singleton.mp hz]
        exact hno

theorem append_fst (h : Heap) (b n : Word) :
    (append h b n).1 = 0 ∨ (append h b n).1 = h.heapEnd + SIZEOF_HEADER := by
  rw [append]
  dsimp only
  split_ifs
  · exact .inl rfl
  · exact .inl rfl
  · exact .inr rfl

/-- `kmalloc` serves a request from the first free block that is large enough, if it serves it
from a block of the list at all. -/
theorem kmalloc_served (hr : Rep h (pre ++ x :: post)) (hp : (pre ++ x :: post).Pairwise Apart)
    (hs : InSpace (pre ++ x :: post)) (hxe : x.addr < h.heapEnd.toNat) (h0 : w ≠ 0) (h1 : ¬ align w < w)
    (href : ¬ Refused h (align w)) (hk : kmalloc k h w = some (BitVec.ofNat 32 x.payload, h₁)) :
    h₁ = { h with mem := take h.mem (BitVec.ofNat 32 x.addr) (align w) } ∧ x.Serves (align w).toNat ∧
      ∀ y ∈ pre, ¬ y.Serves (align w).toNat := by
  have hx := hs x (by simp)
  have hstop : x.stop = x.addr + 20 + x.size := rfl
  have hpay : x.payload = x.addr + 20 := rfl
  have hh : h.heapHead ≠ 0 := by
    rw [ne_eq, hr.head_eq_zero hs]
    simp
  cases hsearch : search h.mem (align w) k h.heapHead with
  | none => exact absurd ((kmalloc_none h0 h1 href hh hsearch).symm.trans hk) nofun
  | some r =>
    cases r with
    | last b =>
      -- the pointer would be `NULL` or above `heap_end`
      rw [kmalloc_last h0 h1 href hh hsearch] at hk
      have hfst := congrArg Prod.fst (Option.some.inj hk)
      obtain hnull | hend := append_fst h b (align w)
      · rw [hnull] at hfst
        exact absurd hfst.symm (by rw [ofNat_eq_zero_iff (by omega)]; omega)
      · rw [hend, SIZEOF_HEADER] at hfst
        have : h.heapEnd.toNat = x.addr := by bv_omega
        exact absurd hxe this.not_gt
    | fit b =>
      rw [kmalloc_fit h0 h1 href hh hsearch] at hk
      obtain ⟨hfst, rfl⟩ := Prod.mk.inj (Option.some.inj hk)
      obtain rfl : b = BitVec.ofNat 32 x.addr := by
        rw [SIZEOF_HEADER] at hfst
        bv_omega
      obtain ⟨hb, hserves⟩ := searched_of_fit (.head hh) hsearch
      refine ⟨rfl, (servesAt_iff hr.holds.mid.2 hx.2).mp hserves, fun y hy => ?_⟩
      obtain ⟨pre', z, post', hbs, hzx, hpre'⟩ := hb.exists_block hr hs
      have hz := hs z (by rw [hbs]; simp)
      have hzstop : z.stop = z.addr + 20 + z.size := rfl
      have hza : x.addr = z.addr := ofNat_inj (by omega) (by omega) hzx
      have hyx := ((List.pairwise_append.mp hp).2.2 y hy x List.mem_cons_self).lt
      have hymem : y ∈ pre' ++ z :: post' := hbs ▸ List.mem_append_left _ hy
      rw [hbs] at hp
      obtain hy' | hy' := List.mem_append.mp hymem
      · exact hpre' y hy'
      · obtain rfl | hy' := List.mem_cons.mp hy'
        · omega
        · have := ((List.pairwise_cons.mp (List.pairwise_append.mp hp).2.1).1 y hy').lt
          omega

/-! ### The list after the two calls -/

/-- The list is as it was: the bounds of the heap and the first block, and of every block the
address, the size, the links and whether it is free. The free flag is the same word if it was `0`
or `1`, as it is where `kmalloc` and `kfree` have set it. -/
structure Restored (h h' : Heap) (bs : List Block) : Prop where
  heapStart : h'.heapStart = h.heapStart
  heapEnd : h'.heapEnd = h.heapEnd
  heapHead : h'.heapHead = h.heapHead
  rep : Rep h' bs
  size : ∀ y ∈ bs, size h'.mem (BitVec.ofNat 32 y.addr) = size h.mem (BitVec.ofNat 32 y.addr)
  next : ∀ y ∈ bs, next h'.mem (BitVec.ofNat 32 y.addr) = next h.mem (BitVec.ofNat 32 y.addr)
  prev : ∀ y ∈ bs, prev h'.mem (BitVec.ofNat 32 y.addr) = prev h.mem (BitVec.ofNat 32 y.addr)
  free : ∀ y ∈ bs, free h'.mem (BitVec.ofNat 32 y.addr) ≠ 0 ↔ free h.mem (BitVec.ofNat 32 y.addr) ≠ 0
  flag : ∀ y ∈ bs, Mm.free h.mem (BitVec.ofNat 32 y.addr) ≤ 1 →
    Mm.free h'.mem (BitVec.ofNat 32 y.addr) = Mm.free h.mem (BitVec.ofNat 32 y.addr)

/-- Two states that hold the same blocks agree on their sizes, links and flags. -/
theorem restored_of_rep {h' : Heap} (hr : Rep h bs) (hr' : Rep h' bs) (hstart : h'.heapStart = h.heapStart)
    (hend : h'.heapEnd = h.heapEnd) (hflag : ∀ y ∈ bs, Mm.free h.mem (BitVec.ofNat 32 y.addr) ≤ 1 →
      Mm.free h'.mem (BitVec.ofNat 32 y.addr) = Mm.free h.mem (BitVec.ofNat 32 y.addr)) :
        Restored h h' bs := by
  have hlinks : ∀ y ∈ bs, ∃ p n, Link h.mem p y n ∧ Link h'.mem p y n := by
    intro y hy
    obtain ⟨l, r, rfl⟩ := List.append_of_mem hy
    exact ⟨_, _, hr.holds.mid.1, hr'.holds.mid.1⟩
  refine ⟨hstart, hend, hr'.head.trans hr.head.symm, hr', fun y hy => ?_, fun y hy => ?_, fun y hy => ?_,
    fun y hy => ?_, hflag⟩
  · rw [size_ofNat, size_ofNat, (hr'.holds.sealed y hy).size, (hr.holds.sealed y hy).size]
  · obtain ⟨p, n, hl, hl'⟩ := hlinks y hy
    rw [next_ofNat, next_ofNat, hl'.next, hl.next]
  · obtain ⟨p, n, hl, hl'⟩ := hlinks y hy
    rw [prev_ofNat, prev_ofNat, hl'.prev, hl.prev]
  · rw [free_ofNat, free_ofNat, (hr'.holds.sealed y hy).free, (hr.holds.sealed y hy).free]

/-! ### The free of the block that was cut -/

section Carved

variable {s e n : ℕ} (hpost : ∀ y ∈ post.head?, y.free = false) (hs : s ≤ x.addr) (he : x.stop ≤ e)
include hpost hs he

/-- The block that was cut from `x` is merged with the remainder, if there is one. -/
theorem absorbNext_carved (hx : x.free = true) :
    absorbNext s e (x.carved n).released (x.remainder n ++ post) = (x, post) := by
  obtain ⟨a, sx, f⟩ := x
  obtain rfl : f = true := hx
  dsimp only [stop] at hs he
  by_cases hc : n + 32 ≤ sx
  · have hm : (⟨a + 20 + n, sx - n - 24, true⟩ : Block).Merges s e :=
      ⟨rfl, by dsimp only; omega, by dsimp only; omega⟩
    simp only [carved, remainder, if_pos hc, List.singleton_append, absorbNext, if_pos hm]
    refine Prod.ext (Block.ext rfl ?_ rfl) rfl
    simp only [join_size, released_size]
    omega
  · simp only [carved, remainder, if_neg hc, List.nil_append]
    obtain _ | ⟨y, post⟩ := post
    · rfl
    · refine if_neg ?_
      rintro ⟨hy, -⟩
      rw [hpost y (by simp)] at hy
      exact absurd hy (by simp)

/-- It is merged with nothing else, and has room for its guard word. -/
theorem mergeParts_carved (hx : x.free = true) (hpre : ∀ p ∈ pre.getLast?, p.free = false)
    (hroom : GuardRoom x.stop post) :
    mergeParts s e pre (x.carved n) (x.remainder n ++ post) = (pre, x, post) ∧
      CoalesceFits s e pre (x.carved n) (x.remainder n ++ post) := by
  have hnext := absorbNext_carved (n := n) hpost hs he hx
  have hno (r : List Block) (p : Block) (hr : pre = r ++ [p]) : ¬ p.Merges s e := by
    rintro ⟨hp, -⟩
    rw [hpre p (by rw [hr]; simp)] at hp
    exact absurd hp (by simp)
  refine ⟨?_, fun y r hr hy => ?_, fun r p hr hp => absurd hp (hno r p hr)⟩
  · rw [mergeParts, hnext]
    obtain rfl | ⟨r, p, rfl⟩ := List.eq_nil_or_concat pre
    · rfl
    · rw [List.concat_eq_append] at *
      rw [absorbPrev_append_singleton, if_neg (hno r p rfl)]
  · rw [hr, absorbNext, if_pos hy] at hnext
    obtain ⟨hj, hrest⟩ := Prod.mk.inj hnext
    have hflag : ((x.carved n).join y).stop = ((x.carved n).released.join y).stop := rfl
    have hstop : ((x.carved n).join y).stop = x.stop := hflag.trans (congrArg stop hj)
    rw [hstop, hrest]
    exact hroom

end Carved

/-- The blocks after the cut lie in the address space. -/
theorem inSpace_carve (hs : InSpace (pre ++ x :: post)) (n : ℕ) :
    InSpace (pre ++ x.carved n :: (x.remainder n ++ post)) := by
  have hx := hs x (by simp)
  unfold stop at hx
  intro y hy
  simp only [List.mem_append, List.mem_cons] at hy
  obtain hy | rfl | hy | hy := hy
  · exact hs y (by simp [hy])
  · unfold carved
    split <;> dsimp only [stop] <;> omega
  · unfold remainder at hy
    split at hy
    · rw [List.mem_singleton.mp hy]
      dsimp only [stop]
      omega
    · exact absurd hy List.not_mem_nil
  · exact hs y (by simp [hy])

/-- The end of a `kfree` does nothing when the last block is in use. -/
theorem settled_of_last {s e : ℕ} (hlast : ∀ y, bs.getLast? = some y → y.free = false) :
    Arena.settled s ⟨bs, e⟩ = ⟨bs, e⟩ := by
  unfold Arena.settled
  cases hb : bs.getLast? with
  | none => rfl
  | some y => exact if_neg (by rw [hlast y hb]; simp)

/-- The free flag after a `kfree` that does not merge the block with the previous one. -/
theorem kfree_flag {s e : ℕ} {c : Block} (hm : Models s h ⟨pre ++ c :: post, e⟩)
    (hp : (pre ++ c :: post).Pairwise Apart)
    (hs : InSpace (pre ++ c :: post)) (hslt : s < 2 ^ 32) (helt : e < 2 ^ 32) (hc : c.free = false)
    (hacc : Accepts s e c) (hlast : ∀ y, post = [y] → y.free = false)
    (hpre : ∀ p ∈ pre.getLast?, p.free = false)
    (hk : kfree k h (BitVec.ofNat 32 c.payload) = some (h₂, [])) :
    h₂.mem.load (BitVec.ofNat 32 (c.addr + 8)) = 1 := by
  have hkf := kfree_eq hm.heapStart hm.heapEnd hslt helt hm.rep.holds.mid.2 (hs c (by simp)) hc k
  rw [if_pos hacc, hk] at hkf
  obtain ⟨h₃, hret, heq⟩ := Option.map_eq_some_iff.mp hkf.symm
  obtain rfl := (Prod.mk.inj heq).1
  rw [(retract_some hret).1]
  exact coalesce_free hm.rep.holds hp hs hlast hpre

/-- **`kfree(kmalloc(n))` restores the list**, and `kmalloc` has picked the first free block that is
large enough. -/
theorem kfree_kmalloc (hw : Intact h (pre ++ x :: post))
    (hbelow : ∀ y ∈ pre ++ x :: post, y.addr < h.heapEnd.toNat) (hstart : h.heapStart.toNat ≤ x.addr)
    (h0 : w ≠ 0) (h1 : ¬ align w < w) (href : ¬ Refused h (align w))
    (hx : x.free = true) (hpre : ∀ p ∈ pre.getLast?, p.free = false)
    (hpost : ∀ y ∈ post.head?, y.free = false)
    (hk : kmalloc k h w = some (BitVec.ofNat 32 x.payload, h₁)) :
    (x.Serves (align w).toNat ∧ ∀ y ∈ pre, ¬ y.Serves (align w).toNat) ∧
      ∃ h₂, (∃ k₀, ∀ k, k₀ ≤ k → kfree k h₁ (BitVec.ofNat 32 x.payload) = some (h₂, [])) ∧
        Restored h h₂ (pre ++ x :: post) := by
  have hp := hw.pairwise
  have hs := hw.inSpace
  obtain ⟨hh₁, hserves, hfirst⟩ := kmalloc_served hw.rep hp hs (hbelow x (by simp)) h0 h1 href hk
  refine ⟨⟨hserves, hfirst⟩, ?_⟩
  -- the last block is in use, so a block follows `x`
  obtain ⟨y, r, rfl⟩ := List.exists_cons_of_ne_nil (hw.ne_nil hx)
  have hxy := (List.pairwise_cons.mp (List.pairwise_append.mp hp).2.1).1 y List.mem_cons_self
  have hxs := hs x (by simp)
  have hys := hs y (by simp)
  have hye := hbelow y (by simp)
  have hstop : x.stop = x.addr + 20 + x.size ∧ y.stop = y.addr + 20 + y.size := ⟨rfl, rfl⟩
  have hle := hxy.le
  -- the list after `kmalloc`
  obtain ⟨n, hn⟩ : ∃ n, n = (align w).toNat := ⟨_, rfl⟩
  have hwn : align w = BitVec.ofNat 32 n := by rw [hn, BitVec.ofNat_toNat, BitVec.setWidth_eq]
  rw [← hn] at hserves
  obtain ⟨hkeep, hh⟩ := take_spec hw.rep.holds hp hs hserves (by omega)
  rw [← hwn] at hkeep hh
  have hp₁ := pairwise_carve (n := n) hp
  have hs₁ := inSpace_carve hs n
  have hm₁ : Models h.heapStart.toNat h₁ ⟨pre ++ x.carved n :: (x.remainder n ++ y :: r),
      h.heapEnd.toNat⟩ := by
    rw [hh₁]
    refine ⟨⟨?_, hh⟩, by simp, by simp⟩
    rw [hw.rep.head, first_append, first_append, first_cons, first_cons, carved_addr]
  -- the free merges the block with the remainder
  obtain ⟨hparts, hfits⟩ :=
    mergeParts_carved (n := n) (s := h.heapStart.toNat) (e := h.heapEnd.toNat) hpost hstart
    (by omega) hx hpre hxy
  have hacc : Accepts h.heapStart.toNat h.heapEnd.toNat (x.carved n) := by
    have h8 := align_ok h0 h1
    have hle' := hserves.2
    unfold Accepts carved
    split <;> dsimp only [stop] <;> omega
  obtain ⟨h₂, hrun, hm₂, -, -, hkeep'⟩ :=
    kfree_spec hm₁ hp₁ hs₁ h.heapStart.isLt h.heapEnd.isLt (carved_free x n)
    hacc hfits hparts
  rw [settled_of_last hw.last] at hm₂
  have hpay : (x.carved n).payload = x.payload := by rw [payload, payload, carved_addr]
  refine ⟨h₂, ⟨_, fun k hk => hpay ▸ hrun k hk⟩, restored_of_rep hw.rep hm₂.rep ?_ ?_ fun z hz hflag => ?_⟩
  · rw [hm₂.heapStart, BitVec.ofNat_toNat, BitVec.setWidth_eq]
  · rw [hm₂.heapEnd, BitVec.ofNat_toNat, BitVec.setWidth_eq]
  · have hzs := hs z hz
    have hzstop : z.stop = z.addr + 20 + z.size := rfl
    by_cases hzx : z = x
    · -- the flag of `x` is `1` again
      have hfree := (hw.rep.holds.sealed x (by simp)).free.mpr hx
      have hlast : ∀ z, x.remainder n ++ y :: r = [z] → z.free = false := by
        intro z hz
        refine hw.last z ?_
        have := congrArg List.getLast? hz
        rw [List.getLast?_append_cons, List.getLast?_singleton] at this
        rw [List.getLast?_append_cons, List.getLast?_cons_cons, this]
      have hone := kfree_flag hm₁ hp₁ hs₁ h.heapStart.isLt h.heapEnd.isLt (carved_free x n) hacc hlast hpre
        (hrun _ (Nat.lt_succ_self _))
      rw [carved_addr] at hone
      rw [hzx] at hflag ⊢
      rw [free_ofNat] at hflag ⊢
      rw [free_ofNat, hone]
      bv_omega
    · have hmem : z ∈ pre ∨ z ∈ y :: r := by
        obtain hz | hz := List.mem_append.mp hz
        · exact .inl hz
        · exact .inr ((List.mem_cons.mp hz).resolve_left hzx)
      have hkz : KeepsBlock h.mem h₁.mem z := by
        rw [hh₁]
        exact keepsBlock_of_between [] hkeep hp hs hmem
      exact ((hkz.trans (hkeep' z hmem)).fields (by omega)).2.2

/-- Eight bytes are cut from a free block of 64 bytes between two blocks in use, and put back. -/
theorem restored_eight : ∃ h h₁ h₂, kmalloc 8 h 8 = some (0x400068, h₁) ∧
    (∃ k₀, ∀ k, k₀ ≤ k → kfree k h₁ 0x400068 = some (h₂, [])) ∧
    Restored h h₂ [⟨0x400000, 64, false⟩, ⟨0x400054, 64, true⟩, ⟨0x4000AC, 8, false⟩] := by
  obtain ⟨s, -, hout⟩ :=
    exists_reach (k := 8) (fun _ => 0) [.malloc 64, .malloc 64, .malloc 8, .free 0x400068]
    (fun s => (decide (Intact s.heap [⟨0x400000, 64, false⟩, ⟨0x400054, 64, true⟩, ⟨0x4000AC, 8, false⟩]),
      s.heap.heapStart, s.heap.heapEnd, (kmalloc 8 s.heap 8).map Prod.fst))
    (true, 0x400000, 0x4000CC, some 0x400068) (by decide +kernel)
  obtain ⟨hw, hstart, hend, hk⟩ := by simpa only [Prod.mk.injEq, decide_eq_true_eq] using hout
  obtain ⟨⟨p, h₁⟩, hk, rfl⟩ := Option.map_eq_some_iff.mp hk
  have hbelow : ∀ y ∈ [⟨0x400000, 64, false⟩] ++ (⟨0x400054, 64, true⟩ : Block) :: [⟨0x4000AC, 8, false⟩],
      y.addr < s.heap.heapEnd.toNat := by
    rw [hend]
    decide
  have href : ¬ Refused s.heap (align 8) := by
    rw [Refused, hend]
    decide
  obtain ⟨-, h₂, hrun, hrest⟩ :=
    kfree_kmalloc hw hbelow (by rw [hstart]; decide) (by decide) (by decide) href rfl
    (by decide) (by decide) hk
  exact ⟨s.heap, h₁, h₂, hk, hrun, hrest⟩

end SpatulaOS.Mm
