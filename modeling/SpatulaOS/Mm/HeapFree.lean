import SpatulaOS.Mm.HeapRep

/-!
# `kfree` on a sequence of blocks

On a state that holds a sequence of blocks, `kfree` of the payload of a block in use
is refused and changes nothing, or it does what `Arena.settled` says of the
coalesced sequence, as long as no merge goes wrong (`kfree_spec`). The bounds of the
heap are arbitrary here: the range tests decide what is refused and what is merged.
-/

namespace SpatulaOS.Mm

open ByteMemory Threaded Block SpatulaOS.Video

variable {h : Heap} {m m' : Mem} {b p x y : Block} {bs pre post : List Block} {s e : ℕ}

/-! ### The merges keep the sequence in order -/

/-- A merged block with room for its guard word is apart from its neighbours. -/
theorem pairwise_join (hp : (pre ++ x :: y :: post).Pairwise Apart) (hroom : GuardRoom (x.join y).stop post) :
    (pre ++ x.join y :: post).Pairwise Apart := by
  rw [List.pairwise_append, List.pairwise_cons, List.pairwise_cons] at hp
  obtain ⟨hpre, ⟨-, -, hpost⟩, hcross⟩ := hp
  rw [List.pairwise_append, List.pairwise_cons]
  refine ⟨hpre, ⟨apart_of_guardRoom hroom hpost, hpost⟩, fun w hw z hz => ?_⟩
  obtain rfl | hz := List.mem_cons.mp hz
  · exact (hcross w hw x (by simp)).congr rfl rfl
  · exact hcross w hw z (by simp [hz])

theorem inSpace_join (hs : InSpace (pre ++ x :: y :: post)) (hroom : GuardRoom (x.join y).stop post) :
    InSpace (pre ++ x.join y :: post) := by
  intro w hw
  simp only [List.mem_append, List.mem_cons] at hw
  obtain hw | rfl | hw := hw
  · exact hs w (by simp [hw])
  · exact ⟨(hs x (by simp)).1, (hroom.le fun z hz => hs z (by simp [hz])).1⟩
  · exact hs w (by simp [hw])

theorem inSpace_released (hs : InSpace (pre ++ b :: post)) : InSpace (pre ++ b.released :: post) := by
  intro w hw
  simp only [List.mem_append, List.mem_cons] at hw
  obtain hw | rfl | hw := hw
  · exact hs w (by simp [hw])
  · exact hs b (by simp)
  · exact hs w (by simp [hw])

theorem mergeable_iff (hstart : h.heapStart = BitVec.ofNat 32 s) (hend : h.heapEnd = BitVec.ofNat 32 e)
    (hs : s < 2 ^ 32) (he : e < 2 ^ 32) (hy : Sealed m y) (hya : 0 < y.addr ∧ y.stop + 4 ≤ 2 ^ 32) :
    mergeable h m (BitVec.ofNat 32 y.addr) ↔ y.Merges s e := by
  obtain ⟨hy0, hy1⟩ := hya
  unfold stop at hy1
  have hne : BitVec.ofNat 32 y.addr ≠ 0 := by rw [ne_eq, ofNat_eq_zero_iff (by omega)]; omega
  rw [mergeable, hstart, hend, free_ofNat, hy.free, ge_iff_le, BitVec.le_def, BitVec.lt_def,
    toNat_ofNat_of_lt hs, toNat_ofNat_of_lt he, toNat_ofNat_of_lt (by omega), Merges]
  tauto

theorem not_mergeable_zero : ¬ mergeable h m 0#32 := fun hm => hm.1 rfl

/-! ### The two merges -/

/-- What a merge leaves: the memory holds `pre ++ c :: post`, and the blocks around `c`
are as they were in `m`. -/
structure Merged (m m' : Mem) (pre : List Block) (c : Block) (post : List Block) : Prop where
  holds : Holds m' (pre ++ c :: post)
  apart : (pre ++ c :: post).Pairwise Apart
  inSpace : InSpace (pre ++ c :: post)
  keeps : ∀ w, w ∈ pre ∨ w ∈ post → KeepsBlock m m' w

theorem Merged.rfl {c : Block} (hh : Holds m (pre ++ c :: post)) (hp : (pre ++ c :: post).Pairwise Apart)
    (hin : InSpace (pre ++ c :: post)) : Merged m m pre c post :=
  ⟨hh, hp, hin, fun w _ => KeepsBlock.refl m w⟩

/-- The memory after a merge of neighbours, the links of the second one being as read. -/
theorem Merged.join (hh : Holds m (pre ++ x :: y :: post)) (hp : (pre ++ x :: y :: post).Pairwise Apart)
    (hin : InSpace (pre ++ x :: y :: post)) (hg : GuardRoom (x.join y).stop post) :
    Merged m (joinMem m x.addr (x.join y).size (first Block.addr post 0)) pre (x.join y) post :=
  have hj := hh.join hp hin hg
  ⟨hj.2, pairwise_join hp hg, inSpace_join hin hg, fun _ hw => keepsBlock_of_between [y] hj.1 hp hin hw⟩

/-- What the two merges read of the blocks `x` and `y`, and where these are. -/
theorem join_reads (hh : Holds m (pre ++ x :: y :: post)) (hp : (pre ++ x :: y :: post).Pairwise Apart)
    (hin : InSpace (pre ++ x :: y :: post)) (hstop : (x.join y).stop + 4 ≤ 2 ^ 32) :
    m.load (BitVec.ofNat 32 (y.addr + 4)) = BitVec.ofNat 32 y.size ∧
      m.load (BitVec.ofNat 32 (y.addr + 12)) = BitVec.ofNat 32 (first Block.addr post 0) ∧
      x.addr + 20 + x.size ≤ y.addr ∧ y.addr + 20 + y.size ≤ 2 ^ 32 ∧
      first Block.addr post 0 < 2 ^ 32 ∧ x.addr + 20 + (x.size + 24 + y.size) + 4 ≤ 2 ^ 32 := by
  have hr : InSpace post := fun z hz => hin z (by simp [hz])
  have hxy := ((List.pairwise_cons.mp (List.pairwise_append.mp hp).2.1).1 y List.mem_cons_self).le
  have hyy := (hin y (by simp)).2
  rw [← List.singleton_append, ← List.append_assoc] at hh
  obtain ⟨hly, hsy⟩ := hh.mid
  simp only [stop, join_addr, join_size] at hxy hyy hstop
  exact ⟨hsy.size, hly.next, hxy, by omega, hr.first_lt, hstop⟩

/-- What the release of `b` and the merge with the next block leave of the words of its
header and of what lies below it. -/
structure NextMerged (m m' : Mem) (b : Block) (post : List Block) : Prop where
  below : ∀ k, k + 4 ≤ b.addr → m'.load (BitVec.ofNat 32 k) = m.load (BitVec.ofNat 32 k)
  size : ∃ sz, m'.load (BitVec.ofNat 32 (b.addr + 4)) = BitVec.ofNat 32 sz ∧
    ∃ w ∈ b :: post, b.addr + 20 + sz ≤ w.stop + 4
  free : m'.load (BitVec.ofNat 32 (b.addr + 8)) = 1
  next : ∃ n, m'.load (BitVec.ofNat 32 (b.addr + 12)) = BitVec.ofNat 32 n ∧ (n = 0 ∨ ∃ z ∈ post, n = z.addr)
  prev : m'.load (BitVec.ofNat 32 (b.addr + 16)) = m.load (BitVec.ofNat 32 (b.addr + 16))

theorem nextMerged_spec {m₁ : Mem} (hh : Holds m (pre ++ b :: post)) (hp : (pre ++ b :: post).Pairwise Apart)
    (hin : InSpace (pre ++ b :: post)) (hlast : ∀ y, post = [y] → y.free = false)
    (hm₁ : m₁ = setFree m (BitVec.ofNat 32 b.addr) 1)
    (hm' : m' = if mergeable h m₁ (Mm.next m₁ (BitVec.ofNat 32 b.addr)) then
      mergeNext m₁ (BitVec.ofNat 32 b.addr) else m₁) : NextMerged m m' b post := by
  have hb := (hin b (by simp)).2
  have hbs : b.stop = b.addr + 20 + b.size := rfl
  have hrest {k : ℕ} (hk : k + 4 ≤ b.addr + 8 ∨ b.addr + 12 ≤ k ∧ k + 4 ≤ 2 ^ 32) :
      m₁.load (BitVec.ofNat 32 k) = m.load (BitVec.ofNat 32 k) := by
    rw [hm₁, setFree_ofNat, Mem.load_store_of_apart _ _ (by omega) (by omega) (by omega)]
  have hfree : m₁.load (BitVec.ofNat 32 (b.addr + 8)) = 1 := by
    rw [hm₁, setFree_ofNat, Mem.load_store_self]
  obtain ⟨hlb, hsb⟩ := hh.mid
  have hnext : m₁.load (BitVec.ofNat 32 (b.addr + 12)) = BitVec.ofNat 32 (first Block.addr post 0) :=
    (hrest (by omega)).trans hlb.next
  have hplain : NextMerged m m₁ b post := by
    refine ⟨fun k hk => hrest (by omega), ⟨b.size, (hrest (by omega)).trans hsb.size, b, by simp, ?_⟩, hfree,
      ⟨_, hnext, first_eq_or_mem⟩, hrest (by omega)⟩
    omega
  rw [next_ofNat, hnext] at hm'
  obtain _ | ⟨y, post⟩ := post
  · rw [hm', first_nil, if_neg not_mergeable_zero]
    exact hplain
  rw [first_cons] at hm' hnext
  by_cases hy : mergeable h m₁ (BitVec.ofNat 32 y.addr)
  swap
  · rw [hm', if_neg hy]
    exact hplain
  -- the block that is merged is free, so another one follows
  have hpb := List.pairwise_cons.mp (List.pairwise_append.mp hp).2.1
  have hby := (hpb.1 y List.mem_cons_self).le
  have hys := (hin y (by simp)).2
  have hstop : y.stop = y.addr + 20 + y.size := rfl
  have hyf : y.free = true := by
    have hf := hy.2.2.2
    rw [free_ofNat, hrest (by omega)] at hf
    exact (hh.sealed y (by simp)).free.mp hf
  obtain _ | ⟨z, post⟩ := post
  · rw [hlast y rfl] at hyf
    exact absurd hyf (by simp)
  have hyz := ((List.pairwise_cons.mp hpb.2).1 z List.mem_cons_self).le
  have hzs := (hin z (by simp)).2
  have hzstop : z.stop = z.addr + 20 + z.size := rfl
  obtain ⟨h1, h2, h3, h4, h5, h6⟩ := join_reads hh hp hin (by rw [join_stop]; omega)
  rw [first_cons] at h2 h5
  have hjoin : m' = joinMem m₁ b.addr (b.size + 24 + y.size) z.addr := by
    rw [hm', if_pos hy]
    exact mergeNext_eq ((hrest (by omega)).trans hsb.size) ((hrest (by omega)).trans h1)
      ((hrest (by omega)).trans h2) h3 h4 h5 h6 hnext
  refine ⟨fun k hk => ?_, ⟨b.size + 24 + y.size, ?_, y, by simp, by omega⟩, ?_,
    ⟨z.addr, ?_, .inr ⟨z, by simp, rfl⟩⟩, ?_⟩
  · simp (disch := omega) only [hjoin, joinMem, load_linkBack, Mem.load_store_of_apart]
    exact hrest (by omega)
  · simp (disch := omega) only [hjoin, joinMem, load_linkBack, Mem.load_store_of_apart, Mem.load_store_self]
  · simp (disch := omega) only [hjoin, joinMem, load_linkBack, Mem.load_store_of_apart]
    exact hfree
  · simp (disch := omega) only [hjoin, joinMem, load_linkBack, Mem.load_store_of_apart, Mem.load_store_self]
  · simp (disch := omega) only [hjoin, joinMem, load_linkBack, Mem.load_store_of_apart]
    exact hrest (by omega)

/-- A free of a block behind one in use leaves its flag at `1`. -/
theorem coalesce_free (hh : Holds h.mem (pre ++ b :: post)) (hp : (pre ++ b :: post).Pairwise Apart)
    (hin : InSpace (pre ++ b :: post)) (hlast : ∀ y, post = [y] → y.free = false)
    (hpre : ∀ p ∈ pre.getLast?, p.free = false) :
    (coalesce h (BitVec.ofNat 32 b.addr)).load (BitVec.ofNat 32 (b.addr + 8)) = 1 := by
  obtain ⟨m₁, hm₁⟩ : ∃ m₁, m₁ = setFree h.mem (BitVec.ofNat 32 b.addr) 1 := ⟨_, rfl⟩
  obtain ⟨m₂, hm₂⟩ : ∃ m₂, m₂ = if mergeable h m₁ (next m₁ (BitVec.ofNat 32 b.addr)) then
    mergeNext m₁ (BitVec.ofNat 32 b.addr) else m₁ := ⟨_, rfl⟩
  have hm := nextMerged_spec hh hp hin hlast hm₁ hm₂
  rw [coalesce, ← hm₁, ← hm₂, prev_ofNat, hm.prev, hh.mid.1.prev, if_neg]
  · exact hm.free
  · rintro ⟨h0, -, -, hf⟩
    obtain rfl | ⟨r, p, rfl⟩ := List.eq_nil_or_concat pre
    · exact h0 rfl
    · rw [List.concat_eq_append] at *
      have hpb := ((List.pairwise_append.mp hp).2.2 p (by simp) b (by simp)).le
      have hps : p.stop = p.addr + 20 + p.size := rfl
      rw [last_append_cons, last_nil, free_ofNat, hm.below _ (by omega), (hh.sealed p (by simp)).free,
        hpre p (by simp)] at hf
      exact absurd hf (by simp)

section Merges

variable (hstart : h.heapStart = BitVec.ofNat 32 s) (hend : h.heapEnd = BitVec.ofNat 32 e)
  (hs : s < 2 ^ 32) (he : e < 2 ^ 32)

include hstart hend hs he

/-- The merge with the next block. -/
theorem mergeNext_spec {c : Block} {post' : List Block} (hh : Holds m (pre ++ b :: post))
    (hp : (pre ++ b :: post).Pairwise Apart) (hin : InSpace (pre ++ b :: post))
    (hc : absorbNext s e b post = (c, post'))
    (hroom : ∀ y r, post = y :: r → y.Merges s e → GuardRoom (b.join y).stop r)
    (hm' : m' = if mergeable h m (next m (BitVec.ofNat 32 b.addr)) then
      mergeNext m (BitVec.ofNat 32 b.addr) else m) : Merged m m' pre c post' := by
  have hnext : next m (BitVec.ofNat 32 b.addr) = BitVec.ofNat 32 (first Block.addr post 0) := by
    rw [next_ofNat]; exact hh.mid.1.next
  rw [hnext] at hm'
  cases post with
  | nil =>
    obtain ⟨rfl, rfl⟩ := Prod.mk.inj hc
    rw [hm', first_nil, if_neg not_mergeable_zero]
    exact .rfl hh hp hin
  | cons y r =>
    have hiff := mergeable_iff hstart hend hs he (hh.sealed y (by simp)) (hin y (by simp))
    rw [first_cons] at hnext hm'
    by_cases hy : y.Merges s e
    · obtain ⟨rfl, rfl⟩ := Prod.mk.inj (hc.symm.trans (if_pos hy))
      have hg := hroom y post' rfl hy
      obtain ⟨h1, h2, h3, h4, h5, h6⟩ := join_reads hh hp hin (hg.le fun z hz => hin z (by simp [hz])).1
      rw [hm', if_pos (hiff.mpr hy),
        mergeNext_eq hh.mid.2.size h1 h2 h3 h4 h5 h6 (by rw [← hnext, next_ofNat])]
      exact .join hh hp hin hg
    · obtain ⟨rfl, rfl⟩ := Prod.mk.inj (hc.symm.trans (if_neg hy))
      rw [hm', if_neg fun h => hy (hiff.mp h)]
      exact .rfl hh hp hin

/-- The merge into the previous block. -/
theorem mergePrev_spec {c : Block} {pre' : List Block} (hh : Holds m (pre ++ b :: post))
    (hp : (pre ++ b :: post).Pairwise Apart) (hin : InSpace (pre ++ b :: post))
    (hc : absorbPrev s e pre b = (pre', c))
    (hroom : ∀ r p, pre = r ++ [p] → p.Merges s e → GuardRoom (p.join b).stop post ∧
      ((p.join b).stop + 4 ≤ b.addr + 12 ∨ b.addr + 20 ≤ (p.join b).stop))
    (hm' : m' = if mergeable h m (prev m (BitVec.ofNat 32 b.addr)) then
      mergePrev m (BitVec.ofNat 32 b.addr) else m) : Merged m m' pre' c post := by
  have hprev : prev m (BitVec.ofNat 32 b.addr) = BitVec.ofNat 32 (last Block.addr 0 pre) := by
    rw [prev_ofNat]; exact hh.mid.1.prev
  rw [hprev] at hm'
  obtain rfl | ⟨r, p, rfl⟩ := List.eq_nil_or_concat pre
  · obtain ⟨rfl, rfl⟩ := Prod.mk.inj hc
    rw [hm', last_nil, if_neg not_mergeable_zero]
    exact .rfl hh hp hin
  · rw [List.concat_eq_append] at *
    have hiff := mergeable_iff hstart hend hs he (hh.sealed p (by simp)) (hin p (by simp))
    rw [last_append_cons, last_nil] at hprev hm'
    rw [absorbPrev_append_singleton] at hc
    by_cases hpm : p.Merges s e
    · obtain ⟨rfl, rfl⟩ := Prod.mk.inj (hc.symm.trans (if_pos hpm))
      obtain ⟨hg, hclear⟩ := hroom pre' p rfl hpm
      rw [List.append_assoc, List.singleton_append] at hh hp hin
      obtain ⟨h1, h2, h3, h4, h5, h6⟩ := join_reads hh hp hin (hg.le fun z hz => hin z (by simp [hz])).1
      rw [hm', if_pos (hiff.mpr hpm), mergePrev_eq hh.mid.2.size h1 h2 h3 h4 h5 h6
        (by rw [← hprev, prev_ofNat]) (by simp only [stop, join_addr, join_size] at hclear; omega)]
      exact .join hh hp hin hg
    · obtain ⟨rfl, rfl⟩ := Prod.mk.inj (hc.symm.trans (if_neg hpm))
      rw [hm', if_neg fun h => hpm (hiff.mp h)]
      exact .rfl hh hp hin

/-- The two merges of `kfree` give the coalesced sequence, if neither goes wrong. -/
theorem coalesce_spec {pre' post' : List Block} (hh : Holds h.mem (pre ++ b :: post))
    (hp : (pre ++ b :: post).Pairwise Apart) (hin : InSpace (pre ++ b :: post))
    (hc : CoalesceFits s e pre b post) (hparts : mergeParts s e pre b post = (pre', x, post')) :
    Merged h.mem (coalesce h (BitVec.ofNat 32 b.addr)) pre' x post' := by
  have hpr : (pre ++ b.released :: post).Pairwise Apart := pairwise_flag hp
  obtain ⟨hk1, hh1⟩ := hh.setFree (v := 1) true hp hin (by decide)
  have h1 : ∀ w, w ∈ pre ∨ w ∈ post → KeepsBlock h.mem (setFree h.mem (BitVec.ofNat 32 b.addr) 1) w :=
    fun w hw => keepsBlock_of_between [] hk1 hp hin hw
  obtain ⟨c, post₂, hnx⟩ : ∃ c post₂, absorbNext s e b.released post = (c, post₂) := ⟨_, _, rfl⟩
  obtain ⟨pre₂, y, hpx⟩ : ∃ pre₂ y, absorbPrev s e pre c = (pre₂, y) := ⟨_, _, rfl⟩
  obtain ⟨rfl, rfl, rfl⟩ : pre₂ = pre' ∧ y = x ∧ post₂ = post' := by
    simpa [mergeParts, hnx, hpx] using hparts
  have hca : c.addr = b.addr := by
    have := absorbNext_addr s e b.released post
    rwa [hnx] at this
  obtain ⟨hc1, hc2⟩ := hc
  rw [hnx] at hc2
  rw [← hca] at hc2
  have h2 := mergeNext_spec hstart hend hs he hh1 hpr (inSpace_released hin) hnx hc1 rfl
  have h3 := mergePrev_spec hstart hend hs he h2.holds h2.apart h2.inSpace hpx hc2 rfl
  rw [hca] at h3
  refine ⟨h3.holds, h3.apart, h3.inSpace, fun w hw => ?_⟩
  have hw2 : w ∈ pre ∨ w ∈ post₂ := hw.imp_left fun h => mem_of_mem_absorbPrev (by rwa [hpx])
  have hw1 : w ∈ pre ∨ w ∈ post := hw2.imp_right fun h => mem_of_mem_absorbNext (by rwa [hnx])
  exact ((h1 w hw1).trans (h2.keeps w hw2)).trans (h3.keeps w hw)

end Merges

/-! ### The end of `kfree` -/

theorem lastBlock_eq {fuel p : ℕ} (hl : Thread Block.addr (Link m) p bs 0) (hin : InSpace bs)
    (hf : bs.length < fuel) : lastBlock m fuel (BitVec.ofNat 32 (first Block.addr bs 0)) =
      some (BitVec.ofNat 32 (last Block.addr 0 bs)) := by
  induction bs generalizing p fuel with
  | nil =>
    obtain ⟨k, rfl⟩ := Nat.exists_eq_add_of_lt hf
    rw [List.length_nil, Nat.zero_add, lastBlock, if_neg (by simp)]
    rfl
  | cons x bs ih =>
    obtain ⟨k, rfl⟩ : ∃ k, fuel = k + 1 := ⟨fuel - 1, by omega⟩
    have hin' : InSpace bs := fun z hz => hin z (List.mem_cons_of_mem _ hz)
    obtain ⟨hx0, hx1⟩ := hin x List.mem_cons_self
    unfold stop at hx1
    have hne : BitVec.ofNat 32 x.addr ≠ 0 := by rw [ne_eq, ofNat_eq_zero_iff (by omega)]; omega
    rw [first_cons, lastBlock, next_ofNat, hl.1.next, ih hl.2 hin' (by simpa using hf)]
    cases bs with
    | nil => rw [if_neg (by simp)]; rfl
    | cons y bs =>
      obtain ⟨hy0, hy1⟩ := hin' y List.mem_cons_self
      unfold stop at hy1
      rw [first_cons, if_pos ⟨hne, by rw [ne_eq, ofNat_eq_zero_iff (by omega)]; omega⟩]
      rfl

theorem next_ne_zero {p : ℕ} (hl : Thread Block.addr (Link m) p (x :: bs) 0) (hin : InSpace (x :: bs))
    (hne : bs ≠ []) : next m (BitVec.ofNat 32 x.addr) ≠ 0 := by
  obtain ⟨z, bs, rfl⟩ := List.exists_cons_of_ne_nil hne
  obtain ⟨hz0, hz1⟩ := hin z (by simp)
  unfold stop at hz1
  rw [next_ofNat, hl.1.next, first_cons, ne_eq, ofNat_eq_zero_iff (by omega)]
  omega

/-- The end of `kfree` resets an arena of one free block and moves the break back to a
free last block. -/
theorem retract_spec (hm : Models s h ⟨bs, e⟩) (hin : InSpace bs) :
    ∃ h', (∀ fuel, bs.length < fuel → retract fuel h = some h') ∧ h'.mem = h.mem ∧
      Models s h' (Arena.settled s ⟨bs, e⟩) := by
  obtain ⟨⟨hhead, hh⟩, hstart, hend⟩ := hm
  dsimp only at hhead hh hend
  obtain rfl | ⟨pre, x, rfl⟩ := List.eq_nil_or_concat bs
  · refine ⟨h, fun fuel hf => ?_, rfl, ⟨hhead, hh⟩, hstart, hend⟩
    rw [retract, if_neg (by rw [hhead]; simp), hhead, lastBlock_eq hh.links hin hf]
    simp
  rw [List.concat_eq_append] at *
  obtain ⟨hx0, hx1⟩ := hin x (by simp)
  unfold stop at hx1
  have hne : BitVec.ofNat 32 x.addr ≠ 0 := by rw [ne_eq, ofNat_eq_zero_iff (by omega)]; omega
  have hfree : free h.mem (BitVec.ofNat 32 x.addr) ≠ 0 ↔ x.free = true := by
    rw [free_ofNat]; exact (hh.sealed x (by simp)).free
  have hsettled : Arena.settled s ⟨pre ++ [x], e⟩ = if x.free = true then
      if (pre ++ [x]).length = 1 then ⟨[], s⟩ else ⟨pre ++ [x], x.addr⟩ else ⟨pre ++ [x], e⟩ := by
    simp [Arena.settled]
  rw [hsettled]
  by_cases hone : (pre ++ [x]).length = 1 ∧ x.free = true
  · obtain ⟨hlen, hxf⟩ := hone
    obtain rfl : pre = [] := by simpa using hlen
    rw [if_pos hxf, if_pos hlen]
    refine ⟨{ h with heapEnd := h.heapStart, heapHead := 0 }, fun fuel _ => ?_, rfl,
      ⟨rfl, trivial, by simp⟩, hstart, hstart⟩
    rw [List.nil_append, first_cons] at hhead
    rw [retract, if_pos]
    rw [hhead, next_ofNat, hh.mid.1.next]
    exact ⟨hne, hfree.mpr hxf, rfl⟩
  · have hcond : ¬ (h.heapHead ≠ 0 ∧ free h.mem h.heapHead ≠ 0 ∧ next h.mem h.heapHead = 0) := by
      rintro ⟨-, h2, h3⟩
      cases pre with
      | nil =>
        rw [List.nil_append, first_cons] at hhead
        exact hone ⟨rfl, hfree.mp (by rwa [← hhead])⟩
      | cons y pre =>
        rw [hhead, List.cons_append, first_cons] at h3
        exact next_ne_zero hh.links hin (by simp) h3
    have hlast (fuel : ℕ) (hf : (pre ++ [x]).length < fuel) :
        lastBlock h.mem fuel h.heapHead = some (BitVec.ofNat 32 x.addr) := by
      rw [hhead, lastBlock_eq hh.links hin hf, last_append_cons, last_nil]
    by_cases hxf : x.free = true
    · rw [if_pos hxf, if_neg fun hlen => hone ⟨hlen, hxf⟩]
      refine ⟨{ h with heapEnd := BitVec.ofNat 32 x.addr }, fun fuel hf => ?_, rfl, ⟨hhead, hh⟩, hstart, rfl⟩
      rw [retract, if_neg hcond, hlast fuel hf]
      exact if_pos ⟨hne, hfree.mpr hxf⟩
    · rw [if_neg hxf]
      refine ⟨h, fun fuel hf => ?_, rfl, ⟨hhead, hh⟩, hstart, hend⟩
      rw [retract, if_neg hcond, hlast fuel hf]
      exact if_neg fun h => hxf (hfree.mp h.2)

/-! ### `kfree` -/

/-- The tests of `kfree` on the block, with the heap's bounds `s` and `e`. -/
def Accepts (s e : ℕ) (b : Block) : Prop := s ≤ b.addr ∧ b.addr < e ∧ 0 < b.size ∧ b.stop ≤ e

instance (s e : ℕ) (b : Block) : Decidable (Accepts s e b) := by unfold Accepts; infer_instance

section Kfree

variable (hstart : h.heapStart = BitVec.ofNat 32 s) (hend : h.heapEnd = BitVec.ofNat 32 e)
  (hs : s < 2 ^ 32) (he : e < 2 ^ 32) (hse : Sealed h.mem b) (hb : 0 < b.addr ∧ b.stop + 4 ≤ 2 ^ 32)
  (hbf : b.free = false)

include hstart hend hs he hse hb hbf

/-- On a block in use with its words intact, `kfree` is refused because of the range or
the size of the block, and changes nothing, or it goes through. -/
theorem kfree_eq (fuel : ℕ) : if Accepts s e b then
      kfree fuel h (BitVec.ofNat 32 b.payload) =
        (retract fuel { h with mem := coalesce h (BitVec.ofNat 32 b.addr) }).map fun h' => (h', [])
    else ∃ msg, kfree fuel h (BitVec.ofNat 32 b.payload) = some (h, [msg]) := by
  obtain ⟨hb0, hb1⟩ := hb
  unfold stop at hb1
  have hp : BitVec.ofNat 32 b.payload ≠ 0 := by
    rw [ne_eq, ofNat_eq_zero_iff (by unfold payload; omega), payload]; omega
  have hblock : BitVec.ofNat 32 b.payload - SIZEOF_HEADER = BitVec.ofNat 32 b.addr := by
    unfold payload SIZEOF_HEADER; bv_omega
  have h1 : BitVec.ofNat 32 b.addr < BitVec.ofNat 32 s ∨ BitVec.ofNat 32 b.addr ≥ BitVec.ofNat 32 e ↔
      b.addr < s ∨ e ≤ b.addr := by
    rw [ge_iff_le, BitVec.le_def, BitVec.lt_def, toNat_ofNat_of_lt hs, toNat_ofNat_of_lt he,
      toNat_ofNat_of_lt (by omega)]
  have hstop : BitVec.ofNat 32 b.addr + SIZEOF_HEADER + BitVec.ofNat 32 b.size = BitVec.ofNat 32 b.stop := by
    unfold SIZEOF_HEADER stop; bv_omega
  have h2 : BitVec.ofNat 32 b.size = 0 ∨ BitVec.ofNat 32 b.stop > BitVec.ofNat 32 e ↔
      b.size = 0 ∨ e < b.stop := by
    rw [gt_iff_lt, BitVec.lt_def, toNat_ofNat_of_lt he, toNat_ofNat_of_lt (by unfold stop; omega),
      ofNat_eq_zero_iff (by omega)]
  have hfree : free h.mem (BitVec.ofNat 32 b.addr) = 0 := by
    have := hse.free
    rw [hbf, ← free_ofNat] at this
    simpa using this
  have htail : h.mem.load (tail (BitVec.ofNat 32 b.addr) (BitVec.ofNat 32 b.size)) = HEAP_MAGIC := by
    rw [tail_ofNat]; exact hse.guard
  have hsize : size h.mem (BitVec.ofNat 32 b.addr) = BitVec.ofNat 32 b.size := by
    rw [size_ofNat]; exact hse.size
  have hmagic : magic h.mem (BitVec.ofNat 32 b.addr) = HEAP_MAGIC := hse.magic
  have hk : kfree fuel h (BitVec.ofNat 32 b.payload) =
      if b.addr < s ∨ e ≤ b.addr then some (h, [.print "Invalid free header!\n"])
      else if b.size = 0 ∨ e < b.stop then some (h, [.print "Heap corruption detected!\n"])
      else (retract fuel { h with mem := coalesce h (BitVec.ofNat 32 b.addr) }).map fun h' => (h', []) := by
    unfold kfree
    simp only [hblock, hsize, htail, hmagic, hfree, hstart, hend, hstop, h1, h2, if_neg hp, ne_eq,
      not_true_eq_false, if_false]
    split_ifs
    · rfl
    · rfl
    · cases retract fuel _ <;> rfl
  rw [hk]
  split_ifs with ha hr hz hr hz
  · unfold Accepts at ha; omega
  · unfold Accepts at ha; omega
  · rfl
  · exact ⟨_, rfl⟩
  · exact ⟨_, rfl⟩
  · unfold Accepts at ha; omega

end Kfree

/-- The coalesced sequence starts where the sequence did, and is not longer. -/
theorem first_mergeParts {pre' post' : List Block} (hparts : mergeParts s e pre b post = (pre', x, post')) :
    first Block.addr (pre' ++ x :: post') 0 = first Block.addr (pre ++ b :: post) 0 ∧
      (pre' ++ x :: post').length ≤ (pre ++ b :: post).length := by
  obtain ⟨l, r, rfl, rfl, -, -, hl, -⟩ := mergeParts_spec hparts
  constructor
  · rw [first_append, List.append_assoc, first_append]
    obtain ⟨rfl, hy, -⟩ | ⟨p, rfl, -, hy⟩ := hl <;> simp [hy]
  · simp only [List.length_append, List.length_cons]
    omega

/-- `kfree` of a block in use, if it passes the tests and no merge goes wrong: it prints
nothing, the state represents the coalesced sequence, the merged block is intact, and the
blocks that were neither freed nor merged are left alone. -/
theorem kfree_spec {pre' post' : List Block} (hm : Models s h ⟨pre ++ b :: post, e⟩)
    (hp : (pre ++ b :: post).Pairwise Apart) (hin : InSpace (pre ++ b :: post)) (hs : s < 2 ^ 32)
    (he : e < 2 ^ 32) (hbf : b.free = false) (ha : Accepts s e b) (hc : CoalesceFits s e pre b post)
    (hparts : mergeParts s e pre b post = (pre', x, post')) :
    ∃ h', (∀ fuel, (pre ++ b :: post).length < fuel →
        kfree fuel h (BitVec.ofNat 32 b.payload) = some (h', [])) ∧
      Models s h' (Arena.settled s ⟨pre' ++ x :: post', e⟩) ∧ InSpace (pre' ++ x :: post') ∧
      Sealed h'.mem x ∧
      (∀ w, w ∈ pre' ∨ w ∈ post' → KeepsBlock h.mem h'.mem w) := by
  obtain ⟨⟨hhead, hh⟩, hstart, hend⟩ := hm
  have hmer := coalesce_spec hstart hend hs he hh hp hin hc hparts
  obtain ⟨hfirst, hlen⟩ := first_mergeParts hparts
  have hb := hin b (by simp)
  have hm' : Models s { h with mem := coalesce h (BitVec.ofNat 32 b.addr) } ⟨pre' ++ x :: post', e⟩ :=
    ⟨⟨hhead.trans (congrArg _ hfirst.symm), hmer.holds⟩, hstart, hend⟩
  obtain ⟨h', hret, hmem, hset⟩ := retract_spec hm' hmer.inSpace
  refine ⟨h', fun fuel hfuel => ?_, hset, hmer.inSpace, by rw [hmem]; exact hmer.holds.mid.2,
    fun w hw => by rw [hmem]; exact hmer.keeps w hw⟩
  have hk := kfree_eq hstart hend hs he hh.mid.2 hb hbf fuel
  rw [if_pos ha] at hk
  rw [hk, hret fuel (by omega)]
  rfl

end SpatulaOS.Mm
