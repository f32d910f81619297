import SpatulaOS.Lib.Floyd
import SpatulaOS.Mm.HeapClients

/-!
# When `kmalloc` returns `NULL`

`kmalloc` should give up only when no free block is large enough and there is no room above
`heap_end`. It checks the room above `heap_end` before it looks at the free blocks, and it
does not append a block whose guard word would end exactly at `KERNEL_HEAP_END`. The result
holds of every state, with any list: the requests for which `kmalloc` gives up rightly are
those with `FindsRoom` (`nullOnlyFull_iff`).
-/

namespace SpatulaOS.Mm

open ByteMemory Floyd Runs

variable {h h' : Heap} {m : Mem} {n w c b : Word} {r : Word × Heap} {k : ℕ} {bs : List Word}

/-- The test of the search loop: a free block of `n` bytes or more. -/
def ServesAt (m : Mem) (n block : Word) : Prop := free m block ≠ 0 ∧ size m block ≥ n

instance (m : Mem) (n block : Word) : Decidable (ServesAt m n block) := inferInstanceAs (Decidable (_ ∧ _))

/-- A block of `n` bytes, with its header and its guard word, has room above `heap_end`. -/
def RoomAbove (h : Heap) (n : Word) : Prop := h.heapEnd.toNat + 24 + n.toNat ≤ KERNEL_HEAP_END.toNat

/-- `kmalloc(n)` returns `NULL` only if there is no room, neither in a free block nor above
`heap_end`. -/
def NullOnlyFull (h : Heap) (n : Word) : Prop :=
  ∀ k h', kmalloc k h n = some (0, h') →
    (∀ b, Listed h b → ¬ ServesAt h.mem (align n) b) ∧ ¬ RoomAbove h (align n)

/-! ### The search on any list -/

/-- The blocks that the search comes to. -/
inductive Searched (h : Heap) (n : Word) : Word → Prop
  /-- The first block. -/
  | head : h.heapHead ≠ 0 → Searched h n h.heapHead
  /-- The block after one that does not serve the request. -/
  | next {b : Word} : Searched h n b → ¬ ServesAt h.mem n b → next h.mem b ≠ 0 → Searched h n (next h.mem b)

/-- The search for `n` bytes ends at block `b`. -/
def EndsAt (h : Heap) (n b : Word) : Prop := Searched h n b ∧ (ServesAt h.mem n b ∨ next h.mem b = 0)

theorem Searched.listed (hb : Searched h n b) : Listed h b := by
  induction hb with
  | head h0 => exact .head h0
  | next _ _ hne ih => exact .next ih hne

theorem Listed.head_ne_zero (hb : Listed h b) : h.heapHead ≠ 0 := by
  induction hb with
  | head h0 => exact h0
  | next _ _ ih => exact ih

theorem mem_of_listed (hb : Listed h b) (hc : Chain (next h.mem) 0 h.heapHead bs) : b ∈ bs := by
  induction hb with
  | head h0 =>
    generalize h.heapHead = c at h0 hc
    cases hc with
    | nil => exact absurd rfl h0
    | cons => exact List.mem_cons_self
  | next _ hne ih => exact hc.next_mem ih hne

theorem listed_of_mem (hc : Chain (next h.mem) 0 c bs) (h0 : c ≠ 0 → Listed h c) : ∀ b ∈ bs, Listed h b := by
  induction hc with
  | nil => exact fun b hb => absurd hb List.not_mem_nil
  | @cons x bs hx _ ih =>
    intro b hb
    obtain rfl | hb := List.mem_cons.mp hb
    · exact h0 hx
    · exact ih (fun hne => .next (h0 hx) hne) b hb

theorem search_serves (k : ℕ) (hs : ServesAt m n c) : search m n (k + 1) c = some (.fit c) := if_pos hs

theorem search_end (k : ℕ) (hno : ¬ ServesAt m n c) (hne : next m c = 0) :
    search m n (k + 1) c = some (.last c) := (if_neg hno).trans (if_pos hne)

theorem search_pass (k : ℕ) (hno : ¬ ServesAt m n c) (hne : next m c ≠ 0) :
    search m n (k + 1) c = search m n k (next m c) := (if_neg hno).trans (if_neg hne)

theorem Searched.search (hb : Searched h n b) :
    ∃ j, ∀ k, search h.mem n (k + j) h.heapHead = search h.mem n k b := by
  induction hb with
  | head => exact ⟨0, fun _ => rfl⟩
  | @next b _ hno hne ih =>
    obtain ⟨j, hj⟩ := ih
    refine ⟨j + 1, fun k => ?_⟩
    rw [← search_pass k hno hne, ← hj (k + 1)]
    congr 1
    omega

/-- The block that the search takes is searched, and it serves the request. -/
theorem searched_of_fit (hc : Searched h n c) (hs : search h.mem n k c = some (.fit b)) :
    Searched h n b ∧ ServesAt h.mem n b := by
  induction k generalizing c with
  | zero => exact absurd hs nofun
  | succ k ih =>
    by_cases hserves : ServesAt h.mem n c
    · rw [search_serves k hserves] at hs
      obtain rfl := Search.fit.inj (Option.some.inj hs)
      exact ⟨hc, hserves⟩
    · by_cases hne : next h.mem c = 0
      · rw [search_end k hserves hne] at hs
        exact absurd (Option.some.inj hs) nofun
      · rw [search_pass k hserves hne] at hs
        exact ih (.next hc hserves hne) hs

/-- When the search comes to the last block, the list ends there and no block serves the
request. -/
theorem chain_of_last (hc : c ≠ 0) (hs : search m n k c = some (.last b)) :
    ∃ bs, Chain (next m) 0 c bs ∧ ∀ x ∈ bs, ¬ ServesAt m n x := by
  induction k generalizing c with
  | zero => exact absurd hs nofun
  | succ k ih =>
    by_cases hserves : ServesAt m n c
    · rw [search_serves k hserves] at hs
      exact absurd (Option.some.inj hs) nofun
    · by_cases hne : next m c = 0
      · exact ⟨[c], .cons hc (hne ▸ .nil), fun x hx => List.mem_singleton.mp hx ▸ hserves⟩
      · rw [search_pass k hserves hne] at hs
        obtain ⟨bs, hbs, hno⟩ := ih hne hs
        refine ⟨c :: bs, .cons hc hbs, fun x hx => ?_⟩
        obtain rfl | hx := List.mem_cons.mp hx
        · exact hserves
        · exact hno x hx

/-- The search comes to the last block of a list without a block that serves the request. -/
theorem search_of_chain (hc : Chain (next m) 0 c bs) (h0 : c ≠ 0) (hno : ∀ x ∈ bs, ¬ ServesAt m n x) :
    ∃ b, search m n bs.length c = some (.last b) := by
  induction hc with
  | nil => exact absurd rfl h0
  | @cons x bs _ hbs ih =>
    have hx := hno x List.mem_cons_self
    by_cases hne : next m x = 0
    · exact ⟨x, search_end _ hx hne⟩
    · obtain ⟨b, hb⟩ := ih hne fun y hy => hno y (List.mem_cons_of_mem _ hy)
      exact ⟨b, (search_pass _ hx hne).trans hb⟩

theorem EndsAt.search (hb : EndsAt h n b) :
    ∃ k, search h.mem n k h.heapHead = some (if ServesAt h.mem n b then .fit b else .last b) := by
  obtain ⟨j, hj⟩ := hb.1.search
  refine ⟨1 + j, (hj 1).trans ?_⟩
  split_ifs with hserves
  · exact search_serves 0 hserves
  · exact search_end 0 hserves (hb.2.resolve_left hserves)

theorem EndsAt.unique (hb : EndsAt h n b) (hc : EndsAt h n c) : b = c := by
  obtain ⟨k, hk⟩ := hb.search
  obtain ⟨j, hj⟩ := hc.search
  have heq := search_unique hk hj
  split_ifs at heq
  · exact Search.fit.inj heq
  · exact Search.last.inj heq

/-- The block where the search for the last one ends. -/
theorem endsAt_of_last (hc : Searched h n c) (hs : Mm.search h.mem n k c = some (.last b)) :
    EndsAt h n b ∧ ¬ ServesAt h.mem n b := by
  induction k generalizing c with
  | zero => exact absurd hs nofun
  | succ k ih =>
    by_cases hserves : ServesAt h.mem n c
    · rw [search_serves k hserves] at hs
      exact absurd (Option.some.inj hs) nofun
    · by_cases hne : next h.mem c = 0
      · rw [search_end k hserves hne] at hs
        obtain rfl := Search.last.inj (Option.some.inj hs)
        exact ⟨⟨hc, .inr hne⟩, hserves⟩
      · rw [search_pass k hserves hne] at hs
        exact ih (.next hc hserves hne) hs

/-! ### The tests of the room above `heap_end` -/

/-- The test that `kmalloc` makes before it searches. -/
def Refused (h : Heap) (n : Word) : Prop := n > KERNEL_HEAP_END - h.heapEnd - SIZEOF_HEADER - SIZEOF_WORD

theorem Refused.not_roomAbove (hr : Refused h n) : ¬ RoomAbove h n := by
  unfold Refused KERNEL_HEAP_END SIZEOF_HEADER SIZEOF_WORD at hr
  unfold RoomAbove KERNEL_HEAP_END
  bv_omega

/-- A first block for which there is room is not refused. -/
theorem kmallocFirst_ne (hroom : RoomAbove h n) : kmallocFirst h n ≠ (0, h') := by
  unfold RoomAbove KERNEL_HEAP_END at hroom
  have hlt : ¬ h.heapEnd + SIZEOF_HEADER + n ≥ KERNEL_HEAP_END := by
    unfold SIZEOF_HEADER KERNEL_HEAP_END
    bv_omega
  have hne : h.heapEnd + SIZEOF_HEADER ≠ 0 := by
    unfold SIZEOF_HEADER
    bv_omega
  rw [kmallocFirst]
  dsimp only
  rw [if_neg hlt]
  exact fun he => hne (Prod.mk.inj he).1

/-- A block for which there is more than enough room is appended. -/
theorem append_ne (hroom : h.heapEnd.toNat + 24 + n.toNat < KERNEL_HEAP_END.toNat) :
    append h c n ≠ (0, h') := by
  unfold KERNEL_HEAP_END at hroom
  have hlt : ¬ h.heapEnd + SIZEOF_HEADER + n + SIZEOF_WORD < h.heapEnd := by
    unfold SIZEOF_HEADER SIZEOF_WORD
    bv_omega
  have hge : ¬ h.heapEnd + SIZEOF_HEADER + n + SIZEOF_WORD ≥ KERNEL_HEAP_END := by
    unfold SIZEOF_HEADER SIZEOF_WORD KERNEL_HEAP_END
    bv_omega
  have hne : h.heapEnd + SIZEOF_HEADER ≠ 0 := by
    unfold SIZEOF_HEADER
    bv_omega
  rw [append]
  dsimp only
  rw [if_neg hlt, if_neg hge]
  exact fun he => hne (Prod.mk.inj he).1

/-- A block that would end exactly at `KERNEL_HEAP_END` is not appended. -/
theorem append_eq_null (hend : h.heapEnd.toNat + 24 + n.toNat = KERNEL_HEAP_END.toNat) :
    append h c n = (0, h) := by
  have hge : h.heapEnd + SIZEOF_HEADER + n + SIZEOF_WORD ≥ KERNEL_HEAP_END := by
    unfold SIZEOF_HEADER SIZEOF_WORD
    unfold KERNEL_HEAP_END at *
    bv_omega
  rw [append]
  dsimp only
  rw [if_pos hge, ite_self]

/-! ### When `kmalloc` gives up rightly -/

/-- The request does not meet the tests in the wrong order. -/
structure FindsRoom (h : Heap) (n : Word) : Prop where
  /-- What is refused before the search, no free block serves. -/
  refused : Refused h n → ∀ b, Listed h b → ¬ ServesAt h.mem n b
  /-- What would end exactly at `KERNEL_HEAP_END` behind a list that ends, a free block serves. -/
  exact : h.heapHead ≠ 0 → (∃ bs, Chain (next h.mem) 0 h.heapHead bs) →
    h.heapEnd.toNat + 24 + n.toNat = KERNEL_HEAP_END.toNat → ∃ b, Listed h b ∧ ServesAt h.mem n b
  /-- The block that serves the request is not at the very end of the address space. -/
  null : ¬ Refused h n → ∀ b, Searched h n b → ServesAt h.mem n b → b + SIZEOF_HEADER ≠ 0

section Outcomes

variable {w : Word} (h0 : w ≠ 0) (h1 : ¬ align w < w)
include h0 h1

theorem kmalloc_fit (hr : ¬ Refused h (align w)) (hh : h.heapHead ≠ 0)
    (hs : search h.mem (align w) k h.heapHead = some (.fit b)) :
    kmalloc k h w = some (b + SIZEOF_HEADER, { h with mem := take h.mem b (align w) }) := by
  unfold Refused at hr
  rw [kmalloc, if_neg h0, if_neg h1, if_neg hr, if_neg hh, hs]

theorem kmalloc_last (hr : ¬ Refused h (align w)) (hh : h.heapHead ≠ 0)
    (hs : search h.mem (align w) k h.heapHead = some (.last b)) :
    kmalloc k h w = some (append h b (align w)) := by
  unfold Refused at hr
  rw [kmalloc, if_neg h0, if_neg h1, if_neg hr, if_neg hh, hs]

theorem kmalloc_none (hr : ¬ Refused h (align w)) (hh : h.heapHead ≠ 0)
    (hs : search h.mem (align w) k h.heapHead = none) : kmalloc k h w = none := by
  unfold Refused at hr
  rw [kmalloc, if_neg h0, if_neg h1, if_neg hr, if_neg hh, hs]

theorem kmalloc_first (hr : ¬ Refused h (align w)) (hh : h.heapHead = 0) :
    kmalloc k h w = some (kmallocFirst h (align w)) := by
  unfold Refused at hr
  rw [kmalloc, if_neg h0, if_neg h1, if_neg hr, if_pos hh]

theorem kmalloc_refused (hr : Refused h (align w)) : kmalloc k h w = some (0, h) := by
  unfold Refused at hr
  rw [kmalloc, if_neg h0, if_neg h1, if_pos hr]

end Outcomes

/-- What `kmalloc` does for a request of `n` bytes. -/
inductive KmallocResult (h : Heap) (n : Word) : Word × Heap → Prop where
  /-- The request is refused before the search. -/
  | refused : Refused h n → KmallocResult h n (0, h)
  /-- The first block. -/
  | first : ¬ Refused h n → h.heapHead = 0 → KmallocResult h n (kmallocFirst h n)
  /-- A block is taken. -/
  | fit {b : Word} : ¬ Refused h n → EndsAt h n b → ServesAt h.mem n b →
    KmallocResult h n (b + SIZEOF_HEADER, { h with mem := take h.mem b n })
  /-- A block is appended. -/
  | last {b : Word} : ¬ Refused h n → EndsAt h n b → ¬ ServesAt h.mem n b → KmallocResult h n (append h b n)

/-- What `kmalloc` returns when it returns. -/
theorem kmalloc_result (h0 : w ≠ 0) (h1 : ¬ align w < w) (hk : kmalloc k h w = some r) :
    KmallocResult h (align w) r := by
  by_cases hr : Refused h (align w)
  · rw [kmalloc_refused h0 h1 hr] at hk
    exact Option.some.inj hk ▸ .refused hr
  by_cases hh : h.heapHead = 0
  · rw [kmalloc_first h0 h1 hr hh] at hk
    exact Option.some.inj hk ▸ .first hr hh
  cases hs : search h.mem (align w) k h.heapHead with
  | none => exact absurd ((kmalloc_none h0 h1 hr hh hs).symm.trans hk) nofun
  | some e =>
    cases e with
    | fit b =>
      rw [kmalloc_fit h0 h1 hr hh hs] at hk
      obtain ⟨hb, hserves⟩ := searched_of_fit (.head hh) hs
      exact Option.some.inj hk ▸ .fit hr ⟨hb, .inl hserves⟩ hserves
    | last b =>
      rw [kmalloc_last h0 h1 hr hh hs] at hk
      obtain ⟨hb, hno⟩ := endsAt_of_last (.head hh) hs
      exact Option.some.inj hk ▸ .last hr hb hno

theorem KmallocResult.kmalloc (h0 : w ≠ 0) (h1 : ¬ align w < w) (hr : KmallocResult h (align w) r) :
    ∃ k, kmalloc k h w = some r := by
  cases hr with
  | refused hr => exact ⟨0, kmalloc_refused h0 h1 hr⟩
  | first hr hh => exact ⟨0, kmalloc_first h0 h1 hr hh⟩
  | fit hr hb hserves =>
    obtain ⟨k, hk⟩ := hb.search
    rw [if_pos hserves] at hk
    exact ⟨k, kmalloc_fit h0 h1 hr hb.1.listed.head_ne_zero hk⟩
  | last hr hb hno =>
    obtain ⟨k, hk⟩ := hb.search
    rw [if_neg hno] at hk
    exact ⟨k, kmalloc_last h0 h1 hr hb.1.listed.head_ne_zero hk⟩

theorem FindsRoom.nullOnlyFull {w : Word} (h0 : w ≠ 0) (h1 : ¬ align w < w) (hf : FindsRoom h (align w)) :
    NullOnlyFull h w := by
  intro k h' hk
  have hres := kmalloc_result h0 h1 hk
  generalize hnull : ((0 : Word), h') = r at hres
  cases hres with
  | refused hr => exact ⟨hf.refused hr, hr.not_roomAbove⟩
  | first _ hh => exact ⟨fun b hb => absurd hh hb.head_ne_zero, fun hroom => kmallocFirst_ne hroom hnull.symm⟩
  | fit hr hb hserves => exact absurd (Prod.mk.inj hnull).1.symm (hf.null hr _ hb.1 hserves)
  | last _ hb hno =>
    have hh := hb.1.listed.head_ne_zero
    obtain ⟨j, hs⟩ := hb.search
    rw [if_neg hno] at hs
    obtain ⟨bs, hbs, hnone⟩ := chain_of_last hh hs
    have hnone' : ∀ b, Listed h b → ¬ ServesAt h.mem (align w) b := fun b hb => hnone b (mem_of_listed hb hbs)
    refine ⟨hnone', fun hroom => ?_⟩
    obtain hlt | heq := Nat.lt_or_eq_of_le hroom
    · exact append_ne hlt hnull.symm
    · obtain ⟨b, hb, hserves⟩ := hf.exact hh ⟨bs, hbs⟩ heq
      exact hnone' b hb hserves

theorem NullOnlyFull.findsRoom {w : Word} (h0 : w ≠ 0) (h1 : ¬ align w < w) (hn : NullOnlyFull h w) :
    FindsRoom h (align w) := by
  refine ⟨fun hr => (hn 0 h (kmalloc_refused h0 h1 hr)).1, ?_, ?_⟩
  · rintro hh ⟨bs, hbs⟩ hend
    have hroom : RoomAbove h (align w) := hend.le
    by_contra hno
    have hno' : ∀ b ∈ bs, ¬ ServesAt h.mem (align w) b := fun b hb hserves =>
      hno ⟨b, listed_of_mem hbs .head b hb, hserves⟩
    obtain ⟨b, hs⟩ := search_of_chain hbs hh hno'
    refine (hn bs.length h ?_).2 hroom
    rw [kmalloc_last h0 h1 (fun hr => hr.not_roomAbove hroom) hh hs, append_eq_null hend]
  · intro hr b hb hserves hnull
    obtain ⟨k, hk⟩ := (KmallocResult.fit hr ⟨hb, .inl hserves⟩ hserves).kmalloc h0 h1
    rw [hnull] at hk
    exact (hn k _ hk).1 b hb.listed hserves

/-- **`kmalloc` returns `NULL` only for want of room exactly** on the requests with `FindsRoom`. -/
theorem nullOnlyFull_iff {w : Word} (h0 : w ≠ 0) (h1 : ¬ align w < w) :
    NullOnlyFull h w ↔ FindsRoom h (align w) :=
  ⟨NullOnlyFull.findsRoom h0 h1, FindsRoom.nullOnlyFull h0 h1⟩

/-- With 204 bytes left above the break, a request for a page is refused, and rightly. -/
theorem full_nullOnlyFull : ∃ s, Reach machine (fun _ _ => True) s ∧ s.live.length = 2 ∧
    (kmalloc 8 s.heap 0x1000).map Prod.fst = some 0 ∧ NullOnlyFull s.heap 0x1000 := by
  obtain ⟨s, hs, hout⟩ := exists_reach (k := 8) (fun _ => 0) [.malloc 0x3FFF00, .malloc 8]
    (fun s => (s.live.length, (kmalloc 8 s.heap 0x1000).map Prod.fst, [s.heap.heapHead, s.heap.heapEnd,
      next s.heap.mem 0x400000, next s.heap.mem 0x7FFF14, free s.heap.mem 0x400000,
        free s.heap.mem 0x7FFF14]))
    (2, some 0, [0x400000, 0x7FFF34, 0x7FFF14, 0, 0, 0]) (by decide +kernel)
  simp only [Prod.mk.injEq, List.cons.injEq] at hout
  obtain ⟨hlive, hnull, hhead, hend, hnext, hnext', hused, hused', -⟩ := hout
  have hchain : Chain (next s.heap.mem) 0 s.heap.heapHead [0x400000, 0x7FFF14] := by
    rw [hhead]
    refine .cons (by decide) ?_
    rw [hnext]
    refine .cons (by decide) ?_
    rw [hnext']
    exact .nil
  have hserves (b : Word) (hb : Listed s.heap b) : ¬ ServesAt s.heap.mem (align 0x1000) b := by
    intro h
    have hmem := mem_of_listed hb hchain
    simp only [List.mem_cons, List.not_mem_nil, or_false] at hmem
    obtain rfl | rfl := hmem
    · exact h.1 hused
    · exact h.1 hused'
  have hrefused : Refused s.heap (align 0x1000) := by
    unfold Refused
    rw [hend]
    decide
  refine ⟨s, hs, hlive, hnull,
    (nullOnlyFull_iff (by decide) (by decide)).mpr ⟨fun _ => hserves, fun _ _ hexact => ?_,
    fun hr => absurd hrefused hr⟩⟩
  rw [hend] at hexact
  exact absurd hexact (by decide)

/-- A large block is freed below a block in use, and a request that it would serve is refused. -/
theorem not_nullOnlyFull : ¬ ∀ s, Reach machine (fun _ _ => True) s →
    ∀ w, w ≠ 0 → ¬ align w < w → NullOnlyFull s.heap w := by
  intro hall
  obtain ⟨s, hs, hout⟩ := exists_reach (k := 8) (fun _ => 0)
    [.malloc 0x3FFF00, .malloc 8, .free 0x400014]
    (fun s => (s.heap.heapHead, decide (ServesAt s.heap.mem (align 0x1000) 0x400000),
      (kmalloc 8 s.heap 0x1000).map Prod.fst)) (0x400000, true, some 0) (by decide +kernel)
  obtain ⟨hhead, hserves, hnull⟩ := Prod.mk.inj hout |>.imp_right Prod.mk.inj
  obtain ⟨⟨p, h'⟩, hk, rfl⟩ := Option.map_eq_some_iff.mp hnull
  have hlisted : Listed s.heap 0x400000 := hhead ▸ .head (by rw [hhead]; decide)
  exact (hall s hs 0x1000 (by decide) (by decide) 8 h' hk).1 0x400000 hlisted (of_decide_eq_true hserves)

end SpatulaOS.Mm
