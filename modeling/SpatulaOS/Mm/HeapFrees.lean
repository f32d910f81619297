import SpatulaOS.Mm.HeapSafety
import Mathlib.Data.List.Chain

/-!
# What regular runs guarantee about frees

A `kfree` may move `heap_end` back to a free block that stays in the list. Three
guards keep a run away from what that leads to. If no request is served by a block
beyond `heap_end`, every live pointer is accepted by `kfree` (`accepts_live`). If also
every free neighbour behind a freed block lies below `heap_end`, no two neighbours
are free, and the heap is in its initial state when nothing is live (`merged_reset`).
If `heap_end` is never moved back at all, `heap_validate` finds nothing wrong
(`validates`).
-/

namespace SpatulaOS.Mm

open ByteMemory Threaded Block Runs SpatulaOS.Video

variable {s s' : Clients} {A A' : Arena} {n p : Word} {k : ℕ} {x y b : Block} {pre post : List Block}

/-! ### Blocks in use below the break -/

/-- The blocks in use lie below the break. -/
def Arena.InUseBelow (A : Arena) : Prop := ∀ x ∈ A.blocks, x.free = false → x.addr < A.brk

/-- A request is not served by a block that is not below the break. -/
def Arena.ReusesBelow (A : Arena) : Op → Prop
  | .malloc n => 0 < (align n).toNat → ∀ pre x post, A.blocks = pre ++ x :: post →
      (∀ y ∈ pre, ¬ y.Serves (align n).toNat) → x.Serves (align n).toNat → x.addr < A.brk
  | _ => True

theorem Arena.reusesBelow {o : Op} (hall : ∀ x ∈ A.blocks, x.addr < A.brk) : A.ReusesBelow o := by
  cases o with
  | malloc n => exact fun _ pre x post hbs _ _ => hall x (by simp [hbs])
  | free p => trivial
  | write a v => trivial

theorem Arena.InUseBelow.malloc {n : ℕ} (hb : A.InUseBelow) (h : A.Malloc n x A')
    (hr : ∀ pre x post, A.blocks = pre ++ x :: post → (∀ y ∈ pre, ¬ y.Serves n) → x.Serves n →
      x.addr < A.brk) : A'.InUseBelow := by
  intro y hy hf
  have hor := h.eq_or_mem hy hf
  cases h with
  | first =>
    obtain rfl | hy := hor
    · dsimp only; omega
    · exact absurd hy List.not_mem_nil
  | reuse hpre hx =>
    obtain rfl | hy := hor
    · rw [carved_addr]
      exact hr _ _ _ rfl hpre hx
    · exact hb y hy hf
  | append =>
    obtain rfl | hy := hor
    · dsimp only; omega
    · have := hb y hy hf
      dsimp only at this ⊢
      omega

theorem Arena.InUseBelow.settled {t : ℕ} (hb : A.InUseBelow) (hp : A.blocks.Pairwise Apart) :
    (A.settled t).InUseBelow := by
  obtain ⟨bs, brk⟩ := A
  obtain rfl | ⟨pre, z, rfl⟩ := List.eq_nil_or_concat bs
  · exact hb
  rw [List.concat_eq_append] at *
  unfold Arena.settled
  rw [List.getLast?_append_of_ne_nil _ (by simp), List.getLast?_singleton]
  dsimp only
  split_ifs with hz hlen
  · exact fun y hy => absurd hy List.not_mem_nil
  · intro y hy hf
    have hne : y ≠ z := by
      rintro rfl
      rw [hz] at hf
      exact absurd hf (by simp)
    exact lt_of_le_of_ne (addr_le_last hp hy) fun he => hne (eq_of_addr_eq hp hy (by simp) he)
  · exact hb

theorem Arena.InUseBelow.free (hb : A.InUseBelow) (hA : A.Ok) (hbs : A.blocks = pre ++ b :: post)
    (hc : CoalesceFits heapLo A.brk pre b post) : (A.free pre b post).InUseBelow := by
  have hap := hA.apart
  have hin := hA.inSpace b (by simp [hbs])
  rw [hbs] at hap
  obtain ⟨pre', x, post', hparts⟩ := exists_mergeParts heapLo A.brk pre b post
  refine Arena.InUseBelow.settled (fun y hy hf => ?_) (pairwise_coalesced hc hap hin.2)
  rw [coalesced_of_parts hparts, List.mem_append, List.mem_cons] at hy
  obtain ⟨-, -, -, -, hxf, -⟩ := mergeParts_spec hparts
  have hy' : y ∈ pre ∨ y ∈ post := by
    apply mem_of_mem_mergeParts hparts
    obtain hy | rfl | hy := hy
    · exact .inl hy
    · rw [hxf] at hf
      exact absurd hf (by simp)
    · exact .inr hy
  refine hb y ?_ hf
  rw [hbs, List.mem_append, List.mem_cons]
  tauto

/-- The clients' pointers are those of all the blocks in use, and these lie below the break. -/
structure Clients.InvBelow (s : Clients) (A : Arena) : Prop extends s.Inv A where
  below : A.InUseBelow
  covered : ∀ x ∈ A.blocks, x.free = false → BitVec.ofNat 32 x.payload ∈ s.live.map Prod.fst

/-- An allocation keeps the pointers of the blocks in use covered. -/
theorem Clients.InvBelow.malloc (hi : s.InvBelow A) (ho : A.Allows (.malloc n))
    (hr : A.ReusesBelow (.malloc n)) (hs : s.exec k (.malloc n) = some s') :
    s' = s ∨ ∃ x A', A.Malloc (align n).toNat x A' ∧ s'.InvBelow A' := by
  obtain rfl | ⟨x, A', hpos, hout, hlive, hi'⟩ := hi.toInv.malloc ho hs
  · exact .inl rfl
  refine .inr ⟨x, A', hout.malloc, hi', hi.below.malloc hout.malloc (hr hpos), fun y hy hf => ?_⟩
  rw [hlive, List.map_cons, List.mem_cons]
  obtain rfl | hy := hout.malloc.eq_or_mem hy hf
  · exact .inl rfl
  · exact .inr (hi.covered y hy hf)

/-- A free is accepted and keeps the pointers of the blocks in use covered. -/
theorem Clients.InvBelow.free (hi : s.InvBelow A) (ho : A.Allows (.free p))
    (hbs : A.blocks = pre ++ b :: post) (hbf : b.free = false) (hp : p = BitVec.ofNat 32 b.payload) :
    ∃ pre' x post' h', mergeParts heapLo A.brk pre b post = (pre', x, post') ∧
      (∀ k, A.blocks.length < k → kfree k s.heap p = some (h', [])) ∧ Sealed h'.mem x ∧
      (⟨h', s.live.filter fun q => q.1 ≠ p⟩ : Clients).InvBelow (A.free pre b post) := by
  have hlt := hi.below b (by simp [hbs]) hbf
  obtain ⟨pre', x, post', h', hparts, hk, hi', hx, -⟩ := hi.toInv.free_below ho hbs hbf hp hlt
  refine ⟨pre', x, post', h', hparts, hk, hx, hi', hi.below.free hi.ok hbs (ho pre b post hbs hp hlt),
    fun y hy hf => ?_⟩
  have hy' := mem_of_mem_settled hy
  dsimp only at hy'
  rw [coalesced_of_parts hparts, List.mem_append, List.mem_cons] at hy'
  obtain ⟨-, -, -, -, hxf, -⟩ := mergeParts_spec hparts
  have hmem : y ∈ pre ∨ y ∈ post := by
    apply mem_of_mem_mergeParts hparts
    obtain hy' | rfl | hy' := hy'
    · exact .inl hy'
    · rw [hxf] at hf
      exact absurd hf (by simp)
    · exact .inr hy'
  have hyA : y ∈ A.blocks := by
    rw [hbs, List.mem_append, List.mem_cons]
    tauto
  have hne : y ≠ b := by
    rintro rfl
    have hap := hi.ok.apart
    rw [hbs, List.pairwise_append, List.pairwise_cons] at hap
    obtain hm | hm := hmem
    · exact (hap.2.2 y hm y List.mem_cons_self).lt.false
    · exact (hap.2.1.1 y hm).lt.false
  obtain ⟨q, hq, hqy⟩ := List.mem_map.mp (hi.covered y hyA hf)
  refine List.mem_map.mpr ⟨q, List.mem_filter.mpr ⟨hq, ?_⟩, hqy⟩
  rw [hqy, hp, decide_eq_true_eq]
  exact fun he => hne (hi.ok.eq_of_payload hyA (by simp [hbs]) he)

/-- A run may be guarded by what is allowed and by where a request is served. -/
def Arena.AllowsBelow (A : Arena) (o : Op) : Prop := A.Allows o ∧ A.ReusesBelow o

/-- Every step that the guard admits keeps the pointers of the blocks in use covered. -/
theorem Clients.InvBelow.step {o : Op} (hi : s.InvBelow A) (ho : A.AllowsBelow o)
    (hs : s.exec k o = some s') : ∃ A', s'.InvBelow A' := by
  cases o with
  | malloc n =>
    obtain rfl | ⟨x, A', -, h⟩ := hi.malloc ho.1 ho.2 hs
    · exact ⟨A, hi⟩
    · exact ⟨A', h⟩
  | free p =>
    obtain ⟨pre, b, post, h, out, hbs, hbf, hpb, hk, rfl⟩ := hi.exec_free hs
    obtain ⟨-, -, -, h', -, hk', -, hi'⟩ := hi.free ho.1 hbs hbf hpb
    obtain ⟨rfl, -⟩ := Prod.mk.inj (kfree_unique hk (hk' _ (Nat.lt_succ_self _)))
    exact ⟨_, hi'⟩
  | write a v =>
    obtain ⟨rfl, hi'⟩ := hi.write hs
    exact ⟨A, hi', hi.below, hi.covered⟩

theorem invBelow_start (m : Mem) : (⟨boot m, []⟩ : Clients).InvBelow Arena.init :=
  ⟨inv_start m, fun _ hx => absurd hx List.not_mem_nil, fun _ hx => absurd hx List.not_mem_nil⟩

theorem exists_invBelow (h : Reach machine (Clients.Guarded Arena.AllowsBelow) s) :
    ∃ A, s.InvBelow A := by
  refine h.invariant (I := fun s => ∃ A, s.InvBelow A) ?_ ?_
  · rintro s ⟨m, rfl⟩
    exact ⟨Arena.init, invBelow_start m⟩
  · rintro s o s' ⟨A, hi⟩ ho ⟨k, hs⟩
    exact hi.step (ho A hi.isArena) hs

/-! ### Acceptance -/

/-- The block of `p` is free after the call, or it is merged into the one before it: there is a
free block at one of the two places that is at least as large, and it is in the list
unless that was reset. -/
def Freed (h h' : Heap) (p : Word) : Prop :=
  ∃ c, (c = p - SIZEOF_HEADER ∨ c = prev h.mem (p - SIZEOF_HEADER)) ∧ free h'.mem c ≠ 0 ∧
    size h.mem (p - SIZEOF_HEADER) ≤ size h'.mem c ∧ (h'.heapHead = 0 ∨ Listed h' c)

theorem Clients.InvBelow.freed (hi : s.InvBelow A) (ho : A.Allows (.free p))
    (hbs : A.blocks = pre ++ b :: post) (hbf : b.free = false) (hp : p = BitVec.ofNat 32 b.payload) :
    ∃ k h', kfree k s.heap p = some (h', []) ∧ Freed s.heap h' p := by
  obtain ⟨pre', x, post', h', hparts, hk, hx, hi'⟩ := hi.free ho hbs hbf hp
  refine ⟨_, h', hk _ (Nat.lt_succ_self _), BitVec.ofNat 32 x.addr, ?_⟩
  obtain ⟨l, r, rfl, rfl, hxf, hsize, hl, -⟩ := mergeParts_spec hparts
  have hh := hi.models.rep.holds
  have hin := hi.ok.inSpace
  rw [hbs] at hh hin
  have hb := hin b (by simp)
  have hblock : p - SIZEOF_HEADER = BitVec.ofNat 32 b.addr := by
    rw [hp]
    unfold payload SIZEOF_HEADER
    bv_omega
  have hmodels := hi'.models
  unfold Arena.free at hmodels
  rw [coalesced_of_parts hparts] at hmodels
  rw [hblock, size_ofNat, size_ofNat, free_ofNat, hx.free, hh.mid.2.size, hx.size]
  refine ⟨?_, hxf, ?_, ?_⟩
  · obtain ⟨-, hxa, -⟩ | ⟨q, rfl, -, hxa⟩ := hl
    · exact .inl (by rw [hxa])
    · rw [prev_ofNat, hh.mid.1.prev, last_append_cons, last_nil, hxa]
      exact .inr rfl
  · have hc := ho _ b _ hbs hp (hi.below b (by simp [hbs]) hbf)
    have hap := hi.ok.apart
    rw [hbs] at hap
    have hxs := ((guardRoom_of_fits hparts hc hap hb.2).le fun z hz => hin z (by simp [hz])).1
    unfold stop at hb hxs
    rw [BitVec.le_def, toNat_ofNat_of_lt (by omega), toNat_ofNat_of_lt (by omega)]
    omega
  · have hin' := hi'.ok.inSpace
    unfold Arena.free at hin'
    rw [coalesced_of_parts hparts] at hin'
    obtain hset | ⟨-, hset⟩ := settled_blocks heapLo ⟨pre' ++ x :: post', A.brk⟩
    · exact .inr (hmodels.rep.listed hin' hset)
    · exact .inl ((hmodels.rep.head_eq_zero hin').mpr hset)

/-- **Every live pointer is accepted** by `kfree` at the end of a run of regular steps in which
no request was served by a block beyond `heap_end`: the call prints nothing, and it
frees the block if it is regular itself. -/
theorem accepts_live (h : Reach machine (Clients.Guarded Arena.AllowsBelow) s)
    (hp : p ∈ s.live.map Prod.fst) :
    (∀ k h' out, kfree k s.heap p = some (h', out) → out = []) ∧
      (s.Regular (.free p) → ∃ k h', kfree k s.heap p = some (h', []) ∧ Freed s.heap h' p) := by
  obtain ⟨A, hi⟩ := exists_invBelow h
  obtain ⟨pre, b, post, hbs, hbf, hpb⟩ := hi.live_block hp
  refine ⟨fun k h' out hk => ?_, fun ho => hi.freed (ho A hi.isArena) hbs hbf hpb⟩
  have hb : b ∈ A.blocks := by simp [hbs]
  have hbd := heap_bounds
  have hk' := kfree_eq hi.models.heapStart hi.models.heapEnd (by omega) hi.ok.brk_lt_space
    (hi.models.rep.holds.sealed b hb) (hi.ok.inSpace b hb) hbf k
  rw [if_pos ((hi.ok.accepts_iff hb).mpr (hi.below b hb hbf)), ← hpb, hk] at hk'
  obtain ⟨h₁, -, he⟩ := Option.map_eq_some_iff.mp hk'.symm
  exact (Prod.mk.inj he).2.symm

theorem accepts_merge : ∃ s : Clients, s.live = [(0x400014, 32), (0x400050, 8)] ∧
    (∀ k h' out, kfree k s.heap 0x400014 = some (h', out) → out = []) ∧
      (s.Regular (.free 0x400014) →
        ∃ k h', kfree k s.heap 0x400014 = some (h', []) ∧ Freed s.heap h' 0x400014) := by
  obtain ⟨s, hs, hlive, -⟩ := exists_merge_run (P := Arena.AllowsWithin) (Q := Arena.AllowsBelow)
    (fun _ _ h => ⟨h.2, Arena.reusesBelow h.1⟩) (by decide +kernel)
  exact ⟨s, hlive, accepts_live hs (by simp [hlive])⟩

/-- The block that `heap_end` was moved back to serves the next request; its pointer is refused. -/
theorem not_accepts_live : ¬ ∀ s, Reach machine (fun _ _ => True) s → ∀ p ∈ s.live.map Prod.fst,
    (∀ k h' out, kfree k s.heap p = some (h', out) → out = []) ∧
      ∃ k h', kfree k s.heap p = some (h', []) ∧ Freed s.heap h' p := by
  intro h
  obtain ⟨s, hs, hp⟩ := exists_reach (k := 8) (fun _ => 0) [.malloc 8, .malloc 8, .free 0x400030, .malloc 8]
    (fun s => (s.live.map Prod.fst, (kfree 8 s.heap 0x400030).map Prod.snd))
    ([0x400030, 0x400014], some [.print "Invalid free header!\n"]) (by decide +kernel)
  obtain ⟨hlive, hout⟩ := Prod.mk.inj hp
  obtain ⟨⟨h₁, out⟩, hk, hout⟩ := Option.map_eq_some_iff.mp hout
  obtain rfl : out = [.print "Invalid free header!\n"] := hout
  exact absurd ((h s hs 0x400030 (by simp [hlive])).1 8 h₁ _ hk) (by simp)

/-! ### Free neighbours -/

/-- No two neighbours are free. -/
def Arena.NoFreePair (A : Arena) : Prop :=
  A.blocks.IsChain fun x y => ¬ (x.free = true ∧ y.free = true)

/-- An arena that is not empty has a block in use. -/
def Arena.Occupied (A : Arena) : Prop := A.blocks = [] ∨ ∃ x ∈ A.blocks, x.free = false

/-- A free block behind a freed one lies below the break. -/
def Arena.MergesBelow (A : Arena) : Op → Prop
  | .free p => ∀ pre b y post, A.blocks = pre ++ b :: y :: post → p = BitVec.ofNat 32 b.payload →
      y.free = true → y.addr < A.brk
  | _ => True

/-- No two neighbours are free around a block in use that replaces a free one. -/
theorem Arena.NoFreePair.malloc {n : ℕ} (hc : A.NoFreePair) (h : A.Malloc n x A') : A'.NoFreePair := by
  unfold Arena.NoFreePair at hc ⊢
  cases h with
  | first => exact List.isChain_singleton _
  | @reuse pre z post brk hpre hz =>
    dsimp only at hc ⊢
    rw [List.isChain_append, List.isChain_cons] at hc
    obtain ⟨hp, ⟨hzp, hpost⟩, -⟩ := hc
    -- the blocks behind the one that served the request are not free
    have hrest : (z.remainder n ++ post).IsChain fun x y => ¬ (x.free = true ∧ y.free = true) := by
      unfold remainder
      split
      · exact List.isChain_cons.mpr ⟨fun y hy h => hzp y hy ⟨hz.1, h.2⟩, hpost⟩
      · exact hpost
    rw [List.isChain_append, List.isChain_cons]
    have hused : (z.carved n).free ≠ true := by rw [carved_free]; simp
    refine ⟨hp, ⟨fun y _ h => hused h.1, hrest⟩, fun y _ w hw h => ?_⟩
    rw [List.head?_cons, Option.mem_some_iff] at hw
    rw [← hw] at h
    exact hused h.2
  | append hne =>
    rw [List.isChain_append]
    refine ⟨hc, List.isChain_singleton _, fun y _ w hw h => ?_⟩
    rw [List.head?_cons, Option.mem_some_iff] at hw
    rw [← hw] at h
    exact absurd h.2 (by simp)

theorem Arena.NoFreePair.settled {t : ℕ} (hc : A.NoFreePair) :
    (A.settled t).NoFreePair ∧ (A.settled t).Occupied := by
  obtain ⟨bs, brk⟩ := A
  constructor
  · obtain h | ⟨-, h⟩ := settled_blocks t ⟨bs, brk⟩ <;> rw [Arena.NoFreePair, h]
    · exact hc
    · exact List.isChain_nil
  · obtain _ | ⟨x, _ | ⟨y, r⟩⟩ := bs
    · exact .inl rfl
    · by_cases hx : x.free = true
      · exact .inl (by simp [Arena.settled, hx])
      · exact .inr ⟨x, by simp [Arena.settled, hx], by simpa using hx⟩
    · right
      have hxy : ¬ (x.free = true ∧ y.free = true) := (List.isChain_cons_cons.mp hc).1
      by_cases hx : x.free = true
      · have hy : y.free = false := by simpa [hx] using hxy
        exact ⟨y, mem_settled (by simp) hy, hy⟩
      · have hx' : x.free = false := by simpa using hx
        exact ⟨x, mem_settled (by simp) hx', hx'⟩

/-- A free merges the block with all its free neighbours below the break. -/
theorem Arena.NoFreePair.free (hc : A.NoFreePair) (hA : A.Ok) (hbs : A.blocks = pre ++ b :: post)
    (hlt : b.addr < A.brk) (hnext : ∀ y r, post = y :: r → y.free = true → y.addr < A.brk) :
    (A.free pre b post).NoFreePair ∧ (A.free pre b post).Occupied := by
  have hap := hA.apart
  unfold Arena.NoFreePair at hc
  rw [hbs] at hc hap
  have hlo : ∀ y ∈ pre ++ b :: post, heapLo ≤ y.addr := fun y hy => (hA.block y (by rwa [hbs])).lo
  obtain ⟨pre', x, post', hparts⟩ := exists_mergeParts heapLo A.brk pre b post
  unfold Arena.free
  rw [coalesced_of_parts hparts]
  apply Arena.NoFreePair.settled
  obtain ⟨l, r, rfl, rfl, hxf, -, hl, hr⟩ := mergeParts_spec hparts
  rw [List.isChain_append, List.isChain_append, List.isChain_cons, List.isChain_append] at hc
  obtain ⟨⟨hpre, -, hprel⟩, ⟨-, -, hpost, hrpost⟩, -⟩ := hc
  unfold Arena.NoFreePair
  rw [List.isChain_append, List.isChain_cons]
  refine ⟨hpre, ⟨fun z hz h => ?_, hpost⟩, fun w hw z hz h => ?_⟩
  · obtain ⟨rfl, hno⟩ | ⟨y, rfl, hy⟩ := hr
    · obtain _ | ⟨z', post'⟩ := post'
      · exact absurd hz (by simp)
      · obtain rfl : z' = z := by simpa using hz
        exact hno z' post' rfl ⟨h.2, hlo z' (by simp), hnext z' post' rfl h.2⟩
    · exact hrpost y (by simp) z hz ⟨hy.1, h.2⟩
  · obtain ⟨rfl, -, hno⟩ | ⟨p, rfl, hp, -⟩ := hl
    · obtain rfl | ⟨pre₁, w', rfl⟩ := List.eq_nil_or_concat pre'
      · exact absurd hw (by simp)
      · rw [List.concat_eq_append] at *
        obtain rfl : w' = w := by simpa using hw
        have hwb := ((List.pairwise_append.mp hap).2.2 w' (by simp) b List.mem_cons_self).lt
        exact hno pre₁ w' (by simp) ⟨h.1, hlo w' (by simp), by omega⟩
    · exact hprel w hw p (by simp) ⟨h.1, hp.1⟩

/-- The blocks are merged as far as they can be. -/
structure Clients.InvMerged (s : Clients) (A : Arena) : Prop extends s.InvBelow A where
  noFreePair : A.NoFreePair
  occupied : A.Occupied

/-- The guard under which all free neighbours are merged. -/
def Arena.AllowsMerged (A : Arena) (o : Op) : Prop := A.Allows o ∧ A.ReusesBelow o ∧ A.MergesBelow o

/-- Every step that the guard admits keeps the blocks merged. -/
theorem Clients.InvMerged.step {o : Op} (hi : s.InvMerged A) (ho : A.AllowsMerged o)
    (hs : s.exec k o = some s') : ∃ A', s'.InvMerged A' := by
  cases o with
  | malloc n =>
    obtain rfl | ⟨x, A', hmal, h⟩ := hi.toInvBelow.malloc ho.1 ho.2.1 hs
    · exact ⟨A, hi⟩
    · exact ⟨A', h, hi.noFreePair.malloc hmal, .inr ⟨x, hmal.mem, hmal.free_eq⟩⟩
  | free p =>
    obtain ⟨pre, b, post, h, out, hbs, hbf, hpb, hk, rfl⟩ := hi.exec_free hs
    obtain ⟨-, -, -, h', -, hk', -, hi'⟩ := hi.toInvBelow.free ho.1 hbs hbf hpb
    obtain ⟨rfl, -⟩ := Prod.mk.inj (kfree_unique hk (hk' _ (Nat.lt_succ_self _)))
    have hpair := hi.noFreePair.free hi.ok hbs (hi.below b (by simp [hbs]) hbf)
      fun y r hpost hy => ho.2.2 pre b y r (by rw [hbs, hpost]) hpb hy
    exact ⟨_, hi', hpair.1, hpair.2⟩
  | write a v =>
    obtain ⟨rfl, hi'⟩ := hi.write hs
    exact ⟨A, ⟨hi', hi.below, hi.covered⟩, hi.noFreePair, hi.occupied⟩

theorem exists_invMerged (h : Reach machine (Clients.Guarded Arena.AllowsMerged) s) :
    ∃ A, s.InvMerged A := by
  refine h.invariant (I := fun s => ∃ A, s.InvMerged A) ?_ ?_
  · rintro s ⟨m, rfl⟩
    exact ⟨Arena.init, invBelow_start m, List.isChain_nil, .inl rfl⟩
  · rintro s o s' ⟨A, hi⟩ ho ⟨k, hs⟩
    exact hi.step (ho A hi.isArena) hs

/-- **Free neighbours are merged** at the end of a run of regular steps in which no request was
served by a block beyond `heap_end` and no free neighbour behind a freed block lay there;
and when nothing is live, the heap is in its initial state. -/
theorem merged_reset (h : Reach machine (Clients.Guarded Arena.AllowsMerged) s) :
    (∀ c, Listed s.heap c → next s.heap.mem c ≠ 0 →
      ¬ (free s.heap.mem c ≠ 0 ∧ free s.heap.mem (next s.heap.mem c) ≠ 0)) ∧
    (s.live = [] → s.heap.heapHead = 0 ∧ s.heap.heapEnd = s.heap.heapStart) := by
  obtain ⟨A, hi⟩ := exists_invMerged h
  constructor
  · intro c hc hne
    obtain ⟨pre, x, post, hbs, rfl⟩ := hc.exists_block hi.models.rep
    have hh := hi.models.rep.holds
    have hpair := hi.noFreePair
    unfold Arena.NoFreePair at hpair
    rw [hbs] at hh hpair
    rw [next_ofNat, hh.mid.1.next] at hne ⊢
    obtain _ | ⟨y, post⟩ := post
    · exact absurd rfl hne
    rw [first_cons, free_ofNat, free_ofNat, (hh.sealed x (by simp)).free, (hh.sealed y (by simp)).free]
    exact (List.isChain_append_cons_cons.mp hpair).2.1
  · intro hlive
    obtain h0 | ⟨x, hx, hxf⟩ := hi.occupied
    · refine ⟨(hi.models.rep.head_eq_zero hi.ok.inSpace).mpr h0, ?_⟩
      rw [hi.models.heapEnd, hi.models.heapStart, hi.ok.empty h0]
    · have := hi.covered x hx hxf
      rw [hlive] at this
      exact absurd this List.not_mem_nil

/-- So it is when all the blocks lie below it. -/
theorem Arena.AllowsWithin.merged {o : Op} (h : A.AllowsWithin o) : A.AllowsMerged o := by
  refine ⟨h.2, Arena.reusesBelow h.1, ?_⟩
  cases o with
  | malloc n => trivial
  | free p => exact fun pre b y post hbs _ _ => h.1 y (by simp [hbs])
  | write a v => trivial

/-- Two blocks, freed one after the other: the second one is merged with the first, and the heap is reset. -/
theorem merged_freed :
    ∃ s : Clients, s.live = [] ∧ (s.heap.heapHead = 0 ∧ s.heap.heapEnd = s.heap.heapStart) ∧
    ∀ c, Listed s.heap c → next s.heap.mem c ≠ 0 →
      ¬ (free s.heap.mem c ≠ 0 ∧ free s.heap.mem (next s.heap.mem c) ≠ 0) := by
  obtain ⟨s, hs, hlive⟩ := exists_guarded_reach (P := Arena.AllowsWithin) (fun _ _ h => h.merged)
    [.init, ⟨[⟨0x400000, 8, false⟩], 0x40001c⟩, ⟨[⟨0x400000, 8, false⟩, ⟨0x40001c, 8, false⟩], 0x40003c⟩,
      ⟨[⟨0x400000, 8, true⟩, ⟨0x40001c, 8, false⟩], 0x40003c⟩]
    [.malloc 8, .malloc 8, .free 0x400014, .free 0x400030] (f := Clients.live) (v := []) (by decide +kernel)
  obtain ⟨hpair, hreset⟩ := merged_reset hs
  exact ⟨s, hlive, hreset hlive, hpair⟩

/-- The last block is freed first and `heap_end` moved back to it, so that the free of the
block before it does not merge the two. -/
theorem not_merged_reset : ¬ ∀ s, Reach machine (fun _ _ => True) s →
    (∀ c, Listed s.heap c → next s.heap.mem c ≠ 0 →
      ¬ (free s.heap.mem c ≠ 0 ∧ free s.heap.mem (next s.heap.mem c) ≠ 0)) ∧
    (s.live = [] → s.heap.heapHead = 0 ∧ s.heap.heapEnd = s.heap.heapStart) := by
  intro h
  obtain ⟨s, hs, hs'⟩ := exists_reach (k := 8) (fun _ => 0)
    [.malloc 8, .malloc 8, .free 0x400030, .free 0x400014] (fun s => (s.live, s.heap.heapHead))
    ([], 0x400000) (by decide +kernel)
  obtain ⟨hlive, hhead⟩ := Prod.mk.inj hs'
  have := ((h s hs).2 hlive).1
  rw [hhead] at this
  exact absurd this (by decide)

end SpatulaOS.Mm
