import SpatulaOS.Mm.HeapClients

/-!
# What regular runs of the heap guarantee

In every state at the end of a run of regular steps the live payloads are disjoint
from each other and from the headers of the list, and no call disturbs them
(`regular_separate`); what `kmalloc` returns lies in the heap (`regular_in_heap`);
and the list is finite, so that every call terminates (`regular_terminates`). A run
with a step that is not regular breaks each of the three: the examples of such runs
are the shortest ones.
-/

namespace SpatulaOS.Mm

open ByteMemory Threaded Block Runs SpatulaOS.Video

variable {s s' : Clients} {A : Arena} {n p a : Word} {k : ℕ} {x y : Block} {q : Word × Word}

/-! ### Separation -/

/-- The live payloads are disjoint from each other and from the headers of the list. -/
structure Clients.Separate (s : Clients) : Prop where
  payloads : s.live.Pairwise fun q r => Disjoint (payloadOf q) (payloadOf r)
  headers : ∀ block, Listed s.heap block → ∀ q ∈ s.live,
    Disjoint (Set.Ico block.toNat (block.toNat + 20)) (payloadOf q)

/-- The payloads that are live before and after a step are left alone by it. -/
def Clients.KeepsLive (s s' : Clients) : Prop :=
  ∀ q ∈ s.live, q ∈ s'.live → ∀ a : Word, a.toNat ∈ payloadOf q → s'.heap.mem a = s.heap.mem a

theorem Clients.Inv.payloadOf_subset (hi : s.Inv A) (hq : q ∈ s.live) : ∃ x ∈ A.blocks,
    x.free = false ∧ q.1 = BitVec.ofNat 32 x.payload ∧ payloadOf q ⊆ Set.Ico x.payload x.stop := by
  obtain ⟨x, hx, hf, hqx, -, hn⟩ := hi.block q hq
  refine ⟨x, hx, hf, hqx, fun k hk => ?_⟩
  rw [payloadOf, hqx, toNat_ofNat_of_lt (hi.ok.payload_lt hx), Set.mem_Ico] at hk
  rw [Set.mem_Ico]
  unfold payload stop at *
  omega

theorem Clients.Inv.separate (hi : s.Inv A) : s.Separate := by
  have hap := hi.ok.apart
  constructor
  · refine (List.pairwise_map.mp hi.nodup).imp_of_mem fun {q r} hq hr hne => ?_
    obtain ⟨x, hx, -, hqx, hsx⟩ := hi.payloadOf_subset hq
    obtain ⟨y, hy, -, hry, hsy⟩ := hi.payloadOf_subset hr
    refine Set.disjoint_of_subset hsx hsy (Set.disjoint_left.mpr fun k hkx hky => ?_)
    rw [Set.mem_Ico] at hkx hky
    unfold payload stop at hkx hky
    obtain rfl | hxy | hyx := eq_or_apart hap hx hy
    · exact hne (hqx.trans hry.symm)
    · have := hxy.le
      unfold stop at this
      omega
    · have := hyx.le
      unfold stop at this
      omega
  · intro c hc q hq
    obtain ⟨pre, y, post, hbs, rfl⟩ := hc.exists_block hi.models.rep
    have hy : y ∈ A.blocks := by simp [hbs]
    obtain ⟨x, hx, -, -, hsx⟩ := hi.payloadOf_subset hq
    refine Set.disjoint_of_subset_right hsx (Set.disjoint_left.mpr fun k hky hkx => ?_)
    have hya := hi.ok.payload_lt hy
    unfold payload at hya
    rw [toNat_ofNat_of_lt (by omega), Set.mem_Ico] at hky
    rw [Set.mem_Ico] at hkx
    unfold payload stop at hkx
    obtain rfl | hxy | hyx := eq_or_apart hap hx hy
    · omega
    · have := hxy.le
      unfold stop at this
      omega
    · have := hyx.le
      unfold stop at this
      omega

/-- A call of the allocator that the arena allows leaves the live payloads alone. -/
theorem Clients.Inv.keepsLive {o : Op} (hi : s.Inv A) (ho : A.Allows o) (hs : s.exec k o = some s')
    (hcall : ∀ a v, o ≠ .write a v) : s.KeepsLive s' := by
  intro q hq hq' a ha
  obtain ⟨x, hx, hxf, hqx, hsub⟩ := hi.payloadOf_subset hq
  obtain ⟨h1, h2⟩ := hsub ha
  cases o with
  | malloc n =>
    obtain rfl | ⟨y, A', -, hout, -⟩ := hi.malloc ho hs
    · rfl
    · exact hout.keeps x hx hxf a h1 h2
  | free p =>
    obtain ⟨pre, b, post, h, out, hbs, hbf, hpb, hk, rfl⟩ := hi.exec_free hs
    by_cases hlt : b.addr < A.brk
    · obtain ⟨pre', y, post', h', hparts, hk', -, -, hkeep⟩ := hi.free_below ho hbs hbf hpb hlt
      obtain ⟨rfl, -⟩ := Prod.mk.inj (kfree_unique hk (hk' _ (Nat.lt_succ_self _)))
      have hne : x ≠ b := by
        rintro rfl
        have := (List.mem_filter.mp hq').2
        simp [hqx, hpb] at this
      have hx' : x ∈ pre ∨ x ∈ post := by
        rw [hbs, List.mem_append, List.mem_cons] at hx
        tauto
      exact (hkeep x (mem_mergeParts hparts hx' hxf)).payload a h1 h2
    · obtain ⟨⟨msg, hk'⟩, -⟩ := hi.free_above (by simp [hbs]) hbf hpb hlt
      obtain ⟨rfl, -⟩ := Prod.mk.inj (kfree_unique hk (hk' 0))
      rfl
  | write a v => exact absurd rfl (hcall a v)

/-- **Separation.** At the end of a run of regular steps the live payloads are disjoint from
each other and from the headers of the list, and a further call leaves alone every
payload that stays live. -/
theorem regular_separate (h : Reach machine Clients.Regular s) :
    s.Separate ∧ ∀ o s', s.Regular o → machine.step s o s' → (∀ a v, o ≠ .write a v) → s.KeepsLive s' := by
  obtain ⟨A, hi⟩ := exists_inv h
  exact ⟨hi.separate, fun o s' ho ⟨_, hs⟩ hcall => hi.keepsLive (ho A hi.isArena) hs hcall⟩

theorem merge_separate : ∃ s : Clients, s.live = [(0x400014, 32), (0x400050, 8)] ∧ s.Separate ∧
    ∀ o s', s.Regular o → machine.step s o s' → (∀ a v, o ≠ .write a v) → s.KeepsLive s' := by
  obtain ⟨s, hs, hlive, -⟩ := exists_regular_merge
  exact ⟨s, hlive, regular_separate hs⟩

/-- The block that a `kfree` moved `heap_end` back to stays in the list: it serves a request,
and the next one is appended over it. -/
theorem not_separate : ¬ ∀ s, Reach machine (fun _ _ => True) s →
    s.Separate ∧ ∀ o s', machine.step s o s' → (∀ a v, o ≠ .write a v) → s.KeepsLive s' := by
  intro h
  obtain ⟨s, hs, hlive⟩ := exists_reach (k := 8) (fun _ => 0)
    [.malloc 8, .malloc 8, .free 0x400030, .malloc 8, .malloc 8] Clients.live
    [(0x400030, 8), (0x400030, 8), (0x400014, 8)] (by decide +kernel)
  have := (h s hs).1.payloads
  rw [hlive, List.pairwise_cons] at this
  have hmem : 0x400030 ∈ payloadOf (0x400030, 8) := by rw [payloadOf, Set.mem_Ico]; decide
  exact Set.disjoint_left.mp (this.1 (0x400030, 8) (by simp)) hmem hmem

/-! ### Bounds -/

/-- **What `kmalloc` returns lies in the heap**, with the header before it and the guard word
after it, in arithmetic that does not wrap round; or it is `NULL` and nothing changed. -/
theorem regular_in_heap (h : Reach machine Clients.Regular s) (hn : s.Regular (.malloc n)) :
    ∃ p h', (∃ k, kmalloc k s.heap n = some (p, h')) ∧ (p = 0 ∧ h' = s.heap ∨
      heapLo + 20 ≤ p.toNat ∧ p.toNat + (n.toNat + 7) / 8 * 8 + 4 ≤ heapHi) := by
  obtain ⟨A, hi⟩ := exists_inv h
  have ho := hn A hi.isArena
  obtain ⟨p, h', hk, hout⟩ := kmalloc_spec hi.models hi.ok n (fun h => (ho h).1) fun h => (ho h).2
  refine ⟨p, h', ⟨_, hk _ (Nat.lt_succ_self _)⟩, ?_⟩
  obtain hnull | ⟨hn0, hround, x, A', rfl, hout⟩ := hout
  · exact .inl hnull
  · obtain ⟨hn8, hn8d, hnn⟩ := align_ok hn0 hround
    have hA' := hi.ok.malloc hn8 hn8d (ho (by omega)).1 hout.malloc
    have hx := hA'.block x hout.malloc.mem
    have hround' := toNat_align n
    have hsize := hout.malloc.le_size
    have hlo := hx.lo
    have hhi := hx.hi
    right
    rw [toNat_ofNat_of_lt (hA'.payload_lt hout.malloc.mem)]
    unfold payload stop at *
    omega

theorem merge_in_heap : ∃ s : Clients, s.live = [(0x400014, 32), (0x400050, 8)] ∧
    ∃ p h', (∃ k, kmalloc k s.heap 100 = some (p, h')) ∧ (p = 0 ∧ h' = s.heap ∨
      heapLo + 20 ≤ p.toNat ∧ p.toNat + ((100 : Word).toNat + 7) / 8 * 8 + 4 ≤ heapHi) := by
  obtain ⟨s, hs, hlive, ha⟩ := exists_regular_merge
  exact ⟨s, hlive, regular_in_heap hs (ha.guarded (Arena.allows_malloc (by decide) (by decide)))⟩

/-- With less than a header's room left the test for the room wraps round, and so does the
new `heap_end` of a request that is large enough. -/
theorem not_in_heap : ¬ ∀ s, Reach machine (fun _ _ => True) s → ∀ n,
    ∃ p h', (∃ k, kmalloc k s.heap n = some (p, h')) ∧ (p = 0 ∧ h' = s.heap ∨
      heapLo + 20 ≤ p.toNat ∧ p.toNat + (n.toNat + 7) / 8 * 8 + 4 ≤ heapHi) := by
  intro h
  obtain ⟨s, hs, hp⟩ := exists_reach (k := 8) (fun _ => 0) [.malloc 0x3fffe8]
    (fun s => (kmalloc 8 s.heap 0xffffffe8).map Prod.fst) (some 0x800010) (by decide +kernel)
  obtain ⟨⟨p, h₁⟩, hk, rfl⟩ := Option.map_eq_some_iff.mp hp
  obtain ⟨p', h', ⟨k, hk'⟩, hout⟩ := h s hs 0xffffffe8
  obtain ⟨rfl, -⟩ := Prod.mk.inj (kmalloc_unique hk' hk)
  obtain ⟨h0, -⟩ | ⟨-, hhi⟩ := hout
  · exact absurd h0 (by decide)
  · exact absurd hhi (by decide)

/-! ### Termination -/

/-- The blocks that a walk along the `next` pointers from `block` visits before it reaches `NULL`. -/
def Visits (m : Mem) : Word → List Word → Prop
  | block, [] => block = 0
  | block, c :: l => block ≠ 0 ∧ c = block ∧ Visits m (next m block) l

theorem visits_of_thread {m : Mem} {bs : List Block} {e : ℕ} (hl : Thread Block.addr (Link m) e bs 0)
    (hs : InSpace bs) :
    Visits m (BitVec.ofNat 32 (first Block.addr bs 0)) (bs.map fun x => BitVec.ofNat 32 x.addr) := by
  induction bs generalizing e with
  | nil => rfl
  | cons x bs ih =>
    have hx := hs x List.mem_cons_self
    unfold stop at hx
    refine ⟨by rw [first_cons, ne_eq, ofNat_eq_zero_iff (by omega)]; omega, rfl, ?_⟩
    rw [first_cons, next_ofNat, hl.1.next]
    exact ih hl.2 fun z hz => hs z (List.mem_cons_of_mem _ hz)

theorem dumpLoop_isSome {m : Mem} {block : Word} {l : List Word} (hv : Visits m block l) (i : Word)
    (hk : l.length < k) : (dumpLoop m k block i).isSome := by
  induction l generalizing k block i with
  | nil =>
    obtain ⟨k, rfl⟩ := Nat.exists_eq_add_of_lt hk
    obtain rfl : block = 0 := hv
    rfl
  | cons c l ih =>
    obtain ⟨k, rfl⟩ : ∃ j, k = j + 1 := ⟨k - 1, by omega⟩
    obtain ⟨h0, -, hv⟩ := hv
    rw [dumpLoop, if_neg h0, Option.isSome_map]
    exact ih hv _ (by simpa using hk)

/-- **Termination.** At the end of a run of regular steps the walk along the list ends and visits
no block twice, and every further call ends: `kmalloc` of any size, `kfree` of a live
pointer if it is regular, and `heap_dump`. -/
theorem regular_terminates (h : Reach machine Clients.Regular s) :
    (∃ l, Visits s.heap.mem s.heap.heapHead l ∧ l.Nodup) ∧ (∀ n, ∃ k, (kmalloc k s.heap n).isSome) ∧
      (∀ p ∈ s.live.map Prod.fst, s.Regular (.free p) → ∃ k, (kfree k s.heap p).isSome) ∧
      ∃ k, (heapDump k s.heap).isSome := by
  obtain ⟨A, hi⟩ := exists_inv h
  have hv := visits_of_thread hi.models.rep.holds.links hi.ok.inSpace
  rw [← hi.models.rep.head] at hv
  refine ⟨⟨_, hv, ?_⟩, fun n => ⟨_, kmalloc_isSome hi.models hi.ok n (Nat.lt_succ_self _)⟩, ?_, ?_⟩
  · rw [List.Nodup, List.pairwise_map]
    refine hi.ok.apart.imp_of_mem fun {x y} hx hy hxy he => ?_
    have h1 := hi.ok.payload_lt hx
    have h2 := hi.ok.payload_lt hy
    unfold payload at h1 h2
    exact hxy.lt.ne (ofNat_inj (by omega) (by omega) he)
  · intro p hp ho
    obtain ⟨pre, b, post, hbs, hbf, hpb⟩ := hi.live_block hp
    by_cases hlt : b.addr < A.brk
    · obtain ⟨-, -, -, h', -, hk, -⟩ := hi.free_below (ho A hi.isArena) hbs hbf hpb hlt
      exact ⟨_, by rw [hk _ (Nat.lt_succ_self _)]; rfl⟩
    · obtain ⟨⟨msg, hk⟩, -⟩ := hi.free_above (by simp [hbs]) hbf hpb hlt
      exact ⟨0, by rw [hk]; rfl⟩
  · by_cases h0 : s.heap.heapHead = 0
    · exact ⟨0, by rw [heapDump, if_pos h0]; rfl⟩
    · have hk := dumpLoop_isSome hv 0 (Nat.lt_succ_self _)
      exact ⟨_, by rw [heapDump, if_neg h0, Option.isSome_map]; exact hk⟩

theorem merge_terminates : ∃ s : Clients, s.live = [(0x400014, 32), (0x400050, 8)] ∧
    (∃ l, Visits s.heap.mem s.heap.heapHead l ∧ l.Nodup) ∧ (∀ n, ∃ k, (kmalloc k s.heap n).isSome) ∧
      (∀ p ∈ s.live.map Prod.fst, s.Regular (.free p) → ∃ k, (kfree k s.heap p).isSome) ∧
      ∃ k, (heapDump k s.heap).isSome := by
  obtain ⟨s, hs, hlive, -⟩ := exists_regular_merge
  exact ⟨s, hlive, regular_terminates hs⟩

/-- `heap_dump` does not leave a block that is its own successor. -/
theorem dumpLoop_self_loop {m : Mem} {block : Word} (h0 : block ≠ 0) (hn : next m block = block) (i : Word) :
    dumpLoop m k block i = none := by
  induction k generalizing i with
  | zero => rfl
  | succ k ih => rw [dumpLoop, if_neg h0, hn, ih, Option.map_none]

/-- A request that the free last block cannot serve is appended over that block, which becomes
its own successor. -/
theorem not_terminates : ¬ ∀ s, Reach machine (fun _ _ => True) s →
    (∃ l, Visits s.heap.mem s.heap.heapHead l ∧ l.Nodup) ∧ (∀ n, ∃ k, (kmalloc k s.heap n).isSome) ∧
      (∀ p ∈ s.live.map Prod.fst, ∃ k, (kfree k s.heap p).isSome) ∧ ∃ k, (heapDump k s.heap).isSome := by
  intro h
  obtain ⟨s, hs, hloop⟩ :=
    exists_reach (k := 8) (fun _ => 0) [.malloc 8, .malloc 8, .free 0x400030, .malloc 16]
    (fun s => (s.heap.heapHead, next s.heap.mem 0x400000, next s.heap.mem 0x40001c))
    (0x400000, 0x40001c, 0x40001c) (by decide +kernel)
  simp only [Prod.mk.injEq] at hloop
  obtain ⟨hhead, hfirst, hself⟩ := hloop
  obtain ⟨-, -, -, k, hk⟩ := h s hs
  rw [heapDump, if_neg (by rw [hhead]; decide), Option.isSome_map, hhead] at hk
  cases k with
  | zero => exact absurd hk (by simp [dumpLoop])
  | succ k =>
    rw [dumpLoop, if_neg (by decide), Option.isSome_map, hfirst, dumpLoop_self_loop (by decide) hself] at hk
    exact absurd hk (by simp)

end SpatulaOS.Mm
