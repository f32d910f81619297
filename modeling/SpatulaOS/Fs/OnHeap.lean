import SpatulaOS.Fs.Requests
import SpatulaOS.Mm.FirstFit

/-!
# Where new blocks come from

The file system never gives a block back. On a heap whose blocks are all in use and below the break,
`kmalloc` hands out what is above the break (`Clients.Inv.grow`), so a new block is none that the
file system has got, and a new buffer overlaps none (`NewBlock.freshBuffer`). Every call leaves such
a heap behind and takes what it requests, at most (`OnHeap.call`); while there is room, a call has
an answer (`OnHeap.exists_call`). So no assumption on the answers is left. What a call does to the
nodes is said once (`call_storage`): every node and every buffer is an allocation of its size
(`Owned`).
-/

namespace SpatulaOS.Mm

open ByteMemory Threaded Block Runs

/-- What a request takes from the heap at most: its bytes, rounded up, a header and a guard word. -/
def taken (n : Word) : ℕ := 24 + rounded n

variable {h h' : Heap} {live : List (Word × Word)} {A A' : Arena} {x : Block} {n p : Word}

/-- While no block is free, the block that is handed out lies at the break. -/
theorem Arena.Malloc.at_brk {m : ℕ} (hm : A.Malloc m x A') (hA : A.Packed) :
    x.payload = A.brk + 20 ∧ A.brk + 20 + m ≤ A'.brk := by
  cases hm with
  | first => exact ⟨rfl, le_rfl⟩
  | reuse _ hx => exact absurd ((hA _ (by simp)).1.symm.trans hx.1) nofun
  | append => exact ⟨rfl, by dsimp only; omega⟩

/-- While no block is free and there is room, a request is served. -/
theorem Arena.Packed.alloc_ne_none (hA : A.Packed) (hn : n ≠ 0)
    (hroom : A.brk + taken n < heapHi) : A.alloc n ≠ none := by
  have hb := heap_bounds
  unfold taken rounded at hroom
  have hrefuses : ¬ A.Refuses n := by
    rintro (h0 | h0 | ⟨-, h0⟩)
    · exact hn h0
    · omega
    · unfold rounded at h0
      omega
  have hdrop : A.blocks.dropWhile (fun y => decide (¬ y.Serves (rounded n))) = [] :=
    List.dropWhile_eq_nil_iff.mpr fun y hy => decide_eq_true fun hs => by cases (hA y hy).1.symm.trans hs.1
  have hfits : A.brk + 24 + rounded n < heapHi := by
    unfold rounded
    omega
  rw [Arena.alloc, if_neg hrefuses, Arena.place, hdrop]
  dsimp only
  rw [if_pos hfits]
  split_ifs
  · exact Option.some_ne_none _
  · exact Option.some_ne_none _

/-- `kmalloc` hands out what is above the break. -/
theorem Clients.Inv.grow (hinv : (⟨h, live⟩ : Clients).Inv A) (hA : A.Packed) (hn : n ≠ 0)
    (hroom : A.brk + taken n < heapHi) :
    ∃ p h' A', (∀ k, A.blocks.length < k → kmalloc k h n = some (p, h')) ∧
      (⟨h', (p, n) :: live⟩ : Clients).Inv A' ∧ A'.Packed ∧
      A.brk < p.toNat ∧ p.toNat + n.toNat ≤ A'.brk ∧ A'.brk ≤ A.brk + taken n ∧
      A'.blocks.length ≤ A.blocks.length + 1 := by
  have hb := heap_bounds
  have ho : A.Allows (.malloc n) :=
    Arena.allows_malloc (fun x hx => (hA x hx).2) (by unfold taken at hroom; omega)
  obtain ⟨hnone, -⟩ | ⟨x, A', h', -, hout, -, -, hk⟩ := kmalloc_alloc hinv.models hinv.ok ho
  · exact absurd hnone (hA.alloc_ne_none hn hroom)
  obtain ⟨hx, -⟩ := hout.malloc.at_brk hA
  have hp : (BitVec.ofNat 32 x.payload).toNat = A.brk + 20 := by
    rw [hx, toNat_ofNat_of_lt (by omega)]
  have hp0 : BitVec.ofNat 32 x.payload ≠ 0 := by
    intro h0
    rw [h0] at hp
    change 0 = A.brk + 20 at hp
    omega
  have hs : (⟨h, live⟩ : Clients).exec (A.blocks.length + 1) (.malloc n) =
      some ⟨h', (BitVec.ofNat 32 x.payload, n) :: live⟩ := by
    rw [Clients.exec, hk _ (Nat.lt_succ_self _), Option.map_some, if_neg hp0]
  obtain heq | ⟨x', A'', -, hout', hlive, hinv'⟩ := hinv.malloc ho hs
  · have hlen := congrArg (List.length ∘ Clients.live) heq
    exact absurd hlen (by simp)
  obtain ⟨hx', hle⟩ := hout'.malloc.at_brk hA
  obtain ⟨hpacked, hbrk⟩ := hout'.malloc.packed hA
  have hsize : (align n).toNat = rounded n := toNat_align_eq (by unfold taken rounded at hroom; omega)
  rw [hsize] at hle hbrk
  refine ⟨_, h', A'', hk, hinv', hpacked, by omega, ?_, by unfold taken; omega, hout'.malloc.length_le⟩
  have hn' : n.toNat ≤ rounded n := by
    unfold rounded
    omega
  omega

end SpatulaOS.Mm

namespace SpatulaOS.Fs

open ByteMemory Runs SpatulaOS.Mm SpatulaOS.Video

/-! ### New blocks -/

/-- A block of `n` bytes between `b` and `b'`. -/
structure NewBlock (b : ℕ) (p n : Word) (b' : ℕ) : Prop where
  lt : b < p.toNat
  le : p.toNat + n.toNat ≤ b'

/-- The blocks and the buffers of the file system lie below `b`. -/
structure Below (s : FsState) (b : ℕ) : Prop where
  blocks : ∀ p ∈ s.blocks, p.toNat ≤ b
  buffers : ∀ a, (s.nodes a).data.toNat + (s.nodes a).capacity.toNat ≤ b

variable {s s' : FsState} {c : Call} {cs : List Call} {b b' k : ℕ} {p n parent flags rnode offset size : Word}
  {name : List Byte} {buffer : ℕ → Byte} {t t' : Storage} {A A' : Arena} {live live' : List (Word × Word)}

theorem NewBlock.ne_zero (h : NewBlock b p n b') : p ≠ 0 := by
  rintro rfl
  exact absurd h.lt (Nat.not_lt_zero _)

/-- A block that is handed out later is another one. -/
theorem NewBlock.ne {c c' : ℕ} {q m : Word} (hp : NewBlock b p n b') (hq : NewBlock c q m c')
    (hbc : b' ≤ c) : p ≠ q := by
  have hle := hp.le
  have hlt := hq.lt
  rintro rfl
  omega

theorem NewBlock.fresh (h : NewBlock b p n b') (hs : Below s b) : Fresh s p :=
  ⟨h.ne_zero, fun hp => Nat.not_lt.mpr (hs.blocks p hp) h.lt⟩

theorem NewBlock.freshBuffer (h : NewBlock b p n b') (hs : Below s b) (hb' : b' ≤ 2 ^ 32) :
    FreshBuffer s p n :=
  ⟨h.ne_zero, h.le.trans hb', fun a _ => .inr ((hs.buffers a).trans h.lt.le)⟩

/-- A state with the same blocks and no other buffers. -/
theorem Below.of_eq (h : Below s b) (hblocks : s'.blocks = s.blocks)
    (hnodes : ∀ a, (s'.nodes a).data = (s.nodes a).data ∧
      (s'.nodes a).capacity = (s.nodes a).capacity) : Below s' b := by
  refine ⟨fun p hp => h.blocks p (hblocks ▸ hp), fun a => ?_⟩
  rw [(hnodes a).1, (hnodes a).2]
  exact h.buffers a

/-- What a call does to what a node has: nothing, or the node is new, or its buffer is. -/
theorem call_storage (hc : after s c = some s') (a : Word) :
    ((s'.nodes a).fsPrivate = (s.nodes a).fsPrivate ∧ (s'.nodes a).data = (s.nodes a).data ∧
      (s'.nodes a).capacity = (s.nodes a).capacity) ∨
    (c.request s = some SIZEOF_NODE ∧ a = c.answer ∧ (s'.nodes a).data = 0 ∧ (s'.nodes a).capacity = 0) ∨
    ∃ n, c.request s = some n ∧ (s'.nodes a).fsPrivate = (s.nodes a).fsPrivate ∧
      (s'.nodes a).data = c.answer ∧
      (s'.nodes a).capacity = n := by
  cases after_effect hc with
  | @createInstance answer =>
    rw [ramfsCreateInstance_eq]
    dsimp only
    by_cases ha : a = answer
    · rw [ha, Function.update_self]
      exact .inr (.inl ⟨rfl, rfl, rfl, rfl⟩)
    · rw [Function.update_of_ne ha]
      exact .inl ⟨rfl, rfl, rfl⟩
  | setRoot => exact .inl ⟨rfl, rfl, rfl⟩
  | full => exact .inl ⟨rfl, rfl, rfl⟩
  | @create parent flags answer name h0 hpriv hroom =>
    have hlinked : ((linked s parent name flags answer).nodes a).fsPrivate =
          (Function.update s.nodes answer (newNode s parent name flags answer) a).fsPrivate ∧
        ((linked s parent name flags answer).nodes a).data =
          (Function.update s.nodes answer (newNode s parent name flags answer) a).data ∧
        ((linked s parent name flags answer).nodes a).capacity =
          (Function.update s.nodes answer (newNode s parent name flags answer) a).capacity := by
      unfold linked
      dsimp only
      by_cases ha : a = (s.nodes parent).fsPrivate
      · rw [ha, Function.update_self]
        exact ⟨rfl, rfl, rfl⟩
      · rw [Function.update_of_ne ha]
        exact ⟨rfl, rfl, rfl⟩
    rw [hlinked.1, hlinked.2.1, hlinked.2.2]
    by_cases ha : a = answer
    · rw [ha, Function.update_self]
      exact .inr (.inl ⟨if_pos ⟨h0, hpriv, hroom⟩, rfl, rfl, rfl⟩)
    · rw [Function.update_of_ne ha]
      exact .inl ⟨rfl, rfl, rfl⟩
  | mount _ => exact .inl ⟨rfl, rfl, rfl⟩
  | sys hc =>
    cases sysCall_effect hc with
    | unchanged => exact .inl ⟨rfl, rfl, rfl⟩
    | descriptor _ => exact .inl ⟨rfl, rfl, rfl⟩
    | @write fd buffer size answer desc hdesc hfd h0 hpriv hfile =>
      rw [moveOffset_eq]
      dsimp only
      by_cases ha : a = (s.nodes desc.node).fsPrivate
      · rw [ha, written_nodes_self, writtenNode]
        dsimp only
        split_ifs with hg
        · rw [← hdesc] at h0 hpriv hfile hg ⊢
          exact .inr (.inr ⟨_, if_pos ⟨hfd, h0, hpriv, hfile, hg⟩, rfl, rfl, rfl⟩)
        · exact .inl ⟨rfl, rfl, rfl⟩
      · rw [written_nodes_of_ne ha]
        exact .inl ⟨rfl, rfl, rfl⟩

/-- A call with a new block for its request. -/
theorem Below.call (h : Below s b) (hb : b ≤ b') (hc : after s c = some s')
    (hnew : ∀ n, c.request s = some n → NewBlock b c.answer n b') : Below s' b' := by
  refine ⟨fun q hq => ?_, fun a => ?_⟩
  · rw [after_blocks hc] at hq
    cases hr : c.request s with
    | none =>
      rw [hr] at hq
      exact (h.blocks q hq).trans hb
    | some n =>
      have hp := hnew n hr
      have hle := hp.le
      rw [hr, Option.isSome_some, if_pos rfl, FsState.kmalloc, if_neg hp.ne_zero] at hq
      obtain rfl | hq := List.mem_cons.mp hq
      · omega
      · exact (h.blocks q hq).trans hb
  · obtain ⟨-, hdata, hcap⟩ | ⟨-, -, hdata, hcap⟩ | ⟨n, hr, -, hdata, hcap⟩ := call_storage hc a
    · rw [hdata, hcap]
      exact (h.buffers a).trans hb
    · rw [hdata, hcap]
      exact Nat.zero_le _
    · rw [hdata, hcap]
      exact (hnew n hr).le

/-- The nodes and the buffers are allocations of their sizes. -/
structure Owned (s : FsState) (live : List (Word × Word)) : Prop where
  node : ∀ a, s.Live a → (a, SIZEOF_NODE) ∈ live
  buffer : ∀ a, (s.nodes a).capacity = 0 ∨ ((s.nodes a).data, (s.nodes a).capacity) ∈ live

theorem Owned.call (h : Owned s live) (hc : after s c = some s') (hsub : live ⊆ live')
    (hnew : ∀ n, c.request s = some n → (c.answer, n) ∈ live') : Owned s' live' := by
  refine ⟨fun a ha => ?_, fun a => ?_⟩
  · obtain ⟨hpriv, -⟩ | ⟨hr, rfl, -⟩ | ⟨n, -, hpriv, -⟩ := call_storage hc a
    · exact hsub (h.node a (by rw [FsState.Live, ← hpriv]; exact ha))
    · exact hnew _ hr
    · exact hsub (h.node a (by rw [FsState.Live, ← hpriv]; exact ha))
  · obtain ⟨-, hdata, hcap⟩ | ⟨-, -, -, hcap⟩ | ⟨n, hr, -, hdata, hcap⟩ := call_storage hc a
    · rw [hdata, hcap]
      exact (h.buffer a).imp_right fun hmem => hsub hmem
    · exact .inl hcap
    · rw [hdata, hcap]
      exact .inr (hnew n hr)

/-! ### Calls on the heap -/

/-- What a call takes from the heap. -/
def Call.cost (s : FsState) (c : Call) : ℕ := ((c.request s).map taken).getD 0

/-- The file system on a heap that only grows: all blocks are in use, those of the file system are
below the break, and each of them is an allocation. -/
structure OnHeap (t : Storage) (A : Arena) : Prop where
  owned : ∃ live, (⟨t.heap, live⟩ : Clients).Inv A ∧ Owned t.fs live
  packed : A.Packed
  below : Below t.fs A.brk

theorem OnHeap.brk_lt (h : OnHeap t A) : A.brk < heapHi := by
  obtain ⟨live, hinv, -⟩ := h.owned
  exact hinv.ok.brk_lt

theorem OnHeap.heapEnd (h : OnHeap t A) : t.heap.heapEnd.toNat = A.brk := by
  have hb := heap_bounds
  have hlt := h.brk_lt
  obtain ⟨live, hinv, -⟩ := h.owned
  rw [hinv.models.heapEnd, toNat_ofNat_of_lt (by omega)]

theorem request_ne_zero (h : c.request s = some n) : n ≠ 0 := by
  cases c with
  | createInstance answer =>
    rw [← Option.some.inj h]
    decide
  | setRoot root => cases h
  | create parent name flags answer =>
    rw [Call.request] at h
    split_ifs at h
    rw [← Option.some.inj h]
    decide
  | mount path root => cases h
  | sys c =>
    cases c with
    | sysWrite fd buffer size answer =>
      rw [Call.request] at h
      split_ifs at h with halloc
      obtain ⟨-, -, -, -, hg⟩ := halloc
      rw [← Option.some.inj h]
      intro h0
      rw [Grows, h0] at hg
      exact absurd hg (by bv_omega)
    | _ => cases h

theorem OnHeap.unrequested (h : OnHeap t A) (hr : c.request t.fs = none)
    (hc : t.call k c = some t') : OnHeap t' A := by
  have hno (n : Word) : c.request t.fs ≠ some n := by
    rw [hr]
    exact nofun
  obtain ⟨live, hi, howned⟩ := h.owned
  obtain ⟨hafter, ⟨-, hheap⟩ | ⟨n, hr', -⟩⟩ := Storage.call_cases hc
  · exact ⟨⟨live, hheap ▸ hi, howned.call hafter (List.Subset.refl _) fun n hn =>
      absurd hn (hno n)⟩, h.packed,
      h.below.call le_rfl hafter fun n hn => absurd hn (hno n)⟩
  · exact absurd hr' (hno n)

/-- A call leaves the file system on such a heap, and takes its cost at most; its answer is a new block. -/
theorem OnHeap.call (h : OnHeap t A) (hroom : A.brk + c.cost t.fs < heapHi) (hc : t.call k c = some t') :
    ∃ A', OnHeap t' A' ∧ A.brk ≤ A'.brk ∧ A'.brk ≤ A.brk + c.cost t.fs ∧
      A'.blocks.length ≤ A.blocks.length + 1 ∧
      ∀ n, c.request t.fs = some n → NewBlock A.brk c.answer n A'.brk := by
  obtain ⟨live, hi, howned⟩ := h.owned
  obtain ⟨hafter, ⟨hr, -⟩ | ⟨n, hr, hk⟩⟩ := Storage.call_cases hc
  · exact ⟨A, h.unrequested hr hc, le_rfl, Nat.le_add_right _ _, Nat.le_succ _,
      fun n hn => by cases hr.symm.trans hn⟩
  · have hcost : c.cost t.fs = taken n := by rw [Call.cost, hr]; rfl
    rw [hcost] at hroom ⊢
    obtain ⟨p, h', A', hgrow, hi', hpacked, hlt, hle, hbrk, hlen⟩ :=
      hi.grow h.packed (request_ne_zero hr) hroom
    obtain ⟨rfl, rfl⟩ := Prod.mk.inj (kmalloc_unique hk (hgrow _ (Nat.lt_succ_self _)))
    have hnew : ∀ m, c.request t.fs = some m → NewBlock A.brk c.answer m A'.brk := fun m hm =>
      Option.some.inj (hr.symm.trans hm) ▸ ⟨hlt, hle⟩
    have howned' : Owned t'.fs ((c.answer, n) :: live) := by
      refine howned.call hafter (List.subset_cons_self _ _) fun m hm => ?_
      obtain rfl := Option.some.inj (hr.symm.trans hm)
      exact List.mem_cons_self
    exact ⟨A', ⟨⟨_, hi', howned'⟩, hpacked, h.below.call (by omega) hafter hnew⟩, by omega, hbrk, hlen, hnew⟩

/-- While there is room, a call has an answer: the new block. -/
theorem OnHeap.exists_call (h : OnHeap t A) (c : Word → Call)
    (hreq : ∀ p, (c p).request t.fs = (c 0).request t.fs)
    (hans : ∀ p, (c p).answer = p) (hroom : A.brk + (c 0).cost t.fs < heapHi)
    (hafter : ∀ p, (∀ n, (c 0).request t.fs = some n → NewBlock A.brk p n heapHi) →
      ∃ s', after t.fs (c p) = some s') :
    ∃ p t', ∀ k, A.blocks.length < k → t.call k (c p) = some t' := by
  obtain ⟨live, hi, -⟩ := h.owned
  cases hr : (c 0).request t.fs with
  | none =>
    obtain ⟨s', hs'⟩ := hafter 0 fun n hn => by cases hr.symm.trans hn
    refine ⟨0, ⟨t.heap, s'⟩, fun k _ => ?_⟩
    rw [Storage.call, hr, hs']
    rfl
  | some n =>
    have hcost : (c 0).cost t.fs = taken n := by rw [Call.cost, hr]; rfl
    rw [hcost] at hroom
    obtain ⟨p, h', A', hgrow, -, -, hlt, hle, hbrk, -⟩ := hi.grow h.packed (request_ne_zero hr) hroom
    obtain ⟨s', hs'⟩ := hafter p fun m hm => Option.some.inj (hr.symm.trans hm) ▸ ⟨hlt, by omega⟩
    refine ⟨p, ⟨h', s'⟩, fun k hk => ?_⟩
    rw [Storage.call, hreq, hr]
    dsimp only
    rw [hgrow k hk, Option.bind_some]
    dsimp only
    rw [if_pos (hans p).symm, hs']
    rfl

theorem OnHeap.of_eq {heap : Heap} (h : OnHeap ⟨heap, s⟩ A) (hblocks : s'.blocks = s.blocks)
    (hnodes : s'.nodes = s.nodes) :
    OnHeap ⟨heap, s'⟩ A :=
  have howned : ∃ live, (⟨heap, live⟩ : Clients).Inv A ∧ Owned s' live := by
    obtain ⟨live, hi, howned⟩ := h.owned
    refine ⟨live, hi, fun a ha => howned.node a ?_, fun a => ?_⟩
    · rw [FsState.Live, ← hnodes]
      exact ha
    · rw [hnodes]
      exact howned.buffer a
  ⟨howned, h.packed, h.below.of_eq hblocks fun a => by rw [hnodes]; exact ⟨rfl, rfl⟩⟩

theorem OnHeap.close (h : OnHeap t A) (fd : ℤ) : OnHeap ⟨t.heap, sysClose t.fs fd⟩ A := by
  have hsame : (sysClose t.fs fd).blocks = t.fs.blocks ∧ (sysClose t.fs fd).nodes = t.fs.nodes := by
    unfold sysClose
    split_ifs
    · exact ⟨rfl, rfl⟩
    · exact ⟨rfl, rfl⟩
  exact OnHeap.of_eq (s := t.fs) h hsame.1 hsame.2

/-! ### Calls that request nothing -/

theorem Storage.call_quiet (hr : c.request t.fs = none) (ha : after t.fs c = some s) :
    t.call k c = some ⟨t.heap, s⟩ := by
  rw [Storage.call, hr, ha]
  rfl

theorem exec_quiet {heap : Heap} (hcs : ∀ c ∈ cs, ∀ s, c.request s = none) (he : exec after s cs = some s') :
    exec (Storage.call k) ⟨heap, s⟩ cs = some ⟨heap, s'⟩ := by
  induction cs generalizing s with
  | nil =>
    obtain rfl := Option.some.inj he
    rfl
  | cons c cs ih =>
    obtain ⟨hnone, hcs⟩ := List.forall_mem_cons.mp hcs
    obtain ⟨u, hu, he⟩ := Option.bind_eq_some_iff.mp he
    rw [exec, Storage.call_quiet (t := ⟨heap, s⟩) (hnone s) hu]
    exact ih hcs he

theorem OnHeap.quiet (h : OnHeap t A) (hcs : ∀ c ∈ cs, ∀ s, c.request s = none)
    (hc : exec (Storage.call k) t cs = some t') :
    OnHeap t' A := by
  induction cs generalizing t with
  | nil =>
    obtain rfl := Option.some.inj hc
    exact h
  | cons c cs ih =>
    obtain ⟨hnone, hcs⟩ := List.forall_mem_cons.mp hcs
    obtain ⟨u, hu, hc⟩ := Option.bind_eq_some_iff.mp hc
    exact ih (h.unrequested (hnone t.fs) hu) hcs hc

/-! ### Boot -/

theorem taken_node : taken SIZEOF_NODE = 256 := by decide

/-- The creation of a file or a directory takes a node at most. -/
theorem create_cost_le (s : FsState) (parent : Word) (name : List Byte) (flags p : Word) :
    (Call.create parent name flags p).cost s ≤ 256 := by
  show (Option.map taken (if CreateAllocates s parent then some SIZEOF_NODE else none)).getD 0 ≤ 256
  split_ifs
  · exact taken_node.le
  · exact Nat.zero_le _

theorem OnHeap.start (m : Mem) (hs : fsMachine.start s) : OnHeap ⟨Mm.boot m, s⟩ Arena.init := by
  obtain ⟨mem, table, rfl⟩ := hs
  refine ⟨⟨[], inv_start m, fun a ha => absurd rfl ha, fun a => .inl rfl⟩,
    fun x hx => absurd hx List.not_mem_nil,
    fun p hp => absurd hp List.not_mem_nil, fun a => ?_⟩
  show (0 : Word).toNat + (0 : Word).toNat ≤ Arena.init.brk
  decide

/-- A call at boot: it takes a node at most. -/
theorem OnHeap.boot_call (h : OnHeap t A) (hc : t.call k c = some t') (hcost : c.cost t.fs ≤ 256)
    (hroom : A.brk + 256 < heapHi) : ∃ A', OnHeap t' A' ∧ A.brk ≤ A'.brk ∧ A'.brk ≤ A.brk + 256 ∧
      A'.blocks.length ≤ A.blocks.length + 1 ∧ ∀ n, c.request t.fs = some n →
        NewBlock A.brk c.answer n A'.brk := by
  obtain ⟨A', hon, hle, hbrk, hlen, hnew⟩ := h.call (by omega) hc
  exact ⟨A', hon, hle, by omega, hlen, hnew⟩

end SpatulaOS.Fs
