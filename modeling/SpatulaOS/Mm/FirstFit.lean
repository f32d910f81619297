import Mathlib.Data.List.TakeWhile
import SpatulaOS.Mm.HeapNull
import SpatulaOS.Mm.HeapSafety

/-!
# First fit

What the heap does for its clients, without its memory: a ledger holds the arena, the allocations
that are live, and the bytes that the clients have written there. A request is served by the first
free block that is large enough, or else by a new block at the break; every reply is determined by
the calls before it. On regular calls the allocator of `mm/heap.c` gives the replies of the ledger,
whatever the memory held before (`FirstFit.Rep.run`).
-/

namespace SpatulaOS.Mm

open ByteMemory Threaded Block Runs SpatulaOS.Video

/-! ### The ledger -/

/-- The bytes that a request of `w` bytes takes. -/
def rounded (w : Word) : ℕ := (w.toNat + 7) / 8 * 8

/-- The requests that are refused before the blocks are looked at: the empty one, those that cannot
be rounded up, and those larger than the room above the break. -/
def Arena.Refuses (A : Arena) (w : Word) : Prop :=
  w = 0 ∨ 2 ^ 32 ≤ w.toNat + 7 ∨ A.brk + 24 ≤ heapHi ∧ heapHi < A.brk + 24 + rounded w

instance instDecidableRefuses (A : Arena) (w : Word) : Decidable (A.Refuses w) := by
  unfold Arena.Refuses
  infer_instance

/-- The block of `n` bytes that is handed out, and the arena behind it: it is cut from the first
free block that is large enough, or a new one at the break. -/
def Arena.place (A : Arena) (n : ℕ) : Option (Block × Arena) :=
  if A.blocks = [] then some (⟨A.brk, n, false⟩, ⟨[⟨A.brk, n, false⟩], A.brk + 20 + n⟩)
  else
    match A.blocks.dropWhile fun y => ¬ y.Serves n with
    | x :: post =>
      some (x.carved n,
        ⟨(A.blocks.takeWhile fun y => ¬ y.Serves n) ++ x.carved n :: (x.remainder n ++ post),
        A.brk⟩)
    | [] =>
      if A.brk + 24 + n < heapHi then
        some (⟨A.brk, n, false⟩, ⟨A.blocks ++ [⟨A.brk, n, false⟩], A.brk + 24 + n⟩)
      else none

/-- A request of `w` bytes. -/
def Arena.alloc (A : Arena) (w : Word) : Option (Block × Arena) :=
  if A.Refuses w then none else A.place (rounded w)

/-- A release of the payload at `p`, and what it prints: a block that is not below the break is not
released. -/
def Arena.release (A : Arena) (p : Word) : Arena × List VgaCall :=
  match A.blocks.dropWhile fun y => y.payload ≠ p.toNat with
  | b :: post =>
    if b.addr < A.brk then (A.free (A.blocks.takeWhile fun y => y.payload ≠ p.toNat) b post, [])
    else (A, [.print "Invalid free header!\n"])
  | [] => (A, [])

/-- The lines of `heap_dump` for the blocks, numbered from `i`. -/
def dumpLines : Word → List Block → List VgaCall
  | _, [] => []
  | i, x :: bs =>
    [.print "  Block ", .printDec i,
      .print ": addr=", .printHex (BitVec.ofNat 32 x.addr),
      .print " size=", .printDec (BitVec.ofNat 32 x.size),
      .print " header=", .printHex (BitVec.ofNat 32 x.addr),
      .print " payload=", .printHex (BitVec.ofNat 32 x.payload),
      .print " ", .print (if x.free then "FREE" else "USED"), .print "\n"] ++
      dumpLines (i + 1) bs

/-- What `heap_dump` prints of the arena. -/
def Arena.dump (A : Arena) : List VgaCall :=
  if A.blocks = [] then [.print "Heap empty.\n"] else .print "Heap blocks:\n" :: dumpLines 0 A.blocks

/-- What a client calls. -/
inductive HeapCall where
  /-- `kmalloc(n)` -/
  | malloc (n : Word)
  /-- `kfree(p)` -/
  | free (p : Word)
  /-- A byte is written. -/
  | write (a : Word) (v : Byte)
  /-- A byte is read. -/
  | read (a : Word)
  /-- `heap_dump()` -/
  | dump

/-- What the client learns. -/
inductive HeapReply where
  /-- The pointer that `kmalloc` returns. -/
  | pointer (p : Word)
  /-- What `kfree` or `heap_dump` prints. -/
  | printed (out : List VgaCall)
  /-- A byte that is read. -/
  | byte (v : Byte)
  /-- Nothing. -/
  | done
  deriving DecidableEq

/-- The arena, the live allocations with the sizes that were requested, and the bytes that were
written there. -/
structure FirstFit where
  arena : Arena
  live : List (Word × Word)
  written : Word → Option Byte

/-- An address of a live allocation. -/
def InLive (live : List (Word × Word)) (a : Word) : Prop :=
  ∃ q ∈ live, q.1.toNat ≤ a.toNat ∧ a.toNat < q.1.toNat + q.2.toNat

instance instDecidableInLive (live : List (Word × Word)) (a : Word) : Decidable (InLive live a) := by
  unfold InLive; infer_instance

/-- A call, on the ledger. Only live pointers are freed, only live bytes are written, and only bytes that were
written are read. -/
def FirstFit.call (L : FirstFit) : HeapCall → Option (HeapReply × FirstFit)
  | .malloc w =>
    match L.arena.alloc w with
    | some (x, A) =>
      some (.pointer (BitVec.ofNat 32 x.payload),
        { L with arena := A, live := (BitVec.ofNat 32 x.payload, w) :: L.live })
    | none => some (.pointer 0, L)
  | .free p =>
    if p ∈ L.live.map Prod.fst then
      let live := L.live.filter fun q => q.1 ≠ p
      some (.printed (L.arena.release p).2,
        ⟨(L.arena.release p).1, live, fun a => if InLive live a then L.written a else none⟩)
    else none
  | .write a v =>
    if InLive L.live a then some (.done, { L with written := Function.update L.written a (some v) })
    else none
  | .read a => (L.written a).map fun v => (.byte v, L)
  | .dump => some (.printed L.arena.dump, L)

/-- The ledger at boot. -/
def FirstFit.boot : FirstFit := ⟨Arena.init, [], fun _ => none⟩

/-- The replies to a sequence of calls, and the ledger behind them. -/
def FirstFit.calls : FirstFit → List HeapCall → Option (List HeapReply × FirstFit)
  | L, [] => some ([], L)
  | L, c :: cs => (L.call c).bind fun r => (r.2.calls cs).map fun t => (r.1 :: t.1, t.2)

/-- What the call does to the allocator. -/
def HeapCall.op : HeapCall → Option Op
  | .malloc n => some (.malloc n)
  | .free p => some (.free p)
  | .write a v => some (.write a v)
  | .read _ => none
  | .dump => none

/-- A regular call: one that goes wrong in none of the ways that damage the heap. -/
def FirstFit.Regular (L : FirstFit) (c : HeapCall) : Prop := ∀ o ∈ c.op, L.arena.Allows o

/-- The calls are regular, one after the other. -/
def FirstFit.RegularCalls : FirstFit → List HeapCall → Prop
  | _, [] => True
  | L, c :: cs => L.Regular c ∧ ∀ r ∈ L.call c, r.2.RegularCalls cs

/-! ### The same calls of the allocator -/

/-- A call, on the allocator and its memory. -/
def Clients.call (k : ℕ) (s : Clients) : HeapCall → Option (HeapReply × Clients)
  | .malloc n => (kmalloc k s.heap n).map fun r =>
    (.pointer r.1, ⟨r.2, if r.1 = 0 then s.live else (r.1, n) :: s.live⟩)
  | .free p =>
    if p ∈ s.live.map Prod.fst then
      (kfree k s.heap p).map fun r => (.printed r.2, ⟨r.1, s.live.filter fun q => q.1 ≠ p⟩)
    else none
  | .write a v =>
    if InLive s.live a then some (.done, ⟨{ s.heap with mem := s.heap.mem.storeByte a v }, s.live⟩) else none
  | .read a => if InLive s.live a then some (.byte (s.heap.mem a), s) else none
  | .dump => (heapDump k s.heap).map fun out => (.printed out, s)

/-- The replies to a sequence of calls, and the state behind them. -/
def Clients.calls (k : ℕ) : Clients → List HeapCall → Option (List HeapReply × Clients)
  | s, [] => some ([], s)
  | s, c :: cs => (s.call k c).bind fun r => (r.2.calls k cs).map fun t => (r.1 :: t.1, t.2)

variable {h h' : Heap} {A A' : Arena} {L L' : FirstFit} {s : Clients} {w p : Word} {x x' : Block} {k : ℕ}

/-! ### Requests -/

theorem toNat_align_eq (hw : w.toNat + 7 < 2 ^ 32) : (align w).toNat = rounded w := by
  rw [toNat_align, Nat.mod_eq_of_lt hw, rounded]

/-- The block that is handed out and the arena behind it are determined by the arena. -/
theorem Arena.Malloc.place {n : ℕ} (h : A.Malloc n x A') : A.place n = some (x, A') := by
  cases h with
  | first => rfl
  | @reuse pre x post brk hpre hx =>
    have hpre' : ∀ y ∈ pre, decide (¬ y.Serves n) = true := fun y hy => decide_eq_true (hpre y hy)
    have hx' : ¬ decide (¬ x.Serves n) = true := by simpa using hx
    rw [Arena.place, if_neg (by simp)]
    dsimp only
    rw [List.dropWhile_append_of_pos hpre', List.takeWhile_append_of_pos hpre',
      List.dropWhile_cons_of_neg (p := fun y : Block => decide (¬ y.Serves n)) hx',
      List.takeWhile_cons_of_neg (p := fun y : Block => decide (¬ y.Serves n)) hx', List.append_nil]
  | @append bs brk hne hbs hroom =>
    have hbs' : bs.dropWhile (fun y => decide (¬ y.Serves n)) = [] :=
      List.dropWhile_eq_nil_iff.mpr fun y hy => decide_eq_true (hbs y hy)
    rw [Arena.place, if_neg hne]
    dsimp only
    rw [hbs']
    exact if_pos hroom

/-- A request for which there is neither a block nor room. -/
theorem Arena.place_eq_none {n : ℕ} (h0 : A.blocks ≠ []) (hno : ∀ y ∈ A.blocks, ¬ y.Serves n)
    (hroom : ¬ A.brk + 24 + n < heapHi) : A.place n = none := by
  have hdrop : A.blocks.dropWhile (fun y => decide (¬ y.Serves n)) = [] :=
    List.dropWhile_eq_nil_iff.mpr fun y hy => decide_eq_true (hno y hy)
  rw [Arena.place, if_neg h0, hdrop]
  exact if_neg hroom

theorem Arena.alloc_eq_none (h : A.place (rounded w) = none) : A.alloc w = none := by
  rw [alloc]
  split_ifs
  · rfl
  · exact h

theorem refused_iff {e n : ℕ} (he : e + 24 ≤ heapHi) (hn : n < 2 ^ 32) :
    BitVec.ofNat 32 n > KERNEL_HEAP_END - BitVec.ofNat 32 e - SIZEOF_HEADER - SIZEOF_WORD ↔
      heapHi < e + 24 + n := by
  unfold KERNEL_HEAP_END SIZEOF_HEADER SIZEOF_WORD
  unfold heapHi at *
  bv_omega

theorem le_of_refused {e n : ℕ} (he : heapHi < e + 24) (he' : e < heapHi) (hn : n < 2 ^ 32)
    (hfit : BitVec.ofNat 32 n > KERNEL_HEAP_END - BitVec.ofNat 32 e - SIZEOF_HEADER
      - SIZEOF_WORD) : heapHi ≤ n := by
  unfold KERNEL_HEAP_END SIZEOF_HEADER SIZEOF_WORD at hfit
  unfold heapHi at *
  bv_omega

/-- `kmalloc` does what the ledger says, on the blocks that allow the request. -/
theorem kmalloc_alloc (hm : Models heapLo h A) (hA : A.Ok) (ho : A.Allows (.malloc w)) :
    A.alloc w = none ∧ (∀ k, A.blocks.length < k → kmalloc k h w = some (0, h)) ∨
      ∃ x A' h', A.alloc w = some (x, A') ∧ HandsOut h A (rounded w) x h' A' ∧ w ≠ 0 ∧ ¬ align w < w ∧
        ∀ k, A.blocks.length < k → kmalloc k h w = some (BitVec.ofNat 32 x.payload, h') := by
  have hb := heap_bounds
  by_cases hw : w = 0
  · exact .inl ⟨if_pos (.inl hw), fun k _ => by rw [kmalloc, if_pos hw]⟩
  by_cases hround : align w < w
  · refine .inl ⟨if_pos (.inr (.inl ?_)), fun k _ => by rw [kmalloc, if_neg hw, if_pos hround]⟩
    have h1 := toNat_align w
    have h2 : (align w).toNat < w.toNat := hround
    omega
  obtain ⟨hpos, -, hle⟩ := align_ok hw hround
  have hnowrap : w.toNat + 7 < 2 ^ 32 := by
    have h1 := toNat_align w
    omega
  have hn := toNat_align_eq hnowrap
  have hnw : align w = BitVec.ofNat 32 (rounded w) := by rw [← hn, BitVec.ofNat_toNat, BitVec.setWidth_eq]
  have hlt : rounded w < 2 ^ 32 := hn ▸ (align w).isLt
  obtain ⟨hclear, hwrap⟩ := ho (by omega)
  rw [hn] at hclear hwrap
  have hbrk := hA.brk_lt
  by_cases hfit : align w > KERNEL_HEAP_END - h.heapEnd - SIZEOF_HEADER - SIZEOF_WORD
  · refine .inl ⟨?_, fun k _ => kmalloc_refused hw hround hfit⟩
    rw [hnw, hm.heapEnd] at hfit
    by_cases hroom : A.brk + 24 ≤ heapHi
    · exact if_pos (.inr (.inr ⟨hroom, (refused_iff hroom hlt).mp hfit⟩))
    · -- no block is as large as this request
      have hlarge := le_of_refused (by omega) hbrk hlt hfit
      refine Arena.alloc_eq_none (Arena.place_eq_none (fun h0 => ?_) (fun y hy hserves => ?_) (by omega))
      · have := hA.empty h0
        omega
      · have h1 := (hA.block y hy).hi
        have h2 := hserves.2
        unfold stop at h1
        omega
  have hplace : A.alloc w = A.place (rounded w) := by
    refine if_neg ?_
    rintro (h0 | h0 | ⟨h0, h1⟩)
    · exact hw h0
    · omega
    · exact hfit (by rw [hnw, hm.heapEnd]; exact (refused_iff h0 hlt).mpr h1)
  rw [hplace]
  by_cases h0 : A.blocks = []
  · have hroom : A.brk + 24 + rounded w ≤ heapHi := by
      rw [hnw, hm.heapEnd] at hfit
      exact room_of_fit (by rw [hA.empty h0]; decide) hlt hfit
    obtain ⟨x, h', A', heq, hout⟩ := handsOut_first hm h0 hroom
    refine .inr ⟨x, A', h', hout.malloc.place, hout, hw, hround, fun k _ => ?_⟩
    rw [kmalloc, if_neg hw, if_neg hround, if_neg hfit,
      if_pos ((hm.rep.head_eq_zero hA.inSpace).mpr h0), hnw, heq]
  have hhead : h.heapHead ≠ 0 := fun h => h0 ((hm.rep.head_eq_zero hA.inSpace).mp h)
  by_cases hex : ∃ y ∈ A.blocks, y.Serves (rounded w)
  · obtain ⟨c, x, A', hsearch, hp, hout⟩ := handsOut_reuse hm hA hlt hex
    refine .inr ⟨x, A', _, hout.malloc.place, hout, hw, hround, fun k hlen => ?_⟩
    rw [kmalloc, if_neg hw, if_neg hround, if_neg hfit, if_neg hhead, hnw, hsearch k hlen, ← hp]
  · have hno : ∀ y ∈ A.blocks, ¬ y.Serves (rounded w) := fun y hy hys => hex ⟨y, hy, hys⟩
    obtain ⟨pre, x, hbs, hsearch⟩ := search_none hm hA hlt h0 hno
    by_cases hroom : A.brk + 24 + rounded w < heapHi
    · obtain ⟨y, h', A', heq, hout⟩ := handsOut_append hm hA hbs hno hroom (hclear hno hroom)
      refine .inr ⟨y, A', h', hout.malloc.place, hout, hw, hround, fun k hlen => ?_⟩
      rw [kmalloc, if_neg hw, if_neg hround, if_neg hfit, if_neg hhead, hnw, hsearch k hlen, ← heq]
    · refine .inl ⟨Arena.place_eq_none h0 hno hroom, fun k hlen => ?_⟩
      rw [kmalloc, if_neg hw, if_neg hround, if_neg hfit, if_neg hhead, hnw, hsearch k hlen]
      exact congrArg some (append_null hm hA hlt (hnw ▸ hfit) (hwrap h0) hroom)

/-! ### Releases -/

theorem Arena.release_eq {pre post : List Block} {b : Block} (hA : A.Ok) (hbs : A.blocks = pre ++ b :: post)
    (hp : p = BitVec.ofNat 32 b.payload) : A.release p =
      if b.addr < A.brk then (A.free pre b post, []) else (A, [.print "Invalid free header!\n"]) := by
  have hb : b ∈ A.blocks := by simp [hbs]
  have hpn : p.toNat = b.payload := by rw [hp, toNat_ofNat_of_lt (hA.payload_lt hb)]
  have hap := hA.apart
  rw [hbs] at hap
  have hpre : ∀ y ∈ pre, decide (y.payload ≠ p.toNat) = true := by
    intro y hy
    have hlt := ((List.pairwise_append.mp hap).2.2 y hy b List.mem_cons_self).lt
    refine decide_eq_true fun he => ?_
    rw [hpn] at he
    unfold payload at he
    omega
  have hb' : ¬ decide (b.payload ≠ p.toNat) = true := by simp [hpn]
  rw [release, hbs, List.dropWhile_append_of_pos hpre, List.takeWhile_append_of_pos hpre,
    List.dropWhile_cons_of_neg (p := fun y : Block => decide (y.payload ≠ p.toNat)) hb',
    List.takeWhile_cons_of_neg (p := fun y : Block => decide (y.payload ≠ p.toNat)) hb', List.append_nil]

/-- A block that is not below the break is refused. -/
theorem kfree_above {b : Block} (hm : Models heapLo h A) (hA : A.Ok) (hb : b ∈ A.blocks)
    (hp : p = BitVec.ofNat 32 b.payload) (hlt : ¬ b.addr < A.brk) (k : ℕ) :
    kfree k h p = some (h, [.print "Invalid free header!\n"]) := by
  have hpay := hA.payload_lt hb
  have hbrk := hA.brk_lt_space
  have hp0 : p ≠ 0 := by
    rw [hp, ne_eq, ofNat_eq_zero_iff hpay]
    unfold payload
    omega
  have hblock : p - SIZEOF_HEADER ≥ h.heapEnd := by
    unfold payload at hp hpay
    rw [hp, hm.heapEnd]
    unfold SIZEOF_HEADER
    bv_omega
  rw [kfree, if_neg hp0]
  exact if_pos (.inr hblock)

/-- `kfree` does what the ledger says, if no merge goes wrong. -/
theorem Clients.Inv.kfree_release {pre post : List Block} {b : Block} (hi : s.Inv A) (ho : A.Allows (.free p))
    (hbs : A.blocks = pre ++ b :: post) (hbf : b.free = false) (hp : p = BitVec.ofNat 32 b.payload) :
    ∃ h', (∀ k, A.blocks.length < k → kfree k s.heap p = some (h', (A.release p).2)) ∧
      (⟨h', s.live.filter fun q => q.1 ≠ p⟩ : Clients).Inv (A.release p).1 ∧
      (A.release p).1.blocks.length ≤ A.blocks.length ∧
      ∀ y ∈ A.blocks, y ≠ b → y.free = false → KeepsPayload s.heap.mem h'.mem y := by
  rw [Arena.release_eq hi.ok hbs hp]
  by_cases hlt : b.addr < A.brk
  · rw [if_pos hlt]
    obtain ⟨pre', x, post', h', hparts, hk, hinv, -, hkeep⟩ := hi.free_below ho hbs hbf hp hlt
    refine ⟨h', hk, hinv, ?_, fun y hy hne hf => ?_⟩
    · obtain hblocks | ⟨-, hblocks⟩ := settled_blocks heapLo ⟨coalesced heapLo A.brk pre b post, A.brk⟩
      · have hlen := (first_mergeParts hparts).2
        rw [← coalesced_of_parts hparts, ← hbs] at hlen
        rwa [Arena.free, hblocks]
      · rw [Arena.free, hblocks]
        exact Nat.zero_le _
    · rw [hbs, List.mem_append, List.mem_cons] at hy
      exact (hkeep y (mem_mergeParts hparts (by tauto) hf)).payload
  · rw [if_neg hlt]
    obtain ⟨-, hinv⟩ := hi.free_above (by simp [hbs]) hbf hp hlt
    refine ⟨s.heap, fun k _ => kfree_above hi.models hi.ok (by simp [hbs]) hp hlt k, hinv, le_rfl,
      fun y _ _ _ _ _ _ => rfl⟩

/-! ### The list of the blocks -/

/-- The loop of `heap_dump` prints a line for each block. -/
theorem dumpLoop_eq {m : Mem} {bs : List Block} {e : ℕ} (hl : Thread Block.addr (Link m) e bs 0)
    (hse : ∀ x ∈ bs, Sealed m x) (hin : InSpace bs) (i : Word) {k : ℕ} (hk : bs.length < k) :
    dumpLoop m k (BitVec.ofNat 32 (first Block.addr bs 0)) i = some (dumpLines i bs) := by
  induction bs generalizing e i k with
  | nil =>
    obtain ⟨k, rfl⟩ := Nat.exists_eq_add_of_lt hk
    rw [first_nil, List.length_nil, Nat.zero_add]
    rfl
  | cons x bs ih =>
    obtain ⟨k, rfl⟩ : ∃ j, k = j + 1 := ⟨k - 1, by omega⟩
    have hx := hin x List.mem_cons_self
    unfold stop at hx
    have hsx := hse x List.mem_cons_self
    have hne : BitVec.ofNat 32 x.addr ≠ 0 := by rw [ne_eq, ofNat_eq_zero_iff (by omega)]; omega
    have hfree : (free m (BitVec.ofNat 32 x.addr) ≠ 0) = (x.free = true) := by
      rw [free_ofNat]
      exact propext hsx.free
    have hpay : BitVec.ofNat 32 x.addr + SIZEOF_HEADER = BitVec.ofNat 32 x.payload := by
      rw [payload, BitVec.ofNat_add]
      rfl
    rw [first_cons, dumpLoop, if_neg hne, next_ofNat, hl.1.next,
      ih hl.2 (fun y hy => hse y (List.mem_cons_of_mem _ hy))
      (fun y hy => hin y (List.mem_cons_of_mem _ hy)) (i + 1) (by simpa using hk), Option.map_some,
        size_ofNat, hsx.size,
      hpay, dumpLines]
    simp only [hfree]

/-- `heap_dump` prints the blocks of the arena. -/
theorem heapDump_eq (hm : Models heapLo h A) (hA : A.Ok) (hk : A.blocks.length < k) :
    heapDump k h = some A.dump := by
  rw [heapDump, Arena.dump]
  by_cases h0 : A.blocks = []
  · rw [if_pos ((hm.rep.head_eq_zero hA.inSpace).mpr h0), if_pos h0]
  · rw [if_neg fun h => h0 ((hm.rep.head_eq_zero hA.inSpace).mp h), if_neg h0, hm.rep.head,
      dumpLoop_eq hm.rep.holds.links hm.rep.holds.sealed hA.inSpace 0 hk, Option.map_some]

/-! ### The allocator refines the ledger -/

/-- The state of the allocator is that of the ledger: its blocks, the live pointers, and what was
written is there. -/
structure FirstFit.Rep (L : FirstFit) (s : Clients) : Prop where
  inv : s.Inv L.arena
  live : s.live = L.live
  written : ∀ a v, L.written a = some v → InLive L.live a ∧ s.heap.mem a = v

theorem FirstFit.rep_boot (m : Mem) : FirstFit.boot.Rep ⟨Mm.boot m, []⟩ where
  inv := inv_start m
  live := rfl
  written := fun _ _ h => absurd h nofun

theorem Arena.Malloc.length_le {n : ℕ} (h : A.Malloc n x A') : A'.blocks.length ≤ A.blocks.length + 1 := by
  cases h with
  | first => exact le_rfl
  | @reuse pre x post brk _ _ =>
    have hrem : (x.remainder n).length ≤ 1 := by
      unfold remainder
      split_ifs <;> simp
    simp only [List.length_append, List.length_cons]
    omega
  | append => simp

/-- A payload that stays live keeps what was written there. -/
theorem FirstFit.Rep.kept (h : L.Rep s) {o : Op} {s' : Clients} (ho : L.arena.Allows o)
    (hs : s.exec k o = some s')
    (hcall : ∀ a v, o ≠ .write a v) {a : Word} {v : Byte} (ha : L.written a = some v)
    {q : Word × Word} (hq : q ∈ L.live)
    (hq' : q ∈ s'.live) (hqa : q.1.toNat ≤ a.toNat ∧ a.toNat < q.1.toNat + q.2.toNat) :
      s'.heap.mem a = v := by
  rw [← (h.written a v ha).2]
  exact h.inv.keepsLive ho hs hcall q (h.live ▸ hq) hq' a hqa

theorem FirstFit.Rep.malloc (h : L.Rep s) (ho : L.arena.Allows (.malloc w)) : ∃ r L' s',
    L.call (.malloc w) = some (r, L') ∧
      (∀ k, L.arena.blocks.length < k → s.call k (.malloc w) = some (r, s')) ∧ L'.Rep s' ∧
      L'.arena.blocks.length ≤ L.arena.blocks.length + 1 := by
  obtain ⟨halloc, hk⟩ | ⟨x, A', h', halloc, hout, hw, hround, hk⟩ := kmalloc_alloc h.inv.models h.inv.ok ho
  · refine ⟨.pointer 0, L, s, by rw [FirstFit.call, halloc], fun k hlen => ?_, h, Nat.le_succ _⟩
    rw [Clients.call, hk k hlen, Option.map_some, if_pos rfl]
  have hn := toNat_align_eq
    (by have := toNat_align w; have := align_ok hw hround; omega : w.toNat + 7 < 2 ^ 32)
  obtain ⟨hn8, hn8d, -⟩ := align_ok hw hround
  have hA' := h.inv.ok.malloc (hn ▸ hn8) (hn ▸ hn8d) (hn ▸ (ho (by omega)).1) hout.malloc
  have hp0 : BitVec.ofNat 32 x.payload ≠ 0 := by
    rw [ne_eq, ofNat_eq_zero_iff (hA'.payload_lt hout.malloc.mem)]
    unfold payload
    omega
  have hs : s.exec (L.arena.blocks.length + 1) (.malloc w) =
      some ⟨h', (BitVec.ofNat 32 x.payload, w) :: s.live⟩ := by
    rw [Clients.exec, hk _ (Nat.lt_succ_self _), Option.map_some, if_neg hp0]
  have hinv : (⟨h', (BitVec.ofNat 32 x.payload, w) :: s.live⟩ : Clients).Inv A' := by
    obtain heq | ⟨y, A₂, -, hout₂, -, hinv⟩ := h.inv.malloc ho hs
    · exact absurd (congrArg Clients.live heq) (List.cons_ne_self _ _)
    · have hplace := hout₂.malloc.place
      rw [hn, hout.malloc.place] at hplace
      rwa [(Prod.mk.inj (Option.some.inj hplace)).2]
  refine ⟨.pointer (BitVec.ofNat 32 x.payload), _, _, by rw [FirstFit.call, halloc], fun k hlen => ?_,
    ⟨hinv, congrArg _ h.live, fun a v ha => ?_⟩, hout.malloc.length_le⟩
  · rw [Clients.call, hk k hlen, Option.map_some, if_neg hp0]
  · obtain ⟨q, hq, hqa⟩ := (h.written a v ha).1
    exact ⟨⟨q, List.mem_cons_of_mem _ hq, hqa⟩,
      h.kept ho hs (fun _ _ he => by cases he) ha hq (List.mem_cons_of_mem _ (h.live ▸ hq)) hqa⟩

theorem FirstFit.Rep.free (h : L.Rep s) (ho : L.arena.Allows (.free p))
    (hp : p ∈ L.live.map Prod.fst) : ∃ r L' s',
    L.call (.free p) = some (r, L') ∧
      (∀ k, L.arena.blocks.length < k → s.call k (.free p) = some (r, s')) ∧ L'.Rep s' ∧
      L'.arena.blocks.length ≤ L.arena.blocks.length + 1 := by
  have hps : p ∈ s.live.map Prod.fst := by rwa [h.live]
  obtain ⟨pre, b, post, hbs, hbf, hpb⟩ := h.inv.live_block hps
  obtain ⟨h', hk, hinv, hlen, -⟩ := h.inv.kfree_release ho hbs hbf hpb
  have hs : s.exec (L.arena.blocks.length + 1) (.free p) = some ⟨h', s.live.filter fun q => q.1 ≠ p⟩ := by
    rw [Clients.exec, if_pos hps, hk _ (Nat.lt_succ_self _), Option.map_some]
  refine ⟨_, _, ⟨h', s.live.filter fun q => q.1 ≠ p⟩, by rw [FirstFit.call, if_pos hp], fun k hlen => ?_,
    ⟨hinv, by rw [h.live], fun a v ha => ?_⟩, hlen.trans (Nat.le_succ _)⟩
  · rw [Clients.call, if_pos hps, hk k hlen, Option.map_some]
  · dsimp only at ha ⊢
    split_ifs at ha with hin
    obtain ⟨q, hq, hqa⟩ := id hin
    exact ⟨hin, h.kept ho hs (fun _ _ he => by cases he) ha (List.mem_filter.mp hq).1 (h.live ▸ hq) hqa⟩

theorem FirstFit.Rep.write (h : L.Rep s) {a : Word} {v : Byte} (ha : InLive L.live a) :
    ({ L with written := Function.update L.written a (some v) } : FirstFit).Rep
      ⟨{ s.heap with mem := s.heap.mem.storeByte a v }, s.live⟩ := by
  have hs : s.exec 0 (.write a v) = some ⟨{ s.heap with mem := s.heap.mem.storeByte a v }, s.live⟩ :=
    if_pos (by rw [h.live]; exact ha)
  refine ⟨(h.inv.write hs).2, h.live, fun b u hb => ?_⟩
  dsimp only at hb ⊢
  by_cases hab : b = a
  · subst hab
    rw [Function.update_self] at hb
    exact ⟨ha, (if_pos rfl).trans (Option.some.inj hb)⟩
  · rw [Function.update_of_ne hab] at hb
    exact ⟨(h.written b u hb).1, (if_neg hab).trans (h.written b u hb).2⟩

/-- A regular call of the allocator has the reply of the ledger, and the states behind it correspond again. -/
theorem FirstFit.Rep.call {c : HeapCall} {r : HeapReply} (h : L.Rep s) (ho : L.Regular c)
    (hc : L.call c = some (r, L')) :
    (∃ s', (∀ k, L.arena.blocks.length < k → s.call k c = some (r, s')) ∧ L'.Rep s') ∧
      L'.arena.blocks.length ≤ L.arena.blocks.length + 1 := by
  cases c with
  | malloc w =>
    obtain ⟨r', L₁, s', hL, hs, hrep, hlen⟩ := h.malloc (ho _ rfl)
    obtain ⟨rfl, rfl⟩ := Prod.mk.inj (Option.some.inj (hL.symm.trans hc))
    exact ⟨⟨s', hs, hrep⟩, hlen⟩
  | free p =>
    have hp : p ∈ L.live.map Prod.fst := by
      by_contra hp
      rw [FirstFit.call, if_neg hp] at hc
      cases hc
    obtain ⟨r', L₁, s', hL, hs, hrep, hlen⟩ := h.free (ho _ rfl) hp
    obtain ⟨rfl, rfl⟩ := Prod.mk.inj (Option.some.inj (hL.symm.trans hc))
    exact ⟨⟨s', hs, hrep⟩, hlen⟩
  | write a v =>
    rw [FirstFit.call] at hc
    split_ifs at hc with ha
    obtain ⟨rfl, rfl⟩ := Prod.mk.inj (Option.some.inj hc)
    exact ⟨⟨_, fun k _ => if_pos (by rw [h.live]; exact ha), h.write ha⟩, Nat.le_succ _⟩
  | read a =>
    obtain ⟨v, hv, heq⟩ := Option.map_eq_some_iff.mp hc
    obtain ⟨rfl, rfl⟩ := Prod.mk.inj heq
    obtain ⟨ha, hmem⟩ := h.written a v hv
    refine ⟨⟨s, fun k _ => ?_, h⟩, Nat.le_succ _⟩
    rw [Clients.call, if_pos (by rw [h.live]; exact ha), hmem]
  | dump =>
    obtain ⟨rfl, rfl⟩ := Prod.mk.inj (Option.some.inj hc)
    refine ⟨⟨s, fun k hk => ?_, h⟩, Nat.le_succ _⟩
    rw [Clients.call, heapDump_eq h.inv.models h.inv.ok hk, Option.map_some]

/-- Runs of regular calls: as long as the loops may run longer than there are calls and blocks, the
allocator gives the replies of the ledger, and ends in a state that corresponds. -/
theorem FirstFit.Rep.run {cs : List HeapCall} {rs : List HeapReply} (h : L.Rep s) (ho : L.RegularCalls cs)
    (hc : L.calls cs = some (rs, L')) (hk : L.arena.blocks.length + cs.length < k) :
    ∃ s', s.calls k cs = some (rs, s') ∧ L'.Rep s' := by
  induction cs generalizing L s rs with
  | nil =>
    obtain ⟨rfl, rfl⟩ := Prod.mk.inj (Option.some.inj hc)
    exact ⟨s, rfl, h⟩
  | cons c cs ih =>
    obtain ⟨⟨r, L₁⟩, hr, hc⟩ := Option.bind_eq_some_iff.mp hc
    obtain ⟨⟨rs', L₂⟩, hrs, heq⟩ := Option.map_eq_some_iff.mp hc
    obtain ⟨rfl, rfl⟩ := Prod.mk.inj heq
    rw [List.length_cons] at hk
    obtain ⟨⟨s₁, hs₁, h₁⟩, hlen⟩ := h.call ho.1 hr
    obtain ⟨s₂, hs₂, h₂⟩ := ih h₁ (ho.2 _ hr) hrs (by omega)
    refine ⟨s₂, ?_, h₂⟩
    rw [Clients.calls, hs₁ k (by omega), Option.bind_some]
    dsimp only
    rw [hs₂, Option.map_some]

/-- Two allocations; a byte is written to the second one, and the first one is freed and taken again. -/
def reuseCalls : List HeapCall :=
  [.malloc 8, .malloc 16, .write 0x400030 7, .free 0x400014, .malloc 4, .read 0x400030, .dump]

/-- What the client learns. -/
def reuseReplies : List HeapReply :=
  [.pointer 0x400014, .pointer 0x400030, .done, .printed [], .pointer 0x400014, .byte 7,
    .printed (.print "Heap blocks:\n" ::
    dumpLines 0 [⟨0x400000, 8, false⟩, ⟨0x40001c, 16, false⟩])]

theorem FirstFit.RegularCalls.cons {c : HeapCall} {cs : List HeapCall} {r : HeapReply}
    (hc : L.call c = some (r, L')) (ho : L.Regular c)
    (hcs : L'.RegularCalls cs) : L.RegularCalls (c :: cs) := by
  refine ⟨ho, fun t ht => ?_⟩
  obtain rfl := Option.some.inj (hc.symm.trans ht)
  exact hcs

theorem reuseCalls_regular : FirstFit.boot.RegularCalls reuseCalls := by
  have hmalloc {L : FirstFit} {n : Word} (hall : ∀ x ∈ L.arena.blocks, x.addr < L.arena.brk)
      (hroom : L.arena.brk + 24 ≤ heapHi) : L.Regular (.malloc n) := by
    rintro o ⟨⟩
    exact Arena.allows_malloc hall hroom
  have hfree {L : FirstFit} {p : Word} (hpacked : L.arena.Packed) : L.Regular (.free p) := by
    rintro o ⟨⟩
    exact hpacked.allows_free
  have hother {L : FirstFit} {c : HeapCall} (hc : ∀ o ∈ c.op, ∃ a v, o = .write a v) : L.Regular c := by
    intro o ho
    obtain ⟨a, v, rfl⟩ := hc o ho
    trivial
  refine .cons rfl (hmalloc (by decide) (by decide)) ?_
  refine .cons rfl (hmalloc (by decide) (by decide)) ?_
  refine .cons rfl (hother fun o ho => ⟨_, _, (Option.some.inj ho).symm⟩) ?_
  refine .cons rfl (hfree (by decide)) ?_
  refine .cons rfl (hmalloc (by decide) (by decide)) ?_
  refine .cons rfl (hother nofun) ?_
  exact .cons rfl (hother nofun) trivial

end SpatulaOS.Mm
