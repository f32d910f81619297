import SpatulaOS.Lib.Runs
import SpatulaOS.Mm.HeapFree
import SpatulaOS.Mm.HeapMalloc

/-!
# The heap and its clients

The allocator from `heap_init` on, with the pointers that its clients hold: they call
`kmalloc`, call `kfree` on pointers that they hold, and write bytes of their payloads.

`Clients.Inv` ties the clients' pointers to the blocks in use of a well-formed arena.
It is preserved by every step that is `Regular` (`Clients.Inv.step`): a request is not
appended over a block of the list and does not wrap round, and no merge of a `kfree`
goes wrong. So it holds at the end of every run of regular steps (`exists_inv`).
-/

namespace SpatulaOS.Mm

open ByteMemory Threaded Block Runs SpatulaOS.Video

/-! ### Clients -/

/-- What a client does. -/
inductive Op where
  /-- `kmalloc(n)` -/
  | malloc (n : Word)
  /-- `kfree(p)` -/
  | free (p : Word)
  /-- A byte is written. -/
  | write (a : Word) (v : Byte)

/-- The allocator, and the allocations that are live: the pointers that `kmalloc`
returned and that were not given to `kfree`, with the sizes that were requested. -/
structure Clients where
  /-- The allocator's state. -/
  heap : Heap
  /-- The live allocations. -/
  live : List (Word × Word)

/-- The addresses of a live allocation, as many as were requested. -/
def payloadOf (q : Word × Word) : Set ℕ := Set.Ico q.1.toNat (q.1.toNat + q.2.toNat)

/-- One operation, with a bound on the iterations of the allocator's loops. Only a live
pointer is freed, and only bytes of live allocations are written. -/
def Clients.exec (k : ℕ) (s : Clients) : Op → Option Clients
  | .malloc n =>
    (kmalloc k s.heap n).map fun r => ⟨r.2, if r.1 = 0 then s.live else (r.1, n) :: s.live⟩
  | .free p =>
    if p ∈ s.live.map Prod.fst then
      (kfree k s.heap p).map fun r => ⟨r.1, s.live.filter fun q => q.1 ≠ p⟩
    else none
  | .write a v =>
    if ∃ q ∈ s.live, q.1.toNat ≤ a.toNat ∧ a.toNat < q.1.toNat + q.2.toNat then
      some ⟨{ s.heap with mem := s.heap.mem.storeByte a v }, s.live⟩
    else none

/-- The allocator with its clients. -/
def machine : Machine Clients Op where
  start s := ∃ m, s = ⟨boot m, []⟩
  step s o s' := ∃ k, s.exec k o = some s'

theorem exists_reach {α : Type*} (m : Mem) (ops : List Op) (f : Clients → α) (b : α)
    {k : ℕ} (h : (Runs.exec (Clients.exec k) ⟨boot m, []⟩ ops).map f = some b) :
    ∃ s, Reach machine (fun _ _ => True) s ∧ f s = b := by
  obtain ⟨s, hs, rfl⟩ := Option.map_eq_some_iff.mp h
  exact ⟨s, Reach.exec (fun _ _ _ h => ⟨k, h⟩) (.start ⟨m, rfl⟩) hs, rfl⟩

/-! ### Regular steps -/

/-- A step of a client goes wrong in none of the ways that damage the heap: a request
that is rounded to a positive size is not appended over a block of the list and does
not wrap round, and no merge goes wrong when a block below the break is freed. -/
def Arena.Allows (A : Arena) : Op → Prop
  | .malloc n => 0 < (align n).toNat → A.AppendClear (align n).toNat ∧ A.NoWrap (align n).toNat
  | .free p => ∀ pre b post, A.blocks = pre ++ b :: post → p = BitVec.ofNat 32 b.payload →
      b.addr < A.brk → CoalesceFits heapLo A.brk pre b post
  | .write _ _ => True

/-- The blocks that the state holds, with the break. -/
structure IsArena (h : Heap) (A : Arena) : Prop where
  models : Models heapLo h A
  inSpace : InSpace A.blocks
  brk_lt : A.brk < 2 ^ 32

instance (h : Heap) (A : Arena) : Decidable (IsArena h A) :=
  decidable_of_iff (_ ∧ _ ∧ _) ⟨fun h => ⟨h.1, h.2.1, h.2.2⟩, fun h => ⟨h.1, h.2, h.3⟩⟩

/-- A guard on the blocks of the state before the step. -/
def Clients.Guarded (P : Arena → Op → Prop) (s : Clients) (o : Op) : Prop :=
  ∀ A, IsArena s.heap A → P A o

/-- A regular step: one that the blocks of the state allow. -/
abbrev Clients.Regular : Clients → Op → Prop := Clients.Guarded Arena.Allows

/-- The blocks of the heap allow the step, whoever takes it. -/
def Heap.Regular (h : Heap) (o : Op) : Prop := ∀ A, IsArena h A → A.Allows o

theorem IsArena.unique {h : Heap} {A A' : Arena} (ha : IsArena h A) (ha' : IsArena h A') : A = A' :=
  ha.models.unique ha'.models ha.inSpace ha'.inSpace ha.brk_lt ha'.brk_lt

theorem IsArena.guarded {P : Arena → Op → Prop} {s : Clients} {A : Arena} {o : Op}
    (ha : IsArena s.heap A) (ho : P A o) : s.Guarded P o := fun A' ha' => by
  rw [← ha.unique ha']; exact ho

/-! ### The invariant -/

/-- The clients' pointers are those of blocks in use of a well-formed arena, with room for
what was requested. -/
structure Clients.Inv (s : Clients) (A : Arena) : Prop where
  ok : A.Ok
  models : Models heapLo s.heap A
  /-- A live pointer is that of a block in use. -/
  block : ∀ q ∈ s.live, ∃ x ∈ A.blocks, x.free = false ∧ q.1 = BitVec.ofNat 32 x.payload ∧
    0 < q.2.toNat ∧ q.2.toNat ≤ x.size
  /-- The live pointers are distinct. -/
  nodup : (s.live.map Prod.fst).Nodup

variable {s s' : Clients} {A A' : Arena} {n p a : Word} {v : Byte} {k : ℕ} {x y b : Block}

theorem Arena.Ok.brk_lt_space (hA : A.Ok) : A.brk < 2 ^ 32 := by
  have := hA.brk_lt
  have := heap_bounds
  omega

theorem Arena.Ok.payload_lt (hA : A.Ok) (hx : x ∈ A.blocks) : x.payload < 2 ^ 32 := by
  have := (hA.inSpace x hx).2
  unfold stop at this
  unfold payload
  omega

theorem Clients.Inv.isArena (hi : s.Inv A) : IsArena s.heap A :=
  ⟨hi.models, hi.ok.inSpace, hi.ok.brk_lt_space⟩

theorem Arena.Ok.eq_of_payload (hA : A.Ok) (hx : x ∈ A.blocks) (hy : y ∈ A.blocks)
    (h : BitVec.ofNat 32 x.payload = BitVec.ofNat 32 y.payload) : x = y := by
  have := ofNat_inj (hA.payload_lt hx) (hA.payload_lt hy) h
  exact eq_of_addr_eq hA.apart hx hy (by unfold payload at this; omega)

theorem Clients.Inv.live_block (hi : s.Inv A) (hp : p ∈ s.live.map Prod.fst) :
    ∃ pre b post, A.blocks = pre ++ b :: post ∧ b.free = false ∧ p = BitVec.ofNat 32 b.payload := by
  obtain ⟨q, hq, rfl⟩ := List.mem_map.mp hp
  obtain ⟨b, hb, hf, hqb, -⟩ := hi.block q hq
  obtain ⟨pre, post, hbs⟩ := List.append_of_mem hb
  exact ⟨pre, b, post, hbs, hf, hqb⟩

theorem inv_start (m : Mem) : (⟨boot m, []⟩ : Clients).Inv Arena.init where
  ok := Arena.init_ok
  models := ⟨⟨rfl, trivial, fun _ hx => absurd hx List.not_mem_nil⟩, rfl, rfl⟩
  block := fun _ hq => absurd hq List.not_mem_nil
  nodup := List.nodup_nil

/-- An allocation fails and changes nothing, or hands out a block. -/
theorem Clients.Inv.malloc (hi : s.Inv A) (ho : A.Allows (.malloc n)) (hs : s.exec k (.malloc n) = some s') :
    s' = s ∨ ∃ x A', 0 < (align n).toNat ∧ HandsOut s.heap A (align n).toNat x s'.heap A' ∧
      s'.live = (BitVec.ofNat 32 x.payload, n) :: s.live ∧ s'.Inv A' := by
  obtain ⟨⟨p, h'⟩, hk, rfl⟩ := Option.map_eq_some_iff.mp hs
  obtain ⟨p', h'', hspec, hout⟩ := kmalloc_spec hi.models hi.ok n (fun h => (ho h).1) fun h => (ho h).2
  obtain ⟨rfl, rfl⟩ := Prod.mk.inj (kmalloc_unique hk (hspec _ (Nat.lt_succ_self _)))
  obtain ⟨rfl, rfl⟩ | ⟨hn0, hround, x, A', rfl, hout⟩ := hout
  · exact .inl rfl
  obtain ⟨hn8, hn8d, hnn⟩ := align_ok hn0 hround
  have hclear := (ho (by omega)).1
  have hA' := hi.ok.malloc hn8 hn8d hclear hout.malloc
  have hxpos : x.payload < 2 ^ 32 := hA'.payload_lt hout.malloc.mem
  have hx0 : BitVec.ofNat 32 x.payload ≠ 0 := by
    rw [ne_eq, ofNat_eq_zero_iff hxpos]
    unfold payload
    omega
  refine .inr ⟨x, A', by omega, hout, if_neg hx0, hA', hout.models, ?_, ?_⟩
  · dsimp only
    rw [if_neg hx0]
    intro q hq
    obtain rfl | hq := List.mem_cons.mp hq
    · refine ⟨x, hout.malloc.mem, hout.malloc.free_eq, rfl, ?_, hnn.trans hout.malloc.le_size⟩
      exact Nat.pos_of_ne_zero fun h0 => hn0 (BitVec.eq_of_toNat_eq (by simpa using h0))
    · obtain ⟨y, hy, hyf, hqy⟩ := hi.block q hq
      exact ⟨y, hout.malloc.mem_of_mem hy hyf, hyf, hqy⟩
  · dsimp only
    rw [if_neg hx0, List.map_cons, List.nodup_cons]
    refine ⟨fun hmem => ?_, hi.nodup⟩
    obtain ⟨q, hq, hqx⟩ := List.mem_map.mp hmem
    obtain ⟨y, hy, hyf, hqy, -⟩ := hi.block q hq
    have hyx := hA'.eq_of_payload (hout.malloc.mem_of_mem hy hyf) hout.malloc.mem (hqy.symm.trans hqx)
    exact hout.malloc.ne hi.ok.apart hclear hy hyf (by rw [hyx])

/-- The blocks that are left in use after `kfree(p)` are those of the other pointers. -/
theorem Clients.Inv.live_filter (hi : s.Inv A) (hb : b ∈ A.blocks) {q : Word × Word}
    (hq : q ∈ s.live.filter fun q => q.1 ≠ BitVec.ofNat 32 b.payload) :
    ∃ x ∈ A.blocks, x ≠ b ∧ x.free = false ∧ q.1 = BitVec.ofNat 32 x.payload ∧ 0 < q.2.toNat ∧
      q.2.toNat ≤ x.size := by
  obtain ⟨hq, hne⟩ := List.mem_filter.mp hq
  obtain ⟨x, hx, hf, hqx, hn⟩ := hi.block q hq
  refine ⟨x, hx, ?_, hf, hqx, hn⟩
  rintro rfl
  exact absurd hqx (by simpa using hne)

theorem nodup_filter {l : List (Word × Word)} (f : Word × Word → Bool) (h : (l.map Prod.fst).Nodup) :
    ((l.filter f).map Prod.fst).Nodup := h.sublist (List.filter_sublist.map Prod.fst)

/-- A block of a well-formed arena passes the tests of `kfree` when it is below the break. -/
theorem Arena.Ok.accepts_iff (hA : A.Ok) (hb : b ∈ A.blocks) :
    Accepts heapLo A.brk b ↔ b.addr < A.brk := by
  refine ⟨fun h => h.2.1, fun h => ⟨(hA.block b hb).lo, h, ?_, hA.below hb h⟩⟩
  have := (hA.block b hb).size_ge
  omega

/-- A free of a block below the break coalesces it. -/
theorem Clients.Inv.free_below (hi : s.Inv A) (ho : A.Allows (.free p)) {pre post : List Block}
    (hbs : A.blocks = pre ++ b :: post) (hbf : b.free = false) (hp : p = BitVec.ofNat 32 b.payload)
    (hlt : b.addr < A.brk) : ∃ pre' x post' h', mergeParts heapLo A.brk pre b post = (pre', x, post') ∧
      (∀ k, A.blocks.length < k → kfree k s.heap p = some (h', [])) ∧
      (⟨h', s.live.filter fun q => q.1 ≠ p⟩ : Clients).Inv (A.free pre b post) ∧ Sealed h'.mem x ∧
      ∀ w, w ∈ pre' ∨ w ∈ post' → KeepsBlock s.heap.mem h'.mem w := by
  have hc := ho pre b post hbs hp hlt
  obtain ⟨hA, hm, -, hnd⟩ := id hi
  have hap := hA.apart
  have hin := hA.inSpace
  have hacc := (hA.accepts_iff (b := b) (by simp [hbs])).mpr hlt
  have hb := heap_bounds
  obtain ⟨pre', x, post', hparts⟩ := exists_mergeParts heapLo A.brk pre b post
  have hfree : A.free pre b post = Arena.settled heapLo ⟨pre' ++ x :: post', A.brk⟩ := by
    rw [Arena.free, coalesced_of_parts hparts]
  rw [hbs] at hap hin
  obtain ⟨h', hk, hm', -, hx, hkeep⟩ :=
    kfree_spec (s := heapLo) (e := A.brk) (by rw [← hbs]; exact hm) hap hin
    (by omega) hA.brk_lt_space hbf hacc hc hparts
  rw [← hbs] at hk
  subst hp
  refine ⟨pre', x, post', h', hparts, hk, ⟨hA.free hbs hlt hc, by rw [hfree]; exact hm', fun q hq => ?_,
    nodup_filter _ hnd⟩, hx, hkeep⟩
  obtain ⟨y, hy, hyb, hyf, hqy⟩ := hi.live_filter (b := b) (by simp [hbs]) hq
  refine ⟨y, ?_, hyf, hqy⟩
  have hy' : y ∈ pre ∨ y ∈ post := by
    rw [hbs, List.mem_append, List.mem_cons] at hy
    tauto
  rw [hfree]
  refine mem_settled ?_ hyf
  rw [List.mem_append, List.mem_cons]
  exact (mem_mergeParts hparts hy' hyf).imp_right .inr

/-- A free of a block that is not below the break is refused. -/
theorem Clients.Inv.free_above (hi : s.Inv A) (hb : b ∈ A.blocks) (hbf : b.free = false)
    (hp : p = BitVec.ofNat 32 b.payload) (hlt : ¬ b.addr < A.brk) :
    (∃ msg, ∀ k, kfree k s.heap p = some (s.heap, [msg])) ∧
      (⟨s.heap, s.live.filter fun q => q.1 ≠ p⟩ : Clients).Inv A := by
  have hbd := heap_bounds
  have hin := hi.ok.inSpace b hb
  subst hp
  constructor
  · have hk (k : ℕ) := kfree_eq hi.models.heapStart hi.models.heapEnd (by omega) hi.ok.brk_lt_space
      (hi.models.rep.holds.sealed b hb) hin hbf k
    simp only [if_neg fun h => hlt ((hi.ok.accepts_iff hb).mp h)] at hk
    obtain ⟨msg, h0⟩ := hk 0
    exact ⟨msg, fun k => kfree_mono h0 (Nat.zero_le k)⟩
  · refine ⟨hi.ok, hi.models, fun q hq => ?_, nodup_filter _ hi.nodup⟩
    obtain ⟨y, hy, -, hyq⟩ := hi.live_filter hb hq
    exact ⟨y, hy, hyq⟩

/-- A `free` of a client releases the block of a live pointer, which is live no longer. -/
theorem Clients.Inv.exec_free (hi : s.Inv A) (hs : s.exec k (.free p) = some s') :
    ∃ pre b post h out, A.blocks = pre ++ b :: post ∧ b.free = false ∧ p = BitVec.ofNat 32 b.payload ∧
      kfree k s.heap p = some (h, out) ∧ s' = ⟨h, s.live.filter fun q => q.1 ≠ p⟩ := by
  rw [Clients.exec] at hs
  split_ifs at hs with hp
  obtain ⟨⟨h, out⟩, hk, rfl⟩ := Option.map_eq_some_iff.mp hs
  obtain ⟨pre, b, post, hbs, hbf, hpb⟩ := hi.live_block hp
  exact ⟨pre, b, post, h, out, hbs, hbf, hpb, hk, rfl⟩

/-- A byte written by a client changes nothing that the allocator reads. -/
theorem Clients.Inv.write (hi : s.Inv A) (hs : s.exec k (.write a v) = some s') :
    s' = ⟨{ s.heap with mem := s.heap.mem.storeByte a v }, s.live⟩ ∧ s'.Inv A := by
  rw [Clients.exec] at hs
  split_ifs at hs with hq
  obtain rfl := Option.some.inj hs
  obtain ⟨q, hq, h1, h2⟩ := hq
  obtain ⟨x, hx, -, hqx, -, hn⟩ := hi.block q hq
  rw [hqx, toNat_ofNat_of_lt (hi.ok.payload_lt hx)] at h1 h2
  refine ⟨rfl, hi.ok, ⟨⟨hi.models.rep.head, ?_⟩, hi.models.heapStart, hi.models.heapEnd⟩, hi.block, hi.nodup⟩
  refine hi.models.rep.holds.storeByte hi.ok.apart hi.ok.inSpace hx h1 ?_
  unfold payload at h2
  unfold stop
  omega

/-- Every step that the arena allows keeps the invariant. -/
theorem Clients.Inv.step {o : Op} (hi : s.Inv A) (ho : A.Allows o) (hs : s.exec k o = some s') :
    ∃ A', s'.Inv A' := by
  cases o with
  | malloc n =>
    obtain rfl | ⟨x, A', -, -, -, h⟩ := hi.malloc ho hs
    · exact ⟨A, hi⟩
    · exact ⟨A', h⟩
  | free p =>
    obtain ⟨pre, b, post, h, out, hbs, hbf, hpb, hk, rfl⟩ := hi.exec_free hs
    by_cases hlt : b.addr < A.brk
    · obtain ⟨-, -, -, h', -, hk', hi', -⟩ := hi.free_below ho hbs hbf hpb hlt
      obtain ⟨rfl, -⟩ := Prod.mk.inj (kfree_unique hk (hk' _ (Nat.lt_succ_self _)))
      exact ⟨_, hi'⟩
    · obtain ⟨⟨msg, hk'⟩, hi'⟩ := hi.free_above (by simp [hbs]) hbf hpb hlt
      obtain ⟨rfl, -⟩ := Prod.mk.inj (kfree_unique hk (hk' 0))
      exact ⟨A, hi'⟩
  | write a v => exact ⟨A, (hi.write hs).2⟩

/-- A request is allowed when all the blocks lie below the break and there is room for a
header and a guard word above it. -/
theorem Arena.allows_malloc (hall : ∀ x ∈ A.blocks, x.addr < A.brk) (hroom : A.brk + 24 ≤ heapHi) :
    A.Allows (.malloc n) := fun _ => ⟨fun _ _ => hall, fun _ h => absurd h (by omega)⟩

/-! ### Pointers -/

variable {h h' : Heap} {ps qs : List Word} {out : List VgaCall}

/-- The pointers are those of blocks in use, of another block each. -/
def Heap.InUse (h : Heap) (A : Arena) (ps : List Word) : Prop :=
  ∃ live, (⟨h, live⟩ : Clients).Inv A ∧ (live.map Prod.fst).Perm ps

theorem Heap.InUse.isArena (hi : h.InUse A ps) : IsArena h A := by
  obtain ⟨live, hinv, -⟩ := hi
  exact hinv.isArena

theorem Heap.InUse.nodup (hi : h.InUse A ps) : ps.Nodup := by
  obtain ⟨live, hinv, hperm⟩ := hi
  exact hperm.nodup_iff.mp hinv.nodup

theorem Heap.InUse.perm (hi : h.InUse A ps) (hp : ps.Perm qs) : h.InUse A qs := by
  obtain ⟨live, hinv, hperm⟩ := hi
  exact ⟨live, hinv, hperm.trans hp⟩

theorem inUse_boot (m : Mem) : (boot m).InUse Arena.init [] := ⟨[], inv_start m, List.Perm.nil⟩

/-- `kmalloc` fails, or its answer is one more pointer. -/
theorem Heap.InUse.malloc (hi : h.InUse A ps) (ho : A.Allows (.malloc n))
    (hk : kmalloc k h n = some (p, h')) :
    ∃ A', h'.InUse A' (if p = 0 then ps else p :: ps) ∧ (A' = A ∨ ∃ x, A.Malloc (align n).toNat x A') := by
  obtain ⟨live, hinv, hperm⟩ := hi
  have hs : (⟨h, live⟩ : Clients).exec k (.malloc n) = some ⟨h', if p = 0 then live else (p, n) :: live⟩ := by
    rw [Clients.exec, hk]
    rfl
  have hmap : ((if p = 0 then live else (p, n) :: live).map Prod.fst).Perm
      (if p = 0 then ps else p :: ps) := by
    split_ifs
    · exact hperm
    · exact hperm.cons p
  obtain heq | ⟨x, A', -, hout, -, hinv'⟩ := hinv.malloc ho hs
  · exact ⟨A, ⟨_, heq ▸ hinv, hmap⟩, .inl rfl⟩
  · exact ⟨A', ⟨_, hinv', hmap⟩, .inr ⟨x, hout.malloc⟩⟩

/-- `kfree` of one of the pointers leaves the others. -/
theorem Heap.InUse.free (hi : h.InUse A ps) (ho : A.Allows (.free p)) (hp : p ∈ ps)
    (hk : kfree k h p = some (h', out)) : ∃ A', h'.InUse A' (ps.filter (· ≠ p)) := by
  obtain ⟨live, hinv, hperm⟩ := hi
  have hs : (⟨h, live⟩ : Clients).exec k (.free p) = some ⟨h', live.filter fun q => q.1 ≠ p⟩ := by
    rw [Clients.exec, if_pos (hperm.mem_iff.mpr hp), hk]
    rfl
  obtain ⟨A', hinv'⟩ := hinv.step ho hs
  refine ⟨A', _, hinv', ?_⟩
  have hmap : (live.filter fun q => q.1 ≠ p).map Prod.fst = (live.map Prod.fst).filter (· ≠ p) := by
    rw [List.filter_map]
    rfl
  rw [hmap]
  exact hperm.filter _

/-- All blocks are in use, and they are below the break. -/
def Arena.Packed (A : Arena) : Prop := ∀ x ∈ A.blocks, x.free = false ∧ x.addr < A.brk

/-- While no block is free, a request moves the break by its size, a header and a guard word at most. -/
theorem Arena.Malloc.packed {n : ℕ} (hm : A.Malloc n x A') (hA : A.Packed) :
    A'.Packed ∧ A'.brk ≤ A.brk + 24 + n := by
  cases hm with
  | first hroom =>
    refine ⟨fun y hy => ?_, by dsimp only; omega⟩
    rw [List.mem_singleton.mp hy]
    exact ⟨rfl, by dsimp only; omega⟩
  | reuse _ hx => exact absurd ((hA _ (by simp)).1.symm.trans hx.1) nofun
  | append _ _ hroom =>
    refine ⟨fun y hy => ?_, le_refl _⟩
    obtain hy | hy := List.mem_append.mp hy
    · exact ⟨(hA y hy).1, (hA y hy).2.trans (by dsimp only; omega)⟩
    · rw [List.mem_singleton.mp hy]
      exact ⟨rfl, by dsimp only; omega⟩

theorem Arena.Packed.allows_free (hA : A.Packed) : A.Allows (.free p) := by
  intro pre b post hbs _ _
  refine ⟨fun y post' hpost hy => ?_, fun pre' y hpre hy => ?_⟩
  · have hmem : y ∈ A.blocks := by simp [hbs, hpost]
    exact absurd ((hA y hmem).1.symm.trans hy.1) nofun
  · have hmem : y ∈ A.blocks := by simp [hbs, hpre]
    exact absurd ((hA y hmem).1.symm.trans hy.1) nofun

instance (A : Arena) : Decidable A.Packed := by unfold Arena.Packed; infer_instance

/-! ### Runs -/

/-- The invariant holds at the end of every run of regular steps. -/
theorem exists_inv (h : Reach machine Clients.Regular s) :
    ∃ A, s.Inv A := by
  refine h.invariant (I := fun s => ∃ A, s.Inv A) ?_ ?_
  · rintro s ⟨m, rfl⟩
    exact ⟨Arena.init, inv_start m⟩
  · rintro s o s' ⟨A, hi⟩ ho ⟨k, hs⟩
    exact hi.step (ho A hi.isArena) hs

/-! ### Guards that are computed -/

/-- The ways to split a list in what is before an element, the element and what is behind it. -/
theorem forall_split_iff {α : Type*} {P : List α → α → List α → Prop} {l : List α} :
    (∀ pre x post, l = pre ++ x :: post → P pre x post) ↔
      ∀ i : Fin l.length, P (l.take i) l[i] (l.drop (i + 1)) := by
  constructor
  · intro h i
    refine h _ _ _ ?_
    rw [Fin.getElem_fin, ← List.drop_eq_getElem_cons, List.take_append_drop]
  · rintro h pre x post rfl
    simpa using h ⟨pre.length, by simp⟩

instance instDecidableSplits {α : Type*} (l : List α) (P : List α → α → List α → Prop)
    [∀ pre x post, Decidable (P pre x post)] :
      Decidable (∀ pre x post, l = pre ++ x :: post → P pre x post) :=
  decidable_of_iff _ forall_split_iff.symm

instance instDecidableNoWrap (A : Arena) (n : ℕ) : Decidable (A.NoWrap n) := by
  unfold Arena.NoWrap
  infer_instance

instance instDecidableAllows (A : Arena) : (o : Op) → Decidable (A.Allows o)
  | .malloc n => by
    unfold Arena.Allows Arena.AppendClear
    infer_instance
  | .free p => instDecidableSplits A.blocks fun pre b post => p = BitVec.ofNat 32 b.payload →
      b.addr < A.brk → CoalesceFits heapLo A.brk pre b post
  | .write _ _ => .isTrue trivial

/-- A step with all blocks below the break. -/
def Arena.AllowsWithin (A : Arena) (o : Op) : Prop := (∀ x ∈ A.blocks, x.addr < A.brk) ∧ A.Allows o

instance instDecidableAllowsWithin (A : Arena) (o : Op) : Decidable (A.AllowsWithin o) :=
  inferInstanceAs (Decidable (_ ∧ _))

/-- An execution of calls that a guard admits in the arenas that it goes through. -/
theorem exists_guarded_reach {P Q : Arena → Op → Prop} [∀ A o, Decidable (P A o)] (hPQ : ∀ A o, P A o → Q A o)
    (arenas : List Arena) (ops : List Op) {α : Type*} {f : Clients → α} {v : α}
    (h : (Runs.exec (fun s o => if ∃ A ∈ arenas, IsArena s.heap A ∧ P A o then s.exec 8 o else none)
      ⟨boot fun _ => 0, []⟩ ops).map f = some v) :
    ∃ s, Reach machine (Clients.Guarded Q) s ∧ f s = v := by
  obtain ⟨s, hs, rfl⟩ := Option.map_eq_some_iff.mp h
  have hrun : Reach machine (fun (s : Clients) o => ∃ A ∈ arenas, IsArena s.heap A ∧ P A o) s :=
    Reach.exec_guarded (f := Clients.exec 8) (fun _ _ _ h => ⟨8, h⟩) (.start ⟨_, rfl⟩) hs
  exact ⟨s, hrun.imp fun t o _ ⟨A, _, hA, ho⟩ => hA.guarded (hPQ A o ho), rfl⟩

/-! ### A sample -/

/-- The first two of three blocks are freed, and a request takes the block that they were merged to. -/
def mergeOps : List Op := [.malloc 8, .malloc 8, .malloc 8, .free 0x400014, .free 0x400030, .malloc 32]

/-- The arenas of the run. -/
def mergeArenas : List Arena :=
  [.init, ⟨[⟨0x400000, 8, false⟩], 0x40001c⟩, ⟨[⟨0x400000, 8, false⟩, ⟨0x40001c, 8, false⟩], 0x40003c⟩,
    ⟨[⟨0x400000, 8, false⟩, ⟨0x40001c, 8, false⟩, ⟨0x40003c, 8, false⟩], 0x40005c⟩,
    ⟨[⟨0x400000, 8, true⟩, ⟨0x40001c, 8, false⟩, ⟨0x40003c, 8, false⟩], 0x40005c⟩,
    ⟨[⟨0x400000, 40, true⟩, ⟨0x40003c, 8, false⟩], 0x40005c⟩]

/-- The arena at its end. -/
def mergedArena : Arena := ⟨[⟨0x400000, 40, false⟩, ⟨0x40003c, 8, false⟩], 0x40005c⟩

theorem exists_merge_run {P Q : Arena → Op → Prop} [∀ A o, Decidable (P A o)] (hPQ : ∀ A o, P A o → Q A o)
    (h : (Runs.exec (fun (s : Clients) o => if ∃ A ∈ mergeArenas, IsArena s.heap A ∧ P A o then
      s.exec 8 o else none)
      ⟨boot fun _ => 0, []⟩ mergeOps).map (fun s => (s.live, decide (IsArena s.heap mergedArena))) =
        some ([(0x400014, 32), (0x400050, 8)], true)) :
    ∃ s, Reach machine (Clients.Guarded Q) s ∧ s.live = [(0x400014, 32), (0x400050, 8)] ∧
      IsArena s.heap mergedArena := by
  obtain ⟨s, hs, hv⟩ := exists_guarded_reach hPQ mergeArenas mergeOps h
  obtain ⟨hlive, hA⟩ := Prod.mk.inj hv
  exact ⟨s, hs, hlive, of_decide_eq_true hA⟩

theorem exists_regular_merge :
    ∃ s, Reach machine Clients.Regular s ∧ s.live = [(0x400014, 32), (0x400050, 8)] ∧
      IsArena s.heap mergedArena :=
  exists_merge_run (P := Arena.AllowsWithin) (fun _ _ h => h.2) (by decide +kernel)

end SpatulaOS.Mm
