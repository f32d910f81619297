import SpatulaOS.Fs.Blocks
import SpatulaOS.Fs.WellFormed
import SpatulaOS.Mm.HeapClients

/-!
# The file system as a client of the heap

What the calls of the file system request from `kmalloc`, and the answers that the heap has for
them. A `Storage` is the heap with the file system; a call is carried out on it if the
answer of the call is the one of `kmalloc`. The bytes of the blocks are those of the file
system: the heap's memory has the headers.

The blocks that the file system has got, and the pointers of the other clients, are those
of blocks in use (`Stored`), and every node and every buffer is a block that the file system
has got (`Covered`). Both are preserved by every call whose request is regular
(`Stored.step`), and the calls at boot are regular (`Stored.boot`).
-/

namespace SpatulaOS.Fs

open ByteMemory Runs SpatulaOS.Mm SpatulaOS.Video

/-- `sizeof(ramfs_node_t)`. -/
abbrev SIZEOF_NODE : Word := 228

/-- The size that a call requests from `kmalloc`, if it comes to it. -/
def Call.request (s : FsState) : Call → Option Word
  | .createInstance _ => some SIZEOF_NODE
  | .create parent _ _ _ => if CreateAllocates s parent then some SIZEOF_NODE else none
  | .sys (.sysWrite fd _ size _) =>
    if SysWriteAllocates s fd size then some ((s.fdTable fd.toNat).offset + size) else none
  | _ => none

/-- The answer of `kmalloc` that a call has. -/
def Call.answer : Call → Word
  | .createInstance answer => answer
  | .create _ _ _ answer => answer
  | .sys (.sysWrite _ _ _ answer) => answer
  | _ => 0

/-- The heap and the file system. -/
structure Storage where
  /-- The allocator. -/
  heap : Heap
  /-- The file system. -/
  fs : FsState

/-- A call, with a bound on the iterations of `kmalloc`. Its answer has to be the one of the heap. -/
def Storage.call (k : ℕ) (t : Storage) (c : Call) : Option Storage :=
  match c.request t.fs with
  | none => (after t.fs c).map fun s => ⟨t.heap, s⟩
  | some n =>
    (kmalloc k t.heap n).bind fun r =>
      if r.1 = c.answer then (after t.fs c).map fun s => ⟨r.2, s⟩ else none

/-- The blocks of the heap allow the request of a call. -/
def Storage.Regular (t : Storage) (c : Call) : Prop :=
  ∀ n, c.request t.fs = some n → t.heap.Regular (.malloc n)

variable {s s' : FsState} {c : Call} {cs : List Call} {a answer parent flags rnode offset size n : Word}
  {name : List Byte} {buffer : ℕ → Byte} {others : List Word} {t t' : Storage} {A A' : Arena} {k : ℕ}

/-- What a call does to the heap and to the file system. -/
theorem Storage.call_cases (h : t.call k c = some t') : after t.fs c = some t'.fs ∧
    (c.request t.fs = none ∧ t'.heap = t.heap ∨
      ∃ n, c.request t.fs = some n ∧ kmalloc k t.heap n = some (c.answer, t'.heap)) := by
  unfold Storage.call at h
  cases hr : c.request t.fs with
  | none =>
    rw [hr] at h
    obtain ⟨s, hs, rfl⟩ := Option.map_eq_some_iff.mp h
    exact ⟨hs, .inl ⟨rfl, rfl⟩⟩
  | some n =>
    rw [hr] at h
    obtain ⟨⟨p, h'⟩, hk, h⟩ := Option.bind_eq_some_iff.mp h
    dsimp only at h
    split_ifs at h with hp
    obtain ⟨s, hs, rfl⟩ := Option.map_eq_some_iff.mp h
    exact ⟨hs, .inr ⟨n, rfl, by rw [hk, hp]⟩⟩

/-- The file system does not look at the heap but for the answers. -/
theorem Storage.exec_after (h : exec (Storage.call k) t cs = some t') : exec after t.fs cs = some t'.fs := by
  induction cs generalizing t with
  | nil =>
    obtain rfl := Option.some.inj h
    rfl
  | cons c cs ih =>
    obtain ⟨u, hu, h⟩ := Option.bind_eq_some_iff.mp h
    rw [exec, (Storage.call_cases hu).1]
    exact ih h

/-! ### Blocks -/

/-- `ramfs_create` makes a node exactly if it comes to `kmalloc`. -/
theorem create_blocks (h : after s (.create parent name flags answer) = some s') :
    s'.blocks = if CreateAllocates s parent then (s.kmalloc answer).blocks else s.blocks := by
  obtain ⟨r, h⟩ := after_eq_some.mp h
  obtain ⟨⟨ret, s''⟩, hc, heq⟩ := map_eq_ok h
  obtain ⟨-, rfl⟩ := Prod.mk.inj heq
  split_ifs with halloc
  · obtain ⟨hparent, hpriv, hroom⟩ := halloc
    rw [ramfsCreate_eq hparent hpriv, if_neg (Nat.not_le_of_lt hroom)] at hc
    split_ifs at hc
    obtain ⟨-, rfl⟩ := Prod.mk.inj (Except.ok.inj hc)
    rfl
  · obtain ⟨-, rfl⟩ | ⟨hparent, hpriv, hroom, -⟩ := ramfsCreate_cases hc
    · rfl
    · exact absurd ⟨hparent, hpriv, hroom⟩ halloc

/-- `sys_write` gives a file a new buffer exactly if it comes to `kmalloc`. -/
theorem write_blocks {fd : ℤ} (h : after s (.sys (.sysWrite fd buffer size answer)) = some s') :
    s'.blocks = if SysWriteAllocates s fd size then (s.kmalloc answer).blocks else s.blocks := by
  obtain ⟨r, h⟩ := after_eq_some.mp h
  obtain ⟨⟨ret, s''⟩, hw, heq⟩ := map_eq_ok h
  obtain ⟨-, rfl⟩ := Prod.mk.inj heq
  split_ifs with halloc
  · obtain ⟨hfd, hnode, hpriv, hfile, hg⟩ := halloc
    unfold sysWrite at hw
    rw [if_neg (not_not.mpr hfd)] at hw
    dsimp only at hw
    rw [ramfsWrite_file hnode rfl hpriv hfile] at hw
    split_ifs at hw
    obtain ⟨-, rfl⟩ := Prod.mk.inj (Except.ok.inj hw)
    rw [moveOffset_eq]
    exact if_pos hg
  · obtain ⟨-, rfl⟩ | ⟨desc, rfl, hfd, hnode, hpriv, hfile, -, rfl⟩ := sysWrite_cases hw
    · rfl
    · rw [moveOffset_eq]
      exact if_neg fun hg => halloc ⟨hfd, hnode, hpriv, hfile, hg⟩

theorem quiet_blocks {c : SysCall} {r : Reply} (h : call s (.sys c) = .ok (r, s'))
    (hc : ∀ fd buffer size answer, c ≠ .sysWrite fd buffer size answer) : s'.blocks = s.blocks := by
  have h : sysCall s c = .ok (r, s') := h
  cases sysCall_effect h with
  | unchanged => rfl
  | descriptor _ => rfl
  | write _ _ _ _ _ => exact absurd rfl (hc _ _ _ _)

/-- The blocks after a call: those before it, and the answer if it is one to a request. -/
theorem after_blocks (h : after s c = some s') :
    s'.blocks = if (c.request s).isSome then (s.kmalloc c.answer).blocks else s.blocks := by
  cases c with
  | createInstance answer =>
    cases after_effect h
    rfl
  | setRoot root =>
    cases after_effect h
    rfl
  | create parent name flags answer =>
    rw [create_blocks h, Call.request]
    split_ifs <;> first | rfl | contradiction
  | mount path fsRoot =>
    cases after_effect h
    rfl
  | sys c =>
    obtain ⟨r, hc⟩ := after_eq_some.mp h
    cases c with
    | sysWrite fd buffer size answer =>
      rw [write_blocks h, Call.request]
      split_ifs <;> first | rfl | contradiction
    | sysOpen path => exact quiet_blocks hc fun _ _ _ _ h => (by cases h)
    | sysRead fd size => exact quiet_blocks hc fun _ _ _ _ h => (by cases h)
    | sysClose fd => exact quiet_blocks hc fun _ _ _ _ h => (by cases h)
    | sysSeek fd offset => exact quiet_blocks hc fun _ _ _ _ h => (by cases h)

/-! ### Nodes and buffers -/

/-- Every node and every buffer is a block that the file system has got. -/
structure Covered (s : FsState) : Prop where
  node : ∀ a, s.Live a → a ∈ s.blocks
  data : ∀ a, (s.nodes a).data = 0 ∨ (s.nodes a).data ∈ s.blocks

theorem Covered.start (h : fsMachine.start s) : Covered s := by
  obtain ⟨mem, table, rfl⟩ := h
  exact ⟨fun a ha => absurd rfl ha, fun a => .inl rfl⟩

theorem mem_kmalloc (h : answer ≠ 0) : answer ∈ (s.kmalloc answer).blocks := by
  unfold FsState.kmalloc
  rw [if_neg h]
  exact List.mem_cons_self

theorem subset_kmalloc : s.blocks ⊆ (s.kmalloc answer).blocks := by
  unfold FsState.kmalloc
  split_ifs
  · exact List.Subset.refl _
  · exact List.subset_cons_self _ _

theorem Covered.of_nodes (h : Covered s) (hsub : s.blocks ⊆ s'.blocks)
    (hnode : ∀ a, s'.Live a → s.Live a ∨ a ∈ s'.blocks)
    (hdata : ∀ a, (s'.nodes a).data = (s.nodes a).data ∨ (s'.nodes a).data = 0 ∨
      (s'.nodes a).data ∈ s'.blocks) :
    Covered s' := by
  refine ⟨fun a ha => (hnode a ha).elim (fun hlive => hsub (h.node a hlive)) id, fun a => ?_⟩
  obtain heq | hnew := hdata a
  · rw [heq]
    exact (h.data a).imp_right fun hmem => hsub hmem
  · exact hnew

theorem Covered.of_eq (h : Covered s) (hnodes : s'.nodes = s.nodes)
    (hblocks : s'.blocks = s.blocks) : Covered s' := by
  refine h.of_nodes (by rw [hblocks]; exact List.Subset.refl _) (fun a ha => .inl ?_) fun a =>
    .inl (by rw [hnodes])
  rw [FsState.Live, ← hnodes]
  exact ha

theorem Covered.node_update (h : Covered s) {n : RamfsNode} (hpriv : n.fsPrivate = answer)
    (hdata : n.data = 0)
    (hblocks : s'.blocks = (s.kmalloc answer).blocks)
    (hnodes : ∀ a, (s'.nodes a).fsPrivate = (Function.update s.nodes answer n a).fsPrivate ∧
      (s'.nodes a).data = (Function.update s.nodes answer n a).data) : Covered s' := by
  refine h.of_nodes (by rw [hblocks]; exact subset_kmalloc) (fun a ha => ?_) fun a => ?_
  · rw [FsState.Live, (hnodes a).1] at ha
    by_cases heq : a = answer
    · rw [heq, Function.update_self, hpriv] at ha
      rw [hblocks, heq]
      exact .inr (mem_kmalloc ha)
    · rw [Function.update_of_ne heq] at ha
      exact .inl ha
  · rw [(hnodes a).2]
    by_cases heq : a = answer
    · rw [heq, Function.update_self]
      exact .inr (.inl hdata)
    · rw [Function.update_of_ne heq]
      exact .inl rfl

theorem Covered.linked (h : Covered s) : Covered (linked s parent name flags answer) := by
  refine h.node_update (n := newNode s parent name flags answer) rfl rfl rfl fun a => ?_
  unfold Fs.linked
  dsimp only
  by_cases ha : a = (s.nodes parent).fsPrivate
  · rw [ha, Function.update_self]
    exact ⟨rfl, rfl⟩
  · rw [Function.update_of_ne ha]
    exact ⟨rfl, rfl⟩

theorem Covered.written (h : Covered s) : Covered (written s rnode offset size buffer answer) := by
  have hblocks : (Fs.written s rnode offset size buffer answer).blocks =
    if Grows s rnode offset size then (s.kmalloc answer).blocks else s.blocks := rfl
  refine h.of_nodes ?_ (fun a ha => .inl ?_) fun a => ?_
  · rw [hblocks]
    split_ifs
    · exact subset_kmalloc
    · exact List.Subset.refl _
  · by_cases heq : a = rnode
    · rw [FsState.Live, heq, written_nodes_self] at ha
      rw [heq]
      exact ha
    · rw [FsState.Live, written_nodes_of_ne heq] at ha
      exact ha
  · by_cases heq : a = rnode
    · rw [heq, written_nodes_self, hblocks, writtenNode]
      dsimp only
      split_ifs
      · exact .inr ((eq_or_ne answer 0).imp_right mem_kmalloc)
      · exact .inl rfl
    · rw [written_nodes_of_ne heq]
      exact .inl rfl

/-- Every call keeps nodes and buffers in blocks. -/
theorem Covered.step (h : Covered s) (hc : after s c = some s') : Covered s' := by
  cases after_effect hc with
  | @createInstance answer =>
    refine h.node_update (n := ⟨text "/", VFS_DIR, 0, answer, true, 0, 0, 0, []⟩) rfl rfl rfl fun a => ?_
    rw [ramfsCreateInstance_eq]
    exact ⟨rfl, rfl⟩
  | setRoot => exact h.of_eq rfl rfl
  | full => exact h
  | create _ _ _ => exact h.linked
  | mount _ => exact h.of_eq rfl rfl
  | sys hc =>
    cases sysCall_effect hc with
    | unchanged => exact h
    | descriptor _ => exact h.of_eq rfl rfl
    | write _ _ _ _ _ => exact h.written.of_eq (by rw [moveOffset_eq]) (by rw [moveOffset_eq])

/-! ### The heap -/

/-- The file system and others are clients of the heap: their pointers are those of blocks in use, and
the nodes and buffers are among those of the file system. -/
structure Stored (others : List Word) (t : Storage) (A : Arena) : Prop where
  inUse : t.heap.InUse A (others ++ t.fs.blocks)
  covered : Covered t.fs

/-- A call that the arena allows keeps this, and leaves the arena alone if it requests nothing. -/
theorem Stored.step (h : Stored others t A) (ho : ∀ n, c.request t.fs = some n → A.Allows (.malloc n))
    (hc : t.call k c = some t') : ∃ A', Stored others t' A' ∧
      (A' = A ∨ ∃ n x, c.request t.fs = some n ∧ A.Malloc (align n).toNat x A') := by
  obtain ⟨hafter, ⟨hr, hheap⟩ | ⟨n, hr, hk⟩⟩ := Storage.call_cases hc
  · have hblocks : t'.fs.blocks = t.fs.blocks :=
      (after_blocks hafter).trans (if_neg (by rw [hr]; exact nofun))
    refine ⟨A, ⟨?_, h.covered.step hafter⟩, .inl rfl⟩
    rw [hheap, hblocks]
    exact h.inUse
  · have hblocks : t'.fs.blocks = (t.fs.kmalloc c.answer).blocks :=
      (after_blocks hafter).trans (if_pos (by rw [hr]; rfl))
    obtain ⟨A', hinUse, hA'⟩ := h.inUse.malloc (ho n hr) hk
    refine ⟨A', ⟨hinUse.perm ?_, h.covered.step hafter⟩, hA'.imp_right fun ⟨x, hx⟩ => ⟨n, x, hr, hx⟩⟩
    rw [hblocks, FsState.kmalloc]
    split_ifs
    · exact List.Perm.refl _
    · exact List.perm_middle.symm

/-- A sequence of calls, all of whose requests are regular. -/
theorem Stored.run (h : Stored others t A) (hreg : Along (Storage.call k) Storage.Regular t cs)
    (hc : exec (Storage.call k) t cs = some t') : ∃ A', Stored others t' A' := by
  refine hreg.invariant (I := fun t => ∃ A, Stored others t A) ⟨A, h⟩ ?_ hc
  rintro t c t' ⟨A, h⟩ hok hstep
  obtain ⟨A', h', -⟩ := h.step (fun n hr => hok n hr A h.inUse.isArena) hstep
  exact ⟨A', h'⟩

theorem Stored.notMem_blocks (h : Stored others t A) (ha : a ∈ others) : a ∉ t.fs.blocks :=
  fun hb => (List.nodup_append.mp h.inUse.nodup).2.2 a ha a hb rfl

theorem Stored.malloc {heap : Heap} (h : Stored others t A) (ho : t.heap.Regular (.malloc n))
    (hk : kmalloc k t.heap n = some (a, heap)) :
    ∃ A', Stored (if a = 0 then others else a :: others) ⟨heap, t.fs⟩ A' := by
  obtain ⟨A', hinUse, -⟩ := h.inUse.malloc (ho A h.inUse.isArena) hk
  refine ⟨A', ?_, h.covered⟩
  split_ifs at hinUse ⊢
  · exact hinUse
  · exact hinUse

theorem Stored.free {heap : Heap} {out : List VgaCall} (h : Stored others t A) (ho : t.heap.Regular (.free a))
    (ha : a ∈ others) (hk : kfree k t.heap a = some (heap, out)) :
    ∃ A', Stored (others.filter (· ≠ a)) ⟨heap, t.fs⟩ A' := by
  obtain ⟨A', hinUse⟩ := h.inUse.free (ho A h.inUse.isArena) (List.mem_append_left _ ha) hk
  have hblocks : t.fs.blocks.filter (· ≠ a) = t.fs.blocks := by
    refine List.filter_eq_self.mpr fun b hb => decide_eq_true ?_
    rintro rfl
    exact h.notMem_blocks ha hb
  rw [List.filter_append, hblocks] at hinUse
  exact ⟨A', hinUse, h.covered⟩

/-- The block is a node of the file system or the buffer of one. -/
def HeldByFs (s : FsState) (a : Word) : Prop := ∃ b, s.Live b ∧ (a = b ∨ a = (s.nodes b).data)

/-- The blocks of the other clients are no nodes or buffers. -/
theorem Stored.not_heldByFs (h : Stored others t A) (ha : a ∈ others) (h0 : a ≠ 0) : ¬ HeldByFs t.fs a := by
  have hnew := h.notMem_blocks ha
  rintro ⟨b, hlive, rfl | rfl⟩
  · exact hnew (h.covered.node _ hlive)
  · exact (h.covered.data b).elim h0 hnew

/-! ### The boot -/

/-- Calls that request nodes and nothing else are regular while no block is free and there is room
for the nodes. -/
theorem Stored.nodes (h : Stored others t A) (hA : A.Packed)
    (hcs : ∀ c ∈ cs, ∀ s n, c.request s = some n → n = SIZEOF_NODE)
    (hroom : A.brk + 256 * cs.length + 24 ≤ heapHi)
    (hc : exec (Storage.call k) t cs = some t') : ∃ A', Stored others t' A' := by
  induction cs generalizing t A with
  | nil =>
    obtain rfl := Option.some.inj hc
    exact ⟨A, h⟩
  | cons c cs ih =>
    obtain ⟨u, hu, hc⟩ := Option.bind_eq_some_iff.mp hc
    rw [List.length_cons] at hroom
    have hallows (n : Word) : A.Allows (.malloc n) := Arena.allows_malloc (fun x hx => (hA x hx).2) (by omega)
    have hcs' := fun c hc => hcs c (List.mem_cons_of_mem _ hc)
    obtain ⟨A', h', rfl | ⟨n, x, hr, hm⟩⟩ := h.step (fun n _ => hallows n) hu
    · exact ih h' hA hcs' (by omega) hc
    · obtain rfl := hcs c List.mem_cons_self _ n hr
      have hsize : (align SIZEOF_NODE).toNat = 232 := by decide
      obtain ⟨hA', hbrk⟩ := hm.packed hA
      exact ih h' hA' hcs' (by omega) hc

/-- The calls of the kernel at boot, with the answers of `kmalloc`. -/
def kernelCalls (mainRoot tmp tmpRamfs : Word) : List Call :=
  [.createInstance mainRoot, .setRoot mainRoot, .create mainRoot (text "tmp") VFS_DIR tmp,
    .createInstance tmpRamfs,
    .mount (text "/tmp") tmpRamfs]

/-- The boot is regular, whatever is in the memory. -/
theorem Stored.boot {m : Mem} {mainRoot tmp tmpRamfs : Word} (hs : fsMachine.start s)
    (hc : exec (Storage.call k) ⟨Mm.boot m, s⟩ (kernelCalls mainRoot tmp tmpRamfs) = some t') :
    ∃ A, Stored [] t' A := by
  have hblocks : s.blocks = [] := by
    obtain ⟨mem, table, rfl⟩ := hs
    rfl
  have h : Stored [] ⟨Mm.boot m, s⟩ Arena.init := by
    refine ⟨?_, .start hs⟩
    rw [List.nil_append, hblocks]
    exact inUse_boot m
  have hlen : (kernelCalls mainRoot tmp tmpRamfs).length = 5 := rfl
  have hroom : Arena.init.brk + 256 * (kernelCalls mainRoot tmp tmpRamfs).length + 24 ≤ heapHi := by
    rw [hlen]
    decide
  refine h.nodes (fun x hx => absurd hx List.not_mem_nil) (fun c hc s n hr => ?_) hroom hc
  have hnode : c.request s = none ∨ c.request s = some SIZEOF_NODE := by
    simp only [kernelCalls, List.mem_cons, List.not_mem_nil, or_false] at hc
    obtain rfl | rfl | rfl | rfl | rfl := hc
    · exact .inr rfl
    · exact .inl rfl
    · rw [Call.request]
      split_ifs
      · exact .inr rfl
      · exact .inl rfl
    · exact .inr rfl
    · exact .inl rfl
  obtain hnone | hsome := hnode
  · cases hnone.symm.trans hr
  · exact Option.some.inj (hr.symm.trans hsome)

end SpatulaOS.Fs
