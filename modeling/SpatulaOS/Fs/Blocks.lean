import SpatulaOS.Fs.Buffers
import SpatulaOS.Fs.Calls

/-!
# Blocks of the file system

The blocks that `kmalloc` hands out to the file system, in a run in which it always answers with
a new block. The nodes are the blocks reachable from the roots (`Tree`), and each of them
refers to at most one buffer. A block is lost when a write replaces a buffer: the old one is
copied and then forgotten. In a run in which no write does this, every block is a node or the
buffer of one, and there are at most two of them for each node (`blocks_referenced`).
-/

namespace SpatulaOS.Fs

open ByteMemory Runs

variable {s s' : FsState} {c : Call} {r : Reply} {a b x answer parent flags rnode offset size : Word}
  {ns cs : List Word}
  {name : List Byte} {buffer : ℕ → Byte}

/-- A root: a node without a parent. -/
structure IsRoot (s : FsState) (a : Word) : Prop where
  node : (s.nodes a).fsPrivate ≠ 0
  parent : (s.nodes a).parent = 0

/-- The nodes that are reachable from a root through `children`. -/
inductive InTree (s : FsState) : Word → Prop where
  /-- A root. -/
  | root {a : Word} : IsRoot s a → InTree s a
  /-- A child of a node of the tree. -/
  | child {a b : Word} : InTree s a → b ∈ (s.nodes a).children → InTree s b

/-- A block that was not handed out before. -/
def Fresh (s : FsState) (answer : Word) : Prop := answer ≠ 0 ∧ answer ∉ s.blocks

instance (s : FsState) (answer : Word) : Decidable (Fresh s answer) := by unfold Fresh; infer_instance

instance (s : FsState) (parent : Word) : Decidable (CreateAllocates s parent) := by
  unfold CreateAllocates
  infer_instance

instance (s : FsState) (node offset size : Word) : Decidable (WriteAllocates s node offset size) := by
  unfold WriteAllocates
  infer_instance

/-- The descriptor is valid, and the write through it comes to `kmalloc`. -/
def SysWriteAllocates (s : FsState) (fd : ℤ) (size : Word) : Prop :=
  validFd s fd ∧ WriteAllocates s (s.fdTable fd.toNat).node (s.fdTable fd.toNat).offset size

instance (s : FsState) (fd : ℤ) (size : Word) : Decidable (SysWriteAllocates s fd size) := by
  unfold SysWriteAllocates
  infer_instance

/-- `kmalloc` succeeds: if the call comes to it, it answers with a new block. -/
def KmallocSucceeds (s : FsState) : Call → Prop
  | .createInstance answer => Fresh s answer
  | .create parent _ _ answer => CreateAllocates s parent → Fresh s answer
  | .sys (.sysWrite fd _ size answer) => SysWriteAllocates s fd size → Fresh s answer
  | _ => True

/-- The call does not replace a buffer: a write that needs a larger one is to a file without any. -/
def KeepsBuffer (s : FsState) : Call → Prop
  | .sys (.sysWrite fd _ size _) => SysWriteAllocates s fd size →
    (s.nodes (s.nodes (s.fdTable fd.toNat).node).fsPrivate).data = 0
  | _ => True

instance (s : FsState) (c : Call) : Decidable (KmallocSucceeds s c) := by
  unfold KmallocSucceeds
  split <;> infer_instance

instance (s : FsState) (c : Call) : Decidable (KeepsBuffer s c) := by
  unfold KeepsBuffer
  split <;> infer_instance

/-! ### The nodes of the tree -/

/-- The list `ns` has the nodes: they are blocks, they are all in the tree, and nothing is
stored anywhere else. -/
structure Tree (s : FsState) (ns : List Word) : Prop where
  nodup : ns.Nodup
  blank : ∀ a, a ∉ ns → s.nodes a = .zero
  self : ∀ a ∈ ns, (s.nodes a).fsPrivate = a
  children : ∀ a, (s.nodes a).children ⊆ ns
  inTree : ∀ a ∈ ns, InTree s a
  blocks : ns ⊆ s.blocks
  distinct : s.blocks.Nodup
  zero : 0 ∉ s.blocks

/-- Every block is a node or the buffer of one. -/
def Referenced (s : FsState) (ns : List Word) : Prop :=
  ∀ b ∈ s.blocks, b ∈ ns ∨ ∃ a ∈ ns, b = (s.nodes a).data

theorem Tree.mem (h : Tree s ns) (ha : (s.nodes a).fsPrivate ≠ 0) : a ∈ ns := by
  by_contra hn
  rw [h.blank a hn] at ha
  exact ha rfl

theorem Tree.mem_inTree (h : Tree s ns) (ha : InTree s a) : a ∈ ns := by
  cases ha with
  | root hr => exact h.mem hr.node
  | child _ hb => exact h.children _ hb

theorem InTree.mono (h : InTree s x) (hroot : ∀ a, IsRoot s a → IsRoot s' a)
    (hchildren : ∀ a, (s.nodes a).children ⊆ (s'.nodes a).children) : InTree s' x := by
  induction h with
  | root hr => exact .root (hroot _ hr)
  | child _ hb ih => exact .child ih (hchildren _ hb)

theorem InTree.bare (h : InTree s x) (hbare : ∀ a, (s'.nodes a).bare = (s.nodes a).bare) : InTree s' x := by
  refine h.mono (fun a hr => ?_) fun a => ?_
  · obtain ⟨-, -, hp, hf, -⟩ := RamfsNode.eq_of_bare (hbare a)
    exact ⟨fun h => hr.node (hf.symm.trans h), hp.trans hr.parent⟩
  · obtain ⟨-, -, -, -, -, hc⟩ := RamfsNode.eq_of_bare (hbare a)
    rw [hc]
    exact List.Subset.refl _

theorem Tree.bare (h : Tree s ns) (hbare : ∀ a, (s'.nodes a).bare = (s.nodes a).bare)
    (hblank : ∀ a, a ∉ ns → s'.nodes a = s.nodes a) (hblocks : s.blocks ⊆ s'.blocks)
    (hdistinct : s'.blocks.Nodup)
    (hzero : 0 ∉ s'.blocks) : Tree s' ns := by
  refine ⟨h.nodup, fun a ha => (hblank a ha).trans (h.blank a ha), fun a ha => ?_, fun a => ?_,
    fun a ha => (h.inTree a ha).bare hbare, fun a ha => hblocks (h.blocks ha), hdistinct, hzero⟩
  · obtain ⟨-, -, -, hf, -⟩ := RamfsNode.eq_of_bare (hbare a)
    exact hf.trans (h.self a ha)
  · obtain ⟨-, -, -, -, -, hc⟩ := RamfsNode.eq_of_bare (hbare a)
    rw [hc]
    exact h.children a

theorem Tree.of_eq (h : Tree s ns) (s' : FsState) (hnodes : s'.nodes = s.nodes)
    (hblocks : s'.blocks = s.blocks) :
    Tree s' ns ∧ (Referenced s ns → Referenced s' ns) := by
  constructor
  · refine h.bare (fun a => ?_) (fun a _ => congrFun hnodes a) ?_ ?_ ?_
    · rw [hnodes]
    · rw [hblocks]
      exact List.Subset.refl _
    · rw [hblocks]
      exact h.distinct
    · rw [hblocks]
      exact h.zero
  · intro hr b hb
    rw [hblocks] at hb
    rw [hnodes]
    exact hr b hb

/-! ### New nodes -/

/-- A node is added at a new block, and to children of others at most. -/
theorem Tree.add (h : Tree s ns) (hf : Fresh s answer) (hblocks : s'.blocks = answer :: s.blocks)
    (hself : (s'.nodes answer).fsPrivate = answer) (hnone : (s'.nodes answer).children = [])
    (hnodes : ∀ x, x ≠ answer → ∃ cs, cs ⊆ [answer] ∧ (x ∉ ns → cs = []) ∧ s'.nodes x =
      { s.nodes x with
        children := (s.nodes x).children ++ cs })
    (hin : (∀ x, InTree s x → InTree s' x) → InTree s' answer) :
    Tree s' (answer :: ns) ∧ (Referenced s ns → Referenced s' (answer :: ns)) := by
  have hnew : answer ∉ ns := fun hn => hf.2 (h.blocks hn)
  have hmono (x : Word) (hx : InTree s x) : InTree s' x := by
    refine hx.mono (fun a hr => ?_) fun a => ?_
    · have ha : a ≠ answer := fun heq => hnew (heq ▸ h.mem hr.node)
      obtain ⟨cs, -, -, heq⟩ := hnodes a ha
      exact ⟨by rw [heq]; exact hr.node, by rw [heq]; exact hr.parent⟩
    · by_cases ha : a = answer
      · rw [ha, h.blank answer hnew]
        exact List.nil_subset _
      · obtain ⟨cs, -, -, heq⟩ := hnodes a ha
        rw [heq]
        exact List.subset_append_left _ _
  constructor
  · refine ⟨List.nodup_cons.mpr ⟨hnew, h.nodup⟩, fun a ha => ?_, fun a ha => ?_, fun a => ?_, fun a ha => ?_,
      ?_, ?_, ?_⟩
    · obtain ⟨ha, han⟩ := not_or.mp (mt List.mem_cons.mpr ha)
      obtain ⟨cs, -, hcs, heq⟩ := hnodes a ha
      rw [heq, hcs han, List.append_nil]
      exact h.blank a han
    · obtain rfl | ha := List.mem_cons.mp ha
      · exact hself
      · obtain ⟨cs, -, -, heq⟩ := hnodes a fun heq => hnew (heq ▸ ha)
        rw [heq]
        exact h.self a ha
    · by_cases ha : a = answer
      · rw [ha, hnone]
        exact List.nil_subset _
      · obtain ⟨cs, hcs, -, heq⟩ := hnodes a ha
        rw [heq]
        refine List.append_subset.mpr ⟨List.subset_cons_of_subset _ (h.children a), fun b hb => ?_⟩
        rw [List.mem_singleton.mp (hcs hb)]
        exact List.mem_cons_self
    · obtain rfl | ha := List.mem_cons.mp ha
      · exact hin hmono
      · exact hmono a (h.inTree a ha)
    · rw [hblocks]
      exact List.cons_subset_cons _ h.blocks
    · rw [hblocks]
      exact List.nodup_cons.mpr ⟨hf.2, h.distinct⟩
    · rw [hblocks, List.mem_cons]
      exact not_or.mpr ⟨hf.1.symm, h.zero⟩
  · intro hr b hb
    rw [hblocks] at hb
    obtain rfl | hb := List.mem_cons.mp hb
    · exact .inl (List.mem_cons_self)
    · obtain hb | ⟨a, ha, hb⟩ := hr b hb
      · exact .inl (List.mem_cons_of_mem _ hb)
      · obtain ⟨cs, -, -, heq⟩ := hnodes a fun heq => hnew (heq ▸ ha)
        refine .inr ⟨a, List.mem_cons_of_mem _ ha, ?_⟩
        rw [heq]
        exact hb

theorem Fresh.kmalloc (h : Fresh s answer) : (s.kmalloc answer).blocks = answer :: s.blocks := by
  unfold FsState.kmalloc
  rw [if_neg h.1]

theorem Tree.createInstance (h : Tree s ns) (hf : Fresh s answer) :
    Tree (ramfsCreateInstance s answer).2 (answer :: ns) ∧
      (Referenced s ns → Referenced (ramfsCreateInstance s answer).2 (answer :: ns)) := by
  have hnode :
      (ramfsCreateInstance s answer).2.nodes answer =
      ⟨text "/", VFS_DIR, 0, answer, true, 0, 0, 0, []⟩ :=
    Function.update_self _ _ _
  refine h.add hf hf.kmalloc ?_ ?_ (fun x hx => ⟨[], List.nil_subset _, fun _ => rfl, ?_⟩) fun _ =>
    .root ⟨?_, ?_⟩
  · rw [hnode]
  · rw [hnode]
  · rw [List.append_nil, ramfsCreateInstance_eq]
    exact Function.update_of_ne hx _ _
  · rw [hnode]
    exact hf.1
  · rw [hnode]

theorem Tree.linked (h : Tree s ns) (hf : Fresh s answer) (hpriv : (s.nodes parent).fsPrivate ≠ 0) :
    Tree (linked s parent name flags answer) (answer :: ns) ∧
      (Referenced s ns → Referenced (linked s parent name flags answer) (answer :: ns)) := by
  have hp : parent ∈ ns := h.mem hpriv
  have hne : parent ≠ answer := fun heq => hf.2 (heq ▸ h.blocks hp)
  have hself := h.self parent hp
  have hnode := linked_nodes_answer (s := s) name flags hself hne
  have hparent := linked_nodes_parent (s := s) name flags hself hne
  refine h.add hf hf.kmalloc ?_ ?_ (fun x hx => ?_) fun hmono => .child (hmono parent (h.inTree parent hp)) ?_
  · rw [hnode]
    rfl
  · rw [hnode]
    rfl
  · by_cases hxp : x = parent
    · exact ⟨[answer], List.Subset.refl _, fun hn => absurd (hxp ▸ hp) hn, hxp ▸ hparent⟩
    · refine ⟨[], List.nil_subset _, fun _ => rfl, ?_⟩
      rw [List.append_nil]
      exact linked_nodes_of_ne name flags hself hx hxp
  · rw [hparent]
    exact List.mem_append_right _ List.mem_cons_self

/-! ### Buffers -/

/-- A write makes no node; the new buffer is that of the file. The old one is lost, if there is one. -/
theorem Tree.written (h : Tree s ns) (hr : rnode ∈ ns) (hf : Grows s rnode offset size → Fresh s answer) :
    Tree (written s rnode offset size buffer answer) ns ∧
      ((Grows s rnode offset size → (s.nodes rnode).data = 0) → Referenced s ns →
        Referenced (written s rnode offset size buffer answer) ns) := by
  have hblank (a : Word) (ha : a ∉ ns) : (Fs.written s rnode offset size buffer answer).nodes a = s.nodes a :=
    written_nodes_of_ne fun heq => ha (heq ▸ hr)
  by_cases hg : Grows s rnode offset size
  · have hfresh := hf hg
    have hblocks : (Fs.written s rnode offset size buffer answer).blocks = answer :: s.blocks :=
      (if_pos hg).trans hfresh.kmalloc
    refine ⟨h.bare sameTree_written.bare hblank ?_ ?_ ?_, fun hkeep href b hb => ?_⟩
    · rw [hblocks]
      exact List.subset_cons_self _ _
    · rw [hblocks]
      exact List.nodup_cons.mpr ⟨hfresh.2, h.distinct⟩
    · rw [hblocks, List.mem_cons]
      exact not_or.mpr ⟨hfresh.1.symm, h.zero⟩
    · rw [hblocks] at hb
      obtain rfl | hb := List.mem_cons.mp hb
      · refine .inr ⟨rnode, hr, ?_⟩
        rw [written_nodes_self]
        exact (if_pos hg).symm
      · obtain hb' | ⟨a, ha, hb'⟩ := href b hb
        · exact .inl hb'
        · have hne : a ≠ rnode := by
            rintro rfl
            rw [hkeep hg] at hb'
            exact h.zero (hb' ▸ hb)
          refine .inr ⟨a, ha, ?_⟩
          rw [written_nodes_of_ne hne]
          exact hb'
  · have hblocks : (Fs.written s rnode offset size buffer answer).blocks = s.blocks := if_neg hg
    refine ⟨h.bare sameTree_written.bare hblank ?_ ?_ ?_, fun _ href b hb => ?_⟩
    · rw [hblocks]
      exact List.Subset.refl _
    · rw [hblocks]
      exact h.distinct
    · rw [hblocks]
      exact h.zero
    · rw [hblocks] at hb
      obtain hb' | ⟨a, ha, hb'⟩ := href b hb
      · exact .inl hb'
      · refine .inr ⟨a, ha, ?_⟩
        by_cases hne : a = rnode
        · subst hne
          rw [written_nodes_self]
          exact hb'.trans (if_neg hg).symm
        · rw [written_nodes_of_ne hne]
          exact hb'

/-! ### Runs -/

theorem Tree.sysCall {c : SysCall} (h : Tree s ns) (hk : KmallocSucceeds s (.sys c))
    (hc : sysCall s c = .ok (r, s')) :
    Tree s' ns ∧ (KeepsBuffer s (.sys c) → Referenced s ns → Referenced s' ns) := by
  cases sysCall_effect hc with
  | unchanged => exact ⟨h, fun _ => id⟩
  | descriptor _ => exact And.imp_right (fun href _ => href) (h.of_eq _ rfl rfl)
  | @write fd buffer size answer desc hd hfd hnode hpriv hfile =>
    subst hd
    have hr : (s.nodes (s.fdTable fd.toNat).node).fsPrivate ∈ ns := by
      rw [h.self _ (h.mem hpriv)]
      exact h.mem hpriv
    have halloc (hg :
        Grows s (s.nodes (s.fdTable fd.toNat).node).fsPrivate (s.fdTable fd.toNat).offset size) :
        SysWriteAllocates s fd size := ⟨hfd, hnode, hpriv, hfile, hg⟩
    obtain ⟨htree, href⟩ := h.written hr fun hg => hk (halloc hg)
    obtain ⟨htree', href'⟩ := htree.of_eq (moveOffset _ fd.toNat size.toInt) (by rw [moveOffset_eq])
      (by rw [moveOffset_eq])
    exact ⟨htree', fun hkeep hs => href' (href (fun hg => hkeep (halloc hg)) hs)⟩

theorem Tree.step (h : Tree s ns) (hk : KmallocSucceeds s c) (hc : after s c = some s') :
    ∃ ns', Tree s' ns' ∧ (KeepsBuffer s c → Referenced s ns → Referenced s' ns') := by
  cases after_effect hc with
  | createInstance =>
    obtain ⟨htree, href⟩ := h.createInstance hk
    exact ⟨_, htree, fun _ => href⟩
  | setRoot => exact ⟨ns, And.imp_right (fun href _ => href) (h.of_eq _ rfl rfl)⟩
  | full => exact ⟨ns, h, fun _ => id⟩
  | create hparent hpriv hroom =>
    obtain ⟨htree, href⟩ := h.linked (hk ⟨hparent, hpriv, hroom⟩) hpriv
    exact ⟨_, htree, fun _ => href⟩
  | mount _ => exact ⟨ns, And.imp_right (fun href _ => href) (h.of_eq _ rfl rfl)⟩
  | sys hc =>
    obtain ⟨htree, href⟩ := h.sysCall hk hc
    exact ⟨_, htree, href⟩

theorem Tree.start (h : fsMachine.start s) : Tree s [] ∧ Referenced s [] := by
  obtain ⟨mem, table, rfl⟩ := h
  exact ⟨⟨List.nodup_nil, fun _ _ => rfl, nofun, fun _ => List.nil_subset _, nofun,
    List.nil_subset _, List.nodup_nil,
    List.not_mem_nil⟩, nofun⟩

theorem exists_tree (h : Reach fsMachine KmallocSucceeds s) : ∃ ns, Tree s ns := by
  refine h.invariant (I := fun s => ∃ ns, Tree s ns) (fun s hs => ⟨[], (Tree.start hs).1⟩)
    fun s c s' ⟨ns, ht⟩ hk hc => ?_
  obtain ⟨ns', ht', -⟩ := ht.step hk hc
  exact ⟨ns', ht'⟩

/-- **No block is lost** while no write replaces a buffer: every block is a node of the tree or the
buffer of one, and there are at most two blocks for each node. -/
theorem blocks_referenced (h : Reach fsMachine (fun s c => KmallocSucceeds s c ∧ KeepsBuffer s c) s) :
    (∀ b ∈ s.blocks, ∃ a, InTree s a ∧ (b = a ∨ b = (s.nodes a).data)) ∧
      ∃ ns : List Word, ns.Nodup ∧ (∀ a, a ∈ ns ↔ InTree s a) ∧ s.blocks.length ≤ 2 * ns.length := by
  obtain ⟨ns, ht, hr⟩ : ∃ ns, Tree s ns ∧ Referenced s ns := by
    refine h.invariant (I := fun s => ∃ ns, Tree s ns ∧ Referenced s ns) (fun s hs => ⟨[], Tree.start hs⟩)
      fun s c s' ⟨ns, ht, hr⟩ ⟨hk, hkeep⟩ hc => ?_
    obtain ⟨ns', ht', hr'⟩ := ht.step hk hc
    exact ⟨ns', ht', hr' hkeep hr⟩
  refine ⟨fun b hb => ?_, ns, ht.nodup, fun a => ⟨ht.inTree a, ht.mem_inTree⟩, ?_⟩
  · obtain hb | ⟨a, ha, hb⟩ := hr b hb
    · exact ⟨b, ht.inTree b hb, .inl rfl⟩
    · exact ⟨a, ht.inTree a ha, .inr hb⟩
  · have hsub : s.blocks ⊆ ns ++ ns.map fun a => (s.nodes a).data := by
      intro b hb
      rw [List.mem_append, List.mem_map]
      obtain hb | ⟨a, ha, hb⟩ := hr b hb
      · exact .inl hb
      · exact .inr ⟨a, ha, hb.symm⟩
    have := ht.distinct.length_le_of_subset hsub
    rw [List.length_append, List.length_map] at this
    omega

/-- A file with a buffer, which is written a second time inside of it. -/
def twoWrites : List Call :=
  bootCalls ++ [.create 0x400018 (text "f") VFS_FILE 0x400300, .sys (.sysOpen (text "/f")),
    .sys (.sysWrite 0 (fun _ => 0x61) 2 0x400400), .sys (.sysSeek 0 1),
      .sys (.sysWrite 0 (fun _ => 0x62) 1 0)]

theorem twoWrites_referenced : ∃ s, s.blocks = [0x400400, 0x400300, 0x400200, 0x400100, 0x400018] ∧
    (∀ b ∈ s.blocks, ∃ a, InTree s a ∧ (b = a ∨ b = (s.nodes a).data)) ∧
      ∃ ns : List Word, ns.Nodup ∧ (∀ a, a ∈ ns ↔ InTree s a) ∧ s.blocks.length ≤ 2 * ns.length := by
  obtain ⟨s, hs, hblocks⟩ :=
    exists_reach (fun s c => KmallocSucceeds s c ∧ KeepsBuffer s c) (f := FsState.blocks)
    (a := [0x400400, 0x400300, 0x400200, 0x400100, 0x400018]) twoWrites (by decide +kernel)
  exact ⟨s, hblocks, blocks_referenced hs⟩

/-- The second write needs a larger buffer: the first one is lost. -/
theorem not_blocks_referenced : ¬ ∀ s, Reach fsMachine KmallocSucceeds s →
    ∀ b ∈ s.blocks, ∃ a, InTree s a ∧ (b = a ∨ b = (s.nodes a).data) := by
  intro h
  obtain ⟨s, hs, heq⟩ := exists_reach KmallocSucceeds
    (f := fun s => (s.blocks, (s.nodes 0x400400).fsPrivate, s.blocks.map fun a => (s.nodes a).data))
    (a := ([0x400500, 0x400400, 0x400300, 0x400200, 0x400100, 0x400018], 0, [0, 0, 0x400500, 0, 0, 0]))
    (twoWrites ++ [.sys (.sysWrite 0 (fun _ => 0x62) 1 0x400500)]) (by decide +kernel)
  obtain ⟨hblocks, heq⟩ := Prod.mk.inj heq
  obtain ⟨hnode, hdata⟩ := Prod.mk.inj heq
  obtain ⟨ns, ht⟩ := exists_tree hs
  obtain ⟨a, ha, hb⟩ := h s hs 0x400400 (by rw [hblocks]; decide)
  have han := ht.mem_inTree ha
  obtain rfl | hb := hb
  · rw [ht.self _ han] at hnode
    exact absurd hnode (by decide)
  · have hmem := List.mem_map_of_mem (f := fun a => (s.nodes a).data) (ht.blocks han)
    rw [hdata, ← hb] at hmem
    exact absurd hmem (by decide)

end SpatulaOS.Fs
