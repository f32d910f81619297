import SpatulaOS.Fs.Buffers
import SpatulaOS.Fs.Tables

/-!
# Trees of files

A well-formed tree of `ramfs` nodes (`Wf`): what refers to nodes refers to live ones, and the
buffers of the files do not overlap. Lookups on it never fail but for long components
(`Wf.vfsLookup`). Each call keeps it well formed: a new node has no buffer (`Wf.addNode`), and a write
changes nothing but the buffer of its file (`WriteAllowed.keeps`).
-/

namespace SpatulaOS.Fs

open ByteMemory

variable {s s' : FsState} {a b node current size answer offset parent flags : Word} {fd : ℤ}
  {path name c : List Byte}
  {cs : List (List Byte)} {buffer : ℕ → Byte}

/-- A node of some tree. -/
def FsState.Live (s : FsState) (a : Word) : Prop := (s.nodes a).fsPrivate ≠ 0

instance (s : FsState) (a : Word) : Decidable (s.Live a) := by unfold FsState.Live; infer_instance

/-- `n` bytes at `a` and `m` bytes at `b` do not overlap. -/
def BytesApart (a n b m : Word) : Prop := a.toNat + n.toNat ≤ b.toNat ∨ b.toNat + m.toNat ≤ a.toNat

/-- A node that has all that the calls rely on. -/
structure NodeWf (s : FsState) (a : Word) : Prop where
  self : (s.nodes a).fsPrivate = a
  ops : (s.nodes a).ops = true
  children : ∀ b ∈ (s.nodes a).children, s.Live b
  size_le : (s.nodes a).size.toNat ≤ (s.nodes a).capacity.toNat
  size_lt : (s.nodes a).size.toNat < 2 ^ 31
  null : (s.nodes a).data = 0 → (s.nodes a).capacity = 0
  room : (s.nodes a).data.toNat + (s.nodes a).capacity.toNat ≤ 2 ^ 32

/-- A tree of `ramfs` files: the nodes are well formed, what refers to nodes refers to live ones,
and the buffers do not overlap. -/
structure Wf (s : FsState) : Prop where
  node : ∀ a, s.Live a → NodeWf s a
  root : s.vfsRoot = 0 ∨ s.Live s.vfsRoot
  mounts : ∀ m ∈ s.mounts, s.Live m.root
  fds : ∀ i, i < MAX_FDS → (s.fdTable i).used = true → s.Live (s.fdTable i).node
  apart : ∀ a b, s.Live a → s.Live b → a ≠ b →
    BytesApart (s.nodes a).data (s.nodes a).capacity (s.nodes b).data (s.nodes b).capacity

/-! ### Names -/

theorem SameTree.live (h : SameTree s s') : s'.Live a ↔ s.Live a := by
  unfold FsState.Live
  rw [(RamfsNode.eq_of_bare (h.bare a)).2.2.2.1]

theorem SameTree.ramfsLookup (h : SameTree s s') : ramfsLookup s' node c = ramfsLookup s node c := by
  obtain ⟨-, -, -, hpriv, -⟩ := RamfsNode.eq_of_bare (h.bare node)
  have hname (a : Word) : (s'.nodes a).name = (s.nodes a).name := (RamfsNode.eq_of_bare (h.bare a)).1
  unfold Fs.ramfsLookup
  rw [hpriv]
  dsimp only
  rw [h.children]
  simp only [hname]

theorem SameTree.walk (h : SameTree s s') : walk s' current cs = walk s current cs := by
  induction cs generalizing current with
  | nil => rfl
  | cons c cs ih =>
    have hstep : step s' current c = step s current c := by
      obtain ⟨-, -, -, -, hops, -⟩ := RamfsNode.eq_of_bare (h.bare current)
      unfold step vfsCheckMount
      rw [hops, h.ramfsLookup, h.mounts]
    rw [Fs.walk, Fs.walk, hstep]
    cases step s current c with
    | error e => rfl
    | ok next =>
      cases next with
      | none => rfl
      | some next => exact ih

/-- Names mean the same in states with the same tree. -/
theorem SameTree.vfsLookup (h : SameTree s s') : vfsLookup s' path = vfsLookup s path := by
  unfold Fs.vfsLookup
  rw [h.vfsRoot, pathResolve_eq, pathResolve_eq, h.walk]

theorem SameTree.pathFits (h : SameTree s s') : PathFits s' path ↔ PathFits s path := by
  rw [← not_iff_not, ← vfsLookup_overrun, ← vfsLookup_overrun, h.vfsLookup]

theorem Wf.vfsCheckMount (h : Wf s) (ha : s.Live a) : s.Live (vfsCheckMount s a) := by
  unfold Fs.vfsCheckMount
  cases hf : s.mounts.find? fun m => a = m.mountpoint with
  | none => exact ha
  | some m => exact h.mounts m (List.mem_of_find?_eq_some hf)

/-- A walk from a live node succeeds if its components fit, and it leads to a live node or to none. -/
theorem Wf.walk (h : Wf s) (hcur : s.Live current) (hfit : PartsFit s current cs) :
    ∃ next, walk s current cs = .ok next ∧ ∀ a, next = some a → s.Live a := by
  induction cs generalizing current with
  | nil => exact ⟨some current, rfl, fun a ha => Option.some.inj ha ▸ hcur⟩
  | cons c cs ih =>
    obtain ⟨hc, hfit⟩ := hfit
    have hself := (h.node current hcur).self
    have hlive : ¬ (current = 0 ∨ (s.nodes current).fsPrivate = 0) := by
      rw [hself, or_self]
      exact fun h0 => hcur (hself.trans h0)
    obtain ⟨y, hy⟩ : ∃ y, ramfsLookup s current c = .ok y := ⟨_, by rw [ramfsLookup, if_neg hlive]⟩
    have hs := step_eq hc (h.node current hcur).ops hy
    rw [hs] at hfit
    rw [Fs.walk, hs, Except.bind]
    by_cases h0 : y = 0
    · rw [if_pos h0]
      exact ⟨none, rfl, fun _ h => (by cases h)⟩
    · rw [if_neg h0] at hfit ⊢
      refine ih (h.vfsCheckMount ?_) hfit
      -- what the lookup found is a child
      rw [ramfsLookup, if_neg hlive] at hy
      cases hf : (s.nodes (s.nodes current).fsPrivate).children.find? fun child =>
        strcmp (s.nodes child).name c = 0 with
      | none =>
        dsimp only at hy
        rw [hf] at hy
        exact absurd (Except.ok.inj hy).symm h0
      | some child =>
        dsimp only at hy
        rw [hf] at hy
        obtain rfl : child = y := Except.ok.inj hy
        rw [hself] at hf
        exact (h.node current hcur).children _ (List.mem_of_find?_eq_some hf)

/-- A path that fits leads to a live node or to none. -/
theorem Wf.vfsLookup (h : Wf s) (hfit : PathFits s path) :
    ∃ a, vfsLookup s path = .ok a ∧ (a ≠ 0 → s.Live a) := by
  by_cases hroot : s.vfsRoot = 0
  · exact ⟨0, if_pos hroot, fun h0 => absurd rfl h0⟩
  · obtain ⟨next, hw, hlive⟩ := h.walk (h.root.resolve_left hroot) (hfit.resolve_left hroot)
    refine ⟨next.getD 0, ?_, fun h0 => ?_⟩
    · rw [Fs.vfsLookup, if_neg hroot, pathResolve_eq, hw]
      rfl
    · cases next with
      | none => exact absurd rfl h0
      | some a => exact hlive a rfl

/-! ### Descriptors -/

theorem Wf.of_eq (h : Wf s) (hnodes : s'.nodes = s.nodes) (hroot : s'.vfsRoot = 0 ∨ s.Live s'.vfsRoot)
    (hmounts : ∀ m ∈ s'.mounts, s.Live m.root)
    (hfds : ∀ i, i < MAX_FDS → (s'.fdTable i).used = true → s.Live (s'.fdTable i).node) : Wf s' := by
  have hlive (a : Word) : s'.Live a ↔ s.Live a := by rw [FsState.Live, FsState.Live, hnodes]
  refine ⟨fun a ha => ?_, hroot.imp_right (hlive _).mpr, fun m hm => (hlive _).mpr (hmounts m hm),
    fun i hi hused => (hlive _).mpr (hfds i hi hused), fun a b ha hb hne => ?_⟩
  · obtain ⟨h1, h2, h3, h4, h5, h6, h7⟩ := h.node a ((hlive a).mp ha)
    rw [← hnodes] at h1 h2 h3 h4 h5 h6 h7
    exact ⟨h1, h2, fun b hb => (hlive b).mpr (h3 b hb), h4, h5, h6, h7⟩
  · rw [hnodes]
    exact h.apart a b ((hlive a).mp ha) ((hlive b).mp hb) hne

theorem Wf.updateFd (h : Wf s) (i : ℕ) {d : FileDesc} (hd : d.used = true → s.Live d.node) :
    Wf { s with fdTable := Function.update s.fdTable i d } := by
  refine h.of_eq rfl h.root h.mounts fun j hj hused => ?_
  dsimp only at hused ⊢
  by_cases hji : j = i
  · rw [hji, Function.update_self] at hused ⊢
    exact hd hused
  · rw [Function.update_of_ne hji] at hused ⊢
    exact h.fds j hj hused

theorem Wf.live_desc (h : Wf s) (hfd : validFd s fd) : s.Live (s.fdTable fd.toNat).node :=
  h.fds _ hfd.toNat_lt hfd.2

theorem Wf.ne_zero (h : Wf s) (ha : s.Live a) : a ≠ 0 := by
  intro h0
  exact ha ((h.node a ha).self.trans h0)

theorem Wf.setOffset (h : Wf s) (hfd : validFd s fd) (offset : Word) :
    Wf { s with fdTable :=
      Function.update s.fdTable fd.toNat { s.fdTable fd.toNat with offset := offset } } :=
  h.updateFd _ fun _ => h.live_desc hfd

/-! ### Writes -/

/-- The buffer that `kmalloc` answers with overlaps none that is in use. -/
structure FreshBuffer (s : FsState) (answer size : Word) : Prop where
  ne_zero : answer ≠ 0
  room : answer.toNat + size.toNat ≤ 2 ^ 32
  apart : ∀ a, s.Live a → BytesApart answer size (s.nodes a).data (s.nodes a).capacity

theorem BytesApart.symm {a n b m : Word} (h : BytesApart a n b m) : BytesApart b m a n := Or.symm h

/-- What a write needs: the file is live, the sum does not wrap, and a new buffer is fresh. -/
structure WriteAllowed (s : FsState) (a offset size answer : Word) : Prop where
  live : s.Live a
  lt : offset.toNat + size.toNat < 2 ^ 31
  fresh : Grows s a offset size → FreshBuffer s answer (offset + size)

theorem WriteAllowed.room (h : WriteAllowed s a offset size answer) (hwf : Wf s) :
    (writtenNode s a offset size answer).data.toNat +
      (writtenNode s a offset size answer).capacity.toNat ≤ 2 ^ 32 := by
  have hroom := (hwf.node a h.live).room
  unfold writtenNode
  dsimp only
  split_ifs with hg
  · exact (h.fresh hg).room
  · exact hroom

theorem WriteAllowed.apart (h : WriteAllowed s a offset size answer) (hwf : Wf s) {b : Word} (hb : s.Live b)
    (hne : b ≠ a) :
      BytesApart (writtenNode s a offset size answer).data
      (writtenNode s a offset size answer).capacity
      (s.nodes b).data (s.nodes b).capacity := by
  unfold writtenNode
  dsimp only
  split_ifs with hg
  · exact (h.fresh hg).apart b hb
  · exact hwf.apart a b h.live hb hne.symm

theorem WriteAllowed.keeps (h : WriteAllowed s a offset size answer) (hwf : Wf s) :
    Keeps (Set.Ico (writtenNode s a offset size answer).data.toNat
        ((writtenNode s a offset size answer).data.toNat +
          (writtenNode s a offset size answer).capacity.toNat))
      s.mem (written s a offset size buffer answer).mem := by
  have hroom := h.room hwf
  have hlt := h.lt
  have hsize := (hwf.node a h.live).size_le
  have hcap : (writtenNode s a offset size answer).capacity.toNat =
      max (s.nodes a).capacity.toNat (offset.toNat + size.toNat) := capacity_writtenNode (by omega)
  intro x hx
  refine written_mem_of_ne (fun i hi heq => hx ?_) fun hg _ i hi heq => hx ?_
  · rw [heq, toNat_byteAddr (by omega), Set.mem_Ico]
    omega
  · have hdata : (writtenNode s a offset size answer).data = answer := if_pos hg
    rw [hdata] at hroom ⊢
    rw [heq, toNat_byteAddr (by omega), Set.mem_Ico]
    omega

theorem Wf.written (h : Wf s) (hw : WriteAllowed s a offset size answer) :
    Wf (written s a offset size buffer answer) := by
  have hlive (b : Word) : (Fs.written s a offset size buffer answer).Live b ↔ s.Live b :=
    sameTree_written.live
  refine ⟨fun b hb => ?_, ?_, fun m hm => (hlive _).mpr (h.mounts m hm),
    fun i hi hused => (hlive _).mpr (h.fds i hi hused), fun b c hb hc hne => ?_⟩
  · obtain ⟨h1, h2, h3, h4, h5, h6, h7⟩ := h.node b ((hlive b).mp hb)
    by_cases hba : b = a
    · subst hba
      have hlt := hw.lt
      refine ⟨?_, ?_, fun c hc => (hlive c).mpr (h3 c ?_), ?_, ?_, ?_, ?_⟩
      · rw [written_nodes_self]
        exact h1
      · rw [written_nodes_self]
        exact h2
      · rw [written_nodes_self] at hc
        exact hc
      · rw [written_nodes_self, capacity_writtenNode (by omega), size_writtenNode (by omega)]
        omega
      · rw [written_nodes_self, size_writtenNode (by omega)]
        omega
      · rw [written_nodes_self]
        unfold writtenNode
        dsimp only
        split_ifs with hg
        · exact fun h0 => absurd h0 (hw.fresh hg).ne_zero
        · exact h6
      · rw [written_nodes_self]
        exact hw.room h
    · refine ⟨?_, ?_, fun c hc => (hlive c).mpr (h3 c ?_), ?_, ?_, ?_, ?_⟩
      · rw [written_nodes_of_ne hba]
        exact h1
      · rw [written_nodes_of_ne hba]
        exact h2
      · rw [written_nodes_of_ne hba] at hc
        exact hc
      · rw [written_nodes_of_ne hba]
        exact h4
      · rw [written_nodes_of_ne hba]
        exact h5
      · rw [written_nodes_of_ne hba]
        exact h6
      · rw [written_nodes_of_ne hba]
        exact h7
  · exact h.root.imp_right (hlive _).mpr
  · rw [hlive] at hb hc
    by_cases hba : b = a
    · subst hba
      rw [written_nodes_self, written_nodes_of_ne hne.symm]
      exact hw.apart h hc hne.symm
    · rw [written_nodes_of_ne hba]
      by_cases hca : c = a
      · subst hca
        rw [written_nodes_self]
        exact (hw.apart h hb hne).symm
      · rw [written_nodes_of_ne hca]
        exact h.apart b c hb hc hne

/-! ### New nodes -/

/-- The other nodes are as before, but for `answer`, which may be a new child of theirs. -/
def LinksOnly (s s' : FsState) (answer : Word) : Prop :=
  ∀ x, x ≠ answer → ∃ cs, cs ⊆ [answer] ∧
    s'.nodes x = { s.nodes x with children := (s.nodes x).children ++ cs }

theorem LinksOnly.live_iff (h : LinksOnly s s' answer) {x : Word} (hx : x ≠ answer) :
    s'.Live x ↔ s.Live x := by
  obtain ⟨cs, -, heq⟩ := h x hx
  rw [FsState.Live, FsState.Live, heq]

theorem LinksOnly.live (h : LinksOnly s s' answer) (hnew : ¬ s.Live answer) {x : Word}
    (hx : s.Live x) : s'.Live x :=
  (h.live_iff fun heq => hnew (heq ▸ hx)).mpr hx

theorem linksOnly_update (s : FsState) (answer : Word) (n : RamfsNode) :
    LinksOnly s { s with nodes := Function.update s.nodes answer n } answer := by
  refine fun x hx => ⟨[], List.nil_subset _, ?_⟩
  rw [List.append_nil]
  exact Function.update_of_ne hx _ _

theorem linksOnly_linked (hself : (s.nodes parent).fsPrivate = parent) (hne : parent ≠ answer) :
    LinksOnly s (linked s parent name flags answer) answer := by
  intro x hx
  by_cases hxp : x = parent
  · rw [hxp]
    exact ⟨[answer], List.Subset.refl _, linked_nodes_parent name flags hself hne⟩
  · refine ⟨[], List.nil_subset _, ?_⟩
    rw [List.append_nil]
    exact linked_nodes_of_ne name flags hself hx hxp

/-- A new node without contents, which is linked into children of others at most. -/
theorem Wf.addNode (h : Wf s) (h0 : answer ≠ 0) (hnew : ¬ s.Live answer)
    (hnode : s'.nodes answer = ⟨name, flags, parent, answer, true, 0, 0, 0, []⟩)
    (hnodes : LinksOnly s s' answer) (hroot : s'.vfsRoot = s.vfsRoot)
    (hmounts : s'.mounts = s.mounts) (hfds : s'.fdTable = s.fdTable) : Wf s' := by
  have hself : s'.Live answer := by
    rw [FsState.Live, hnode]
    exact h0
  have hmono {x : Word} (hx : s.Live x) : s'.Live x := hnodes.live hnew hx
  refine ⟨fun x hx => ?_, ?_, fun m hm => hmono (h.mounts m (hmounts ▸ hm)),
    fun i hi hused => ?_, fun x y hx hy hne => ?_⟩
  · by_cases hxa : x = answer
    · subst hxa
      constructor <;> rw [hnode]
      · exact nofun
      · exact Nat.two_pow_pos _
      · exact fun _ => rfl
      · exact Nat.zero_le _
    · obtain ⟨h1, h2, h3, h4, h5, h6, h7⟩ := h.node x ((hnodes.live_iff hxa).mp hx)
      obtain ⟨cs, hcs, heq⟩ := hnodes x hxa
      constructor <;> rw [heq]
      · exact h1
      · exact h2
      · intro b hb
        obtain hb | hb := List.mem_append.mp hb
        · exact hmono (h3 b hb)
        · rw [List.mem_singleton.mp (hcs hb)]
          exact hself
      · exact h4
      · exact h5
      · exact h6
      · exact h7
  · rw [hroot]
    exact h.root.imp_right hmono
  · rw [hfds] at hused ⊢
    exact hmono (h.fds i hi hused)
  · by_cases hxa : x = answer
    · rw [hxa, hnode]
      exact .inl (Nat.zero_le _)
    · by_cases hya : y = answer
      · rw [hya, hnode]
        exact .inr (Nat.zero_le _)
      · obtain ⟨cs, -, hx'⟩ := hnodes x hxa
        obtain ⟨ds, -, hy'⟩ := hnodes y hya
        rw [hx', hy']
        exact h.apart x y ((hnodes.live_iff hxa).mp hx) ((hnodes.live_iff hya).mp hy) hne

theorem Wf.createInstance (h : Wf s) (h0 : answer ≠ 0) (hnew : ¬ s.Live answer) :
    Wf (ramfsCreateInstance s answer).2 := by
  rw [ramfsCreateInstance_eq]
  exact h.addNode h0 hnew (Function.update_self _ _ _) (linksOnly_update s answer _) rfl rfl rfl

theorem Wf.linked (h : Wf s) (h0 : answer ≠ 0) (hnew : ¬ s.Live answer)
    (hparent : s.Live parent) : Wf (linked s parent name flags answer) := by
  have hne : parent ≠ answer := fun heq => hnew (heq ▸ hparent)
  have hself := (h.node parent hparent).self
  have hnode : newNode s parent name flags answer = ⟨name, flags, parent, answer, true, 0, 0, 0, []⟩ := by
    unfold newNode
    rw [Function.update_of_ne hne, (h.node parent hparent).ops]
    rfl
  exact h.addNode h0 hnew ((linked_nodes_answer name flags hself hne).trans hnode)
    (linksOnly_linked hself hne) rfl rfl rfl

theorem wf_of_blank (hnodes : ∀ a, s.nodes a = .zero) (hroot : s.vfsRoot = 0) (hmounts : s.mounts = [])
    (hfds : ∀ i, i < MAX_FDS → (s.fdTable i).used = false) : Wf s := by
  have hdead (a : Word) : ¬ s.Live a := by
    rw [FsState.Live, hnodes a]
    exact fun h => h rfl
  refine ⟨fun a ha => absurd ha (hdead a), .inl hroot, ?_, fun i hi hused => ?_,
    fun a b ha => absurd ha (hdead a)⟩
  · rw [hmounts]
    exact nofun
  · rw [hfds i hi] at hused
    exact Bool.noConfusion hused

theorem sampleFile_eq : sampleFile =
    linked (.boot (fun _ => 0) 0x400018) 0x400018 (text "f") VFS_FILE 0x400100 := by
  have hcreate : ramfsCreate (.boot (fun _ => 0) 0x400018) 0x400018 (text "f") VFS_FILE 0x400100 =
      .ok (0, linked (.boot (fun _ => 0) 0x400018) 0x400018 (text "f") VFS_FILE 0x400100) := by
    rw [ramfsCreate_eq (by decide) (by decide +kernel), if_neg (by decide +kernel),
      if_pos (by decide +kernel)]
  rw [sampleFile, hcreate]

theorem wf_sampleFile : Wf sampleFile := by
  have hempty : Wf (.empty fun _ => 0) := wf_of_blank (fun _ => rfl) rfl rfl fun _ _ => rfl
  have hinstance : Wf (ramfsCreateInstance (.empty fun _ => 0) 0x400018).2 :=
    hempty.createInstance (by decide) (by decide +kernel)
  have hboot : Wf (.boot (fun _ => 0) 0x400018) :=
    hinstance.of_eq rfl (.inr (by decide +kernel)) hinstance.mounts hinstance.fds
  rw [sampleFile_eq]
  exact hboot.linked (by decide) (by decide +kernel) (by decide +kernel)

theorem sampleFile_blank (a : Word) : (sampleFile.nodes a).data = 0 ∧ (sampleFile.nodes a).capacity = 0 := by
  by_cases h1 : a = 0x400018
  · rw [h1]
    decide +kernel
  · by_cases h2 : a = 0x400100
    · rw [h2]
      decide +kernel
    · have hself : ((FsState.boot (fun _ => 0) 0x400018).nodes 0x400018).fsPrivate = 0x400018 := by
        decide +kernel
      have hzero : sampleFile.nodes a = .zero := by
        rw [sampleFile_eq, linked_nodes_of_ne _ _ hself h2 h1]
        exact Function.update_of_ne h1 _ _
      rw [hzero]
      exact ⟨rfl, rfl⟩

end SpatulaOS.Fs
