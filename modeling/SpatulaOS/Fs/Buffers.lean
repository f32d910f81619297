import SpatulaOS.Fs.Fd

/-!
# The files' buffers

Where `ramfs_write` and `ramfs_read` go in a file's buffer, in numbers that do not wrap, and
what the calls do when `kmalloc` has no memory.

The tests for a larger buffer and for the end of the file use the 32-bit sum `offset + size`.
The accesses stay inside the buffer exactly if this sum does not wrap (`inside_iff`). The
answer of `kmalloc` is used without a test, so `NULL` becomes the new buffer or the new node
(`null_not_reported`).
-/

namespace SpatulaOS.Fs

open ByteMemory

variable {s s' : FsState} {node rnode offset size answer x : Word} {buffer : ℕ → Byte} {i : ℕ}

/-! ### Places in the buffer -/

/-- The writes of `ramfs_write` are inside the buffer: those of the caller's bytes and, if the buffer
is replaced, those of the old contents. The size of the file is not beyond the buffer either. -/
structure WritesInside (s s' : FsState) (rnode offset size : Word) : Prop where
  bytes : ∀ i, i < size.toNat → offset.toNat + i < (s'.nodes rnode).capacity.toNat
  copy : Grows s rnode offset size → (s.nodes rnode).data ≠ 0 →
    ∀ i, i < (s.nodes rnode).size.toNat → i < (s'.nodes rnode).capacity.toNat
  size_le : (s'.nodes rnode).size.toNat ≤ (s'.nodes rnode).capacity.toNat

/-- The reads of `ramfs_read`, which gave the bytes `out`, are inside the file. -/
def ReadsInside (s : FsState) (rnode offset : Word) (out : List Byte) : Prop :=
  ∀ i, i < out.length → offset.toNat + i < (s.nodes rnode).size.toNat

theorem byteAddr_offset (data offset : Word) (i : ℕ) :
    byteAddr (data + offset) i = byteAddr data (offset.toNat + i) := by
  rw [← byteAddr_byteAddr]
  congr 1
  rw [byteAddr, BitVec.ofNat_toNat, BitVec.setWidth_eq]

/-- These are all the places that a write changes. -/
theorem written_mem_of_ne
    (hbytes : ∀ i, i < size.toNat →
      x ≠ byteAddr (writtenNode s rnode offset size answer).data (offset.toNat + i))
    (hcopy : Grows s rnode offset size → (s.nodes rnode).data ≠ 0 →
      ∀ i, i < (s.nodes rnode).size.toNat → x ≠ byteAddr answer i) :
    (written s rnode offset size buffer answer).mem x = s.mem x := by
  refine (Mem.fill_of_ne fun i hi => ?_).trans ?_
  · rw [byteAddr_offset]
    exact hbytes i hi
  · unfold grownMem
    split_ifs with hg
    · exact Mem.fill_of_ne (hcopy hg.1 hg.2)
    · rfl

/-- These are the places that a read reads. -/
theorem ramfsRead_getElem (hpriv : (s.nodes node).fsPrivate = rnode)
    (hi : i < (ramfsRead s node offset size).2.length) :
    (ramfsRead s node offset size).2[i] = s.mem (byteAddr (s.nodes rnode).data (offset.toNat + i)) := by
  simp only [ramfsRead_eq hpriv, Mem.copyOut, List.getElem_map, List.getElem_range]
  rw [byteAddr_offset]

theorem capacity_writtenNode (h : offset.toNat + size.toNat < 2 ^ 32) :
    (writtenNode s rnode offset size answer).capacity.toNat =
      max (s.nodes rnode).capacity.toNat (offset.toNat + size.toNat) := by
  have hsum := BitVec.toNat_add_of_lt h
  unfold writtenNode
  dsimp only
  split_ifs with hg
  · have hg' : (s.nodes rnode).capacity.toNat < (offset + size).toNat := hg
    omega
  · have hg' : ¬ (s.nodes rnode).capacity.toNat < (offset + size).toNat := hg
    omega

theorem size_writtenNode (h : offset.toNat + size.toNat < 2 ^ 32) :
    (writtenNode s rnode offset size answer).size.toNat =
      max (s.nodes rnode).size.toNat (offset.toNat + size.toNat) := by
  have hsum := BitVec.toNat_add_of_lt h
  unfold writtenNode
  dsimp only
  split_ifs with hg
  · have hg' : (s.nodes rnode).size.toNat < (offset + size).toNat := hg
    omega
  · have hg' : ¬ (s.nodes rnode).size.toNat < (offset + size).toNat := hg
    omega

theorem writesInside_of_lt (hsize : (s.nodes rnode).size.toNat ≤ (s.nodes rnode).capacity.toNat)
    (h : offset.toNat + size.toNat < 2 ^ 32) :
    WritesInside s (written s rnode offset size buffer answer) rnode offset size := by
  refine ⟨fun i hi => ?_, fun _ _ i hi => ?_, ?_⟩
  · rw [written_nodes_self, capacity_writtenNode h]
    omega
  · rw [written_nodes_self, capacity_writtenNode h]
    omega
  · rw [written_nodes_self, capacity_writtenNode h, size_writtenNode h]
    omega

/-- A write whose sum wraps is not: its last byte lies behind every buffer. -/
theorem not_writesInside_of_le (h : 2 ^ 32 ≤ offset.toNat + size.toNat) :
    ¬ WritesInside s s' rnode offset size := by
  intro hin
  have hs := size.isLt
  have hcap := (s'.nodes rnode).capacity.isLt
  have := hin.bytes (size.toNat - 1) (by omega)
  omega

/-- A read whose sum does not wrap gives the bytes up to the end of the file. -/
theorem toNat_readCount {n : RamfsNode} (h : offset.toNat + size.toNat < 2 ^ 32) :
    (readCount n offset size).toNat = min size.toNat (n.size.toNat - offset.toNat) := by
  unfold readCount
  split_ifs with h1 h2
  · bv_omega
  · bv_omega
  · bv_omega

theorem readsInside_of_lt (hpriv : (s.nodes node).fsPrivate = rnode)
    (h : offset.toNat + size.toNat < 2 ^ 32) :
    ReadsInside s rnode offset (ramfsRead s node offset size).2 := by
  intro i hi
  rw [ramfsRead_eq hpriv, Mem.copyOut, List.length_map, List.length_range, toNat_readCount h] at hi
  omega

/-- **The accesses of a write and of a read are inside the file's buffer exactly if the sum of
offset and size does not wrap.** -/
theorem inside_iff (hnode : node ≠ 0) (hpriv : (s.nodes node).fsPrivate = rnode) (hr : rnode ≠ 0)
    (hfile : (s.nodes node).flags &&& VFS_DIR = 0)
    (hsize : (s.nodes rnode).size.toNat ≤ (s.nodes rnode).capacity.toNat) :
    ((∃ ret s', ramfsWrite s node offset size buffer answer = .ok (ret, s') ∧
      WritesInside s s' rnode offset size) ∧
      ReadsInside s rnode offset (ramfsRead s node offset size).2) ↔ offset.toNat + size.toNat < 2 ^ 32 := by
  constructor
  · rintro ⟨⟨ret, s', -, hin⟩, -⟩
    by_contra hle
    exact not_writesInside_of_le (Nat.le_of_not_lt hle) hin
  · intro h
    exact ⟨⟨_, _, ramfsWrite_file hnode hpriv hr hfile, writesInside_of_lt hsize h⟩,
      readsInside_of_lt hpriv h⟩

/-- Five bytes at the beginning of an empty file. -/
theorem first_write_inside :
    (∃ ret s', ramfsWrite sampleFile 0x400100 0 5 (fun _ => 0x61) 0x400300 = .ok (ret, s') ∧
      WritesInside sampleFile s' 0x400100 0 5) ∧
    ReadsInside sampleFile 0x400100 0 (ramfsRead sampleFile 0x400100 0 5).2 :=
  (inside_iff (by decide) (by decide +kernel) (by decide) (by decide +kernel)
    (by decide +kernel)).mpr (by decide)

/-- One byte at the last offset: the sum is zero, so that the file gets no buffer for it. -/
theorem not_inside : ¬ ∀ s node rnode offset size buffer answer, node ≠ 0 → (s.nodes node).fsPrivate = rnode →
    rnode ≠ 0 → (s.nodes node).flags &&& VFS_DIR = 0 →
    (s.nodes rnode).size.toNat ≤ (s.nodes rnode).capacity.toNat →
    (∃ ret s', ramfsWrite s node offset size buffer answer = .ok (ret, s') ∧
      WritesInside s s' rnode offset size) ∧
      ReadsInside s rnode offset (ramfsRead s node offset size).2 := by
  intro h
  obtain ⟨⟨ret, s', -, hin⟩, -⟩ :=
    h sampleFile 0x400100 0x400100 0xFFFFFFFF 1 (fun _ => 0x61) 0x400300 (by decide)
    (by decide +kernel) (by decide) (by decide +kernel) (by decide +kernel)
  exact not_writesInside_of_le (by decide) hin

/-! ### No memory -/

variable {parent flags : Word} {name : List Byte} {fd : ℤ}

/-- A call of `ramfs_create` that comes to `kmalloc`. -/
def CreateAllocates (s : FsState) (parent : Word) : Prop :=
  parent ≠ 0 ∧ (s.nodes parent).fsPrivate ≠ 0 ∧
    (s.nodes (s.nodes parent).fsPrivate).children.length < MAX_CHILDREN

/-- A call of `ramfs_write` that comes to `kmalloc`. -/
def WriteAllocates (s : FsState) (node offset size : Word) : Prop :=
  node ≠ 0 ∧ (s.nodes node).fsPrivate ≠ 0 ∧ (s.nodes node).flags &&& VFS_DIR = 0 ∧
    Grows s (s.nodes node).fsPrivate offset size

/-- An operation reports its failure: it returns a negative number and leaves the state as it was. -/
def ReportsFailure (s : FsState) (r : Except Fault (ℤ × FsState)) : Prop := ∃ ret, ret < 0 ∧ r = .ok (ret, s)

/-- `ramfs_create` never returns a negative number behind its call of `kmalloc`. -/
theorem ramfsCreate_not_neg (h : CreateAllocates s parent) {ret : ℤ}
    (hr : ramfsCreate s parent name flags answer = .ok (ret, s')) : ret = 0 := by
  obtain ⟨h1, h2, h3⟩ := h
  unfold ramfsCreate at hr
  rw [if_neg (not_or.mpr ⟨h1, h2⟩)] at hr
  dsimp only at hr
  rw [if_neg (Nat.not_le_of_lt h3), strcpyName] at hr
  split_ifs at hr
  · rw [Except.bind, push] at hr
    split_ifs at hr
    · exact (Prod.mk.inj (Except.ok.inj hr)).1.symm
    · cases hr
  · cases hr

theorem written_nodes_ne (hg : Grows s rnode offset size) :
    (written s rnode offset size buffer answer).nodes ≠ s.nodes := by
  intro heq
  have hcap : ((written s rnode offset size buffer answer).nodes rnode).capacity = offset + size := by
    rw [written_nodes_self]
    exact if_pos hg
  rw [heq] at hcap
  exact BitVec.ne_of_lt hg hcap

/-- **No call that is out of memory reports it**, from any state and for any arguments: not
`ramfs_create`, not `ramfs_write`, and so not `sys_write`. -/
theorem null_not_reported (s : FsState) :
    (∀ parent name flags, CreateAllocates s parent → ¬ ReportsFailure s (ramfsCreate s parent name flags 0)) ∧
    (∀ node offset size buffer, WriteAllocates s node offset size →
      ¬ ReportsFailure s (ramfsWrite s node offset size buffer 0)) ∧
    ∀ fd size buffer, validFd s fd →
      WriteAllocates s (s.fdTable fd.toNat).node (s.fdTable fd.toNat).offset size →
      ¬ ReportsFailure s (sysWrite s fd buffer size 0) := by
  refine ⟨fun parent name flags h => ?_, fun node offset size buffer h => ?_, fun fd size buffer hfd h => ?_⟩
  · rintro ⟨ret, hneg, hr⟩
    rw [ramfsCreate_not_neg h hr] at hneg
    exact lt_irrefl _ hneg
  · rintro ⟨ret, -, hr⟩
    obtain ⟨hnode, hpriv, hfile, hg⟩ := h
    rw [ramfsWrite_file hnode rfl hpriv hfile] at hr
    exact written_nodes_ne hg (congrArg FsState.nodes (Prod.mk.inj (Except.ok.inj hr)).2)
  · rintro ⟨ret, -, hr⟩
    obtain ⟨hnode, hpriv, hfile, hg⟩ := h
    unfold sysWrite at hr
    rw [if_neg (not_not.mpr hfd)] at hr
    dsimp only at hr
    split_ifs at hr
    rw [ramfsWrite_file hnode rfl hpriv hfile, Except.bind] at hr
    have hnodes := congrArg FsState.nodes (Prod.mk.inj (Except.ok.inj hr)).2
    rw [moveOffset_eq] at hnodes
    exact (written_nodes_ne hg : (written s _ _ size buffer 0).nodes ≠ s.nodes) hnodes

/-- `sampleFile` with the file open. -/
def sampleOpen : FsState :=
  match sysOpen sampleFile (text "/f") with
  | .ok r => r.2
  | .error _ => sampleFile

/-- A file under the root, and a first write to a file. -/
theorem first_null_not_reported :
    ¬ ReportsFailure sampleOpen (ramfsCreate sampleOpen 0x400018 (text "g") VFS_FILE 0) ∧
    ¬ ReportsFailure sampleOpen (ramfsWrite sampleOpen 0x400100 0 5 (fun _ => 0x61) 0) ∧
    ¬ ReportsFailure sampleOpen (sysWrite sampleOpen 0 (fun _ => 0x61) 5 0) := by
  obtain ⟨hcreate, hwrite, hsys⟩ := null_not_reported sampleOpen
  refine ⟨hcreate _ _ _ ⟨by decide, by decide +kernel, by decide +kernel⟩,
    hwrite _ _ _ _ ⟨by decide, by decide +kernel, by decide +kernel, by decide +kernel⟩,
    hsys _ _ _ (by decide +kernel)
      ⟨by decide +kernel, by decide +kernel, by decide +kernel, by decide +kernel⟩⟩

/-- A first write to a file returns 5 and leaves the file with five bytes at `NULL`. -/
theorem not_reportsFailure : ¬ ∀ s node offset size buffer, WriteAllocates s node offset size →
    ReportsFailure s (ramfsWrite s node offset size buffer 0) := by
  intro h
  obtain ⟨ret, hneg, hr⟩ := h sampleFile 0x400100 0 5 (fun _ => 0x61)
    ⟨by decide, by decide +kernel, by decide +kernel, by decide +kernel⟩
  have hpriv : (sampleFile.nodes 0x400100).fsPrivate = 0x400100 := by decide +kernel
  rw [ramfsWrite_file (by decide) hpriv (by decide) (by decide +kernel)] at hr
  have hret : (5 : Word).toInt = ret := (Prod.mk.inj (Except.ok.inj hr)).1
  rw [← hret] at hneg
  exact absurd hneg (by decide)

end SpatulaOS.Fs
