import SpatulaOS.Fs.Vfs

/-!
# File descriptors

The descriptor table of `fs/fd/fd.c` and the calls on it. A descriptor is an `int`, and so is
what a call returns.
-/

namespace SpatulaOS.Fs

open ByteMemory

/-- `fd_init`. -/
def fdInit (s : FsState) : FsState :=
  { s with
    fdTable := (List.range MAX_FDS).foldl
      (fun table i => Function.update table i { table i with used := false }) s.fdTable }

/-- `fd_alloc`: the descriptor, or -1, and the table. -/
def fdAlloc (table : ℕ → FileDesc) : ℤ × (ℕ → FileDesc) :=
  match (List.range MAX_FDS).find? fun i => ¬ (table i).used with
  | some i => (i, Function.update table i
      { table i with
        used := true
        offset := 0 })
  | none => (-1, table)

/-- `sys_open`: what it returns, and the state. -/
def sysOpen (s : FsState) (path : List Byte) : Except Fault (ℤ × FsState) :=
  (vfsLookup s path).bind fun node =>
    if node = 0 then .ok (-1, s)
    else
      let r := fdAlloc s.fdTable
      let fd := r.1
      if fd < 0 then .ok (-1, s)
      else
        .ok (fd, { s with fdTable := Function.update r.2 fd.toNat { r.2 fd.toNat with node := node } })

/-- The test at the beginning of the calls: the descriptor is in the table and in use. -/
def validFd (s : FsState) (fd : ℤ) : Prop := ¬ (fd < 0 ∨ fd ≥ MAX_FDS) ∧ (s.fdTable fd.toNat).used = true

instance (s : FsState) (fd : ℤ) : Decidable (validFd s fd) := by unfold validFd; infer_instance

/-- The state with the offset of a descriptor moved by what was read or written. -/
def moveOffset (s : FsState) (fd : ℕ) (count : ℤ) : FsState :=
  if count > 0 then
    { s with
      fdTable := Function.update s.fdTable fd
        { s.fdTable fd with offset := (s.fdTable fd).offset + BitVec.ofInt 32 count } }
  else s

/-- `sys_write`: what it returns, and the state. -/
def sysWrite (s : FsState) (fd : ℤ) (buffer : ℕ → Byte) (size answer : Word) : Except Fault (ℤ × FsState) :=
  if ¬ validFd s fd then .ok (-1, s)
  else
    let desc := s.fdTable fd.toNat
    if (s.nodes desc.node).ops = false then .error .nullOps
    else
      (ramfsWrite s desc.node desc.offset size buffer answer).bind fun r =>
        .ok (r.1, moveOffset r.2 fd.toNat r.1)

/-- `sys_read`: what it returns, the bytes that the caller's buffer gets, and the state. -/
def sysRead (s : FsState) (fd : ℤ) (size : Word) : Except Fault (ℤ × List Byte × FsState) :=
  if ¬ validFd s fd then .ok (-1, [], s)
  else
    let desc := s.fdTable fd.toNat
    if (s.nodes desc.node).ops = false then .error .nullOps
    else
      let r := ramfsRead s desc.node desc.offset size
      .ok (r.1, r.2, moveOffset s fd.toNat r.1)

/-- `sys_close`. -/
def sysClose (s : FsState) (fd : ℤ) : FsState :=
  if fd ≥ 0 ∧ fd < MAX_FDS then
    { s with fdTable := Function.update s.fdTable fd.toNat { s.fdTable fd.toNat with used := false } }
  else s

/-- `sys_seek`: what it returns, and the state. -/
def sysSeek (s : FsState) (fd : ℤ) (offset : Word) : ℤ × FsState :=
  if ¬ validFd s fd then (-1, s)
  else (0, { s with fdTable := Function.update s.fdTable fd.toNat { s.fdTable fd.toNat with offset := offset } })

/-! ### What the calls do -/

variable {s s' : FsState} {fd ret : ℤ} {size answer : Word} {buffer : ℕ → Byte}

/-- After `fd_init` no descriptor is in use. -/
theorem fdInit_used {i : ℕ} (hi : i < MAX_FDS) : ((fdInit s).fdTable i).used = false := by
  have hloop := foldl_update_apply (fun d : FileDesc => { d with used := false }) s.fdTable MAX_FDS i
  rw [if_pos hi] at hloop
  exact congrArg FileDesc.used hloop

theorem moveOffset_eq (s : FsState) (i : ℕ) (count : ℤ) :
    moveOffset s i count = { s with fdTable := (moveOffset s i count).fdTable } := by
  unfold moveOffset
  split_ifs <;> rfl

/-- The offset moves by what was read or written, also if that is nothing. -/
theorem moveOffset_toInt {i : ℕ} (hsize : size.toNat < 2 ^ 31) : moveOffset s i size.toInt =
    { s with
      fdTable := Function.update s.fdTable i
        { s.fdTable i with
          offset := (s.fdTable i).offset + size } } := by
  unfold moveOffset
  split_ifs with h
  · rw [BitVec.ofInt_toInt]
  · have h0 : size = 0 := by
      rw [BitVec.toInt_eq_toNat_of_lt (by omega)] at h
      exact BitVec.eq_of_toNat_eq (by simpa using h)
    have hzero : (s.fdTable i).offset + size = (s.fdTable i).offset := by
      rw [h0]
      exact BitVec.add_zero _
    have hsame : { s.fdTable i with offset := (s.fdTable i).offset + size } = s.fdTable i := by
      rw [hzero]
    rw [hsame, Function.update_eq_self]

theorem moveOffset_of_ne {i j : ℕ} {count : ℤ} (h : j ≠ i) :
    (moveOffset s i count).fdTable j = s.fdTable j := by
  unfold moveOffset
  split_ifs
  · exact Function.update_of_ne h _ _
  · rfl

theorem validFd.toNat_lt (h : validFd s fd) : fd.toNat < MAX_FDS := by
  obtain ⟨h0, hlt⟩ := not_or.mp h.1
  unfold MAX_FDS at *
  omega

/-- What `sys_write` does when it returns: -1 and nothing changes, or a write to a file. -/
theorem sysWrite_cases (h : sysWrite s fd buffer size answer = .ok (ret, s')) :
    (ret = -1 ∧ s' = s) ∨ ∃ desc, s.fdTable fd.toNat = desc ∧ validFd s fd ∧ desc.node ≠ 0 ∧
      (s.nodes desc.node).fsPrivate ≠ 0 ∧ (s.nodes desc.node).flags &&& VFS_DIR = 0 ∧ ret = size.toInt ∧
      s' = moveOffset (written s (s.nodes desc.node).fsPrivate desc.offset size buffer answer)
        fd.toNat size.toInt := by
  unfold sysWrite at h
  split_ifs at h with hfd
  · cases hw : ramfsWrite s (s.fdTable fd.toNat).node (s.fdTable fd.toNat).offset size buffer answer with
    | error e =>
      dsimp only at h
      rw [hw] at h
      split_ifs at h
      cases h
    | ok r =>
      dsimp only at h
      rw [hw] at h
      split_ifs at h
      obtain ⟨hret, hs⟩ := Prod.mk.inj (Except.ok.inj h)
      obtain ⟨h1, h2⟩ | ⟨hnode, hpriv, hfile, h1, h2⟩ := ramfsWrite_cases hw
      · refine .inl ⟨hret.symm.trans h1, ?_⟩
        rw [← hs, h1, h2]
        rfl
      · refine .inr ⟨_, rfl, hfd, hnode, hpriv, hfile, hret.symm.trans h1, ?_⟩
        rw [← hs, h1, h2]
  · obtain ⟨hret, hs⟩ := Prod.mk.inj (Except.ok.inj h)
    exact .inl ⟨hret.symm, hs.symm⟩

/-- What `sys_read` does when it returns: the offset moves at most. -/
theorem sysRead_cases {out : List Byte} (h : sysRead s fd size = .ok (ret, out, s')) :
    s' = s ∨ validFd s fd ∧ ∃ count, s' = moveOffset s fd.toNat count := by
  unfold sysRead at h
  split_ifs at h with hfd
  · dsimp only at h
    split_ifs at h
    exact .inr ⟨hfd, _, (Prod.mk.inj (Prod.mk.inj (Except.ok.inj h)).2).2.symm⟩
  · exact .inl (Prod.mk.inj (Prod.mk.inj (Except.ok.inj h)).2).2.symm

end SpatulaOS.Fs
