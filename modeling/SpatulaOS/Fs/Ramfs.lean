import SpatulaOS.Lib.Bytes

/-!
# The file system in memory

The nodes and operations of `fs/ramfs/ramfs.c`. A node is a record in a store of its own,
indexed by its address; a file's data lies in byte memory, at the address in the node.
`NULL` is address 0. An array and its counter are one list, and so are the characters of
a string before its terminator. All nodes have the operations of `ramfs_ops`.

Each operation that may call `kmalloc` has the answer of this call as a parameter; the
state keeps the addresses of the blocks that were handed out. The headers that `kmalloc`
writes are outside of these blocks and left out. A caller's buffer is given by its bytes.

An operation that ends in a panic, follows a `NULL` table of operations or writes behind
the end of a fixed table has a `Fault`. Addresses are not checked otherwise: the fields of
a node at `NULL` are read and written like any others.
-/

namespace SpatulaOS.Fs

open ByteMemory

/-- `VFS_FILE`. -/
abbrev VFS_FILE : Word := 0x1

/-- `VFS_DIR`. -/
abbrev VFS_DIR : Word := 0x2

/-- `MAX_FDS`. -/
abbrev MAX_FDS : ℕ := 32

/-- `MAX_MOUNTS`. -/
abbrev MAX_MOUNTS : ℕ := 8

/-- The number of entries of `children`. -/
abbrev MAX_CHILDREN : ℕ := 32

/-- The size of `name` and of `part`. -/
abbrev NAME_SIZE : ℕ := 64

/-- The fixed tables that grow by an entry behind the last one. -/
inductive Table where
  /-- `children[32]` of a node. -/
  | children
  /-- `mounts[8]` -/
  | mounts
  /-- `name[64]` of a node. -/
  | name
  /-- `part[64]` of `path_resolve`. -/
  | part
  deriving DecidableEq, Repr

/-- What stops an operation. -/
inductive Fault where
  /-- `debug_panic(message)` -/
  | panic (message : String)
  /-- A write behind the end of a table. -/
  | overrun (table : Table)
  /-- The operations of a node without any. -/
  | nullOps
  deriving DecidableEq, Repr

/-- `ramfs_node_t`, with the `vfs_node_t` at its beginning. -/
structure RamfsNode where
  /-- `vfs.name` -/
  name : List Byte
  /-- `vfs.flags` -/
  flags : Word
  /-- `vfs.parent` -/
  parent : Word
  /-- `vfs.fs_private` -/
  fsPrivate : Word
  /-- Whether `vfs.ops` is `&ramfs_ops` and not `NULL`. -/
  ops : Bool
  /-- `data` -/
  data : Word
  /-- `size` -/
  size : Word
  /-- `capacity` -/
  capacity : Word
  /-- `children`, up to `child_count`. -/
  children : List Word

/-- A node after `memset(node, 0, sizeof(ramfs_node_t))`. -/
def RamfsNode.zero : RamfsNode := ⟨[], 0, 0, 0, false, 0, 0, 0, []⟩

/-- `vfs_mount_t`. -/
structure Mount where
  /-- `mountpoint` -/
  mountpoint : Word
  /-- `root` -/
  root : Word
  deriving DecidableEq

/-- `file_desc_t`. -/
structure FileDesc where
  /-- `used` -/
  used : Bool
  /-- `node` -/
  node : Word
  /-- `offset` -/
  offset : Word
  deriving DecidableEq

/-- The memory and the static variables of the file system. -/
structure FsState where
  /-- The memory that holds the files' data. -/
  mem : Mem
  /-- The nodes, by address. -/
  nodes : Word → RamfsNode
  /-- `mounts`, up to `mount_count`. -/
  mounts : List Mount
  /-- `vfs_root` -/
  vfsRoot : Word
  /-- `fd_table` -/
  fdTable : ℕ → FileDesc
  /-- The blocks that `kmalloc` handed out to the file system. None is ever freed. -/
  blocks : List Word

/-- `kmalloc`, with its answer. -/
def FsState.kmalloc (s : FsState) (answer : Word) : FsState :=
  if answer = 0 then s else { s with blocks := answer :: s.blocks }

/-- The state with the node at `a` replaced. -/
def FsState.setNode (s : FsState) (a : Word) (n : RamfsNode) : FsState :=
  { s with nodes := Function.update s.nodes a n }

/-- A table with `x` written behind its last entry, if there is room. -/
def push {α : Type*} (table : Table) (limit : ℕ) (entries : List α) (x : α) : Except Fault (List α) :=
  if entries.length < limit then .ok (entries ++ [x]) else .error (.overrun table)

/-- `strcmp`. -/
def strcmp : List Byte → List Byte → ℤ
  | a :: as, b :: bs => if a ≠ b then a.toInt - b.toInt else strcmp as bs
  | [], [] => 0
  | a :: _, [] => a.toInt
  | [], b :: _ => -b.toInt

/-- `strcpy` into `name`: the string and its terminator have to fit. -/
def strcpyName (name : List Byte) : Except Fault (List Byte) :=
  if name.length < NAME_SIZE then .ok name else .error (.overrun .name)

/-- The characters of a name. -/
def text (s : String) : List Byte := s.toList.map fun c => BitVec.ofNat 8 c.toNat

/-- `ramfs_lookup`. -/
def ramfsLookup (s : FsState) (node : Word) (name : List Byte) : Except Fault Word :=
  if node = 0 ∨ (s.nodes node).fsPrivate = 0 then .error (.panic "Lookup: NULL node")
  else
    let rnode := s.nodes (s.nodes node).fsPrivate
    .ok ((rnode.children.find? fun child => strcmp (s.nodes child).name name = 0).getD 0)

/-- `ramfs_create`: what it returns, and the state. -/
def ramfsCreate (s : FsState) (parent : Word) (name : List Byte) (flags answer : Word) :
    Except Fault (ℤ × FsState) :=
  if parent = 0 ∨ (s.nodes parent).fsPrivate = 0 then .error (.panic "Create: NULL parent")
  else
    let pnode := (s.nodes parent).fsPrivate
    if (s.nodes pnode).children.length ≥ MAX_CHILDREN then .ok (-1, s)
    else
      let child := answer
      let s := (s.kmalloc answer).setNode child .zero
      (strcpyName name).bind fun name =>
        let s := s.setNode child
          { RamfsNode.zero with
            name := name
            flags := flags
            parent := parent
            fsPrivate := child
            ops := (s.nodes parent).ops }
        (push .children MAX_CHILDREN (s.nodes pnode).children child).bind fun children =>
          .ok (0, s.setNode pnode { s.nodes pnode with children := children })

/-- The part of `ramfs_write` that gives the file a larger buffer. -/
def grow (s : FsState) (rnode newCapacity answer : Word) : FsState :=
  let s := s.kmalloc answer
  let n := s.nodes rnode
  let newData := answer
  let s := if n.data ≠ 0 then { s with mem := s.mem.memcpy newData n.data n.size.toNat } else s
  s.setNode rnode { n with
    data := newData
    capacity := newCapacity }

/-- `ramfs_write`: what it returns, and the state. -/
def ramfsWrite (s : FsState) (node offset size : Word) (buffer : ℕ → Byte) (answer : Word) :
    Except Fault (ℤ × FsState) :=
  if node = 0 ∨ (s.nodes node).fsPrivate = 0 then .error (.panic "Write: fs_private NULL")
  else
    let rnode := (s.nodes node).fsPrivate
    if (s.nodes node).flags &&& VFS_DIR ≠ 0 then .ok (-1, s)
    else
      let s := if offset + size > (s.nodes rnode).capacity then grow s rnode (offset + size) answer else s
      let n := s.nodes rnode
      let s := { s with mem := s.mem.copyIn (n.data + offset) buffer size.toNat }
      let s := if offset + size > n.size then s.setNode rnode { n with size := offset + size } else s
      .ok (size.toInt, s)

/-- `ramfs_read`: what it returns, and the bytes that it copies into the caller's buffer. -/
def ramfsRead (s : FsState) (node offset size : Word) : ℤ × List Byte :=
  let n := s.nodes (s.nodes node).fsPrivate
  if offset ≥ n.size then (0, [])
  else
    let size := if offset + size > n.size then n.size - offset else size
    (size.toInt, s.mem.copyOut (n.data + offset) size.toNat)

/-- `ramfs_create_instance`: the root, and the state. -/
def ramfsCreateInstance (s : FsState) (answer : Word) : Word × FsState :=
  let root := answer
  let s := s.kmalloc answer
  (root, s.setNode root
    { RamfsNode.zero with
      name := text "/"
      flags := VFS_DIR
      fsPrivate := root
      ops := true })

/-! ### Names -/

theorem strcmp_self (name : List Byte) : strcmp name name = 0 := by
  induction name with
  | nil => rfl
  | cons c name ih =>
    rw [strcmp, if_neg (not_not.mpr rfl), ih]

/-- Strings that compare as equal are the same; a string has no terminator inside. -/
theorem eq_of_strcmp {as bs : List Byte} (ha : 0 ∉ as) (hb : 0 ∉ bs) (h : strcmp as bs = 0) : as = bs := by
  induction as generalizing bs with
  | nil =>
    cases bs with
    | nil => rfl
    | cons b bs =>
      rw [strcmp, neg_eq_zero] at h
      have hb0 : b = 0 := BitVec.toInt_inj.mp (h.trans rfl)
      exact absurd hb0.symm (List.ne_of_not_mem_cons hb)
  | cons a as ih =>
    cases bs with
    | nil =>
      have ha0 : a = 0 := BitVec.toInt_inj.mp (Eq.trans h rfl)
      exact absurd ha0.symm (List.ne_of_not_mem_cons ha)
    | cons b bs =>
      rw [strcmp] at h
      split_ifs at h with hab
      · exact absurd (BitVec.toInt_inj.mp (sub_eq_zero.mp h)) hab
      · rw [not_not] at hab
        rw [hab, ih (List.not_mem_of_not_mem_cons ha) (List.not_mem_of_not_mem_cons hb) h]

/-! ### What `ramfs_write` does -/

/-- The test for a larger buffer. -/
abbrev Grows (s : FsState) (rnode offset size : Word) : Prop := offset + size > (s.nodes rnode).capacity

/-- A file's node after a write. -/
def writtenNode (s : FsState) (rnode offset size answer : Word) : RamfsNode :=
  let n := s.nodes rnode
  { n with
    data := if Grows s rnode offset size then answer else n.data
    size := if offset + size > n.size then offset + size else n.size
    capacity := if Grows s rnode offset size then offset + size else n.capacity }

/-- Memory after the old contents are copied to a larger buffer. -/
def grownMem (s : FsState) (rnode offset size answer : Word) : Mem :=
  let n := s.nodes rnode
  if Grows s rnode offset size ∧ n.data ≠ 0 then s.mem.memcpy answer n.data n.size.toNat else s.mem

/-- The state after a write to a file. -/
def written (s : FsState) (rnode offset size : Word) (buffer : ℕ → Byte) (answer : Word) : FsState :=
  { s with
    mem := (grownMem s rnode offset size answer).copyIn
      ((writtenNode s rnode offset size answer).data + offset) buffer
      size.toNat
    nodes := Function.update s.nodes rnode (writtenNode s rnode offset size answer)
    blocks := if Grows s rnode offset size then (s.kmalloc answer).blocks else s.blocks }

variable {s s' : FsState} {node rnode offset size answer : Word} {buffer : ℕ → Byte} {ret : ℤ}

theorem written_nodes_self :
    (written s rnode offset size buffer answer).nodes rnode = writtenNode s rnode offset size answer :=
  Function.update_self _ _ _

theorem written_nodes_of_ne {a : Word} (ha : a ≠ rnode) :
    (written s rnode offset size buffer answer).nodes a = s.nodes a := Function.update_of_ne ha _ _

theorem kmalloc_eq (s : FsState) (answer : Word) :
    s.kmalloc answer = { s with blocks := (s.kmalloc answer).blocks } := by
  unfold FsState.kmalloc
  split_ifs <;> rfl

/-- `ramfs_create_instance` makes a root. -/
theorem ramfsCreateInstance_eq (s : FsState) (answer : Word) : (ramfsCreateInstance s answer).2 =
    { s with
      nodes := Function.update s.nodes answer ⟨text "/", VFS_DIR, 0, answer, true, 0, 0, 0, []⟩
      blocks := (s.kmalloc answer).blocks } := by
  unfold ramfsCreateInstance
  rw [kmalloc_eq]
  rfl

theorem grow_eq (s : FsState) (rnode newCapacity answer : Word) : grow s rnode newCapacity answer =
    { s with
      mem := if (s.nodes rnode).data ≠ 0 then s.mem.memcpy answer (s.nodes rnode).data
        (s.nodes rnode).size.toNat
        else s.mem
      nodes := Function.update s.nodes rnode
        { s.nodes rnode with
          data := answer
          capacity := newCapacity }
      blocks := (s.kmalloc answer).blocks } := by
  unfold grow
  rw [kmalloc_eq]
  dsimp only
  split_ifs <;> rfl

/-- `ramfs_write` to a file. -/
theorem ramfsWrite_file (hnode : node ≠ 0) (hpriv : (s.nodes node).fsPrivate = rnode) (hr : rnode ≠ 0)
    (hfile : (s.nodes node).flags &&& VFS_DIR = 0) :
    ramfsWrite s node offset size buffer answer =
      .ok (size.toInt, written s rnode offset size buffer answer) := by
  unfold ramfsWrite
  rw [hpriv, if_neg (not_or.mpr ⟨hnode, hr⟩), if_neg (not_not.mpr hfile)]
  dsimp only
  congr 2
  unfold written writtenNode grownMem FsState.setNode
  by_cases hg : Grows s rnode offset size
  · rw [if_pos hg, grow_eq]
    simp only [Function.update_self, Function.update_idem, hg, if_true, true_and]
    split_ifs <;> rfl
  · rw [if_neg hg]
    simp only [hg, if_false, false_and]
    split_ifs
    · rfl
    · rw [Function.update_eq_self]

/-- What `ramfs_write` does when it returns: -1 for a directory, or a write to a file. -/
theorem ramfsWrite_cases (h : ramfsWrite s node offset size buffer answer = .ok (ret, s')) :
    (ret = -1 ∧ s' = s) ∨ (node ≠ 0 ∧ (s.nodes node).fsPrivate ≠ 0 ∧ (s.nodes node).flags &&& VFS_DIR = 0 ∧
      ret = size.toInt ∧ s' = written s (s.nodes node).fsPrivate offset size buffer answer) := by
  by_cases hnull : node = 0 ∨ (s.nodes node).fsPrivate = 0
  · rw [ramfsWrite, if_pos hnull] at h
    cases h
  · by_cases hdir : (s.nodes node).flags &&& VFS_DIR ≠ 0
    · rw [ramfsWrite, if_neg hnull] at h
      dsimp only at h
      rw [if_pos hdir] at h
      obtain ⟨hret, hs⟩ := Prod.mk.inj (Except.ok.inj h)
      exact .inl ⟨hret.symm, hs.symm⟩
    · obtain ⟨hnode, hpriv⟩ := not_or.mp hnull
      rw [ramfsWrite_file hnode rfl hpriv (not_not.mp hdir)] at h
      obtain ⟨hret, hs⟩ := Prod.mk.inj (Except.ok.inj h)
      exact .inr ⟨hnode, hpriv, not_not.mp hdir, hret.symm, hs.symm⟩

/-- The number of bytes that a read gives. -/
def readCount (n : RamfsNode) (offset size : Word) : Word :=
  if offset ≥ n.size then 0 else if offset + size > n.size then n.size - offset else size

/-- `ramfs_read`. -/
theorem ramfsRead_eq (hpriv : (s.nodes node).fsPrivate = rnode) : ramfsRead s node offset size =
    ((readCount (s.nodes rnode) offset size).toInt,
      s.mem.copyOut ((s.nodes rnode).data + offset) (readCount (s.nodes rnode) offset size).toNat) := by
  unfold ramfsRead readCount
  rw [hpriv]
  dsimp only
  by_cases h : offset ≥ (s.nodes rnode).size
  · rw [if_pos h, if_pos h]
    rfl
  · rw [if_neg h, if_neg h]

/-! ### The state at boot -/

/-- The file system when the kernel starts: no node, no mount, no open descriptor, no block. -/
def FsState.empty (mem : Mem) : FsState := ⟨mem, fun _ => .zero, [], 0, fun _ => ⟨false, 0, 0⟩, []⟩

/-- `vfs_root = ramfs_create_instance();`, as the kernel does it at boot. -/
def FsState.boot (mem : Mem) (answer : Word) : FsState :=
  let r := ramfsCreateInstance (.empty mem) answer
  { r.2 with vfsRoot := r.1 }

/-- A root with an empty file "f". -/
def sampleFile : FsState :=
  match ramfsCreate (.boot (fun _ => 0) 0x400018) 0x400018 (text "f") VFS_FILE 0x400100 with
  | .ok r => r.2
  | .error _ => .empty fun _ => 0

/-- A root with a directory "tmp", and a second instance. -/
def sampleTree : FsState :=
  match ramfsCreate (.boot (fun _ => 0) 0x400018) 0x400018 (text "tmp") VFS_DIR 0x400100 with
  | .ok r => (ramfsCreateInstance r.2 0x400200).2
  | .error _ => .empty fun _ => 0

end SpatulaOS.Fs
