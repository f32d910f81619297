import SpatulaOS.Fs.Fd
import SpatulaOS.Lib.Runs

/-!
# Calls of the file system

The calls that the kernel makes on the file system, as one machine. What a call that returns
does to the state is said once (`SysEffect`, `Effect`): it changes a descriptor, writes to a
file, links a new node into the tree or adds a mount. The calls on descriptors leave
the tree alone (`sysCall_sameTree`).
-/

namespace SpatulaOS.Fs

open ByteMemory Runs

/-- The calls on descriptors. -/
inductive SysCall where
  /-- `sys_open` -/
  | sysOpen (path : List Byte)
  /-- `sys_write`, with the answer of `kmalloc` if it is called. -/
  | sysWrite (fd : ℤ) (buffer : ℕ → Byte) (size answer : Word)
  /-- `sys_read` -/
  | sysRead (fd : ℤ) (size : Word)
  /-- `sys_close` -/
  | sysClose (fd : ℤ)
  /-- `sys_seek` -/
  | sysSeek (fd : ℤ) (offset : Word)

/-- The calls. -/
inductive Call where
  /-- `ramfs_create_instance` -/
  | createInstance (answer : Word)
  /-- `vfs_root = root` -/
  | setRoot (root : Word)
  /-- `ramfs_create` -/
  | create (parent : Word) (name : List Byte) (flags answer : Word)
  /-- `vfs_mount` -/
  | mount (path : List Byte) (fsRoot : Word)
  /-- A call on descriptors. -/
  | sys (c : SysCall)

/-- What the caller gets. -/
structure Reply where
  /-- What the call returns; 0 if it returns nothing. -/
  ret : ℤ
  /-- The bytes that it copies into the caller's buffer. -/
  out : List Byte
  deriving DecidableEq

/-- A call on descriptors is carried out. -/
def sysCall (s : FsState) : SysCall → Except Fault (Reply × FsState)
  | .sysOpen path => (sysOpen s path).map fun r => (⟨r.1, []⟩, r.2)
  | .sysWrite fd buffer size answer => (sysWrite s fd buffer size answer).map fun r => (⟨r.1, []⟩, r.2)
  | .sysRead fd size => (sysRead s fd size).map fun r => (⟨r.1, r.2.1⟩, r.2.2)
  | .sysClose fd => .ok (⟨0, []⟩, sysClose s fd)
  | .sysSeek fd offset => .ok (⟨(sysSeek s fd offset).1, []⟩, (sysSeek s fd offset).2)

/-- A call is carried out. -/
def call (s : FsState) : Call → Except Fault (Reply × FsState)
  | .createInstance answer =>
    let r := ramfsCreateInstance s answer
    .ok (⟨r.1.toNat, []⟩, r.2)
  | .setRoot root => .ok (⟨0, []⟩, { s with vfsRoot := root })
  | .create parent name flags answer => (ramfsCreate s parent name flags answer).map fun r => (⟨r.1, []⟩, r.2)
  | .mount path fsRoot => (vfsMount s path fsRoot).map fun s => (⟨0, []⟩, s)
  | .sys c => sysCall s c

/-- The state after a call. -/
def after (s : FsState) (c : Call) : Option FsState :=
  match call s c with
  | .ok r => some r.2
  | .error _ => none

/-- The file system from `fd_init` on, whatever was in the memory of the descriptor table and
behind it. A run ends where a call does not return. -/
def fsMachine : Machine FsState Call where
  start s := ∃ mem table, s = fdInit { FsState.empty mem with fdTable := table }
  step s c s' := after s c = some s'

variable {s s' : FsState} {c : Call} {r : Reply} {current node parent flags answer rnode offset size : Word}
  {name path : List Byte} {cs : List (List Byte)} {t : Table} {fd i : ℕ} {buffer : ℕ → Byte}

theorem after_eq_some : after s c = some s' ↔ ∃ r, call s c = .ok (r, s') := by
  unfold after
  cases hc : call s c with
  | error e => exact iff_of_false (fun h => (by cases h)) (by rintro ⟨_, ⟨⟩⟩)
  | ok p =>
    constructor
    · intro h
      exact ⟨p.1, by rw [← Option.some.inj h]⟩
    · rintro ⟨r, h⟩
      rw [Except.ok.inj h]

/-! ### What the calls do -/

/-- The node that `ramfs_create` makes. -/
def newNode (s : FsState) (parent : Word) (name : List Byte) (flags answer : Word) : RamfsNode :=
  { RamfsNode.zero with
    name := name
    flags := flags
    parent := parent
    fsPrivate := answer
    ops := (Function.update s.nodes answer .zero parent).ops }

/-- The state with the new node linked into its parent's children. -/
def linked (s : FsState) (parent : Word) (name : List Byte) (flags answer : Word) : FsState :=
  let pnode := (s.nodes parent).fsPrivate
  let nodes := Function.update s.nodes answer (newNode s parent name flags answer)
  { s with
    nodes := Function.update nodes pnode
      { nodes pnode with
        children := (nodes pnode).children ++ [answer] }
    blocks := (s.kmalloc answer).blocks }

/-- In the new state there is room in the parent if there was. -/
theorem newNode_room {pnode : Word} (hroom : (s.nodes pnode).children.length < MAX_CHILDREN) :
    (Function.update s.nodes answer (newNode s parent name flags answer) pnode).children.length <
      MAX_CHILDREN := by
  by_cases ha : pnode = answer
  · rw [ha, Function.update_self]
    exact Nat.zero_lt_succ _
  · rw [Function.update_of_ne ha]
    exact hroom

/-- `ramfs_create`: once there is room in the parent, there is room for the link. -/
theorem ramfsCreate_eq (hparent : parent ≠ 0) (hpriv : (s.nodes parent).fsPrivate ≠ 0) :
    ramfsCreate s parent name flags answer =
      if (s.nodes (s.nodes parent).fsPrivate).children.length ≥ MAX_CHILDREN then .ok (-1, s)
      else if name.length < NAME_SIZE then .ok (0, linked s parent name flags answer)
      else .error (.overrun .name) := by
  unfold ramfsCreate
  rw [if_neg (not_or.mpr ⟨hparent, hpriv⟩)]
  dsimp only
  split_ifs with hfull hname
  · rfl
  · have hroom : (Function.update s.nodes answer (newNode s parent name flags answer)
        (s.nodes parent).fsPrivate).children.length < MAX_CHILDREN := newNode_room (Nat.lt_of_not_le hfull)
    unfold newNode at hroom
    rw [strcpyName, if_pos hname, Except.bind, kmalloc_eq]
    unfold push FsState.setNode
    dsimp only
    rw [Function.update_idem, if_pos hroom]
    rfl
  · rw [strcpyName, if_neg hname]
    rfl

/-- The nodes apart from the parent and the new one. -/
theorem linked_nodes_of_ne {a : Word} (name : List Byte) (kind : Word)
    (hpriv : (s.nodes parent).fsPrivate = parent)
    (ha : a ≠ answer) (hp : a ≠ parent) : (linked s parent name kind answer).nodes a = s.nodes a := by
  unfold linked
  dsimp only
  rw [hpriv, Function.update_of_ne hp, Function.update_of_ne ha]

theorem linked_nodes_parent (name : List Byte) (kind : Word) (hpriv : (s.nodes parent).fsPrivate = parent)
    (hp : parent ≠ answer) : (linked s parent name kind answer).nodes parent =
      { s.nodes parent with children := (s.nodes parent).children ++ [answer] } := by
  unfold linked
  dsimp only
  rw [hpriv, Function.update_self, Function.update_of_ne hp, hpriv]

theorem linked_nodes_answer (name : List Byte) (kind : Word) (hpriv : (s.nodes parent).fsPrivate = parent)
    (hp : parent ≠ answer) :
      (linked s parent name kind answer).nodes answer = newNode s parent name kind answer := by
  unfold linked
  dsimp only
  rw [hpriv, Function.update_of_ne hp.symm, Function.update_self]

/-- `vfs_mount`: it returns if the path is found and the table has room. -/
theorem vfsMount_eq {mp fsRoot : Word} (hlook : vfsLookup s path = .ok mp) (hmp : mp ≠ 0) :
    vfsMount s path fsRoot = if s.mounts.length < MAX_MOUNTS then
      .ok { s with mounts := s.mounts ++ [⟨mp, fsRoot⟩] }
      else .error (.overrun .mounts) := by
  rw [vfsMount, hlook, Except.bind, if_neg hmp, push]
  split_ifs <;> rfl

/-- `fd_alloc` gives the first descriptor that is not in use. -/
theorem fdAlloc_cases (table : ℕ → FileDesc) :
    (fdAlloc table = (-1, table) ∧ ∀ i, i < MAX_FDS → (table i).used = true) ∨
    ∃ i : ℕ, i < MAX_FDS ∧ (table i).used = false ∧ (∀ j, j < i → (table j).used = true) ∧
      fdAlloc table = ((i : ℤ), Function.update table i
        { table i with
          used := true
          offset := 0 }) := by
  unfold fdAlloc
  cases hf : (List.range MAX_FDS).find? fun i => ¬ (table i).used with
  | none =>
    refine .inl ⟨rfl, fun i hi => ?_⟩
    have := List.find?_eq_none.mp hf i (List.mem_range.mpr hi)
    simpa using this
  | some i =>
    obtain ⟨hi, hr, hbefore⟩ := List.find?_range_eq_some.mp hf
    exact .inr ⟨i, List.mem_range.mp hr, by simpa using hi, fun j hj => by simpa using hbefore j hj, rfl⟩

/-- `sys_open`: -1 and nothing changes, or the first descriptor that is not in use. -/
theorem sysOpen_cases (hlook : vfsLookup s path = .ok node) :
    ((node = 0 ∨ ∀ i, i < MAX_FDS → (s.fdTable i).used = true) ∧ sysOpen s path = .ok (-1, s)) ∨
    (node ≠ 0 ∧ ∃ i : ℕ, i < MAX_FDS ∧ (s.fdTable i).used = false ∧ (∀ j, j < i → (s.fdTable j).used = true) ∧
      sysOpen s path = .ok ((i : ℤ), { s with fdTable := Function.update s.fdTable i ⟨true, node, 0⟩ })) := by
  unfold sysOpen
  rw [hlook, Except.bind]
  by_cases hnode : node = 0
  · exact .inl ⟨.inl hnode, by rw [if_pos hnode]⟩
  · rw [if_neg hnode]
    dsimp only
    obtain ⟨halloc, hfull⟩ | ⟨i, hi, hfree, hbefore, halloc⟩ := fdAlloc_cases s.fdTable
    · rw [halloc]
      exact .inl ⟨.inr hfull, rfl⟩
    · rw [halloc]
      refine .inr ⟨hnode, i, hi, hfree, hbefore, ?_⟩
      rw [if_neg (by omega), Int.toNat_natCast]
      dsimp only
      rw [Function.update_idem, Function.update_self]

/-! ### Effects -/

theorem map_eq_ok {ε α β : Type*} {x : Except ε α} {f : α → β} {b : β} (h : x.map f = .ok b) :
    ∃ a, x = .ok a ∧ f a = b := by
  cases x with
  | error e => cases h
  | ok a => exact ⟨a, rfl, Except.ok.inj h⟩

/-- What `ramfs_create` does when it returns: -1 for a full parent, or a new child. -/
theorem ramfsCreate_cases {ret : ℤ} (h : ramfsCreate s parent name flags answer = .ok (ret, s')) :
    (ret = -1 ∧ s' = s) ∨ (parent ≠ 0 ∧ (s.nodes parent).fsPrivate ≠ 0 ∧
      (s.nodes (s.nodes parent).fsPrivate).children.length < MAX_CHILDREN ∧
        name.length < NAME_SIZE ∧ ret = 0 ∧
      s' = linked s parent name flags answer) := by
  by_cases hnull : parent = 0 ∨ (s.nodes parent).fsPrivate = 0
  · rw [ramfsCreate, if_pos hnull] at h
    cases h
  · obtain ⟨hparent, hpriv⟩ := not_or.mp hnull
    rw [ramfsCreate_eq hparent hpriv] at h
    split_ifs at h with hfull hname
    · obtain ⟨hret, hs⟩ := Prod.mk.inj (Except.ok.inj h)
      exact .inl ⟨hret.symm, hs.symm⟩
    · obtain ⟨hret, hs⟩ := Prod.mk.inj (Except.ok.inj h)
      exact .inr ⟨hparent, hpriv, Nat.lt_of_not_le hfull, hname, hret.symm, hs.symm⟩

/-- What `vfs_mount` does when it returns: a new entry. -/
theorem vfsMount_cases {fsRoot : Word} (h : vfsMount s path fsRoot = .ok s') : s.mounts.length < MAX_MOUNTS ∧
    ∃ mp, vfsLookup s path = .ok mp ∧ mp ≠ 0 ∧ s' = { s with mounts := s.mounts ++ [⟨mp, fsRoot⟩] } := by
  cases hl : vfsLookup s path with
  | error e =>
    rw [vfsMount, hl] at h
    cases h
  | ok mp =>
    by_cases hmp : mp = 0
    · rw [vfsMount, hl, Except.bind, if_pos hmp] at h
      cases h
    · rw [vfsMount_eq hl hmp] at h
      split_ifs at h with hroom
      exact ⟨hroom, mp, rfl, hmp, (Except.ok.inj h).symm⟩

/-- What `sys_open` does when it returns. -/
theorem sysOpen_ok {ret : ℤ} (h : sysOpen s path = .ok (ret, s')) : (ret = -1 ∧ s' = s) ∨
    ∃ node, vfsLookup s path = .ok node ∧ node ≠ 0 ∧ ∃ i : ℕ, i < MAX_FDS ∧
      (s.fdTable i).used = false ∧ ret = i ∧
      s' = { s with fdTable := Function.update s.fdTable i ⟨true, node, 0⟩ } := by
  cases hl : vfsLookup s path with
  | error e =>
    rw [sysOpen, hl] at h
    cases h
  | ok node =>
    obtain ⟨-, ho⟩ | ⟨hnode, i, hi, hfree, -, ho⟩ := sysOpen_cases hl
    · obtain ⟨hret, hs⟩ := Prod.mk.inj (Except.ok.inj (ho.symm.trans h))
      exact .inl ⟨hret.symm, hs.symm⟩
    · obtain ⟨hret, hs⟩ := Prod.mk.inj (Except.ok.inj (ho.symm.trans h))
      exact .inr ⟨node, rfl, hnode, i, hi, hfree, hret.symm, hs.symm⟩

/-- What a call on descriptors does to the state when it returns. -/
inductive SysEffect (s : FsState) : SysCall → FsState → Prop where
  /-- Nothing. -/
  | unchanged {c : SysCall} : SysEffect s c s
  /-- It changes a descriptor in the table. -/
  | descriptor {c : SysCall} {i : ℕ} {d : FileDesc} : i < MAX_FDS →
    SysEffect s c { s with fdTable := Function.update s.fdTable i d }
  /-- It writes to a file and moves the offset. -/
  | write {fd : ℤ} {buffer : ℕ → Byte} {size answer : Word} {desc : FileDesc} : s.fdTable fd.toNat = desc →
    validFd s fd → desc.node ≠ 0 → (s.nodes desc.node).fsPrivate ≠ 0 →
      (s.nodes desc.node).flags &&& VFS_DIR = 0 →
    SysEffect s (.sysWrite fd buffer size answer)
      (moveOffset (written s (s.nodes desc.node).fsPrivate desc.offset size buffer answer)
        fd.toNat size.toInt)

/-- The effects of the calls on descriptors. -/
theorem sysCall_effect {c : SysCall} (h : sysCall s c = .ok (r, s')) : SysEffect s c s' := by
  cases c with
  | sysOpen path =>
    obtain ⟨⟨ret, t⟩, ho, heq⟩ := map_eq_ok h
    obtain ⟨-, rfl⟩ := Prod.mk.inj heq
    obtain ⟨-, rfl⟩ | ⟨node, -, -, i, hi, -, -, rfl⟩ := sysOpen_ok ho
    · exact .unchanged
    · exact .descriptor hi
  | sysWrite fd buffer size answer =>
    obtain ⟨⟨ret, t⟩, ho, heq⟩ := map_eq_ok h
    obtain ⟨-, rfl⟩ := Prod.mk.inj heq
    obtain ⟨-, rfl⟩ | ⟨desc, hd, hfd, hnode, hpriv, hfile, -, rfl⟩ := sysWrite_cases ho
    · exact .unchanged
    · exact .write hd hfd hnode hpriv hfile
  | sysRead fd size =>
    obtain ⟨⟨ret, out, t⟩, ho, heq⟩ := map_eq_ok h
    obtain ⟨-, rfl⟩ := Prod.mk.inj heq
    obtain rfl | ⟨hfd, count, rfl⟩ := sysRead_cases ho
    · exact .unchanged
    · unfold moveOffset
      split_ifs
      · exact .descriptor hfd.toNat_lt
      · exact .unchanged
  | sysClose fd =>
    obtain ⟨-, rfl⟩ := Prod.mk.inj (Except.ok.inj h)
    unfold sysClose
    split_ifs with hfd
    · refine .descriptor ?_
      unfold MAX_FDS at *
      omega
    · exact .unchanged
  | sysSeek fd offset =>
    obtain ⟨-, rfl⟩ := Prod.mk.inj (Except.ok.inj h)
    unfold sysSeek
    split_ifs with hfd
    · exact .descriptor hfd.toNat_lt
    · exact .unchanged

/-- What a call does to the state when it returns. -/
inductive Effect (s : FsState) : Call → FsState → Prop where
  /-- A root. -/
  | createInstance {answer : Word} : Effect s (.createInstance answer) (ramfsCreateInstance s answer).2
  /-- Another root for lookups. -/
  | setRoot {root : Word} : Effect s (.setRoot root) { s with vfsRoot := root }
  /-- Nothing: the parent is full. -/
  | full {parent flags answer : Word} {name : List Byte} : Effect s (.create parent name flags answer) s
  /-- A child. -/
  | create {parent flags answer : Word} {name : List Byte} : parent ≠ 0 → (s.nodes parent).fsPrivate ≠ 0 →
    (s.nodes (s.nodes parent).fsPrivate).children.length < MAX_CHILDREN →
    Effect s (.create parent name flags answer) (linked s parent name flags answer)
  /-- A mount. -/
  | mount {path : List Byte} {fsRoot mp : Word} : s.mounts.length < MAX_MOUNTS →
    Effect s (.mount path fsRoot) { s with mounts := s.mounts ++ [⟨mp, fsRoot⟩] }
  /-- A call on descriptors. -/
  | sys {c : SysCall} {r : Reply} {s' : FsState} : sysCall s c = .ok (r, s') → Effect s (.sys c) s'

/-- The effects of the calls. -/
theorem call_effect (h : call s c = .ok (r, s')) : Effect s c s' := by
  cases c with
  | createInstance answer =>
    obtain ⟨-, rfl⟩ := Prod.mk.inj (Except.ok.inj h)
    exact .createInstance
  | setRoot root =>
    obtain ⟨-, rfl⟩ := Prod.mk.inj (Except.ok.inj h)
    exact .setRoot
  | create parent name flags answer =>
    obtain ⟨⟨ret, t⟩, ho, heq⟩ := map_eq_ok h
    obtain ⟨-, rfl⟩ := Prod.mk.inj heq
    obtain ⟨-, rfl⟩ | ⟨hparent, hpriv, hroom, -, -, rfl⟩ := ramfsCreate_cases ho
    · exact .full
    · exact .create hparent hpriv hroom
  | mount path fsRoot =>
    obtain ⟨t, ho, heq⟩ := map_eq_ok h
    obtain ⟨-, rfl⟩ := Prod.mk.inj heq
    obtain ⟨hroom, mp, -, -, rfl⟩ := vfsMount_cases ho
    exact .mount hroom
  | sys c => exact .sys h

theorem after_effect (h : after s c = some s') : Effect s c s' := by
  obtain ⟨r, h⟩ := after_eq_some.mp h
  exact call_effect h

/-! ### What stays the same -/

/-- What a node says about its place in the tree. -/
def RamfsNode.bare (n : RamfsNode) : RamfsNode :=
  { n with
    data := 0
    size := 0
    capacity := 0 }

theorem RamfsNode.eq_of_bare {n m : RamfsNode} (h : n.bare = m.bare) : n.name = m.name ∧ n.flags = m.flags ∧
    n.parent = m.parent ∧ n.fsPrivate = m.fsPrivate ∧ n.ops = m.ops ∧ n.children = m.children := by
  obtain ⟨h1, h2, h3, h4, h5, -, -, -, h6⟩ := RamfsNode.mk.inj h
  exact ⟨h1, h2, h3, h4, h5, h6⟩

/-- The states agree in the tree: only the data of files, descriptors, memory and blocks differ. -/
structure SameTree (s s' : FsState) : Prop where
  mounts : s'.mounts = s.mounts
  vfsRoot : s'.vfsRoot = s.vfsRoot
  bare : ∀ a, (s'.nodes a).bare = (s.nodes a).bare

theorem SameTree.refl (s : FsState) : SameTree s s := ⟨rfl, rfl, fun _ => rfl⟩

theorem SameTree.trans {s'' : FsState} (h : SameTree s s') (h' : SameTree s' s'') : SameTree s s'' :=
  ⟨h'.mounts.trans h.mounts, h'.vfsRoot.trans h.vfsRoot, fun a => (h'.bare a).trans (h.bare a)⟩

theorem SameTree.children (h : SameTree s s') (a : Word) : (s'.nodes a).children = (s.nodes a).children :=
  (RamfsNode.eq_of_bare (h.bare a)).2.2.2.2.2

theorem sameTree_moveOffset {i : ℕ} {count : ℤ} : SameTree s (moveOffset s i count) := by
  rw [moveOffset_eq]
  exact ⟨rfl, rfl, fun _ => rfl⟩

theorem sameTree_written : SameTree s (written s rnode offset size buffer answer) := by
  refine ⟨rfl, rfl, fun a => ?_⟩
  by_cases ha : a = rnode
  · rw [ha, written_nodes_self]
    rfl
  · rw [written_nodes_of_ne ha]

/-- The calls on descriptors leave the tree alone. -/
theorem sysCall_sameTree {c : SysCall} (h : sysCall s c = .ok (r, s')) : SameTree s s' := by
  cases sysCall_effect h with
  | unchanged => exact .refl s
  | descriptor _ => exact ⟨rfl, rfl, fun _ => rfl⟩
  | write _ _ _ _ _ => exact sameTree_written.trans sameTree_moveOffset

theorem sysCall_behind {c : SysCall} (h : sysCall s c = .ok (r, s')) (hi : MAX_FDS ≤ i) :
    s'.fdTable i = s.fdTable i := by
  cases sysCall_effect h with
  | unchanged => rfl
  | descriptor hj => exact Function.update_of_ne (hj.trans_le hi).ne' _ _
  | write _ hfd _ _ _ => exact moveOffset_of_ne (hfd.toNat_lt.trans_le hi).ne'

/-! ### The calls at boot -/

/-- The calls at boot, which mount a second instance at "/tmp". -/
def bootCalls : List Call :=
  [.createInstance 0x400018, .setRoot 0x400018, .create 0x400018 (text "tmp") VFS_DIR 0x400100,
    .createInstance 0x400200, .mount (text "/tmp") 0x400200]

/-- The state that the machine starts in, with nothing in the memory. -/
def FsState.init : FsState := fdInit (.empty fun _ => 0)

theorem exists_reach (ok : FsState → Call → Prop) [∀ s c, Decidable (ok s c)] {α : Type*}
    {f : FsState → α} {a : α}
    (cs : List Call) (h : (exec (fun s c => if ok s c then after s c else none) .init cs).map f = some a) :
    ∃ s, Reach fsMachine ok s ∧ f s = a := by
  obtain ⟨s, hs, heq⟩ := Option.map_eq_some_iff.mp h
  exact ⟨s, Reach.exec_guarded (f := after) (fun _ _ _ h => h) (.start ⟨_, _, rfl⟩) hs, heq⟩

end SpatulaOS.Fs
