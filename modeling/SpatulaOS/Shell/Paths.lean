import SpatulaOS.Fs.Blocks
import SpatulaOS.Lib.Runs
import SpatulaOS.Shell.Commands

/-!
# Relative paths

The commands that take a path, in sessions of `mk`, `mkr`, `cd` and `ls` after boot. `cd` and `ls`
resolve a relative path from `cwd`, and `mk` makes its file there. `write` and `rd` give the
path to `sys_open`, which resolves it from the root. So they mean the same node as long as `cwd` is
the root; the only other directory that a session comes to is the root of what is mounted at "/tmp", and
there they do not (`paths_agree_iff`).
-/

namespace SpatulaOS.Shell

open ByteMemory Runs Tokens SpatulaOS.Fs

/-! ### Sessions -/

/-- `vfs_root = ramfs_create_instance();` behind `fd_init`. -/
def rootFs (s : FsState) (root : Word) : FsState :=
  let r := ramfsCreateInstance (fdInit s) root
  { r.2 with vfsRoot := r.1 }

/-- The boot of the file system by `boot.c`, with the answers of `kmalloc` for the root, for the
directory "tmp" and for the root of what is mounted there. -/
def bootFs (s : FsState) (root dir tmp : Word) : Except Fault FsState :=
  let s := rootFs s root
  if (s.nodes s.vfsRoot).ops = false then .error .nullOps
  else
    (ramfsCreate s s.vfsRoot (text "tmp") VFS_DIR dir).bind fun r =>
      let r := ramfsCreateInstance r.2 tmp
      vfsMount r.2 (text "/tmp") r.1

/-- The file system after boot, whatever was in the memory before, and whatever `kmalloc` answered. -/
def Booted (s : FsState) : Prop :=
  ∃ mem table root dir tmp, bootFs { FsState.empty mem with fdTable := table } root dir tmp = .ok s

/-- The same, with an answer of `kmalloc` for each call that it had not given before. -/
def BootedFresh (s : FsState) : Prop :=
  ∃ mem table root dir tmp, root ≠ 0 ∧ dir ≠ 0 ∧ tmp ≠ 0 ∧ root ≠ dir ∧ root ≠ tmp ∧ dir ≠ tmp ∧
    bootFs { FsState.empty mem with fdTable := table } root dir tmp = .ok s

/-- A command of a session, with its arguments. -/
inductive PathCommand where
  /-- `mk`, with the answer of `kmalloc` if it is called. -/
  | mk (argv : List (List Byte)) (answer : Word)
  /-- `mkr` -/
  | mkr (argv : List (List Byte)) (answer : Word)
  /-- `cd` -/
  | cd (argv : List (List Byte))
  /-- `ls` -/
  | ls (argv : List (List Byte))

/-- A command is carried out. -/
def PathCommand.run (s : Session) : PathCommand → Outcome
  | .mk argv answer => cmdMk s argv answer
  | .mkr argv answer => cmdMkr s argv answer
  | .cd argv => cmdCd s argv
  | .ls argv => cmdLs s argv

/-- The session after a command. -/
def PathCommand.after (s : Session) (c : PathCommand) : Option Session :=
  match c.run s with
  | .ok r => some r.2
  | .error _ => none

/-- Sessions from `shell_init` on. A session ends where a command does not return. -/
def sessionMachine (booted : FsState → Prop) : Machine Session PathCommand where
  start s := booted s.fs ∧ s.cwd = s.fs.vfsRoot
  step s c s' := c.after s = some s'

/-- `kmalloc` answers with a block that it had not given before. -/
def FreshAnswer (s : Session) : PathCommand → Prop
  | .mk _ answer | .mkr _ answer => Fresh s.fs answer
  | .cd _ | .ls _ => True

instance (s : Session) (c : PathCommand) : Decidable (FreshAnswer s c) := by
  cases c <;> unfold FreshAnswer <;> infer_instance

/-! ### What a path means -/

/-- The node that `sys_open` opens; `NULL` if it fails. -/
def openedNode (s : FsState) (path : List Byte) : Except Fault Word :=
  (sysOpen s path).map fun r => if r.1 < 0 then 0 else (r.2.fdTable r.1.toNat).node

/-- A relative path whose components have room in `part`. -/
structure RelativePath (path : List Byte) : Prop where
  ne_nil : path ≠ []
  relative : path.head? ≠ some SLASH
  short : ∀ c ∈ components path, c.length < NAME_SIZE

/-- All commands mean the same node by a relative path: `write` and `rd` open the one that `cd` and
`ls` take. -/
def PathsAgree (s : Session) : Prop :=
  ∀ path, RelativePath path → openedNode s.fs path = pathResolve s.fs s.cwd path

/-- A file that `mk` makes, under a name that was not there before, is the one that `write` and `rd` open by
this name. -/
def MadeOpens (s : Session) : Prop :=
  ∀ name answer s', RelativePath name → SLASH ∉ name → Fresh s.fs answer →
    pathResolve s.fs s.cwd name = .ok 0 →
    cmdMk s [text "mk", name] answer = .ok (text "File created\n", s') → openedNode s'.fs name = .ok answer

variable {s s' : Session} {fs fs' : FsState} {c : PathCommand} {path name : List Byte}
  {argv : List (List Byte)}
  {answer root dir tmp current x y : Word} {cs : List (List Byte)}

/-! ### At the root -/

/-- There is a root, and no descriptor is in use. -/
structure Ready (fs : FsState) : Prop where
  root : fs.vfsRoot ≠ 0
  free : ∀ i, i < MAX_FDS → (fs.fdTable i).used = false

/-- A descriptor that is not in use is taken for every node that is found. -/
theorem openedNode_eq (h : Ready fs) (path : List Byte) :
    openedNode fs path = pathResolve fs fs.vfsRoot path := by
  have hlook : vfsLookup fs path = pathResolve fs fs.vfsRoot path := if_neg h.root
  rw [← hlook]
  cases hl : vfsLookup fs path with
  | error e =>
    rw [openedNode, sysOpen, hl]
    rfl
  | ok node =>
    obtain ⟨hnone, ho⟩ | ⟨-, i, hi, -, -, ho⟩ := sysOpen_cases hl
    · rw [openedNode, ho]
      obtain rfl | hfull := hnone
      · rfl
      · have h0 := h.free 0 (by decide)
        rw [hfull 0 (by decide)] at h0
        cases h0
    · rw [openedNode, ho]
      show Except.ok
        (if (i : ℤ) < 0 then 0
          else (Function.update fs.fdTable i ⟨true, node, 0⟩ (i : ℤ).toNat).node) = _
      rw [if_neg (Int.not_lt.mpr (Int.natCast_nonneg i)), Int.toNat_natCast, Function.update_self]

/-- At the root all commands agree. -/
theorem pathsAgree_of_root (h : Ready s.fs) (hcwd : s.cwd = s.fs.vfsRoot) : PathsAgree s := by
  intro path _
  rw [openedNode_eq h, hcwd]

/-! ### What the commands do -/

/-- What a call of a command that returns does: nothing, it goes to a directory, or it makes a file. -/
inductive SessionEffect (s : Session) : PathCommand → Session → Prop where
  | unchanged {c : PathCommand} : SessionEffect s c s
  | home {argv : List (List Byte)} : SessionEffect s (.cd argv) { s with cwd := s.fs.vfsRoot }
  | cd {argv : List (List Byte)} {path : List Byte} {x : Word} : target s path = .ok x → x ≠ 0 →
    (s.fs.nodes x).flags &&& VFS_DIR ≠ 0 → SessionEffect s (.cd argv) { s with cwd := x }
  | mk {argv : List (List Byte)} {name : List Byte} {answer : Word} :
    SessionEffect s (.mk argv answer) { s with fs := linked s.fs s.cwd name VFS_FILE answer }
  | mkr {argv : List (List Byte)} {name : List Byte} {answer x : Word} :
    vfsLookup s.fs (text "/tmp") = .ok x → x ≠ 0 →
    (s.fs.nodes x).flags &&& VFS_DIR ≠ 0 →
    SessionEffect s (.mkr argv answer) { s with fs := linked s.fs x name VFS_FILE answer }

/-- A call of `create` that returns fails and changes nothing, or links the new file. -/
theorem createFile_ok {message : String} {out : List Byte}
    (h : createFile s x name message answer = .ok (out, s')) :
    (out = text "Failed to create file\n" ∧ s' = s) ∨
      (out = text message ∧ s' = { s with fs := linked s.fs x name VFS_FILE answer }) := by
  unfold createFile at h
  split_ifs at h
  obtain ⟨⟨ret, fs⟩, hr, h⟩ := ofFs_bind_ok h
  obtain ⟨rfl, rfl⟩ | ⟨-, -, -, -, rfl, rfl⟩ := ramfsCreate_cases hr
  · obtain ⟨hout, hs⟩ := Prod.mk.inj (Except.ok.inj h)
    exact .inl ⟨hout.symm, hs.symm⟩
  · obtain ⟨hout, hs⟩ := Prod.mk.inj (Except.ok.inj h)
    exact .inr ⟨hout.symm, hs.symm⟩

theorem SessionEffect.of_message {printed out : List Byte}
    (h : (Except.ok (printed, s) : Except CommandFault (List Byte × Session)) = .ok (out, s')) :
      SessionEffect s c s' := by
  rw [← (Prod.mk.inj (Except.ok.inj h)).2]
  exact .unchanged

theorem cmdMk_effect {out : List Byte} (h : cmdMk s argv answer = .ok (out, s')) :
    SessionEffect s (.mk argv answer) s' := by
  unfold cmdMk at h
  cases hargv : argv[1]? with
  | none =>
    rw [hargv] at h
    exact .of_message h
  | some name =>
    rw [hargv] at h
    dsimp only at h
    split_ifs at h
    · exact .of_message h
    · obtain ⟨-, rfl⟩ | ⟨-, rfl⟩ := createFile_ok h
      · exact .unchanged
      · exact .mk

theorem cmdMkr_effect {out : List Byte} (h : cmdMkr s argv answer = .ok (out, s')) :
    SessionEffect s (.mkr argv answer) s' := by
  unfold cmdMkr at h
  cases hargv : argv[1]? with
  | none =>
    rw [hargv] at h
    exact .of_message h
  | some name =>
    rw [hargv] at h
    obtain ⟨tmp, hl, h⟩ := ofFs_bind_ok h
    split_ifs at h with h0 hdir
    · exact .of_message h
    · exact .of_message h
    · obtain ⟨-, rfl⟩ | ⟨-, rfl⟩ := createFile_ok h
      · exact .unchanged
      · exact .mkr hl h0 hdir

theorem cmdCd_effect {out : List Byte} (h : cmdCd s argv = .ok (out, s')) :
    SessionEffect s (.cd argv) s' := by
  unfold cmdCd at h
  cases hargv : argv[1]? with
  | none =>
    rw [hargv] at h
    rw [← (Prod.mk.inj (Except.ok.inj h)).2]
    exact .home
  | some path =>
    rw [hargv] at h
    obtain ⟨x, hx, h⟩ := ofFs_bind_ok h
    split_ifs at h with h0 hdir
    · exact .of_message h
    · exact .of_message h
    · rw [← (Prod.mk.inj (Except.ok.inj h)).2]
      exact .cd hx h0 hdir

theorem cmdLs_eq {out : List Byte} (h : cmdLs s argv = .ok (out, s')) : s' = s := by
  obtain ⟨dir, -, h⟩ := bind_ok h
  split_ifs at h <;> exact (Prod.mk.inj (Except.ok.inj h)).2.symm

/-- The effects of the commands. -/
theorem after_effect (h : c.after s = some s') : SessionEffect s c s' := by
  unfold PathCommand.after at h
  cases hr : c.run s with
  | error e =>
    rw [hr] at h
    cases h
  | ok r =>
    rw [hr] at h
    obtain rfl := Option.some.inj h
    cases c with
    | mk argv answer => exact cmdMk_effect hr
    | mkr argv answer => exact cmdMkr_effect hr
    | cd argv => exact cmdCd_effect hr
    | ls argv =>
      rw [cmdLs_eq hr]
      exact .unchanged

theorem Ready.step (h : Ready s.fs) (hs : c.after s = some s') : Ready s'.fs := by
  cases after_effect hs with
  | unchanged => exact h
  | home => exact h
  | cd _ _ _ => exact h
  | mk => exact ⟨h.root, h.free⟩
  | mkr _ _ _ => exact ⟨h.root, h.free⟩

/-! ### The tree -/

/-- A node of its own, in a block that `kmalloc` gave. -/
structure NodeAt (fs : FsState) (a flags : Word) : Prop where
  ne_zero : a ≠ 0
  priv : (fs.nodes a).fsPrivate = a
  ops : (fs.nodes a).ops = true
  flags : (fs.nodes a).flags = flags
  block : a ∈ fs.blocks

/-- A file, which has no children. -/
structure FileAt (fs : FsState) (a : Word) : Prop where
  node : NodeAt fs a VFS_FILE
  children : (fs.nodes a).children = []

/-- The tree of a session: the directory "tmp" in the root, on which a second root is mounted, and apart from
it only files in the two roots. -/
structure SessionTree (fs : FsState) (dir tmp : Word) : Prop where
  mounts : fs.mounts = [⟨dir, tmp⟩]
  rootNode : NodeAt fs fs.vfsRoot VFS_DIR
  dirNode : NodeAt fs dir VFS_DIR
  tmpNode : NodeAt fs tmp VFS_DIR
  root_ne_dir : fs.vfsRoot ≠ dir
  root_ne_tmp : fs.vfsRoot ≠ tmp
  dir_ne_tmp : dir ≠ tmp
  name : (fs.nodes dir).name = text "tmp"
  rootFiles : ∃ files, (fs.nodes fs.vfsRoot).children = dir :: files ∧ ∀ a ∈ files, FileAt fs a
  tmpFiles : ∀ a ∈ (fs.nodes tmp).children, FileAt fs a

/-- The nodes that a path leads to. -/
def Place (fs : FsState) (tmp a : Word) : Prop := a = fs.vfsRoot ∨ a = tmp ∨ FileAt fs a

theorem FileAt.ne (h : FileAt fs x) (hy : NodeAt fs y VFS_DIR) : x ≠ y := by
  rintro rfl
  exact absurd (h.node.flags.symm.trans hy.flags) (by decide)

theorem SessionTree.place_node (h : SessionTree fs dir tmp) (hx : Place fs tmp x) : x ≠ 0 ∧
    (fs.nodes x).fsPrivate = x ∧ (fs.nodes x).ops = true := by
  obtain rfl | rfl | hx := hx
  · exact ⟨h.rootNode.ne_zero, h.rootNode.priv, h.rootNode.ops⟩
  · exact ⟨h.tmpNode.ne_zero, h.tmpNode.priv, h.tmpNode.ops⟩
  · exact ⟨hx.node.ne_zero, hx.node.priv, hx.node.ops⟩

/-- A place that is a directory is one of the roots. -/
theorem place_dir (hx : Place fs tmp x) (hdir : (fs.nodes x).flags &&& VFS_DIR ≠ 0) :
    x = fs.vfsRoot ∨ x = tmp := by
  obtain hx | hx | hx := hx
  · exact .inl hx
  · exact .inr hx
  · rw [hx.node.flags] at hdir
    exact absurd rfl hdir

theorem SessionTree.checkMount_dir (h : SessionTree fs dir tmp) : vfsCheckMount fs dir = tmp := by
  unfold vfsCheckMount
  rw [h.mounts, List.find?_singleton, if_pos (decide_eq_true rfl)]

theorem SessionTree.checkMount (h : SessionTree fs dir tmp) (hx : x ≠ dir) : vfsCheckMount fs x = x := by
  unfold vfsCheckMount
  rw [h.mounts, List.find?_singleton, if_neg (by rwa [decide_eq_true_eq])]

theorem SessionTree.lookup_eq (h : SessionTree fs dir tmp) (hx : Place fs tmp x) (name : List Byte) :
    ramfsLookup fs x name =
      .ok (((fs.nodes x).children.find? fun child => strcmp (fs.nodes child).name name = 0).getD 0) := by
  obtain ⟨h0, hpriv, -⟩ := h.place_node hx
  unfold ramfsLookup
  rw [hpriv, if_neg (not_or.mpr ⟨h0, h0⟩)]

/-- What is in a place: "tmp" or a file. -/
theorem SessionTree.child (h : SessionTree fs dir tmp) (hx : Place fs tmp x)
    (hy : y ∈ (fs.nodes x).children) :
    y = dir ∨ FileAt fs y := by
  obtain rfl | rfl | hx := hx
  · obtain ⟨files, hchildren, hfiles⟩ := h.rootFiles
    rw [hchildren, List.mem_cons] at hy
    exact hy.imp_right (hfiles y)
  · exact .inr (h.tmpFiles y hy)
  · rw [hx.children] at hy
    cases hy

theorem SessionTree.lookup_cases (h : SessionTree fs dir tmp) (hx : Place fs tmp x)
    (hl : ramfsLookup fs x name = .ok y) : y = 0 ∨ y = dir ∨ FileAt fs y := by
  rw [h.lookup_eq hx] at hl
  cases hf : (fs.nodes x).children.find? fun child => strcmp (fs.nodes child).name name = 0 with
  | none =>
    rw [hf] at hl
    exact .inl (Except.ok.inj hl).symm
  | some child =>
    rw [hf] at hl
    obtain rfl : child = y := Except.ok.inj hl
    exact .inr (h.child hx (List.mem_of_find?_eq_some hf))

/-- A walk from a place leads to places. -/
theorem SessionTree.walk_place (h : SessionTree fs dir tmp) (hcur : Place fs tmp current)
    (hw : walk fs current cs = .ok (some x)) : Place fs tmp x := by
  induction cs generalizing current with
  | nil =>
    rw [← Option.some.inj (Except.ok.inj hw)]
    exact hcur
  | cons c cs ih =>
    rw [walk] at hw
    cases hs : step fs current c with
    | error e =>
      rw [hs] at hw
      cases hw
    | ok o =>
      obtain ⟨-, -, y, hl, rfl⟩ := step_ok hs
      rw [hs] at hw
      obtain rfl | rfl | hy := h.lookup_cases hcur hl
      · rw [if_pos rfl] at hw
        cases hw
      · rw [if_neg h.dirNode.ne_zero, h.checkMount_dir] at hw
        exact ih (.inr (.inl rfl)) hw
      · rw [if_neg hy.node.ne_zero, h.checkMount (hy.ne h.dirNode)] at hw
        exact ih (.inr (.inr hy)) hw

theorem SessionTree.resolve_place (h : SessionTree fs dir tmp) (hcur : Place fs tmp current)
    (hr : pathResolve fs current path = .ok x) (h0 : x ≠ 0) : Place fs tmp x := by
  rw [pathResolve_eq] at hr
  obtain ⟨o, hw, ho⟩ := map_eq_ok hr
  cases o with
  | none => exact absurd ho.symm h0
  | some y =>
    obtain rfl : y = x := ho
    exact h.walk_place hcur hw

/-- The first child of the root is found by its name. -/
theorem lookup_first {files : List Word} (hx : x ≠ 0) (hpriv : (fs.nodes x).fsPrivate = x)
    (hchildren : (fs.nodes x).children = dir :: files) (hname : (fs.nodes dir).name = text "tmp") :
    ramfsLookup fs x (text "tmp") = .ok dir := by
  unfold ramfsLookup
  rw [hpriv, if_neg (not_or.mpr ⟨hx, hx⟩)]
  dsimp only
  rw [hchildren, List.find?_cons_of_pos (by rw [hname]; decide)]
  rfl

/-! ### New nodes -/

variable {parent a flags kind : Word}

theorem NodeAt.ne_fresh (h : NodeAt fs a flags) (hf : Fresh fs answer) : a ≠ answer := by
  rintro rfl
  exact hf.2 h.block

theorem linked_blocks (hf : Fresh fs answer) :
    (linked fs parent name kind answer).blocks = answer :: fs.blocks :=
  hf.kmalloc

theorem NodeAt.linked (h : NodeAt fs a flags) (hf : Fresh fs answer)
    (hpriv : (fs.nodes parent).fsPrivate = parent)
    (hp : parent ≠ answer) : NodeAt (linked fs parent name kind answer) a flags := by
  have hblock : a ∈ (Fs.linked fs parent name kind answer).blocks := by
    rw [linked_blocks hf]
    exact List.mem_cons_of_mem _ h.block
  by_cases ha : a = parent
  · subst ha
    have hn := linked_nodes_parent name kind hpriv hp
    exact ⟨h.ne_zero, by rw [hn]; exact h.priv, by rw [hn]; exact h.ops, by rw [hn]; exact h.flags, hblock⟩
  · have hn := linked_nodes_of_ne name kind hpriv (h.ne_fresh hf) ha
    exact ⟨h.ne_zero, by rw [hn]; exact h.priv, by rw [hn]; exact h.ops, by rw [hn]; exact h.flags, hblock⟩

theorem nodeAt_linked (hf : Fresh fs answer) (hparent : NodeAt fs parent flags) :
    NodeAt (linked fs parent name kind answer) answer kind := by
  have hn := linked_nodes_answer name kind hparent.priv (hparent.ne_fresh hf)
  have hblock : answer ∈ (linked fs parent name kind answer).blocks := by
    rw [linked_blocks hf]
    exact List.mem_cons_self
  refine ⟨hf.1, by rw [hn]; rfl, ?_, by rw [hn]; rfl, hblock⟩
  rw [hn]
  show (Function.update fs.nodes answer .zero parent).ops = true
  rw [Function.update_of_ne (hparent.ne_fresh hf)]
  exact hparent.ops

theorem FileAt.linked (h : FileAt fs a) (hf : Fresh fs answer) (hparent : NodeAt fs parent VFS_DIR) :
    FileAt (linked fs parent name VFS_FILE answer) a := by
  refine ⟨h.node.linked hf hparent.priv (hparent.ne_fresh hf), ?_⟩
  rw [linked_nodes_of_ne name VFS_FILE hparent.priv (h.node.ne_fresh hf) (h.ne hparent)]
  exact h.children

theorem fileAt_linked (hf : Fresh fs answer) (hparent : NodeAt fs parent VFS_DIR) :
    FileAt (linked fs parent name VFS_FILE answer) answer := by
  refine ⟨nodeAt_linked hf hparent, ?_⟩
  rw [linked_nodes_answer name VFS_FILE hparent.priv (hparent.ne_fresh hf)]
  rfl

/-- A file in one of the roots keeps the tree. -/
theorem SessionTree.linked (h : SessionTree fs dir tmp) (hf : Fresh fs answer)
    (hparent : parent = fs.vfsRoot ∨ parent = tmp) :
      SessionTree (linked fs parent name VFS_FILE answer) dir tmp := by
  have hp : NodeAt fs parent VFS_DIR := by
    obtain rfl | rfl := hparent
    · exact h.rootNode
    · exact h.tmpNode
  have hne := hp.ne_fresh hf
  have hroot : (Fs.linked fs parent name VFS_FILE answer).vfsRoot = fs.vfsRoot := rfl
  have hnew : FileAt (Fs.linked fs parent name VFS_FILE answer) answer := fileAt_linked hf hp
  have hdir : dir ≠ parent := by
    obtain rfl | rfl := hparent
    · exact h.root_ne_dir.symm
    · exact h.dir_ne_tmp
  refine ⟨h.mounts, h.rootNode.linked hf hp.priv hne, h.dirNode.linked hf hp.priv hne,
    h.tmpNode.linked hf hp.priv hne,
    h.root_ne_dir, h.root_ne_tmp, h.dir_ne_tmp, ?_, ?_, fun a ha => ?_⟩
  · rw [linked_nodes_of_ne name VFS_FILE hp.priv (h.dirNode.ne_fresh hf) hdir]
    exact h.name
  · obtain ⟨files, hchildren, hfiles⟩ := h.rootFiles
    rw [hroot]
    by_cases hpr : parent = fs.vfsRoot
    · subst hpr
      refine ⟨files ++ [answer], ?_, fun a ha => ?_⟩
      · rw [linked_nodes_parent name VFS_FILE hp.priv hne]
        exact congrArg (· ++ [answer]) hchildren
      · obtain ha | ha := List.mem_append.mp ha
        · exact (hfiles a ha).linked hf hp
        · rw [List.mem_singleton.mp ha]
          exact hnew
    · refine ⟨files, ?_, fun a ha => (hfiles a ha).linked hf hp⟩
      rw [linked_nodes_of_ne name VFS_FILE hp.priv (h.rootNode.ne_fresh hf) (Ne.symm hpr)]
      exact hchildren
  · by_cases hpt : parent = tmp
    · subst hpt
      rw [linked_nodes_parent name VFS_FILE hp.priv hne] at ha
      obtain ha | ha := List.mem_append.mp ha
      · exact (h.tmpFiles a ha).linked hf hp
      · rw [List.mem_singleton.mp ha]
        exact hnew
    · rw [linked_nodes_of_ne name VFS_FILE hp.priv (h.tmpNode.ne_fresh hf) (Ne.symm hpt)] at ha
      exact (h.tmpFiles a ha).linked hf hp

/-! ### Boot -/

/-- The root of an instance. -/
def instanceRoot (a : Word) : RamfsNode :=
  { RamfsNode.zero with
    name := text "/"
    flags := VFS_DIR
    fsPrivate := a
    ops := true }

theorem createInstance_nodes_self (fs : FsState) (answer : Word) :
    (ramfsCreateInstance fs answer).2.nodes answer = instanceRoot answer := by
  rw [ramfsCreateInstance_eq]
  exact Function.update_self _ _ _

theorem createInstance_nodes_of_ne (fs : FsState) (ha : a ≠ answer) :
    (ramfsCreateInstance fs answer).2.nodes a = fs.nodes a := by
  rw [ramfsCreateInstance_eq]
  exact Function.update_of_ne ha _ _

theorem createInstance_blocks (hf : Fresh fs answer) :
    (ramfsCreateInstance fs answer).2.blocks = answer :: fs.blocks := by
  rw [ramfsCreateInstance_eq]
  exact hf.kmalloc

theorem NodeAt.createInstance (h : NodeAt fs a flags) (hf : Fresh fs answer) :
    NodeAt (ramfsCreateInstance fs answer).2 a flags := by
  have hn := createInstance_nodes_of_ne fs (h.ne_fresh hf)
  refine ⟨h.ne_zero, by rw [hn]; exact h.priv, by rw [hn]; exact h.ops, by rw [hn]; exact h.flags, ?_⟩
  rw [createInstance_blocks hf]
  exact List.mem_cons_of_mem _ h.block

theorem nodeAt_createInstance (hf : Fresh fs answer) :
    NodeAt (ramfsCreateInstance fs answer).2 answer VFS_DIR := by
  have hn := createInstance_nodes_self fs answer
  refine ⟨hf.1, by rw [hn]; rfl, by rw [hn]; rfl, by rw [hn]; rfl, ?_⟩
  rw [createInstance_blocks hf]
  exact List.mem_cons_self

theorem bootFs_ok {s : FsState} (h : bootFs s root dir tmp = .ok fs) : ∃ ret s₂ mp,
    ramfsCreate (rootFs s root) root (text "tmp") VFS_DIR dir = .ok (ret, s₂) ∧
      vfsLookup (ramfsCreateInstance s₂ tmp).2 (text "/tmp") = .ok mp ∧ mp ≠ 0 ∧
      fs = { (ramfsCreateInstance s₂ tmp).2 with mounts := (ramfsCreateInstance s₂ tmp).2.mounts ++
        [⟨mp, tmp⟩] } := by
  have hv : (rootFs s root).vfsRoot = root := rfl
  unfold bootFs at h
  dsimp only at h
  rw [hv] at h
  split_ifs at h
  obtain ⟨r, hr, h⟩ := bind_ok h
  obtain ⟨-, mp, hl, hmp, rfl⟩ := vfsMount_cases h
  exact ⟨r.1, r.2, mp, hr, hl, hmp, rfl⟩

theorem rootFs_fdTable (s : FsState) (root : Word) : (rootFs s root).fdTable = (fdInit s).fdTable := by
  show (ramfsCreateInstance (fdInit s) root).2.fdTable = _
  rw [ramfsCreateInstance_eq]

/-- After boot there is a root, and no descriptor is in use. -/
theorem Booted.ready (h : Booted fs) : Ready fs := by
  obtain ⟨mem, table, root, dir, tmp, h⟩ := h
  obtain ⟨ret, s₂, mp, hr, hl, hmp, rfl⟩ := bootFs_ok h
  have htable : s₂.fdTable = (rootFs { FsState.empty mem with fdTable := table } root).fdTable := by
    obtain ⟨-, rfl⟩ | ⟨-, -, -, -, -, rfl⟩ := ramfsCreate_cases hr <;> rfl
  rw [ramfsCreateInstance_eq] at hl ⊢
  refine ⟨fun h0 => hmp ?_, fun i hi => ?_⟩
  · rw [vfsLookup, if_pos h0] at hl
    exact (Except.ok.inj hl).symm
  · show (s₂.fdTable i).used = false
    rw [htable, rootFs_fdTable]
    exact fdInit_used hi

theorem lookup_tmp {files : List Word} (hroot : NodeAt fs fs.vfsRoot VFS_DIR) (hd : dir ≠ 0)
    (hchildren : (fs.nodes fs.vfsRoot).children = dir :: files) (hname : (fs.nodes dir).name = text "tmp") :
    vfsLookup fs (text "/tmp") = .ok (vfsCheckMount fs dir) := by
  have hc : components (text "/tmp") = [text "tmp"] := by decide
  rw [vfsLookup, if_neg hroot.ne_zero,
    resolve_single hc (by decide) hroot.ops
      (lookup_first hroot.ne_zero hroot.priv hchildren hname), if_neg hd]

/-- The root after `ramfs_create_instance`, and nothing else. -/
structure RootMade (fs : FsState) (root : Word) : Prop where
  node : fs.nodes root = instanceRoot root
  blocks : fs.blocks = [root]
  vfsRoot : fs.vfsRoot = root
  mounts : fs.mounts = []

theorem rootMade_rootFs (mem : Mem) (table : ℕ → FileDesc) (hroot : root ≠ 0) :
    RootMade (rootFs { FsState.empty mem with fdTable := table } root) root := by
  have hf : Fresh (fdInit { FsState.empty mem with fdTable := table }) root := ⟨hroot, nofun⟩
  refine ⟨createInstance_nodes_self _ _, createInstance_blocks hf, rfl, ?_⟩
  rw [rootFs, ramfsCreateInstance_eq]
  rfl

theorem RootMade.rootNode (h : RootMade fs root) (hroot : root ≠ 0) : NodeAt fs root VFS_DIR := by
  refine ⟨hroot, by rw [h.node]; rfl, by rw [h.node]; rfl, by rw [h.node]; rfl, ?_⟩
  rw [h.blocks]
  exact List.mem_singleton_self root

/-- The directory "tmp" in the root. -/
structure TmpMade (fs : FsState) (root dir : Word) : Prop where
  rootNode : NodeAt fs root VFS_DIR
  dirNode : NodeAt fs dir VFS_DIR
  children : (fs.nodes root).children = [dir]
  name : (fs.nodes dir).name = text "tmp"
  blocks : ∀ a ∈ fs.blocks, a = dir ∨ a = root
  vfsRoot : fs.vfsRoot = root
  mounts : fs.mounts = []

theorem RootMade.allocates (h : RootMade fs root) (hroot : root ≠ 0) : CreateAllocates fs root := by
  have hpriv := congrArg RamfsNode.fsPrivate h.node
  change (fs.nodes root).fsPrivate = root at hpriv
  unfold CreateAllocates
  rw [hpriv, h.node]
  exact ⟨hroot, hroot, Nat.zero_lt_succ _⟩

theorem RootMade.create_eq (h : RootMade fs root) (hroot : root ≠ 0) (dir : Word) :
    ramfsCreate fs root (text "tmp") VFS_DIR dir = .ok (0, linked fs root (text "tmp") VFS_DIR dir) := by
  obtain ⟨-, hpriv, hroom⟩ := h.allocates hroot
  rw [ramfsCreate_eq hroot hpriv, if_neg (Nat.not_le_of_lt hroom), if_pos (by decide)]

theorem RootMade.create (h : RootMade fs root) (hroot : root ≠ 0) (hdir : dir ≠ 0)
    (hrd : root ≠ dir) {r : ℤ × FsState}
    (hr : ramfsCreate fs root (text "tmp") VFS_DIR dir = .ok r) : TmpMade r.2 root dir := by
  have hnode := h.rootNode hroot
  have hf : Fresh fs dir := by
    refine ⟨hdir, ?_⟩
    rw [h.blocks, List.mem_singleton]
    exact hrd.symm
  have hcreate := h.create_eq hroot dir
  rw [← Except.ok.inj (hcreate.symm.trans hr)]
  refine ⟨hnode.linked hf hnode.priv hrd, nodeAt_linked hf hnode, ?_, ?_, ?_, h.vfsRoot, h.mounts⟩
  · rw [linked_nodes_parent _ _ hnode.priv hrd, h.node]
    rfl
  · rw [linked_nodes_answer _ _ hnode.priv hrd]
    rfl
  · intro a ha
    rw [linked_blocks hf, h.blocks] at ha
    exact (List.mem_cons.mp ha).imp_right List.mem_singleton.mp

theorem TmpMade.createInstance (h : TmpMade fs root dir) (hrt : root ≠ tmp) (hdt : dir ≠ tmp) :
    ((ramfsCreateInstance fs tmp).2.nodes root).children = [dir] ∧
      ((ramfsCreateInstance fs tmp).2.nodes dir).name = text "tmp" ∧
      (ramfsCreateInstance fs tmp).2.vfsRoot = root ∧ (ramfsCreateInstance fs tmp).2.mounts = [] := by
  rw [createInstance_nodes_of_ne fs hrt, createInstance_nodes_of_ne fs hdt, ramfsCreateInstance_eq]
  exact ⟨h.children, h.name, h.vfsRoot, h.mounts⟩

/-- If `kmalloc` succeeds at boot, the tree is there. -/
theorem BootedFresh.tree (h : BootedFresh fs) : ∃ dir tmp, SessionTree fs dir tmp := by
  obtain ⟨mem, table, root, dir, tmp, hroot, hdir, htmp, hrd, hrt, hdt, h⟩ := h
  obtain ⟨ret, s₂, mp, hr, hl, -, rfl⟩ := bootFs_ok h
  have hmade : TmpMade s₂ root dir := (rootMade_rootFs mem table hroot).create hroot hdir hrd hr
  have hf : Fresh s₂ tmp := by
    refine ⟨htmp, fun hmem => ?_⟩
    obtain heq | heq := hmade.blocks tmp hmem
    · exact hdt heq.symm
    · exact hrt heq.symm
  have hroot₃ := hmade.rootNode.createInstance hf
  have hdir₃ := hmade.dirNode.createInstance hf
  have htmp₃ : NodeAt (ramfsCreateInstance s₂ tmp).2 tmp VFS_DIR := nodeAt_createInstance hf
  obtain ⟨hchildren, hname, hv, hm⟩ := hmade.createInstance hrt hdt
  have hfiles : ((ramfsCreateInstance s₂ tmp).2.nodes tmp).children = [] := by
    rw [createInstance_nodes_self]
    rfl
  generalize (ramfsCreateInstance s₂ tmp).2 = s₃ at *
  rw [← hv] at hroot₃ hchildren hrd hrt
  -- nothing is mounted yet, so the mount point is "tmp" itself
  have hmp : mp = dir := by
    rw [lookup_tmp hroot₃ hdir hchildren hname] at hl
    rw [← Except.ok.inj hl]
    unfold vfsCheckMount
    rw [hm]
    rfl
  exact ⟨dir, tmp,
    { mounts := by rw [hmp, hm]; rfl
      rootNode := ⟨hroot₃.ne_zero, hroot₃.priv, hroot₃.ops, hroot₃.flags, hroot₃.block⟩
      dirNode := ⟨hdir₃.ne_zero, hdir₃.priv, hdir₃.ops, hdir₃.flags, hdir₃.block⟩
      tmpNode := ⟨htmp₃.ne_zero, htmp₃.priv, htmp₃.ops, htmp₃.flags, htmp₃.block⟩
      root_ne_dir := hrd
      root_ne_tmp := hrt
      dir_ne_tmp := hdt
      name := hname
      rootFiles := ⟨[], hchildren, nofun⟩
      tmpFiles := fun a ha => by rw [hfiles] at ha; cases ha }⟩

/-! ### Sessions -/

/-- The invariant of a session whose calls of `kmalloc` succeed: the working directory is one of the roots. -/
structure Session.Inv (s : Session) (dir tmp : Word) : Prop where
  ready : Ready s.fs
  tree : SessionTree s.fs dir tmp
  cwd : s.cwd = s.fs.vfsRoot ∨ s.cwd = tmp

theorem SessionTree.place_root (fs : FsState) (hx : x = fs.vfsRoot ∨ x = tmp) : Place fs tmp x :=
  hx.imp_right .inl

theorem Session.Inv.target (h : s.Inv dir tmp) (ht : target s path = .ok x) (h0 : x ≠ 0) :
    Place s.fs tmp x := by
  unfold Shell.target at ht
  split_ifs at ht
  · rw [vfsLookup, if_neg h.ready.root] at ht
    exact h.tree.resolve_place (.inl rfl) ht h0
  · exact h.tree.resolve_place (SessionTree.place_root s.fs h.cwd) ht h0

theorem Session.Inv.step (h : s.Inv dir tmp) (hf : FreshAnswer s c) (hs : c.after s = some s') :
    s'.Inv dir tmp := by
  have hready := h.ready.step hs
  cases after_effect hs with
  | unchanged => exact h
  | home => exact ⟨hready, h.tree, .inl rfl⟩
  | cd ht h0 hdir => exact ⟨hready, h.tree, place_dir (h.target ht h0) hdir⟩
  | mk => exact ⟨hready, h.tree.linked hf h.cwd, h.cwd⟩
  | mkr hl h0 hdir =>
    rw [vfsLookup, if_neg h.ready.root] at hl
    have hplace := h.tree.resolve_place (.inl rfl) hl h0
    exact ⟨hready, h.tree.linked hf (place_dir hplace hdir), h.cwd⟩

theorem exists_inv (h : Reach (sessionMachine BootedFresh) FreshAnswer s) : ∃ dir tmp, s.Inv dir tmp := by
  refine h.invariant (I := fun s => ∃ dir tmp, s.Inv dir tmp) ?_ ?_
  · rintro s ⟨hboot, hcwd⟩
    obtain ⟨dir, tmp, htree⟩ := hboot.tree
    obtain ⟨mem, table, root, dir', tmp', -, -, -, -, -, -, hb⟩ := hboot
    exact ⟨dir, tmp, Booted.ready ⟨mem, table, root, dir', tmp', hb⟩, htree, .inl hcwd⟩
  · rintro s c s' ⟨dir, tmp, hinv⟩ hf hs
    exact ⟨dir, tmp, hinv.step hf hs⟩

theorem ready_of_reach (h : Reach (sessionMachine Booted) (fun _ _ => True) s) : Ready s.fs :=
  h.invariant (I := fun s => Ready s.fs) (fun _ hs => hs.1.ready) fun _ _ _ hr _ hs => hr.step hs

/-! ### Where the commands agree -/

/-- In the other root, "tmp" is not what it is in the first one. -/
theorem Session.Inv.not_agree (h : s.Inv dir tmp) (hcwd : s.cwd = tmp) : ¬ PathsAgree s := by
  intro hagree
  have hc : components (text "tmp") = [text "tmp"] := by decide
  have hpath : RelativePath (text "tmp") := ⟨by decide, by decide, by rw [hc]; decide⟩
  obtain ⟨files, hchildren, -⟩ := h.tree.rootFiles
  have hopen := hagree _ hpath
  rw [openedNode_eq h.ready, resolve_single hc (by decide) h.tree.rootNode.ops
    (lookup_first h.tree.rootNode.ne_zero h.tree.rootNode.priv hchildren h.tree.name),
      if_neg h.tree.dirNode.ne_zero,
    h.tree.checkMount_dir, hcwd] at hopen
  have htmp : Place s.fs tmp tmp := .inr (.inl rfl)
  have hlookup := h.tree.lookup_eq htmp (text "tmp")
  rw [resolve_single hc (by decide) h.tree.tmpNode.ops hlookup] at hopen
  have heq := Except.ok.inj hopen
  cases hf : (s.fs.nodes tmp).children.find? fun child => strcmp (s.fs.nodes child).name (text "tmp") = 0 with
  | none =>
    rw [hf] at heq
    exact h.tree.tmpNode.ne_zero heq
  | some child =>
    have hfile := h.tree.tmpFiles child (List.mem_of_find?_eq_some hf)
    rw [hf, Option.getD_some, if_neg hfile.node.ne_zero, h.tree.checkMount (hfile.ne h.tree.dirNode)] at heq
    exact hfile.ne h.tree.tmpNode heq.symm

theorem SessionTree.child_node (h : SessionTree fs dir tmp) (hx : Place fs tmp x)
    (hy : y ∈ (fs.nodes x).children) :
    ∃ flags, NodeAt fs y flags := by
  obtain rfl | hfile := h.child hx hy
  · exact ⟨_, h.dirNode⟩
  · exact ⟨_, hfile.node⟩

/-- A new name is found in the directory it was made in. -/
theorem SessionTree.lookup_linked (h : SessionTree fs dir tmp) (hf : Fresh fs answer)
    (hx : x = fs.vfsRoot ∨ x = tmp)
    (hl : ramfsLookup fs x name = .ok 0) :
      ramfsLookup (Fs.linked fs x name VFS_FILE answer) x name = .ok answer := by
  have hplace := SessionTree.place_root fs hx
  have hplace' : Place (Fs.linked fs x name VFS_FILE answer) tmp x := hx.imp_right .inl
  have hnode : NodeAt fs x VFS_DIR := by
    obtain rfl | rfl := hx
    · exact h.rootNode
    · exact h.tmpNode
  have hne := hnode.ne_fresh hf
  -- the old children have other names
  have hold : ((fs.nodes x).children.find? fun child =>
      strcmp ((Fs.linked fs x name VFS_FILE answer).nodes child).name name = 0) = none := by
    rw [List.find?_eq_none]
    intro child hchild heq
    obtain ⟨flags, hn⟩ := h.child_node hplace hchild
    have hname : ((Fs.linked fs x name VFS_FILE answer).nodes child).name = (fs.nodes child).name := by
      by_cases hcx : child = x
      · rw [hcx, linked_nodes_parent name VFS_FILE hnode.priv hne]
      · rw [linked_nodes_of_ne name VFS_FILE hnode.priv (hn.ne_fresh hf) hcx]
    rw [hname] at heq
    rw [h.lookup_eq hplace] at hl
    cases hfind : (fs.nodes x).children.find? fun child => strcmp (fs.nodes child).name name = 0 with
    | none => exact List.find?_eq_none.mp hfind child hchild heq
    | some found =>
      obtain ⟨flags', hfound⟩ := h.child_node hplace (List.mem_of_find?_eq_some hfind)
      rw [hfind] at hl
      exact hfound.ne_zero (Except.ok.inj hl)
  have hnew : strcmp ((Fs.linked fs x name VFS_FILE answer).nodes answer).name name = 0 := by
    rw [linked_nodes_answer name VFS_FILE hnode.priv hne]
    exact strcmp_self name
  rw [(h.linked hf hx).lookup_eq hplace', linked_nodes_parent name VFS_FILE hnode.priv hne,
    List.find?_append, hold,
    Option.none_or, List.find?_singleton, if_pos (decide_eq_true hnew)]
  rfl

/-- What a path with one component that leads nowhere says about the directory. -/
theorem lookup_of_resolve (h : SessionTree fs dir tmp) (hx : Place fs tmp x) (hc : components path = [name])
    (hshort : name.length < NAME_SIZE) (hr : pathResolve fs x path = .ok 0) :
      ramfsLookup fs x name = .ok 0 := by
  have hl := h.lookup_eq hx name
  rw [resolve_single hc hshort (h.place_node hx).2.2 hl] at hr
  have heq := Except.ok.inj hr
  obtain hy | hy | hy := h.lookup_cases hx hl
  · rw [hl, hy]
  · rw [hy, if_neg h.dirNode.ne_zero, h.checkMount_dir] at heq
    exact absurd heq h.tmpNode.ne_zero
  · rw [if_neg hy.node.ne_zero, h.checkMount (hy.ne h.dirNode)] at heq
    exact absurd heq hy.node.ne_zero

/-- At the root, a file that is made is opened. -/
theorem Session.Inv.madeOpens (h : s.Inv dir tmp) (hcwd : s.cwd = s.fs.vfsRoot) : MadeOpens s := by
  intro name answer s' hpath hslash hf hnone hmk
  have hc : components name = [name] := tokens_of_notMem hslash hpath.ne_nil
  have hshort : name.length < NAME_SIZE := hpath.short name (by rw [hc]; exact List.mem_singleton_self name)
  rw [hcwd] at hnone
  have hlookup := lookup_of_resolve h.tree (.inl rfl) hc hshort hnone
  have hs : s' = { s with fs := linked s.fs s.cwd name VFS_FILE answer } := by
    unfold cmdMk at hmk
    rw [show [text "mk", name][1]? = some name from rfl] at hmk
    dsimp only at hmk
    split_ifs at hmk
    · exact absurd (Prod.mk.inj (Except.ok.inj hmk)).1 (by decide)
    · obtain ⟨hout, -⟩ | ⟨-, hs⟩ := createFile_ok hmk
      · exact absurd hout (by decide)
      · exact hs
  have hready : Ready (linked s.fs s.fs.vfsRoot name VFS_FILE answer) := ⟨h.ready.root, h.ready.free⟩
  have htree : SessionTree (linked s.fs s.fs.vfsRoot name VFS_FILE answer) dir tmp :=
    h.tree.linked hf (.inl rfl)
  have hfound := h.tree.lookup_linked hf (.inl rfl) hlookup
  have hfile : FileAt (linked s.fs s.fs.vfsRoot name VFS_FILE answer) answer :=
    fileAt_linked hf h.tree.rootNode
  rw [hs, hcwd, openedNode_eq hready]
  exact (resolve_single hc hshort htree.rootNode.ops hfound).trans (by
    rw [if_neg hf.1, htree.checkMount (hfile.ne htree.dirNode)])

/-- **The commands agree on what a path means exactly at the root.** That they do there needs nothing of
`kmalloc`; in a session whose calls of `kmalloc` succeed they do nowhere else. -/
theorem paths_agree_iff (s : Session) :
    (Reach (sessionMachine Booted) (fun _ _ => True) s → s.cwd = s.fs.vfsRoot → PathsAgree s) ∧
      (Reach (sessionMachine BootedFresh) FreshAnswer s →
        (PathsAgree s ∧ MadeOpens s ↔ s.cwd = s.fs.vfsRoot)) := by
  refine ⟨fun h hcwd => pathsAgree_of_root (ready_of_reach h) hcwd, fun h => ?_⟩
  obtain ⟨dir, tmp, hinv⟩ := exists_inv h
  constructor
  · rintro ⟨hagree, -⟩
    exact hinv.cwd.resolve_right fun hcwd => hinv.not_agree hcwd hagree
  · exact fun hcwd => ⟨pathsAgree_of_root hinv.ready hcwd, hinv.madeOpens hcwd⟩

/-- A session after a boot with nothing in the memory. -/
theorem exists_session {α : Type} {f : Session → α} {a : α} (cs : List PathCommand)
    (h : ((bootFs (.empty fun _ => 0) 0x400018 0x400100 0x400200).toOption.bind fun fs =>
      exec (fun s c => if FreshAnswer s c then c.after s else none) ⟨fs, fs.vfsRoot⟩ cs).map f = some a) :
    ∃ s, Reach (sessionMachine BootedFresh) FreshAnswer s ∧ f s = a := by
  obtain ⟨s, hs, heq⟩ := Option.map_eq_some_iff.mp h
  obtain ⟨fs, hfs, hs⟩ := Option.bind_eq_some_iff.mp hs
  have hboot : bootFs (.empty fun _ => 0) 0x400018 0x400100 0x400200 = .ok fs := by
    cases hb : bootFs (.empty fun _ => 0) 0x400018 0x400100 0x400200 with
    | error e =>
      rw [hb] at hfs
      cases hfs
    | ok t =>
      rw [hb] at hfs
      rw [Option.some.inj hfs]
  have hstart : BootedFresh fs :=
    ⟨_, _, _, _, _, by decide, by decide, by decide, by decide, by decide, by decide, hboot⟩
  exact ⟨s, Reach.exec_guarded (f := fun s c => c.after s) (fun _ _ _ h => h) (.start ⟨hstart, rfl⟩) hs, heq⟩

theorem paths_agree_made : ∃ s, s.cwd = s.fs.vfsRoot ∧ (s.fs.nodes s.cwd).children = [0x400100, 0x400300] ∧
    PathsAgree s ∧ MadeOpens s := by
  obtain ⟨s, h, heq⟩ := exists_session (f := fun s => (s.cwd, s.fs.vfsRoot, (s.fs.nodes s.cwd).children))
    (a := (0x400018, 0x400018, [0x400100, 0x400300])) [.mk [text "mk", text "f"] 0x400300] (by decide +kernel)
  obtain ⟨hcwd, heq⟩ := Prod.mk.inj heq
  obtain ⟨hroot, hchildren⟩ := Prod.mk.inj heq
  have hs : s.cwd = s.fs.vfsRoot := hcwd.trans hroot.symm
  obtain ⟨hagree, hopens⟩ := ((paths_agree_iff s).2 h).mpr hs
  exact ⟨s, hs, hchildren, hagree, hopens⟩

/-- After `cd tmp`, `write` and `rd` do not find the file that `mk f` makes. -/
theorem paths_not_agree : (¬ ∀ s, Reach (sessionMachine BootedFresh) FreshAnswer s → PathsAgree s) ∧
    ¬ ∀ s, Reach (sessionMachine BootedFresh) FreshAnswer s → MadeOpens s := by
  have hpath : RelativePath (text "f") := ⟨by decide, by decide, by decide⟩
  constructor
  · intro hall
    obtain ⟨s, h, heq⟩ :=
      exists_session (f := fun s => (openedNode s.fs (text "f"), pathResolve s.fs s.cwd (text "f")))
      (a := (.ok 0, .ok 0x400300)) [.cd [text "cd", text "tmp"],
        .mk [text "mk", text "f"] 0x400300] (by decide +kernel)
    obtain ⟨hopened, hresolved⟩ := Prod.mk.inj heq
    have hagree := hall s h (text "f") hpath
    rw [hopened, hresolved] at hagree
    exact absurd (Except.ok.inj hagree) (by decide)
  · intro hall
    obtain ⟨s, h, heq⟩ :=
      exists_session
      (f := fun s => (decide (Fresh s.fs 0x400300), pathResolve s.fs s.cwd (text "f"),
      (cmdMk s [text "mk", text "f"] 0x400300).toOption.map fun r => (r.1, openedNode r.2.fs (text "f"))))
      (a := (true, .ok 0, some (text "File created\n", .ok 0))) [.cd [text "cd", text "tmp"]]
        (by decide +kernel)
    obtain ⟨hfresh, heq⟩ := Prod.mk.inj heq
    obtain ⟨hnone, hmk⟩ := Prod.mk.inj heq
    cases hr : cmdMk s [text "mk", text "f"] 0x400300 with
    | error e =>
      rw [hr] at hmk
      cases hmk
    | ok r =>
      rw [hr] at hmk
      obtain ⟨hout, hopened⟩ := Prod.mk.inj (Option.some.inj hmk)
      have hopens := hall s h (text "f") 0x400300 r.2 hpath (by decide) (of_decide_eq_true hfresh) hnone
        (by rw [hr, ← hout])
      rw [hopened] at hopens
      exact absurd (Except.ok.inj hopens) (by decide)

end SpatulaOS.Shell
