import Mathlib.Data.List.Find
import SpatulaOS.Fs.Requests
import SpatulaOS.Shell.Paths
import SpatulaOS.Shell.Store

/-!
# The state of a store

The state that belongs to a store (`Store.Rep`) has a node for each file, in the order of the
children; between commands no descriptor is in use. Paths lead to the nodes of the items that they
lead to in the store, as far as their components have room, and the commands that use the
directories print what the store says and leave a state that belongs to the store behind it.
-/

namespace SpatulaOS.Shell

open ByteMemory Tokens SpatulaOS.Fs

variable {σ τ : Store} {s : Session} {fs fs' : FsState} {dir tmp a b x answer : Word} {d : Dir}
  {item item' : Item}
  {name path c line out : List Byte} {cs args : List (List Byte)} {i : ℕ} {answers : ℕ → Word}

/-! ### The state of a store -/

/-- The node of a directory. -/
def Dir.node (fs : FsState) (tmp : Word) : Dir → Word
  | .root => fs.vfsRoot
  | .tmp => tmp

/-- The nodes of the files of a directory. -/
def fileNodes (fs : FsState) (tmp : Word) : Dir → List Word
  | .root => (fs.nodes fs.vfsRoot).children.tail
  | .tmp => (fs.nodes tmp).children

/-- The node of an item. -/
def Item.node (fs : FsState) (tmp : Word) : Item → Word
  | .dir d => d.node fs tmp
  | .file d i => (fileNodes fs tmp d).getD i 0

/-- The file that a node is. -/
def storedFile (fs : FsState) (a : Word) : StoredFile := ⟨(fs.nodes a).name, (files fs).contents a⟩

/-- The strings of a store are those that can be typed. -/
structure Store.Ok (σ : Store) : Prop where
  name : ∀ d, ∀ f ∈ σ.files d, 0 ∉ f.name
  contents : ∀ d, ∀ f ∈ σ.files d, 0 ∉ f.contents ∧ f.contents.length ≤ 255

/-- The session is in the state of the store. -/
structure Store.Rep (σ : Store) (s : Session) (dir tmp : Word) : Prop where
  ready : Ready s.fs
  tree : SessionTree s.fs dir tmp
  wf : Wf s.fs
  covered : Covered s.fs
  /-- Directories have no contents. -/
  empty : ∀ d : Dir, (s.fs.nodes (d.node s.fs tmp)).size = 0
  /-- No node is two files. -/
  nodup : ∀ d, (fileNodes s.fs tmp d).Nodup
  apart : ∀ a ∈ fileNodes s.fs tmp .root, a ∉ fileNodes s.fs tmp .tmp
  files : ∀ d, σ.files d = (fileNodes s.fs tmp d).map (storedFile s.fs)
  cwd : s.cwd = σ.cwd.node s.fs tmp
  ok : σ.Ok

theorem SessionTree.children_root (h : SessionTree fs dir tmp) :
    (fs.nodes fs.vfsRoot).children = dir :: fileNodes fs tmp .root := by
  obtain ⟨files, hfiles, -⟩ := h.rootFiles
  rw [fileNodes, hfiles]
  rfl

theorem SessionTree.fileAt (h : SessionTree fs dir tmp) (ha : a ∈ fileNodes fs tmp d) : FileAt fs a := by
  cases d with
  | root =>
    obtain ⟨files, hfiles, hall⟩ := h.rootFiles
    rw [fileNodes, hfiles] at ha
    exact hall a ha
  | tmp => exact h.tmpFiles a ha

theorem SessionTree.dirAt (h : SessionTree fs dir tmp) (d : Dir) : NodeAt fs (d.node fs tmp) VFS_DIR := by
  cases d with
  | root => exact h.rootNode
  | tmp => exact h.tmpNode

/-- An item of the store. -/
def Store.Has (σ : Store) : Item → Prop
  | .dir _ => True
  | .file d i => i < (σ.files d).length

theorem Store.Rep.file (h : σ.Rep s dir tmp) (hi : σ.Has (.file d i)) :
    ∃ a, (fileNodes s.fs tmp d)[i]? = some a ∧
    Item.node s.fs tmp (.file d i) = a ∧ a ∈ fileNodes s.fs tmp d ∧
      (σ.files d)[i]? = some (storedFile s.fs a) := by
  have hlt : i < (fileNodes s.fs tmp d).length := by
    have hlen := congrArg List.length (h.files d)
    rw [List.length_map] at hlen
    exact hlen ▸ hi
  refine ⟨(fileNodes s.fs tmp d)[i], List.getElem?_eq_getElem hlt, List.getD_eq_getElem _ _ hlt,
    List.getElem_mem hlt, ?_⟩
  rw [h.files d, List.getElem?_map, List.getElem?_eq_getElem hlt]
  rfl

/-- The node of an item is a place of the session. -/
theorem Store.Rep.place (h : σ.Rep s dir tmp) (hi : σ.Has item) : Place s.fs tmp (item.node s.fs tmp) := by
  cases item with
  | dir d =>
    cases d with
    | root => exact .inl rfl
    | tmp => exact .inr (.inl rfl)
  | file d i =>
    obtain ⟨a, -, ha, hmem, -⟩ := h.file hi
    rw [ha]
    exact .inr (.inr (h.tree.fileAt hmem))

/-! ### Paths -/

theorem strcmp_eq_zero_iff (ha : 0 ∉ name) (hb : 0 ∉ c) : strcmp name c = 0 ↔ name = c :=
  ⟨eq_of_strcmp ha hb, fun h => h ▸ strcmp_self name⟩

/-- The first file of a name, by its position and by its node. -/
theorem Store.Rep.find_file (h : σ.Rep s dir tmp) (hc : 0 ∉ c) (d : Dir) :
    (fileNodes s.fs tmp d).find? (fun child => strcmp (s.fs.nodes child).name c = 0) =
      ((σ.files d).findIdx? fun f => f.name = c).bind fun i => (fileNodes s.fs tmp d)[i]? := by
  have hname := h.ok.name d
  rw [h.files d] at hname ⊢
  rw [List.findIdx?_map, ← List.find?_eq_bind_findIdx?_getElem?]
  refine List.find?_congr fun a ha => ?_
  exact decide_eq_decide.mpr (strcmp_eq_zero_iff (hname _ (List.mem_map_of_mem ha)) hc)

theorem Store.Rep.step_files (h : σ.Rep s dir tmp) (hc : 0 ∉ c) (hlen : c.length < NAME_SIZE)
    (hops : (s.fs.nodes x).ops = true) (hl : ramfsLookup s.fs x c =
      .ok (((fileNodes s.fs tmp d).find? fun child => strcmp (s.fs.nodes child).name c = 0).getD 0)) :
    step s.fs x c =
      .ok ((((σ.files d).findIdx? fun f => f.name = c).map (.file d)).map
      (Item.node s.fs tmp)) := by
  rw [step_eq hlen hops hl, h.find_file hc d]
  cases hf : (σ.files d).findIdx? fun f => f.name = c with
  | none => rfl
  | some i =>
    obtain ⟨hi, -⟩ := List.findIdx?_eq_some_iff_getElem.mp hf
    obtain ⟨a, hget, hnode, hmem, -⟩ := h.file hi
    have hfile := h.tree.fileAt hmem
    rw [Option.bind_some, hget, Option.getD_some, if_neg hfile.node.ne_zero,
      h.tree.checkMount (hfile.ne h.tree.dirNode),
      Option.map_some, Option.map_some, hnode]

/-- A step of a lookup, on the store. -/
theorem Store.Rep.step (h : σ.Rep s dir tmp) (hi : σ.Has item) (hc : 0 ∉ c) (hlen : c.length < NAME_SIZE) :
    step s.fs (item.node s.fs tmp) c = .ok ((σ.child item c).map (Item.node s.fs tmp)) := by
  have hl := h.tree.lookup_eq (h.place hi) c
  obtain ⟨-, -, hops⟩ := h.tree.place_node (h.place hi)
  cases item with
  | file d i =>
    obtain ⟨a, -, ha, hmem, -⟩ := h.file hi
    rw [ha] at hl hops ⊢
    rw [(h.tree.fileAt hmem).children] at hl
    exact step_eq hlen hops hl
  | dir d =>
    rw [Store.child]
    cases d with
    | tmp =>
      rw [if_neg fun h => nomatch h.1]
      exact h.step_files hc hlen hops hl
    | root =>
      change ramfsLookup s.fs s.fs.vfsRoot c =
        .ok ((List.find? _ (s.fs.nodes s.fs.vfsRoot).children).getD 0) at hl
      rw [h.tree.children_root] at hl
      by_cases hc' : c = text "tmp"
      · have hname : strcmp (s.fs.nodes dir).name c = 0 := by
          rw [h.tree.name, hc']
          exact strcmp_self _
        rw [if_pos ⟨rfl, hc'⟩]
        rw [List.find?_cons_of_pos (p := fun child => decide (strcmp (s.fs.nodes child).name c = 0))
          (decide_eq_true hname)] at hl
        refine (step_eq hlen hops hl).trans ?_
        rw [Option.getD_some, if_neg h.tree.dirNode.ne_zero, h.tree.checkMount_dir]
        rfl
      · rw [if_neg fun h => hc' h.2]
        rw [List.find?_cons_of_neg] at hl
        · exact h.step_files hc hlen hops hl
        · rw [decide_eq_true_eq, h.tree.name, strcmp_eq_zero_iff (by decide) hc]
          exact Ne.symm hc'

theorem Store.has_child (hchild : σ.child item c = some item') : σ.Has item' := by
  cases item with
  | file d i => cases hchild
  | dir d =>
    rw [Store.child] at hchild
    split_ifs at hchild
    · obtain rfl := Option.some.inj hchild
      exact trivial
    · obtain ⟨i, hf, rfl⟩ := Option.map_eq_some_iff.mp hchild
      exact (List.findIdx?_eq_some_iff_getElem.mp hf).1

theorem Store.has_walk (hi : σ.Has item) (hw : σ.walk item cs = some item') : σ.Has item' := by
  induction cs generalizing item with
  | nil =>
    obtain rfl := Option.some.inj hw
    exact hi
  | cons c cs ih =>
    obtain ⟨next, hnext, hw⟩ := Option.bind_eq_some_iff.mp hw
    exact ih (Store.has_child hnext) hw

/-- A walk, on the store. -/
theorem Store.Rep.walk (h : σ.Rep s dir tmp) (hi : σ.Has item) (hcs : ∀ c ∈ cs, 0 ∉ c)
    (hfit : PartsFit s.fs (item.node s.fs tmp) cs) :
    Fs.walk s.fs (item.node s.fs tmp) cs = .ok ((σ.walk item cs).map (Item.node s.fs tmp)) := by
  induction cs generalizing item with
  | nil => rfl
  | cons c cs ih =>
    obtain ⟨hc, hcs⟩ := List.forall_mem_cons.mp hcs
    obtain ⟨hlen, hfit⟩ := hfit
    rw [h.step hi hc hlen] at hfit
    rw [Fs.walk, h.step hi hc hlen, Store.walk]
    cases hchild : σ.child item c with
    | none => rfl
    | some next =>
      rw [hchild] at hfit
      exact ih (Store.has_child hchild) hcs hfit

/-- A path leads to the node of the item that it leads to in the store. -/
theorem Store.Rep.resolve (h : σ.Rep s dir tmp) (hpath : 0 ∉ path)
    (hfit : PartsFit s.fs (d.node s.fs tmp) (components path)) :
    pathResolve s.fs (d.node s.fs tmp) path = .ok (((σ.resolve d path).map (Item.node s.fs tmp)).getD 0) := by
  have hcs : ∀ c ∈ components path, 0 ∉ c := fun c hc h0 => hpath (mem_of_mem_tokens hc h0)
  have hw : Fs.walk s.fs (d.node s.fs tmp) (components path) =
      .ok ((σ.resolve d path).map (Item.node s.fs tmp)) :=
    h.walk (show σ.Has (.dir d) from trivial) hcs hfit
  rw [pathResolve_eq, hw]
  rfl

theorem Store.has_resolve (hr : σ.resolve d path = some item) : σ.Has item :=
  Store.has_walk (show σ.Has (.dir d) from trivial) hr

theorem Store.Rep.lookup (h : σ.Rep s dir tmp) (hpath : 0 ∉ path) (hfit : PathFits s.fs path) :
    vfsLookup s.fs path = .ok (((σ.resolve .root path).map (Item.node s.fs tmp)).getD 0) :=
  (if_neg h.ready.root).trans (h.resolve (d := .root) hpath (hfit.resolve_left h.ready.root))

theorem Store.Rep.target (h : σ.Rep s dir tmp) (hpath : 0 ∉ path) (hfit : TargetFits s path) :
    Shell.target s path = .ok (((σ.target path).map (Item.node s.fs tmp)).getD 0) := by
  unfold TargetFits at hfit
  unfold Shell.target Store.target
  split_ifs at hfit ⊢
  · exact h.lookup hpath hfit
  · rw [h.cwd] at hfit ⊢
    exact h.resolve hpath hfit

theorem Store.has_target (ht : σ.target path = some item) : σ.Has item := Store.has_resolve ht

/-- The node of an item that a path leads to, and whether it is a directory. -/
theorem Store.Rep.node_dir (h : σ.Rep s dir tmp) (d : Dir) : Item.node s.fs tmp (.dir d) ≠ 0 ∧
    (s.fs.nodes (Item.node s.fs tmp (.dir d))).flags &&& VFS_DIR ≠ 0 := by
  have hd := h.tree.dirAt d
  refine ⟨hd.ne_zero, ?_⟩
  show (s.fs.nodes (d.node s.fs tmp)).flags &&& VFS_DIR ≠ 0
  rw [hd.flags]
  decide

theorem Store.Rep.node_file (h : σ.Rep s dir tmp) (hi : σ.Has (.file d i)) :
    Item.node s.fs tmp (.file d i) ≠ 0 ∧
    (s.fs.nodes (Item.node s.fs tmp (.file d i))).flags &&& VFS_DIR = 0 := by
  obtain ⟨a, -, ha, hmem, -⟩ := h.file hi
  have hfile := h.tree.fileAt hmem
  rw [ha, hfile.node.flags]
  exact ⟨hfile.node.ne_zero, by decide⟩

/-! ### `cd` and `ls` -/

theorem Store.Rep.cd (h : σ.Rep s dir tmp) (hpath : 0 ∉ path) (hfit : TargetFits s path)
    (name : List Byte) (rest : List (List Byte)) :
    ∃ s', cmdCd s (name :: path :: rest) = .ok ((σ.cd path).1, s') ∧ (σ.cd path).2.Rep s' dir tmp := by
  have htarget := h.target hpath hfit
  unfold cmdCd
  simp only [List.getElem?_cons_succ, List.getElem?_cons_zero]
  rw [htarget, Store.cd]
  cases hitem : σ.target path with
  | none => exact ⟨s, rfl, h⟩
  | some item =>
    cases item with
    | file d i =>
      obtain ⟨h0, hflags⟩ := h.node_file (Store.has_target hitem)
      exact ⟨s, (if_neg h0).trans (if_pos hflags), h⟩
    | dir d =>
      obtain ⟨h0, hflags⟩ := h.node_dir d
      exact ⟨_, (if_neg h0).trans (if_neg hflags),
        { h with cwd := rfl, ready := h.ready, tree := h.tree, ok := ⟨h.ok.name, h.ok.contents⟩ }⟩

theorem Store.Rep.home (h : σ.Rep s dir tmp) :
    ({ σ with cwd := .root } : Store).Rep { s with cwd := s.fs.vfsRoot } dir tmp :=
  { h with cwd := rfl, ok := ⟨h.ok.name, h.ok.contents⟩ }

theorem Store.Rep.list (h : σ.Rep s dir tmp) (d : Dir) : ramfsList s.fs (d.node s.fs tmp) = σ.lines d := by
  have hnames : (σ.files d).map StoredFile.name = (fileNodes s.fs tmp d).map fun a =>
      (s.fs.nodes a).name := by
    rw [h.files d, List.map_map]
    rfl
  rw [ramfsList, (h.tree.dirAt d).priv, Store.lines, Store.entries, hnames, List.flatMap_append,
    List.flatMap_map]
  cases d with
  | root =>
    show (s.fs.nodes s.fs.vfsRoot).children.flatMap _ = _
    rw [h.tree.children_root, List.flatMap_cons, h.tree.name]
    rfl
  | tmp => rfl

theorem Store.Rep.ls (h : σ.Rep s dir tmp) (hpath : 0 ∉ path) (hfit : TargetFits s path)
    (name : List Byte) (rest : List (List Byte)) :
    cmdLs s (name :: path :: rest) = .ok (σ.ls path, s) := by
  have htarget := h.target hpath hfit
  unfold cmdLs
  simp only [List.getElem?_cons_succ, List.getElem?_cons_zero]
  rw [htarget, Store.ls]
  cases hitem : σ.target path with
  | none => rfl
  | some item =>
    cases item with
    | file d i =>
      obtain ⟨h0, hflags⟩ := h.node_file (Store.has_target hitem)
      exact (if_neg h0).trans (if_pos hflags)
    | dir d =>
      obtain ⟨h0, hflags⟩ := h.node_dir d
      have hops : ¬ (s.fs.nodes (d.node s.fs tmp)).ops = false := by
        rw [(h.tree.dirAt d).ops]
        exact Bool.noConfusion
      refine (if_neg h0).trans ((if_neg hflags).trans ((if_neg hops).trans ?_))
      exact congrArg (fun l => Except.ok (l, s)) (h.list d)

theorem Store.Rep.ls_cwd (h : σ.Rep s dir tmp) (name : List Byte) :
    cmdLs s [name] = .ok (σ.lines σ.cwd, s) := by
  obtain ⟨h0, hflags⟩ := h.node_dir σ.cwd
  have hops : ¬ (s.fs.nodes (σ.cwd.node s.fs tmp)).ops = false := by
    rw [(h.tree.dirAt σ.cwd).ops]
    exact Bool.noConfusion
  unfold cmdLs
  simp only [List.getElem?_cons_succ, List.getElem?_nil]
  rw [h.cwd]
  refine (if_neg h0).trans ((if_neg hflags).trans ((if_neg hops).trans ?_))
  exact congrArg (fun l => Except.ok (l, s)) (h.list σ.cwd)

/-! ### `mk` and `mkr` -/

theorem Store.Rep.entries_length (h : σ.Rep s dir tmp) (d : Dir) :
    (σ.entries d).length = (s.fs.nodes (d.node s.fs tmp)).children.length := by
  rw [Store.entries, List.length_append, List.length_map, h.files d, List.length_map]
  cases d with
  | root =>
    show _ = (s.fs.nodes s.fs.vfsRoot).children.length
    rw [h.tree.children_root, List.length_cons, Nat.add_comm]
    rfl
  | tmp => exact Nat.zero_add _

theorem SessionTree.fileNodes_linked (h : SessionTree fs dir tmp) (hf : Fresh fs answer)
    (name : List Byte) (d d' : Dir) :
    fileNodes (Fs.linked fs (d.node fs tmp) name VFS_FILE answer) tmp d' =
      fileNodes fs tmp d' ++ if d' = d then [answer] else [] := by
  have hd := h.dirAt d
  have hself := linked_nodes_parent name VFS_FILE hd.priv (hd.ne_fresh hf)
  have hother {a : Word} (ha : NodeAt fs a VFS_DIR) (hne : a ≠ d.node fs tmp) :
      (Fs.linked fs (d.node fs tmp) name VFS_FILE answer).nodes a = fs.nodes a :=
    linked_nodes_of_ne name VFS_FILE hd.priv (ha.ne_fresh hf) hne
  cases d' with
  | root =>
    show ((Fs.linked fs (d.node fs tmp) name VFS_FILE answer).nodes fs.vfsRoot).children.tail = _
    cases d with
    | root =>
      rw [show (Fs.linked fs (Dir.root.node fs tmp) name VFS_FILE answer).nodes fs.vfsRoot = _ from hself]
      show ((fs.nodes fs.vfsRoot).children ++ [answer]).tail = _
      rw [h.children_root]
      rfl
    | tmp =>
      rw [hother h.rootNode h.root_ne_tmp, if_neg Dir.noConfusion, List.append_nil]
      rfl
  | tmp =>
    show ((Fs.linked fs (d.node fs tmp) name VFS_FILE answer).nodes tmp).children = _
    cases d with
    | root =>
      rw [hother h.tmpNode h.root_ne_tmp.symm, if_neg Dir.noConfusion, List.append_nil]
      rfl
    | tmp =>
      rw [show (Fs.linked fs (Dir.tmp.node fs tmp) name VFS_FILE answer).nodes tmp = _ from hself]
      rfl

/-- The files that were there keep their names and contents. -/
theorem storedFile_linked (name : List Byte) (hpriv : (fs.nodes x).fsPrivate = x) (ha : a ≠ answer)
    (hax : a ≠ x) :
    storedFile (linked fs x name VFS_FILE answer) a = storedFile fs a := by
  have hn := linked_nodes_of_ne name VFS_FILE hpriv ha hax
  unfold storedFile files
  dsimp only
  rw [hn]
  rfl

theorem storedFile_new (name : List Byte) (hpriv : (fs.nodes x).fsPrivate = x) (hx : x ≠ answer) :
    storedFile (linked fs x name VFS_FILE answer) answer = ⟨name, []⟩ := by
  unfold storedFile files
  dsimp only
  rw [linked_nodes_answer name VFS_FILE hpriv hx]
  rfl

theorem Store.Ok.make (h : σ.Ok) (hname : 0 ∉ name) (d : Dir) : (σ.modify d (· ++ [⟨name, []⟩])).Ok := by
  have hfile {d' : Dir} {f : StoredFile} (hf : f ∈ (σ.modify d (· ++ [⟨name, []⟩])).files d') :
      f ∈ σ.files d' ∨ f = ⟨name, []⟩ := by
    unfold Store.modify at hf
    dsimp only at hf
    by_cases hd : d' = d
    · subst hd
      rw [Function.update_self] at hf
      exact (List.mem_append.mp hf).imp_right List.mem_singleton.mp
    · rw [Function.update_of_ne hd] at hf
      exact .inl hf
  constructor
  · intro d' f hf
    obtain hf | rfl := hfile hf
    · exact h.name d' f hf
    · exact hname
  · intro d' f hf
    obtain hf | rfl := hfile hf
    · exact h.contents d' f hf
    · exact ⟨List.not_mem_nil, Nat.zero_le _⟩

/-- A new file, on the store. -/
theorem Store.Rep.linked (h : σ.Rep s dir tmp) (hf : Fresh s.fs answer) (hname : 0 ∉ name) (d : Dir) :
    (σ.modify d (· ++ [⟨name, []⟩])).Rep
      { s with fs := linked s.fs (d.node s.fs tmp) name VFS_FILE answer } dir tmp := by
  have hd := h.tree.dirAt d
  have hne := hd.ne_fresh hf
  have hnew : ¬ s.fs.Live answer := fun hlive => hf.2 (h.covered.node answer hlive)
  have hlive : s.fs.Live (d.node s.fs tmp) := by
    rw [FsState.Live, hd.priv]
    exact hd.ne_zero
  have hold {d' : Dir} {a : Word} (ha : a ∈ fileNodes s.fs tmp d') : a ≠ answer ∧ a ≠ d.node s.fs tmp :=
    ⟨(h.tree.fileAt ha).node.ne_fresh hf, (h.tree.fileAt ha).ne hd⟩
  have hnodes := h.tree.fileNodes_linked hf name d
  have hparent : d.node s.fs tmp = s.fs.vfsRoot ∨ d.node s.fs tmp = tmp := by
    cases d with
    | root => exact .inl rfl
    | tmp => exact .inr rfl
  refine ⟨⟨h.ready.root, h.ready.free⟩, h.tree.linked hf hparent, h.wf.linked hf.1 hnew hlive,
    h.covered.linked,
    fun d' => ?_, fun d' => ?_, fun a ha => ?_, fun d' => ?_, h.cwd, h.ok.make hname d⟩
  · show ((Fs.linked s.fs (d.node s.fs tmp) name VFS_FILE answer).nodes (d'.node s.fs tmp)).size = 0
    by_cases hdd : d'.node s.fs tmp = d.node s.fs tmp
    · rw [hdd, linked_nodes_parent name VFS_FILE hd.priv hne]
      exact h.empty d
    · rw [linked_nodes_of_ne name VFS_FILE hd.priv ((h.tree.dirAt d').ne_fresh hf) hdd]
      exact h.empty d'
  · rw [hnodes]
    refine List.nodup_append.mpr ⟨h.nodup d', ?_, fun a ha b hb => ?_⟩
    · split_ifs
      · exact List.nodup_singleton _
      · exact List.nodup_nil
    · split_ifs at hb
      · rw [List.mem_singleton.mp hb]
        exact (hold ha).1
      · cases hb
  · rw [hnodes] at ha ⊢
    rw [List.mem_append] at ha ⊢
    rintro (ha' | ha')
    · obtain ha | ha := ha
      · exact h.apart a ha ha'
      · split_ifs at ha
        · exact (hold ha').1 (List.mem_singleton.mp ha)
        · cases ha
    · split_ifs at ha'
      · rename_i hdt
        obtain ha | ha := ha
        · exact (hold ha).1 (List.mem_singleton.mp ha')
        · rw [← hdt, if_neg Dir.noConfusion] at ha
          cases ha
      · cases ha'
  · rw [hnodes, List.map_append, List.map_congr_left fun a ha =>
      storedFile_linked name hd.priv (hold ha).1 (hold ha).2,
      ← h.files d']
    unfold Store.modify
    dsimp only
    by_cases hdd : d' = d
    · subst hdd
      rw [Function.update_self, if_pos rfl, List.map_singleton, storedFile_new name hd.priv hne]
    · rw [Function.update_of_ne hdd, if_neg hdd, List.map_nil, List.append_nil]

/-- `create`, on the store. -/
theorem Store.Rep.make (h : σ.Rep s dir tmp) (hf : CreateAllocates s.fs (d.node s.fs tmp) → Fresh s.fs answer)
    (hname : 0 ∉ name) (hlen : NameFits s.fs (d.node s.fs tmp) name) (message : String) :
      ∃ s', createFile s (d.node s.fs tmp) name message answer =
      .ok ((σ.make d message name).1, s') ∧ (σ.make d message name).2.Rep s' dir tmp := by
  have hd := h.tree.dirAt d
  have hops : ¬ (s.fs.nodes (d.node s.fs tmp)).ops = false := by
    rw [hd.ops]
    exact Bool.noConfusion
  have hpriv : (s.fs.nodes (d.node s.fs tmp)).fsPrivate ≠ 0 := by
    rw [hd.priv]
    exact hd.ne_zero
  rw [createFile, if_neg hops, ramfsCreate_eq hd.ne_zero hpriv, hd.priv, ← h.entries_length d, Store.make]
  by_cases hfull : (σ.entries d).length ≥ MAX_CHILDREN
  · rw [if_pos hfull, if_pos hfull]
    exact ⟨_, rfl, h⟩
  · have halloc : CreateAllocates s.fs (d.node s.fs tmp) := by
      refine ⟨hd.ne_zero, hpriv, ?_⟩
      rw [hd.priv, ← h.entries_length d]
      exact Nat.lt_of_not_le hfull
    rw [if_neg hfull, if_neg hfull, if_pos (hlen hd.ops halloc)]
    exact ⟨_, rfl, h.linked (hf halloc) hname d⟩

end SpatulaOS.Shell
