import SpatulaOS.Fs.Leftover
import SpatulaOS.Shell.FileCalls
import SpatulaOS.Shell.StoreRep

/-!
# The shell refines the store

After boot, the file commands print what the store says, whatever is typed, as long as no buffer is
overrun and `kmalloc` succeeds. A command that uses a file opens the first descriptor, and closes
it; what the calls in between do is followed on the reference of the descriptors
(`Store.Rep.close`). One lemma for each command says that it prints what the store prints and leaves
a state that belongs to the store behind it, so a line does (`line_simulates`), and so does a
session (`session_prints`).
-/

namespace SpatulaOS.Shell

open ByteMemory Tokens Runs Simulation SpatulaOS.Fs

variable {σ τ : Store} {s s' : Session} {fs fs' u v : FsState} {dir tmp a answer : Word} {d : Dir}
  {item : Item}
  {name path arg bytes : List Byte} {args : List (List Byte)} {i : ℕ} {t : Files Word} {answers : ℕ → Word}
  {printed : Printed} {fd : ℤ}

/-! ### Other contents -/

theorem NodeAt.of_tree {flags : Word} (h : NodeAt fs a flags) (ht : SameTree fs fs') (hcov : Covered fs') :
    NodeAt fs' a flags := by
  obtain ⟨-, hflags, -, hpriv, hops, -⟩ := RamfsNode.eq_of_bare (ht.bare a)
  have hself : (fs'.nodes a).fsPrivate = a := hpriv.trans h.priv
  refine ⟨h.ne_zero, hself, hops.trans h.ops, hflags.trans h.flags, hcov.node a ?_⟩
  rw [FsState.Live, hself]
  exact h.ne_zero

theorem FileAt.of_tree (h : FileAt fs a) (ht : SameTree fs fs') (hcov : Covered fs') : FileAt fs' a :=
  ⟨h.node.of_tree ht hcov, (ht.children a).trans h.children⟩

/-- The tree of a session does not depend on what is in the files. -/
theorem SessionTree.of_tree (h : SessionTree fs dir tmp) (ht : SameTree fs fs') (hcov : Covered fs') :
    SessionTree fs' dir tmp := by
  obtain ⟨files, hfiles, hall⟩ := h.rootFiles
  have hroot := ht.vfsRoot
  exact
    { mounts := ht.mounts.trans h.mounts
      rootNode := hroot ▸ h.rootNode.of_tree ht hcov
      dirNode := h.dirNode.of_tree ht hcov
      tmpNode := h.tmpNode.of_tree ht hcov
      root_ne_dir := hroot ▸ h.root_ne_dir
      root_ne_tmp := hroot ▸ h.root_ne_tmp
      dir_ne_tmp := h.dir_ne_tmp
      name := (RamfsNode.eq_of_bare (ht.bare dir)).1.trans h.name
      rootFiles := ⟨files, by rw [hroot, ht.children, hfiles], fun a ha => (hall a ha).of_tree ht hcov⟩
      tmpFiles := fun a ha => (h.tmpFiles a (ht.children tmp ▸ ha)).of_tree ht hcov }

theorem node_of_tree (ht : SameTree fs fs') (d : Dir) : d.node fs' tmp = d.node fs tmp := by
  cases d with
  | root => exact ht.vfsRoot
  | tmp => rfl

theorem fileNodes_of_tree (ht : SameTree fs fs') (d : Dir) : fileNodes fs' tmp d = fileNodes fs tmp d := by
  cases d with
  | root => rw [fileNodes, ht.vfsRoot, ht.children, fileNodes]
  | tmp => exact ht.children tmp

theorem Store.Rep.ne_of_dir {d' : Dir} {b : Word} (h : σ.Rep s dir tmp) (hb : b ∈ fileNodes s.fs tmp d')
    (ha : a ∈ fileNodes s.fs tmp d) (hd : d' ≠ d) : b ≠ a := by
  rintro rfl
  cases d with
  | root =>
    cases d' with
    | root => exact hd rfl
    | tmp => exact h.apart b ha hb
  | tmp =>
    cases d' with
    | root => exact h.apart b hb ha
    | tmp => exact hd rfl

theorem Store.Rep.contents (h : σ.Rep s dir tmp) (hi : σ.Has item) :
    (Fs.files s.fs).contents (item.node s.fs tmp) = σ.contents item := by
  cases item with
  | dir d =>
    show s.fs.mem.copyOut _ (s.fs.nodes (d.node s.fs tmp)).size.toNat = []
    rw [h.empty d]
    rfl
  | file d i =>
    obtain ⟨a, -, ha, -, hfile⟩ := h.file hi
    rw [ha, Store.contents, hfile]
    rfl

theorem Store.Ok.contents_item (h : σ.Ok) (item : Item) :
    0 ∉ σ.contents item ∧ (σ.contents item).length ≤ 255 := by
  cases item with
  | dir d => exact ⟨List.not_mem_nil, Nat.zero_le _⟩
  | file d i =>
    rw [Store.contents]
    cases hf : (σ.files d)[i]? with
    | none => exact ⟨List.not_mem_nil, Nat.zero_le _⟩
    | some f => exact h.contents d f (List.mem_of_getElem? hf)

/-! ### Descriptors -/

/-- The first descriptor is opened. -/
def opened (fs : FsState) (a : Word) : FsState :=
  { fs with fdTable := Function.update fs.fdTable 0 ⟨true, a, 0⟩ }

/-- If no descriptor is in use, the first one is opened. -/
theorem Ready.sysOpen (h : Ready fs) (hl : vfsLookup fs path = .ok a) :
    sysOpen fs path = .ok (if a = 0 then (-1, fs) else (0, opened fs a)) := by
  obtain ⟨hnone, ho⟩ | ⟨h0, i, -, -, hbefore, ho⟩ := sysOpen_cases hl
  · have h0 : a = 0 := by
      refine hnone.resolve_right fun hfull => ?_
      have hused := hfull 0 (by decide)
      rw [h.free 0 (by decide)] at hused
      cases hused
    rw [ho, if_pos h0]
  · obtain rfl | hi := Nat.eq_zero_or_pos i
    · rw [ho, if_neg h0]
      rfl
    · have hused := hbefore 0 hi
      rw [h.free 0 (by decide)] at hused
      cases hused

theorem opened_desc (fs : FsState) (a : Word) : (opened fs a).fdTable (0 : ℤ).toNat = ⟨true, a, 0⟩ := by
  show Function.update fs.fdTable 0 ⟨true, a, 0⟩ 0 = _
  rw [Function.update_self]

theorem opened_valid (fs : FsState) (a : Word) : validFd (opened fs a) 0 :=
  ⟨by decide, congrArg FileDesc.used (opened_desc fs a)⟩

theorem opened_seek (fs : FsState) (a : Word) : (sysSeek (opened fs a) 0 0).2 = opened fs a := by
  rw [sysSeek, if_neg (not_not.mpr (opened_valid fs a)), opened_desc]
  unfold opened
  dsimp only
  rw [Int.toNat_zero, Function.update_idem]

/-- The descriptor is at the beginning of the file. -/
theorem opened_refines (h : Wf fs) (ha : fs.Live a) :
    Refines fs (opened fs a) { files fs with fds := Function.update (files fs).fds 0 (some (a, 0)) } :=
  ⟨h.updateFd 0 fun _ => ha, (represents_files fs).updateFd 0 ⟨true, a, 0⟩, rfl, rfl, fun _ => rfl⟩

/-- The descriptor is closed: what is in the files is what is in those of the store. -/
theorem Store.Rep.close (h : σ.Rep s dir tmp) (href : Refines s.fs u t) (hcov : Covered u)
    (hfds : ∀ i, i ≠ 0 → t.fds i = (Fs.files s.fs).fds i)
    (hdirs : ∀ d : Dir, t.contents (d.node s.fs tmp) = [])
    (hfiles : ∀ d, τ.files d = (fileNodes s.fs tmp d).map fun a => ⟨(s.fs.nodes a).name, t.contents a⟩)
    (hcwd : τ.cwd = σ.cwd) (hok : τ.Ok) : τ.Rep { s with fs := sysClose u 0 } dir tmp := by
  have hclose : sysClose u 0 =
      { u with fdTable := Function.update u.fdTable 0 { u.fdTable 0 with used := false } } :=
        if_pos ⟨by decide, by decide⟩
  have ht : SameTree s.fs (sysClose u 0) := by
    rw [hclose]
    exact href.tree.trans ⟨rfl, rfl, fun _ => rfl⟩
  have hcov' : Covered (sysClose u 0) := by
    rw [hclose]
    exact hcov.of_eq rfl rfl
  have hnodes : (sysClose u 0).nodes = u.nodes := by rw [hclose]
  have hmem : (sysClose u 0).mem = u.mem := by rw [hclose]
  have htree := h.tree.of_tree ht hcov'
  have hlive {a flags : Word} (ha : NodeAt s.fs a flags) : u.Live a := by
    rw [href.tree.live, FsState.Live, ha.priv]
    exact ha.ne_zero
  refine ⟨⟨?_, fun i hi => ?_⟩, htree, ?_, hcov', fun d => ?_, fun d => ?_, ?_, fun d => ?_, ?_, hok⟩
  · rw [ht.vfsRoot]
    exact h.ready.root
  · rw [hclose]
    by_cases hi0 : i = 0
    · dsimp only
      rw [hi0, Function.update_self]
    · have hfd := (href.represents.fds i hi).symm.trans (hfds i hi0)
      dsimp only
      rw [Function.update_of_ne hi0]
      by_contra hused
      rw [Bool.not_eq_false] at hused
      rw [FileDesc.entry_of_used hused] at hfd
      cases hfd.trans (FileDesc.entry_of_free (h.ready.free i hi))
  · rw [hclose]
    exact href.wf.updateFd 0 fun hused => Bool.noConfusion hused
  · have hlen := href.represents.length _ (hlive (h.tree.dirAt d))
    rw [hdirs] at hlen
    rw [node_of_tree ht, hnodes]
    exact BitVec.eq_of_toNat_eq hlen.symm
  · rw [fileNodes_of_tree ht]
    exact h.nodup d
  · rw [fileNodes_of_tree ht, fileNodes_of_tree ht]
    exact h.apart
  · rw [fileNodes_of_tree ht, hfiles]
    refine List.map_congr_left fun a ha => ?_
    have hcontents := contents_eq href.represents (hlive (h.tree.fileAt ha).node)
    unfold storedFile Fs.files
    dsimp only
    rw [hnodes, hmem, (RamfsNode.eq_of_bare (href.tree.bare a)).1, hcontents]
    rfl
  · rw [hcwd, node_of_tree ht]
    exact h.cwd

/-! ### `rd` -/

/-- `rd` prints the contents. -/
theorem Store.Rep.read (h : σ.Rep s dir tmp) (hpath : 0 ∉ path) (hfit : PathFits s.fs path) (name : List Byte)
    (rest : List (List Byte)) :
    ∃ s', cmdRd s (name :: path :: rest) = .ok (σ.read path, s') ∧ σ.Rep s' dir tmp := by
  have ho := h.ready.sysOpen (h.lookup hpath hfit)
  unfold cmdRd
  simp only [List.getElem?_cons_succ, List.getElem?_cons_zero]
  rw [ho, Store.read]
  cases hitem : σ.resolve .root path with
  | none => exact ⟨s, rfl, h⟩
  | some item =>
    have hi := Store.has_resolve hitem
    obtain ⟨h0, hpriv, -⟩ := h.tree.place_node (h.place hi)
    have hlive : s.fs.Live (item.node s.fs tmp) := by
      rw [FsState.Live, hpriv]
      exact h0
    obtain ⟨hnul, hlen⟩ := h.ok.contents_item item
    have href := opened_refines h.wf hlive
    have hdesc := opened_desc s.fs (item.node s.fs tmp)
    have hvalid := opened_valid s.fs (item.node s.fs tmp)
    have hbytes : σ.contents item =
        (((Fs.files s.fs).contents (item.node s.fs tmp)).drop (0 : Word).toNat).take (255 : Word).toNat := by
      rw [h.contents hi]
      exact (List.take_of_length_le hlen).symm
    obtain ⟨hread, hoff⟩ := read_valid href.wf href.represents hvalid (congrArg FileDesc.node hdesc)
      (congrArg FileDesc.offset hdesc) (by decide : (0 : Word).toNat + (255 : Word).toNat < 2 ^ 31) hbytes
    have hprint : (if ((σ.contents item).length : ℤ) > 0 then (σ.contents item).takeWhile (· ≠ 0) else []) =
        σ.contents item := by
      have htake : (σ.contents item).takeWhile (· ≠ 0) = σ.contents item :=
        List.takeWhile_eq_self_iff.mpr fun c hc => decide_eq_true fun h0 => hnul (h0 ▸ hc)
      rw [htake]
      split_ifs with hpos
      · rfl
      · rw [gt_iff_lt, Int.natCast_pos, List.length_pos_iff, not_not] at hpos
        exact hpos.symm
    rw [Option.map_some, Option.getD_some, if_neg h0]
    simp only [ofFs, Except.mapError, Except.bind]
    rw [if_neg (by decide : ¬ (0 : ℤ) < 0), opened_seek, hread]
    simp only [hprint]
    have hread := href.represents.setOffset hvalid hoff
    refine ⟨_, rfl,
      h.close ⟨href.wf.setOffset hvalid _, hread, href.tree.trans ⟨rfl, rfl, fun _ => rfl⟩⟩
      ?_ ?_ ?_ ?_ rfl
      h.ok⟩
    · exact h.covered.of_eq rfl rfl
    · intro i hi0
      exact (Function.update_of_ne hi0 _ _).trans (Function.update_of_ne hi0 _ _)
    · exact fun d => h.contents (show σ.Has (.dir d) from trivial)
    · exact h.files

/-! ### `write` -/

theorem map_modify {α β : Type*} [DecidableEq α] {l : List α} {a : α} (hl : l.Nodup)
    (ha : l[i]? = some a) (f : α → β)
    (g : β → β) : (l.map f).modify i g = l.map fun b => if b = a then g (f b) else f b := by
  refine List.ext_getElem? fun j => ?_
  by_cases hij : i = j
  · subst hij
    rw [List.getElem?_modify_eq, List.getElem?_map, List.getElem?_map, ha, Option.map_some,
      Option.map_some, if_pos rfl]
    rfl
  · rw [List.getElem?_modify_ne _ _ hij, List.getElem?_map, List.getElem?_map]
    cases hj : l[j]? with
    | none => rfl
    | some b =>
      have hba : b ≠ a := by
        rintro rfl
        exact hij ((List.getElem?_inj (List.getElem?_eq_some_iff.mp ha).1 hl).mp (ha.trans hj.symm))
      rw [Option.map_some, Option.map_some, if_neg hba]

theorem Store.Ok.write (h : σ.Ok) (hnul : 0 ∉ bytes) (hlen : bytes.length ≤ 255) (path : List Byte) :
    (σ.write path bytes).2.Ok := by
  rw [Store.write]
  cases σ.resolve .root path with
  | none => exact h
  | some item =>
    cases item with
    | dir d => exact h
    | file d i =>
      have hfile {d' : Dir} {f : StoredFile} (hf : f ∈ (σ.modify d fun fs => fs.modify i fun f =>
          { f with contents := bytes ++ f.contents.drop bytes.length }).files d') :
            ∃ f₀ ∈ σ.files d', f = f₀ ∨
          f = { f₀ with contents := bytes ++ f₀.contents.drop bytes.length } := by
        unfold Store.modify at hf
        dsimp only at hf
        by_cases hd : d' = d
        · subst hd
          rw [Function.update_self] at hf
          obtain ⟨j, hj⟩ := List.mem_iff_getElem?.mp hf
          rw [List.getElem?_modify] at hj
          obtain ⟨f₀, hf₀, hj⟩ := Option.map_eq_some_iff.mp hj
          refine ⟨f₀, List.mem_of_getElem? hf₀, ?_⟩
          split_ifs at hj
          · exact .inr hj.symm
          · exact .inl hj.symm
        · rw [Function.update_of_ne hd] at hf
          exact ⟨f, hf, .inl rfl⟩
      refine ⟨fun d' f hf => ?_, fun d' f hf => ?_⟩
      · obtain ⟨f₀, hf₀, rfl | rfl⟩ := hfile hf
        · exact h.name d' f hf₀
        · exact h.name d' f₀ hf₀
      · obtain ⟨f₀, hf₀, rfl | rfl⟩ := hfile hf
        · exact h.contents d' f hf₀
        · obtain ⟨hnul₀, hlen₀⟩ := h.contents d' f₀ hf₀
          refine ⟨fun h0 => ?_, ?_⟩
          · exact (List.mem_append.mp h0).elim hnul fun h0 => hnul₀ (List.mem_of_mem_drop h0)
          · dsimp only
            rw [List.length_append, List.length_drop]
            omega

theorem Covered.exec {cs : List Call} (h : Covered fs) (he : exec after fs cs = some fs') : Covered fs' := by
  induction cs generalizing fs with
  | nil =>
    obtain rfl := Option.some.inj he
    exact h
  | cons c cs ih =>
    obtain ⟨u, hu, he⟩ := Option.bind_eq_some_iff.mp he
    exact ih (h.step hu) he

/-- A write to a directory fails, and the loop of `cmd_write` goes on. -/
theorem writeArgs_dir (h : Wf u) (hfd : validFd u fd)
    (hdir : (u.nodes (u.fdTable fd.toNat).node).flags &&& VFS_DIR ≠ 0)
    (args : List (List Byte)) (answers : ℕ → Word) : writeArgs u fd args answers = .ok u := by
  have hlive := h.live_desc hfd
  have hnull : ¬ ((u.fdTable fd.toNat).node = 0 ∨ (u.nodes (u.fdTable fd.toNat).node).fsPrivate = 0) := by
    rw [(h.node _ hlive).self, or_self]
    exact h.ne_zero hlive
  have hstring (str : List Byte) (answer : Word) : writeString u fd str answer = .ok u := by
    rw [writeString, sysWrite_valid h hfd, ramfsWrite, if_neg hnull]
    dsimp only
    rw [if_pos hdir]
    rfl
  induction args generalizing answers with
  | nil => rfl
  | cons arg args ih =>
    cases args with
    | nil => exact hstring arg _
    | cons arg' args =>
      rw [writeArgs, hstring, Except.bind, hstring, Except.bind]
      · exact ih _
      · exact List.cons_ne_nil _ _

/-- `write` lays the words over the file. -/
theorem Store.Rep.write (h : σ.Rep s dir tmp) (hpath : 0 ∉ path) (hfit : PathFits s.fs path)
    (hnul : 0 ∉ joined (arg :: args)) (hlen : (joined (arg :: args)).length ≤ 255)
    (hfresh : ∀ fd u, sysOpen s.fs path = .ok (fd, u) → WritesFile u fd →
      FreshWrites (sysSeek u fd 0).2 fd (arg :: args) answers) (name : List Byte) :
    ∃ s', cmdWrite s (name :: path :: arg :: args) answers =
      .ok ((σ.write path (joined (arg :: args))).1, s') ∧
      (σ.write path (joined (arg :: args))).2.Rep s' dir tmp := by
  have ho := h.ready.sysOpen (h.lookup hpath hfit)
  have hok := h.ok.write hnul hlen path
  rw [cmdWrite, ho]
  rw [Store.write] at hok ⊢
  cases hitem : σ.resolve .root path with
  | none => exact ⟨s, rfl, h⟩
  | some item =>
    have hi := Store.has_resolve hitem
    obtain ⟨h0, hpriv, -⟩ := h.tree.place_node (h.place hi)
    rw [hitem] at ho hok
    rw [Option.map_some, Option.getD_some, if_neg h0] at ho ⊢
    have hlive : s.fs.Live (item.node s.fs tmp) := by
      rw [FsState.Live, hpriv]
      exact h0
    have href := opened_refines h.wf hlive
    have hdesc := opened_desc s.fs (item.node s.fs tmp)
    have hvalid := opened_valid s.fs (item.node s.fs tmp)
    have hdirs (d : Dir) : (Fs.files s.fs).contents (d.node s.fs tmp) = [] :=
      h.contents (show σ.Has (.dir d) from trivial)
    simp only [ofFs, Except.mapError, Except.bind]
    rw [if_neg (by decide : ¬ (0 : ℤ) < 0), opened_seek]
    cases item with
    | dir d =>
      obtain ⟨-, hflags⟩ := h.node_dir d
      have hargs := writeArgs_dir href.wf hvalid (by rw [hdesc]; exact hflags) (arg :: args) answers
      rw [hargs]
      refine ⟨_, rfl,
        h.close href (h.covered.of_eq rfl rfl)
        (fun i hi0 => Function.update_of_ne hi0 _ _) hdirs h.files rfl
        h.ok⟩
    | file d i =>
      obtain ⟨a, hget, ha, hmem, -⟩ := h.file hi
      obtain ⟨-, hflags⟩ := h.node_file hi
      rw [ha] at ho hlive href hdesc hvalid hflags ⊢
      have hfresh := hfresh 0 _ ho ⟨hvalid, by rw [hdesc]; exact hflags⟩
      rw [opened_seek] at hfresh
      have hdesc0 : (Function.update (Fs.files s.fs).fds 0 (some (a, 0))) (0 : ℤ).toNat = some (a, 0) := by
        rw [Int.toNat_zero, Function.update_self]
      obtain ⟨u, hu, hrefu⟩ := writeArgs_lays href (desc_eq_some.mpr ⟨by decide, hdesc0⟩)
        (decide_eq_false (not_not.mpr hflags)) (Nat.zero_le _) (by omega) (List.cons_ne_nil arg args) hfresh
      have hopen : Covered (opened s.fs a) := h.covered.of_eq rfl rfl
      have hcov : Covered u := Covered.exec hopen (writeArgs_fs hu)
      rw [hu]
      refine ⟨_, rfl, h.close hrefu hcov (fun i hi0 => ?_) (fun d' => ?_) (fun d' => ?_) rfl hok⟩
      · exact (Function.update_of_ne hi0 _ _).trans (Function.update_of_ne hi0 _ _)
      · have hne : d'.node s.fs tmp ≠ a := ((h.tree.fileAt hmem).ne (h.tree.dirAt d')).symm
        exact (Function.update_of_ne hne _ _).trans (hdirs d')
      · show Function.update σ.files d _ d' = (fileNodes s.fs tmp d').map fun b =>
          (⟨(s.fs.nodes b).name, Function.update (Fs.files s.fs).contents a _ b⟩ : StoredFile)
        by_cases hd : d' = d
        · subst hd
          rw [Function.update_self, h.files d']
          refine (map_modify (h.nodup d') hget _ _).trans (List.map_congr_left fun b _ => ?_)
          by_cases hba : b = a
          · rw [if_pos hba, hba, Function.update_self, overlay, List.take_zero, List.nil_append, Nat.zero_add]
            rfl
          · rw [if_neg hba, Function.update_of_ne hba]
            rfl
        · rw [Function.update_of_ne hd, h.files d']
          refine List.map_congr_left fun b hb => ?_
          rw [Function.update_of_ne (h.ne_of_dir hb hmem hd)]
          rfl

/-! ### A line -/

theorem joined_cons (w : List Byte) (words : List (List Byte)) :
    joined (w :: words) = w ++ words.flatMap fun arg => [SPACE] ++ arg := by
  induction words generalizing w with
  | nil => rw [joined_singleton, List.flatMap_nil, List.append_nil]
  | cons v words ih => rw [joined_cons_cons, ih, List.flatMap_cons, List.append_assoc]

theorem catLoop_eq {b : StringBuffer} {size : ℕ} {buffer : List Byte}
    (h : buffer.length + joinedSize args < size) :
    catLoop b size buffer args = .ok (buffer ++ args.flatMap fun arg => [SPACE] ++ arg) := by
  induction args generalizing buffer with
  | nil => rw [List.flatMap_nil, List.append_nil, catLoop]
  | cons arg args ih =>
    rw [joinedSize_cons] at h
    have hspace : strcat b size buffer [SPACE] = .ok (buffer ++ [SPACE]) :=
      if_pos (by rw [List.length_singleton]; omega)
    have harg : strcat b size (buffer ++ [SPACE]) arg = .ok (buffer ++ [SPACE] ++ arg) :=
      if_pos (by rw [List.length_append, List.length_singleton]; omega)
    have hlt : (buffer ++ [SPACE] ++ arg).length + joinedSize args < size := by
      rw [List.length_append, List.length_append, List.length_singleton]
      omega
    rw [catLoop, hspace, Except.bind, harg, Except.bind, ih hlt, List.flatMap_cons,
      List.append_assoc, List.append_assoc,
      List.append_assoc]

/-- The arguments are joined if there is room for them. -/
theorem catArgs_eq {b : StringBuffer} {size : ℕ} (h : joinedSize args ≤ size) :
    catArgs b size args = .ok (joined args) := by
  cases args with
  | nil => rfl
  | cons arg args =>
    rw [joinedSize_cons] at h
    have harg : strcat b size [] arg = .ok arg := if_pos (by rw [List.length_nil]; omega)
    rw [catArgs, harg, Except.bind, catLoop_eq (by omega), joined_cons]

/-- The arguments are words of a line. -/
structure Words (argv : List (List Byte)) : Prop where
  nul : ∀ w ∈ argv, 0 ∉ w
  size : joinedSize argv.tail ≤ 256

/-- The commands of the store. -/
def Command.OfStore (c : Command) : Prop := c ∈ [.echo, .mk, .mkr, .rd, .write, .ls, .cd]

instance instDecidableOfStore (c : Command) : Decidable c.OfStore := by unfold Command.OfStore; infer_instance

/-- `kmalloc` succeeds if a command comes to it: it answers with a new block. -/
def Allocates (s : Session) (c : Command) (argv : List (List Byte)) (answers : ℕ → Word) : Prop :=
  match c with
  | .mk => ∀ name, argv[1]? = some name → CreateAllocates s.fs s.cwd → Fresh s.fs (answers 0)
  | .mkr => ∀ name, argv[1]? = some name → ∀ tmp, vfsLookup s.fs (text "/tmp") = .ok tmp →
    CreateAllocates s.fs tmp →
    Fresh s.fs (answers 0)
  | .write => ∀ path, argv[1]? = some path → ∀ fd u, sysOpen s.fs path = .ok (fd, u) → WritesFile u fd →
    FreshWrites (sysSeek u fd 0).2 fd (argv.drop 2) answers
  | _ => True

theorem Store.Rep.lookup_tmp (h : σ.Rep s dir tmp) : vfsLookup s.fs (text "/tmp") = .ok tmp := by
  have hc : components (text "/tmp") = [text "tmp"] := by decide
  have hresolve : σ.resolve .root (text "/tmp") = some (.dir .tmp) := by
    rw [Store.resolve, hc, Store.walk, Store.child, if_pos ⟨rfl, rfl⟩]
    rfl
  rw [h.lookup (by decide) (pathFits_tmp s.fs), hresolve]
  rfl

/-- A command prints what the store says. -/
theorem Store.Rep.command {c : Command} (h : σ.Rep s dir tmp) (hc : c.OfStore) (hw : Words (name :: args))
    (hfits : CommandFits s c (name :: args)) (halloc : Allocates s c (name :: args) answers) :
    ∃ s', c.handler printed s (name :: args) answers = .ok ((σ.command c args).1, s') ∧
      (σ.command c args).2.Rep s' dir tmp := by
  have hnul {w : List Byte} (hm : w ∈ args) : 0 ∉ w := hw.nul w (List.mem_cons_of_mem _ hm)
  have hsize : joinedSize args ≤ 256 := hw.size
  cases c with
  | echo =>
    refine ⟨s, ?_, h⟩
    show (catArgs .echo 1024 args).bind _ = _
    rw [catArgs_eq (by omega)]
    rfl
  | mk =>
    cases args with
    | nil => exact ⟨s, rfl, h⟩
    | cons arg args =>
      have hcwd := h.cwd
      have h0 : s.cwd ≠ 0 := hcwd ▸ (h.tree.dirAt σ.cwd).ne_zero
      have hfits := hfits arg rfl
      have halloc : CreateAllocates s.fs s.cwd → Fresh s.fs (answers 0) := halloc arg rfl
      rw [hcwd] at hfits halloc
      obtain ⟨s', hs, hrep⟩ := h.make halloc (hnul List.mem_cons_self) hfits "File created\n"
      refine ⟨s', ?_, hrep⟩
      rw [← hcwd] at hs
      exact (if_neg h0).trans hs
  | mkr =>
    cases args with
    | nil => exact ⟨s, rfl, h⟩
    | cons arg args =>
      obtain ⟨h0, hflags⟩ := h.node_dir .tmp
      have hlook := h.lookup_tmp
      obtain ⟨s', hs, hrep⟩ := h.make (d := .tmp) (halloc arg rfl tmp hlook) (hnul List.mem_cons_self)
        (hfits arg rfl tmp hlook hflags) "RAM file created\n"
      refine ⟨s', ?_, hrep⟩
      show (ofFs (vfsLookup s.fs (text "/tmp"))).bind _ = _
      rw [hlook]
      exact (if_neg h0).trans ((if_neg hflags).trans hs)
  | rd =>
    cases args with
    | nil => exact ⟨s, rfl, h⟩
    | cons path args => exact h.read (hnul List.mem_cons_self) (hfits path rfl) name args
  | write =>
    cases args with
    | nil => exact ⟨s, rfl, h⟩
    | cons path args =>
      cases args with
      | nil => exact ⟨s, rfl, h⟩
      | cons arg args =>
        have hlen := length_joined (List.cons_ne_nil arg args)
        rw [joinedSize_cons] at hsize
        refine h.write (hnul List.mem_cons_self) (hfits ?_ path rfl) (fun h0 => ?_) (by omega)
          (halloc path rfl) name
        · rw [List.length_cons, List.length_cons, List.length_cons]
          omega
        · obtain h0 | ⟨w, hw, h0⟩ := mem_joined h0
          · cases h0
          · exact hnul (List.mem_cons_of_mem _ hw) h0
  | ls =>
    cases args with
    | nil => exact ⟨s, h.ls_cwd name, h⟩
    | cons path args => exact ⟨s, h.ls (hnul List.mem_cons_self) (hfits path rfl) name args, h⟩
  | cd =>
    cases args with
    | nil => exact ⟨_, rfl, h.home⟩
    | cons path args => exact h.cd (hnul List.mem_cons_self) (hfits path rfl) name args
  | _ => exact absurd hc (by decide)

/-- A line prints what the store says. -/
theorem Store.Rep.line {argv : List (List Byte)} (h : σ.Rep s dir tmp) (hw : Words argv)
    (hfits : ∀ name, argv.head? = some name → ∀ c, commandOf name = some c → CommandFits s c argv)
    (hstore : ∀ name, argv.head? = some name → ∀ c, commandOf name = some c →
      c.OfStore ∧ Allocates s c argv answers) :
    ∃ s', dispatch printed s argv answers = .ok ((σ.line argv).1, s') ∧ (σ.line argv).2.Rep s' dir tmp := by
  cases argv with
  | nil => exact ⟨s, rfl, h⟩
  | cons name args =>
    unfold dispatch Store.line
    dsimp only
    cases hc : commandOf name with
    | none => exact ⟨s, rfl, h⟩
    | some c =>
      obtain ⟨hc', halloc⟩ := hstore name rfl c hc
      exact h.command hc' hw (hfits name rfl c hc) halloc

/-! ### Sessions -/

/-- A line that is typed, what was in the buffer of `execute_command`, and the answers of `kmalloc`. -/
structure Typed where
  /-- The line. -/
  input : List Byte
  /-- The buffer. -/
  localBuffer : Buffer
  /-- The answers. -/
  answers : ℕ → Word

/-- The arguments that `parse_arguments` finds. -/
def Typed.argv (t : Typed) : List (List Byte) := (tokens SPACE t.input).take MAX_ARGS

/-- The line is executed. -/
def Typed.run (printed : Printed) (s : Session) (t : Typed) : Outcome :=
  executeCommand printed t.localBuffer s t.input t.answers

/-- A line of a session: its command is one of the store, no buffer is overrun, and `kmalloc` succeeds. -/
structure Typed.Allowed (s : Session) (t : Typed) : Prop where
  nul : 0 ∉ t.input
  length : t.input.length ≤ 255
  fits : LineFits s t.input
  store : ∀ name, t.argv.head? = some name → ∀ c, commandOf name = some c →
      c.OfStore ∧ Allocates s c t.argv t.answers

theorem Typed.words {t : Typed} (h0 : 0 ∉ t.input) (hlen : t.input.length ≤ 255) : Words t.argv := by
  refine ⟨fun w hw hmem => h0 (mem_of_mem_tokens (List.mem_of_mem_take hw) hmem), ?_⟩
  have hsize := joinedSize_words_le t.input MAX_ARGS
  rw [Typed.argv]
  omega

/-- A line prints what the store says, and the session goes on in the state of the store. -/
theorem line_simulates (printed : Printed) (dir tmp : Word) :
    Simulates (Typed.run printed) (fun (σ : Store) t => σ.line t.argv) Typed.Allowed fun s σ =>
      σ.Rep s dir tmp := by
  intro s σ t h hok
  have hw : Words t.argv := Typed.words hok.nul hok.length
  have hrun : t.run printed s = dispatch printed s t.argv t.answers :=
    executeCommand_eq t.localBuffer hok.nul hok.length
  rw [hrun]
  exact h.line hw hok.fits hok.store

/-! ### Boot -/

variable {root : Word}

theorem bootFs_calls (h : bootFs fs root dir tmp = .ok fs') :
    exec after (fdInit fs) (kernelCalls root dir tmp) = some fs' := by
  have hroot : after (fdInit fs) (.createInstance root) = some (ramfsCreateInstance (fdInit fs) root).2 := rfl
  have hset : after (ramfsCreateInstance (fdInit fs) root).2 (.setRoot root) = some (rootFs fs root) := rfl
  have hv : (rootFs fs root).vfsRoot = root := rfl
  unfold bootFs at h
  dsimp only at h
  rw [hv] at h
  split_ifs at h
  obtain ⟨r, hr, h⟩ := bind_ok h
  have hcreate : after (rootFs fs root) (.create root (text "tmp") VFS_DIR dir) = some r.2 :=
    after_eq_some.mpr ⟨⟨r.1, []⟩, by rw [call, hr]; rfl⟩
  have htmp : after r.2 (.createInstance tmp) = some (ramfsCreateInstance r.2 tmp).2 := rfl
  have hmount : after (ramfsCreateInstance r.2 tmp).2 (.mount (text "/tmp") tmp) = some fs' :=
    after_eq_some.mpr ⟨⟨0, []⟩, congrArg (Except.map fun s => ((⟨0, []⟩ : Reply), s)) h⟩
  rw [kernelCalls, exec_cons hroot, exec_cons hset, exec_cons hcreate, exec_cons htmp, exec_cons hmount]
  rfl

theorem bootFs_wf {mem : Mem} {table : ℕ → FileDesc} (hroot : root ≠ 0) (hdir : dir ≠ 0)
    (htmp : tmp ≠ 0) (hrd : root ≠ dir)
    (hrt : root ≠ tmp) (hdt : dir ≠ tmp)
    (hb : bootFs { FsState.empty mem with fdTable := table } root dir tmp = .ok fs) :
    Wf fs := by
  obtain ⟨ret, s₂, mp, hr, -, -, rfl⟩ := bootFs_ok hb
  have hmade := rootMade_rootFs mem table hroot
  have htmade : TmpMade s₂ root dir := hmade.create hroot hdir hrd hr
  have hcreate :
      after (rootFs { FsState.empty mem with fdTable := table } root)
      (.create root (text "tmp") VFS_DIR dir) =
      some s₂ := after_eq_some.mpr ⟨⟨ret, []⟩, by rw [call, hr]; rfl⟩
  have hblank : Wf (fdInit { FsState.empty mem with fdTable := table }) :=
    wf_of_blank (fun _ => rfl) rfl rfl fun i hi => fdInit_used hi
  have hcov₀ : Covered (fdInit { FsState.empty mem with fdTable := table }) := .start ⟨mem, table, rfl⟩
  have hwf₁ : Wf (rootFs { FsState.empty mem with fdTable := table } root) := by
    have hinstance := hblank.createInstance hroot fun hlive => hlive rfl
    refine hinstance.of_eq rfl (.inr ?_) hinstance.mounts hinstance.fds
    show ((ramfsCreateInstance _ root).2.nodes root).fsPrivate ≠ 0
    rw [createInstance_nodes_self]
    exact hroot
  have hcov₁ : Covered (rootFs { FsState.empty mem with fdTable := table } root) :=
    (hcov₀.step (c := .createInstance root) rfl).step (c := .setRoot root) rfl
  have hwf₂ : Wf s₂ := by
    refine hwf₁.step (c := .create root (text "tmp") VFS_DIR dir) (fun _ => ⟨hdir, fun hlive => ?_⟩) hcreate
    have hmem := hcov₁.node dir hlive
    rw [hmade.blocks, List.mem_singleton] at hmem
    exact hrd hmem.symm
  have hnew : ¬ s₂.Live tmp := fun hlive =>
    (htmade.blocks tmp ((hcov₁.step hcreate).node tmp hlive)).elim (fun h => hdt h.symm) fun h => hrt h.symm
  have hwf₃ := hwf₂.createInstance htmp hnew
  refine hwf₃.of_eq rfl hwf₃.root (fun m hm => ?_) hwf₃.fds
  obtain hm | hm := List.mem_append.mp hm
  · exact hwf₃.mounts m hm
  · rw [List.mem_singleton.mp hm, FsState.Live, createInstance_nodes_self]
    exact htmp

/-- After boot the store is empty. -/
theorem BootedFresh.rep (h : BootedFresh fs) : ∃ dir tmp, Store.boot.Rep ⟨fs, fs.vfsRoot⟩ dir tmp := by
  obtain ⟨dir', tmp', htree⟩ := h.tree
  obtain ⟨mem, table, root, dir, tmp, hroot, hdir, htmp, hrd, hrt, hdt, hb⟩ := h
  have hready : Ready fs := Booted.ready ⟨mem, table, root, dir, tmp, hb⟩
  have hcov : Covered fs := Covered.exec (.start ⟨mem, table, rfl⟩) (bootFs_calls hb)
  have hwf : Wf fs := bootFs_wf hroot hdir htmp hrd hrt hdt hb
  obtain ⟨ret, s₂, mp, hr, -, -, hfs⟩ := bootFs_ok hb
  have hmade := rootMade_rootFs mem table hroot
  have htmade : TmpMade s₂ root dir := hmade.create hroot hdir hrd hr
  obtain ⟨hchildren, -, hv, hm⟩ := htmade.createInstance hrt hdt
  -- the tree is the one that was built
  have hmounts : fs.mounts = [⟨mp, tmp⟩] := by
    rw [hfs]
    show (ramfsCreateInstance s₂ tmp).2.mounts ++ _ = _
    rw [hm]
    rfl
  obtain ⟨rfl, rfl⟩ := Mount.mk.inj (List.singleton_inj.mp (htree.mounts.symm.trans hmounts))
  have hnodes : fs.nodes = (ramfsCreateInstance s₂ tmp').2.nodes := by rw [hfs]
  have hvroot : fs.vfsRoot = root := by
    rw [hfs]
    exact hv
  have hself : fs.nodes tmp' = instanceRoot tmp' := by rw [hnodes, createInstance_nodes_self]
  have hfiles (d : Dir) : fileNodes fs tmp' d = [] := by
    cases d with
    | root => rw [fileNodes, hvroot, hnodes, hchildren, List.tail_cons]
    | tmp => exact congrArg RamfsNode.children hself
  refine ⟨dir', tmp', hready, htree, hwf, hcov, fun d => ?_, fun d => ?_, fun a ha => ?_, fun d => ?_, rfl,
    fun _ _ hf => absurd hf List.not_mem_nil, fun _ _ hf => absurd hf List.not_mem_nil⟩
  · cases d with
    | tmp => exact congrArg RamfsNode.size hself
    | root =>
      show (fs.nodes fs.vfsRoot).size = 0
      rw [hvroot, hnodes, createInstance_nodes_of_ne s₂ hrt]
      have hpriv := congrArg RamfsNode.fsPrivate hmade.node
      obtain ⟨-, rfl⟩ | ⟨-, -, -, -, -, rfl⟩ := ramfsCreate_cases hr
      · exact congrArg RamfsNode.size hmade.node
      · rw [linked_nodes_parent _ _ hpriv hrd]
        exact congrArg RamfsNode.size hmade.node
  · rw [hfiles]
    exact List.nodup_nil
  · rw [hfiles] at ha
    cases ha
  · rw [hfiles]
    rfl

/-- **A session prints what the store says.** -/
theorem session_prints (hboot : BootedFresh fs) (printed : Printed) (ts : List Typed)
    (hts : Guarded (Typed.run printed) Typed.Allowed ⟨fs, fs.vfsRoot⟩ ts) : ∃ s dir tmp,
    run (Typed.run printed) ⟨fs, fs.vfsRoot⟩ ts =
      .ok ((runRef (fun (σ : Store) t => σ.line t.argv) .boot ts).1, s) ∧
      (runRef (fun (σ : Store) t => σ.line t.argv) .boot ts).2.Rep s dir tmp := by
  obtain ⟨dir, tmp, hrep⟩ := hboot.rep
  obtain ⟨s, hrun, hrep'⟩ := (line_simulates printed dir tmp).run hrep hts
  exact ⟨s, dir, tmp, hrun, hrep'⟩

/-! ### Short words -/

theorem partsFit_of_short {cs : List (List Byte)} (hcs : ∀ c ∈ cs, c.length < NAME_SIZE) :
    PartsFit fs a cs := by
  induction cs generalizing a with
  | nil => trivial
  | cons c cs ih =>
    obtain ⟨hc, hcs⟩ := List.forall_mem_cons.mp hcs
    refine ⟨hc, ?_⟩
    split
    · exact ih hcs
    · trivial

/-- Words of fewer than 64 characters fit. -/
theorem lineFits_of_short {line : List Byte} (hshort : ∀ w ∈ tokens SPACE line, w.length < NAME_SIZE)
    (hstore : ∀ name, ((tokens SPACE line).take MAX_ARGS).head? = some name →
      ∀ c, commandOf name = some c → c.OfStore) :
    LineFits s line := by
  obtain ⟨argv, hargv⟩ : ∃ argv, argv = (tokens SPACE line).take MAX_ARGS := ⟨_, rfl⟩
  unfold LineFits
  dsimp only
  rw [← hargv] at hstore ⊢
  intro name hname c hc
  have hstore := hstore name hname c hc
  have harg {w : List Byte} (hw : argv[1]? = some w) : w.length < NAME_SIZE :=
    hshort w (List.mem_of_mem_take (hargv ▸ List.mem_of_getElem? hw))
  have hparts {w : List Byte} {a : Word} (hw : argv[1]? = some w) : PartsFit s.fs a (components w) :=
    partsFit_of_short fun _ hc => (length_le_of_mem_tokens hc).trans_lt (harg hw)
  have htarget {w : List Byte} (hw : argv[1]? = some w) : TargetFits s w := by
    unfold TargetFits
    split_ifs
    · exact .inr (hparts hw)
    · exact hparts hw
  cases c with
  | echo => trivial
  | mk => exact fun w hw _ _ => harg hw
  | mkr => exact fun w hw _ _ _ _ _ => harg hw
  | rd => exact fun w hw => .inr (hparts hw)
  | write => exact fun _ w hw => .inr (hparts hw)
  | ls => exact fun w hw => htarget hw
  | cd => exact fun w hw => htarget hw
  | _ => exact absurd hstore (by decide)

/-! ### A sample -/

/-- A file is made, written, printed and listed. -/
def sampleLines : List Typed :=
  [⟨text "mk f", fun _ => 0, fun _ => 0x400300⟩, ⟨text "write f ab", fun _ => 0, fun _ => 0x400400⟩,
    ⟨text "rd f", fun _ => 0, fun _ => 0⟩, ⟨text "ls", fun _ => 0, fun _ => 0⟩]

/-- A boot with nothing in the memory. -/
def sampleBoot : FsState :=
  (bootFs (.empty fun _ => 0) 0x400018 0x400100 0x400200).toOption.getD (.empty fun _ => 0)

theorem bootFs_sampleBoot : bootFs (.empty fun _ => 0) 0x400018 0x400100 0x400200 = .ok sampleBoot := by
  have hok : (bootFs (.empty fun _ => 0) 0x400018 0x400100 0x400200).toOption.isSome := by decide +kernel
  unfold sampleBoot
  cases hb : bootFs (.empty fun _ => 0) 0x400018 0x400100 0x400200 with
  | error e =>
    rw [hb] at hok
    cases hok
  | ok fs => rfl

theorem bootedFresh_sampleBoot : BootedFresh sampleBoot :=
  ⟨_, _, _, _, _, by decide, by decide, by decide, by decide, by decide, by decide, bootFs_sampleBoot⟩

/-- A line of short words, with a command of the store. -/
theorem Typed.allowed {t : Typed} (name : List Byte) (c : Command) (hnul : 0 ∉ t.input)
    (hlen : t.input.length ≤ 255)
    (hargv : t.argv.head? = some name) (hc : commandOf name = some c) (hstore : c.OfStore)
    (hshort : ∀ w ∈ tokens SPACE t.input, w.length < NAME_SIZE)
    (halloc : Allocates s c t.argv t.answers) : t.Allowed s := by
  have hall (name' : List Byte) (h : t.argv.head? = some name') (c' : Command)
      (hc' : commandOf name' = some c') :
      c'.OfStore ∧ Allocates s c' t.argv t.answers := by
    obtain rfl := Option.some.inj (hargv.symm.trans h)
    obtain rfl := Option.some.inj (hc.symm.trans hc')
    exact ⟨hstore, halloc⟩
  exact ⟨hnul, hlen, lineFits_of_short hshort fun name h c hc => (hall name h c hc).1, hall⟩

/-- No file has a buffer. -/
def NoBuffers (fs : FsState) : Prop := ∀ a, (fs.nodes a).data = 0 ∧ (fs.nodes a).capacity = 0

theorem NoBuffers.update {n : RamfsNode} (h : NoBuffers fs) (hn : n.data = 0 ∧ n.capacity = 0)
    (answer a : Word) :
    (Function.update fs.nodes answer n a).data = 0 ∧ (Function.update fs.nodes answer n a).capacity = 0 := by
  by_cases ha : a = answer
  · rw [ha, Function.update_self]
    exact hn
  · rw [Function.update_of_ne ha]
    exact h a

theorem NoBuffers.exec {cs : List Call} (h : NoBuffers fs) (hcs : ∀ c, .sys c ∉ cs)
    (he : exec after fs cs = some fs') :
    NoBuffers fs' := by
  induction cs generalizing fs with
  | nil =>
    obtain rfl := Option.some.inj he
    exact h
  | cons c cs ih =>
    obtain ⟨u, hu, he⟩ := Option.bind_eq_some_iff.mp he
    refine ih ?_ (fun c hc => hcs c (List.mem_cons_of_mem _ hc)) he
    cases Fs.after_effect hu with
    | createInstance =>
      rw [ramfsCreateInstance_eq]
      exact h.update ⟨rfl, rfl⟩ _
    | setRoot => exact h
    | full => exact h
    | @create parent =>
      intro a
      unfold linked
      dsimp only
      by_cases ha : a = (fs.nodes parent).fsPrivate
      · rw [ha, Function.update_self]
        exact h.update ⟨rfl, rfl⟩ _ _
      · rw [Function.update_of_ne ha]
        exact h.update ⟨rfl, rfl⟩ _ a
    | mount _ => exact h
    | sys _ => exact absurd List.mem_cons_self (hcs _)

/-- If there are no buffers, a new one overlaps none. -/
theorem NoBuffers.freshWrites (h : NoBuffers fs) (ho : sysOpen fs path = .ok (fd, u)) (hfd : validFd u fd)
    (arg : List Byte) (h0 : answer ≠ 0)
    (hroom : answer.toNat + (0 + BitVec.ofNat 32 arg.length : Word).toNat ≤ 2 ^ 32) :
    FreshWrites (sysSeek u fd 0).2 fd [arg] fun _ => answer := by
  have hoffset : ((sysSeek u fd 0).2.fdTable fd.toNat).offset = 0 := by
    rw [sysSeek, if_neg (not_not.mpr hfd)]
    dsimp only
    rw [Function.update_self]
  show FreshWrite _ _ _ _
  unfold FreshWrite
  dsimp only
  rw [hoffset]
  refine fun _ => ⟨h0, hroom, fun b _ => .inr ?_⟩
  rw [nodes_seek_open ho, (h b).1, (h b).2]
  exact Nat.zero_le _

theorem noBuffers_sampleBoot : NoBuffers sampleBoot := by
  have hstart : NoBuffers (fdInit (.empty fun _ => 0)) := fun _ => ⟨rfl, rfl⟩
  refine hstart.exec (fun c => ?_) (bootFs_calls bootFs_sampleBoot)
  rw [kernelCalls]
  simp only [List.mem_cons, List.not_mem_nil, reduceCtorEq, or_self, not_false_eq_true]

theorem noBuffers_mk {out : List Byte} (h : NoBuffers s.fs)
    (hrun : (⟨text "mk f", fun _ => 0, fun _ => answer⟩ : Typed).run printed s = .ok (out, s')) :
      NoBuffers s'.fs := by
  have htok : (tokens SPACE (text "mk f")).take MAX_ARGS = [text "mk", text "f"] := by decide
  have hcommand : commandOf (text "mk") = some .mk := by decide
  have hmk : cmdMk s [text "mk", text "f"] answer = .ok (out, s') := by
    have heq : executeCommand printed (fun _ => 0) s (text "mk f") (fun _ => answer) = _ :=
      executeCommand_eq _ (by decide) (by decide)
    rw [htok] at heq
    unfold dispatch at heq
    dsimp only at heq
    rw [hcommand] at heq
    exact heq.symm.trans hrun
  refine h.exec (fun c => ?_) (cmdMk_fs hmk)
  change Call.sys c ∉ if s.cwd = 0 then [] else [.create s.cwd (text "f") VFS_FILE answer]
  split_ifs
  · exact List.not_mem_nil
  · simp only [List.mem_cons, List.not_mem_nil, reduceCtorEq, or_self, not_false_eq_true]

/-- The session, from a boot with nothing in the memory. -/
theorem session_prints_sample :
    ∃ s, run (Typed.run fun _ _ => []) ⟨sampleBoot, sampleBoot.vfsRoot⟩ sampleLines =
    .ok ([text "File created\n", text "Written.\n", text "ab\n", text "tmp\nf\n"], s) := by
  have hguard :
      Guarded (Typed.run fun _ _ => []) Typed.Allowed ⟨sampleBoot, sampleBoot.vfsRoot⟩
        sampleLines := by
    refine ⟨?_, fun out s₁ h₁ => ⟨?_, fun _ s₂ _ => ⟨?_, fun _ s₃ _ => ⟨?_, fun _ _ _ => trivial⟩⟩⟩⟩
    · have hblocks : sampleBoot.blocks = [0x400200, 0x400100, 0x400018] := by decide +kernel
      have hfresh : Fresh sampleBoot 0x400300 := by
        rw [Fresh, hblocks]
        decide
      exact Typed.allowed (text "mk") .mk (by decide) (by decide) (by decide) (by decide) (by decide)
        (by decide) fun _ _ _ => hfresh
    · refine Typed.allowed (text "write") .write (by decide) (by decide) (by decide) (by decide) (by decide)
        (by decide) fun path _ fd u ho hfile => ?_
      exact (noBuffers_mk noBuffers_sampleBoot h₁).freshWrites ho hfile.1 (text "ab") (by decide) (by decide)
    · exact Typed.allowed (text "rd") .rd (by decide) (by decide) (by decide) (by decide) (by decide)
        (by decide) trivial
    · exact Typed.allowed (text "ls") .ls (by decide) (by decide) (by decide) (by decide) (by decide)
        (by decide) trivial
  obtain ⟨s, dir, tmp, hrun, -⟩ := session_prints bootedFresh_sampleBoot (fun _ _ => []) sampleLines hguard
  have hout : (runRef (fun (σ : Store) (t : Typed) => σ.line t.argv) .boot sampleLines).1 =
      [text "File created\n", text "Written.\n", text "ab\n", text "tmp\nf\n"] := by decide +kernel
  rw [hout] at hrun
  exact ⟨s, hrun⟩

end SpatulaOS.Shell
