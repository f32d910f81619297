import SpatulaOS.Fs.Reference

/-!
# The descriptors refine their reference

On a tree of `ramfs` files every sequence of allowed calls gives what the reference gives, as long
as each component of an opened path has room in `part` (`sys_refines_iff`). Each call is
compared with the reference for itself. The buffers matter for a write only: the larger
buffer gets a copy of the old contents, the bytes are laid over it, and the other buffers
are left alone (`write_represents`).
-/

namespace SpatulaOS.Fs

open ByteMemory Simulation Runs

variable {s s' s₀ : FsState} {t : Files Word} {a node size answer offset : Word} {fd : ℤ} {i : ℕ}
  {path : List Byte}
  {buffer : ℕ → Byte} {c : SysCall} {cs : List SysCall}

/-! ### Descriptors -/

theorem Represents.updateFd (h : Represents s t) (i : ℕ) (d : FileDesc) :
    Represents { s with fdTable := Function.update s.fdTable i d }
      { t with fds := Function.update t.fds i d.entry } := by
  refine ⟨fun j hj => ?_, h.holds, h.length⟩
  dsimp only
  by_cases hji : j = i
  · rw [hji, Function.update_self, Function.update_self]
  · rw [Function.update_of_ne hji, Function.update_of_ne hji]
    exact h.fds j hj

theorem Represents.desc (h : Represents s t) (hfd : validFd s fd) :
    t.desc fd = some ((s.fdTable fd.toNat).node, (s.fdTable fd.toNat).offset.toNat) := by
  obtain ⟨h0, hlt⟩ := not_or.mp hfd.1
  rw [Files.desc, if_pos ⟨Int.not_lt.mp h0, Int.not_le.mp hlt⟩, h.fds _ hfd.toNat_lt,
    FileDesc.entry_of_used hfd.2]

theorem Represents.desc_none (h : Represents s t) (hfd : ¬ validFd s fd) : t.desc fd = none := by
  unfold Files.desc
  split_ifs with hlt
  · have hi : fd.toNat < MAX_FDS := by
      unfold MAX_FDS at *
      omega
    rw [h.fds _ hi, FileDesc.entry_of_free]
    refine Bool.eq_false_of_not_eq_true fun hused => hfd ⟨not_or.mpr ⟨?_, ?_⟩, hused⟩
    · exact Int.not_lt.mpr hlt.1
    · exact Int.not_le.mpr hlt.2
  · rfl

theorem Represents.free_of_all (h : Represents s t) (hall : ∀ i, i < MAX_FDS → (s.fdTable i).used = true) :
    t.free = none := by
  refine List.find?_eq_none.mpr fun i hi => ?_
  rw [List.mem_range] at hi
  rw [h.fds i hi, FileDesc.entry_of_used (hall i hi)]
  exact Bool.noConfusion

theorem Represents.free_of_first (h : Represents s t) (hi : i < MAX_FDS) (hfree : (s.fdTable i).used = false)
    (hbefore : ∀ j, j < i → (s.fdTable j).used = true) : t.free = some i := by
  refine List.find?_range_eq_some.mpr ⟨?_, List.mem_range.mpr hi, fun j hj => ?_⟩
  · rw [h.fds i hi, FileDesc.entry_of_free hfree]
    rfl
  · rw [h.fds j (hj.trans hi), FileDesc.entry_of_used (hbefore j hj)]
    rfl

/-! ### Calls that change descriptors only -/

/-- A call that gives what the reference gives, on a state that it represents. -/
structure Matches (s₀ s : FsState) (t : Files Word) (c : SysCall) (s' : FsState) : Prop where
  result : sysCall s c = .ok ((refCall (nameSpace s₀) t c).1, s')
  wf : Wf s'
  represents : Represents s' (refCall (nameSpace s₀) t c).2

theorem open_matches (hwf : Wf s) (hrep : Represents s t) (htree : SameTree s₀ s) (hfit : PathFits s₀ path) :
    ∃ s', Matches s₀ s t (.sysOpen path) s' := by
  obtain ⟨node, hlook, hlive⟩ := hwf.vfsLookup (htree.pathFits.mpr hfit)
  have hfind : (nameSpace s₀).find path = if node = 0 then none else some node := by
    dsimp only [nameSpace]
    rw [← htree.vfsLookup, hlook]
  obtain ⟨hnone, ho⟩ | ⟨hnode, i, hi, hfree, hbefore, ho⟩ := sysOpen_cases hlook
  · have href : refCall (nameSpace s₀) t (.sysOpen path) = (⟨-1, []⟩, t) := by
      rw [refCall, hfind]
      obtain rfl | hall := hnone
      · rfl
      · rw [hrep.free_of_all hall]
        split_ifs <;> rfl
    refine ⟨s, ?_, hwf, ?_⟩
    · rw [sysCall, ho, href]
      rfl
    · rw [href]
      exact hrep
  · have hi' : t.free = some i := hrep.free_of_first hi hfree hbefore
    rw [if_neg hnode] at hfind
    refine ⟨_, ?_, hwf.updateFd i (d := ⟨true, node, 0⟩) fun _ => hlive hnode, ?_⟩
    · rw [sysCall, ho, refCall, hfind, hi']
      rfl
    · rw [refCall, hfind, hi']
      exact hrep.updateFd i ⟨true, node, 0⟩

theorem close_matches (hwf : Wf s) (hrep : Represents s t) : ∃ s', Matches s₀ s t (.sysClose fd) s' := by
  refine ⟨sysClose s fd, rfl, ?_, ?_⟩
  · unfold sysClose
    split_ifs
    · exact hwf.updateFd _ nofun
    · exact hwf
  · unfold sysClose
    rw [refCall]
    by_cases hfd : fd ≥ 0 ∧ fd < MAX_FDS
    · rw [if_pos hfd, if_pos hfd]
      have hup := hrep.updateFd fd.toNat { s.fdTable fd.toNat with used := false }
      rw [FileDesc.entry_of_free rfl] at hup
      exact hup
    · rw [if_neg hfd, if_neg hfd]
      exact hrep

theorem Represents.setOffset (h : Represents s t) (hfd : validFd s fd) {n : ℕ} (hn : offset.toNat = n) :
    Represents { s with fdTable := Function.update s.fdTable fd.toNat { s.fdTable fd.toNat with offset := offset } }
      { t with fds := Function.update t.fds fd.toNat (some ((s.fdTable fd.toNat).node, n)) } := by
  subst hn
  have hused : { s.fdTable fd.toNat with offset := offset }.used = true := hfd.2
  have hup := h.updateFd fd.toNat { s.fdTable fd.toNat with offset := offset }
  rw [FileDesc.entry_of_used hused] at hup
  exact hup

theorem seek_matches (hwf : Wf s) (hrep : Represents s t) : ∃ s', Matches s₀ s t (.sysSeek fd offset) s' := by
  by_cases hfd : validFd s fd
  · have hdesc := hrep.desc hfd
    refine ⟨_, ?_, hwf.setOffset hfd offset, ?_⟩
    · rw [sysCall, sysSeek, if_neg (not_not.mpr hfd), refCall, hdesc]
    · rw [refCall, hdesc]
      exact hrep.setOffset hfd rfl
  · have hdesc := hrep.desc_none hfd
    refine ⟨s, ?_, hwf, ?_⟩
    · rw [sysCall, sysSeek, if_pos hfd, refCall, hdesc]
    · rw [refCall, hdesc]
      exact hrep

/-- What a read gives are the bytes of the file. -/
theorem Represents.copyOut (h : Represents s t) (ha : s.Live a) {count : ℕ}
    (hcount : count = min size.toNat ((s.nodes a).size.toNat - offset.toNat)) :
    s.mem.copyOut ((s.nodes a).data + offset) count = ((t.contents a).drop offset.toNat).take size.toNat := by
  have hlen := h.length a ha
  have haddr : (s.nodes a).data + offset = byteAddr (s.nodes a).data offset.toNat := by
    rw [byteAddr, BitVec.ofNat_toNat, BitVec.setWidth_eq]
  by_cases hoff : offset.toNat ≤ (t.contents a).length
  · rw [haddr, (h.holds a ha).copyOut (by omega), List.take_eq_take_iff, List.length_drop]
    omega
  · rw [List.drop_eq_nil_of_le (by omega), List.take_nil, show count = 0 by omega]
    rfl

theorem read_valid (hwf : Wf s) (hrep : Represents s t) (hfd : validFd s fd) {file : Word}
    (hfile : (s.fdTable fd.toNat).node = file) (hoffset : (s.fdTable fd.toNat).offset = offset)
    (hlt : offset.toNat + size.toNat < 2 ^ 31) {bytes : List Byte}
    (hbytes : bytes = ((t.contents file).drop offset.toNat).take size.toNat) :
    sysRead s fd size = .ok ((bytes.length : ℤ), bytes,
      { s with
        fdTable := Function.update s.fdTable fd.toNat
          { s.fdTable fd.toNat with offset := offset + BitVec.ofNat 32 bytes.length } }) ∧
      (offset + BitVec.ofNat 32 bytes.length).toNat = offset.toNat + bytes.length := by
  subst hfile hoffset
  have hlive := hwf.live_desc hfd
  have hn := hwf.node _ hlive
  have hcount : (readCount (s.nodes (s.fdTable fd.toNat).node) (s.fdTable fd.toNat).offset size).toNat =
      min size.toNat ((s.nodes (s.fdTable fd.toNat).node).size.toNat - (s.fdTable fd.toNat).offset.toNat) :=
    toNat_readCount (by omega)
  have hout := hrep.copyOut hlive hcount
  rw [← hbytes] at hout
  have hlen := congrArg List.length hout
  rw [Mem.copyOut, List.length_map, List.length_range] at hlen
  have hle : bytes.length ≤ size.toNat := by
    rw [← hlen, hcount]
    exact min_le_left _ _
  have hread : readCount (s.nodes (s.fdTable fd.toNat).node) (s.fdTable fd.toNat).offset size =
      BitVec.ofNat 32 bytes.length := by
    rw [← hlen, BitVec.ofNat_toNat, BitVec.setWidth_eq]
  have hofNat : (BitVec.ofNat 32 bytes.length).toNat = bytes.length := by
    rw [BitVec.toNat_ofNat, Nat.mod_eq_of_lt (by omega)]
  constructor
  · rw [sysRead, if_neg (not_not.mpr hfd)]
    dsimp only
    rw [if_neg (by rw [hn.ops]; exact Bool.noConfusion), ramfsRead_eq hn.self, hout, hread,
      moveOffset_toInt (by omega),
      BitVec.toInt_eq_toNat_of_lt (by omega), hofNat]
  · rw [BitVec.toNat_add, hofNat, Nat.mod_eq_of_lt (by omega)]

theorem read_matches (hwf : Wf s) (hrep : Represents s t) (hok : Allowed s (.sysRead fd size)) :
    ∃ s', Matches s₀ s t (.sysRead fd size) s' := by
  by_cases hfd : validFd s fd
  · have hdesc := hrep.desc hfd
    obtain ⟨bytes, hbytes⟩ : ∃ bytes, bytes =
        ((t.contents (s.fdTable fd.toNat).node).drop (s.fdTable fd.toNat).offset.toNat).take size.toNat := ⟨_, rfl⟩
    obtain ⟨hread, hoff⟩ := read_valid hwf hrep hfd rfl rfl (hok hfd) hbytes
    refine ⟨_, ?_, hwf.setOffset hfd ((s.fdTable fd.toNat).offset + BitVec.ofNat 32 bytes.length), ?_⟩
    · rw [sysCall, hread, refCall, hdesc, hbytes]
      rfl
    · rw [refCall, hdesc]
      dsimp only
      rw [← hbytes]
      exact hrep.setOffset hfd hoff
  · have hdesc := hrep.desc_none hfd
    refine ⟨s, ?_, hwf, ?_⟩
    · rw [sysCall, sysRead, if_pos hfd, refCall, hdesc]
      rfl
    · rw [refCall, hdesc]
      exact hrep

/-! ### Writes -/

/-- The old contents are in the buffer before the bytes are written. -/
theorem Represents.grownMem (h : Represents s t) (hwf : Wf s) (hw : WriteAllowed s a offset size answer) :
    (grownMem s a offset size answer).Holds (writtenNode s a offset size answer).data (t.contents a) := by
  have hn := hwf.node a hw.live
  have hlen := h.length a hw.live
  have hold := h.holds a hw.live
  have hroom := hn.room
  have hle := hn.size_le
  unfold Fs.grownMem writtenNode
  dsimp only
  by_cases hg : Grows s a offset size
  · rw [if_pos hg]
    have hfresh := hw.fresh hg
    have hlt := hw.lt
    have hsum : (offset + size).toNat = offset.toNat + size.toNat := by
      rw [BitVec.toNat_add, Nat.mod_eq_of_lt (by omega)]
    have hgt : (s.nodes a).capacity.toNat < (offset + size).toNat := hg
    by_cases hd : (s.nodes a).data = 0
    · rw [hn.null hd] at hle
      have hnil : t.contents a = [] := List.eq_nil_of_length_eq_zero (by rw [hlen]; exact Nat.le_zero.mp hle)
      rw [hnil]
      exact fun i hi => absurd hi (Nat.not_lt_zero i)
    · rw [if_pos ⟨hg, hd⟩, ← hlen]
      have hanswer := hfresh.room
      refine hold.memcpy (by omega) (by omega) ?_
      obtain hapart | hapart := hfresh.apart a hw.live
      · exact .inr (by omega)
      · exact .inl (by omega)
  · rw [if_neg hg, if_neg fun hand => hg hand.1]
    exact hold

/-- A write lays its bytes over the file and leaves the others alone. -/
theorem write_represents (h : Represents s t) (hwf : Wf s) (hw : WriteAllowed s a offset size answer)
    (hoff : offset.toNat ≤ (s.nodes a).size.toNat) :
    Represents (written s a offset size buffer answer)
      { t with
        contents := Function.update t.contents a
          (overlay (t.contents a) offset.toNat ((List.range size.toNat).map buffer)) } := by
  have hlen := h.length a hw.live
  have hlt := hw.lt
  refine ⟨h.fds, fun b hb => ?_, fun b hb => ?_⟩
  · rw [sameTree_written.live] at hb
    by_cases hba : b = a
    · subst hba
      have haddr : (writtenNode s b offset size answer).data + offset =
          byteAddr (writtenNode s b offset size answer).data offset.toNat := by
        rw [byteAddr, BitVec.ofNat_toNat, BitVec.setWidth_eq]
      dsimp only
      rw [written_nodes_self, Function.update_self, Fs.written, haddr]
      have hsize := (s.nodes b).size.isLt
      exact (h.grownMem hwf hw).copyIn buffer (by omega) (by omega) (by omega)
    · dsimp only
      rw [written_nodes_of_ne hba, Function.update_of_ne hba]
      have hn := hwf.node b hb
      have hroom := hn.room
      have hle := hn.size_le
      have hlenb := h.length b hb
      refine (h.holds b hb).keeps (hw.keeps hwf) (by omega) fun k h1 h2 hk => ?_
      rw [Set.mem_Ico] at hk
      obtain hapart | hapart := hw.apart hwf hb hba
      · omega
      · omega
  · rw [sameTree_written.live] at hb
    by_cases hba : b = a
    · subst hba
      dsimp only
      rw [written_nodes_self, Function.update_self, size_writtenNode (by omega),
        length_overlay (by omega), List.length_map,
        List.length_range, hlen]
    · dsimp only
      rw [written_nodes_of_ne hba, Function.update_of_ne hba]
      exact h.length b hb

theorem sysWrite_valid (hwf : Wf s) (hfd : validFd s fd) : sysWrite s fd buffer size answer =
    (ramfsWrite s (s.fdTable fd.toNat).node (s.fdTable fd.toNat).offset size buffer answer).bind fun r =>
      .ok (r.1, moveOffset r.2 fd.toNat r.1) := by
  rw [sysWrite, if_neg (not_not.mpr hfd)]
  dsimp only
  rw [if_neg (by rw [(hwf.node _ (hwf.live_desc hfd)).ops]; exact Bool.noConfusion)]

theorem write_matches (hwf : Wf s) (hrep : Represents s t) (htree : SameTree s₀ s)
    (hok : Allowed s (.sysWrite fd buffer size answer)) :
    ∃ s', Matches s₀ s t (.sysWrite fd buffer size answer) s' := by
  by_cases hfd : validFd s fd
  · have hdesc := hrep.desc hfd
    have hlive := hwf.live_desc hfd
    have hself := (hwf.node _ hlive).self
    have hne := hwf.ne_zero hlive
    have hflags := (RamfsNode.eq_of_bare (htree.bare (s.fdTable fd.toNat).node)).2.1
    by_cases hfile : (s.nodes (s.fdTable fd.toNat).node).flags &&& VFS_DIR = 0
    · obtain ⟨hoff, hlt, hfresh⟩ := hok hfd hfile
      have hw : WriteAllowed s (s.fdTable fd.toNat).node (s.fdTable fd.toNat).offset size answer :=
        ⟨hlive, hlt, hfresh⟩
      have hdir : (nameSpace s₀).isDir (s.fdTable fd.toNat).node = false := by
        rw [hflags] at hfile
        exact decide_eq_false (not_not.mpr hfile)
      have hsum : ((s.fdTable fd.toNat).offset + size).toNat =
          (s.fdTable fd.toNat).offset.toNat + size.toNat := by
        rw [BitVec.toNat_add, Nat.mod_eq_of_lt (by omega)]
      have hwf' : Wf (written s _ _ size buffer answer) := hwf.written hw
      refine ⟨_, ?_, hwf'.setOffset hfd ((s.fdTable fd.toNat).offset + size), ?_⟩
      · rw [sysCall, sysWrite_valid hwf hfd, ramfsWrite_file hne hself hne hfile, Except.bind,
          moveOffset_toInt (by omega),
          refCall, hdesc]
        dsimp only
        rw [hdir, if_neg Bool.false_ne_true, List.length_map, List.length_range, BitVec.toInt_eq_toNat_of_lt (by omega)]
        rfl
      · rw [refCall, hdesc]
        dsimp only
        rw [hdir, if_neg Bool.false_ne_true, List.length_map, List.length_range]
        exact (write_represents hrep hwf hw hoff).setOffset hfd hsum
    · have hdir : (nameSpace s₀).isDir (s.fdTable fd.toNat).node = true := by
        rw [hflags] at hfile
        exact decide_eq_true hfile
      have hnull : ¬ ((s.fdTable fd.toNat).node = 0 ∨ (s.nodes (s.fdTable fd.toNat).node).fsPrivate = 0) := by
        rw [hself, or_self]
        exact hne
      refine ⟨s, ?_, hwf, ?_⟩
      · rw [sysCall, sysWrite_valid hwf hfd, ramfsWrite, if_neg hnull]
        dsimp only
        rw [if_pos hfile, refCall, hdesc]
        dsimp only
        rw [hdir]
        rfl
      · rw [refCall, hdesc]
        dsimp only
        rw [hdir]
        exact hrep
  · have hdesc := hrep.desc_none hfd
    refine ⟨s, ?_, hwf, ?_⟩
    · rw [sysCall, sysWrite, if_pos hfd, refCall, hdesc]
      rfl
    · rw [refCall, hdesc]
      exact hrep

/-! ### Sequences of calls -/

/-- What the state and the reference agree on: the tree is that of the start. -/
structure Refines (s₀ s : FsState) (t : Files Word) : Prop where
  wf : Wf s
  represents : Represents s t
  tree : SameTree s₀ s

/-- One call. -/
theorem sys_simulates (s₀ : FsState) : Simulates sysCall (refCall (nameSpace s₀))
    (fun s c => Allowed s c ∧ ∀ path, c = .sysOpen path → PathFits s₀ path) (Refines s₀) := by
  rintro s t c ⟨hwf, hrep, htree⟩ ⟨hok, hfit⟩
  obtain ⟨s', hm⟩ : ∃ s', Matches s₀ s t c s' := by
    cases c with
    | sysOpen path => exact open_matches hwf hrep htree (hfit path rfl)
    | sysWrite fd buffer size answer => exact write_matches hwf hrep htree hok
    | sysRead fd size => exact read_matches hwf hrep hok
    | sysClose fd => exact close_matches hwf hrep
    | sysSeek fd offset => exact seek_matches hwf hrep
  exact ⟨s', hm.result, hm.wf, hm.represents, htree.trans (sysCall_sameTree hm.result)⟩

theorem eq_of_neg_one {r : Reply} (hwf : Wf s) (hrep : Represents s t) (hok : Allowed s c)
    (h : sysCall s c = .ok (r, s')) (hr : r.ret = -1) : s' = s := by
  cases c with
  | sysOpen path =>
    obtain ⟨⟨ret, u⟩, ho, heq⟩ := map_eq_ok h
    obtain ⟨rfl, rfl⟩ := Prod.mk.inj heq
    obtain ⟨-, hs⟩ | ⟨-, -, -, i, -, -, hret, -⟩ := sysOpen_ok ho
    · exact hs
    · have : ret = -1 := hr
      omega
  | sysWrite fd buffer size answer =>
    obtain ⟨⟨ret, u⟩, ho, heq⟩ := map_eq_ok h
    obtain ⟨rfl, rfl⟩ := Prod.mk.inj heq
    obtain ⟨-, hs⟩ | ⟨desc, rfl, hfd, -, -, hfile, hret, -⟩ := sysWrite_cases ho
    · exact hs
    · have hret' : ret = -1 := hr
      obtain ⟨-, hlt, -⟩ := hok hfd hfile
      rw [hret, BitVec.toInt_eq_toNat_of_lt (by omega)] at hret'
      omega
  | sysRead fd size =>
    by_cases hfd : validFd s fd
    · obtain ⟨hread, -⟩ := read_valid hwf hrep hfd rfl rfl (hok hfd) rfl
      rw [sysCall, hread] at h
      obtain ⟨rfl, -⟩ := Prod.mk.inj (Except.ok.inj h)
      dsimp only at hr
      omega
    · rw [sysCall, sysRead, if_pos hfd] at h
      exact (Prod.mk.inj (Except.ok.inj h)).2.symm
  | sysClose fd =>
    obtain ⟨rfl, -⟩ := Prod.mk.inj (Except.ok.inj h)
    cases hr
  | sysSeek fd offset =>
    obtain ⟨rfl, rfl⟩ := Prod.mk.inj (Except.ok.inj h)
    unfold sysSeek at hr ⊢
    split_ifs at hr ⊢
    rfl

/-- The calls do what the reference does: the results are the same, the state at the end is what
the reference says, and no call that returned -1 changed anything. -/
structure DoesAsReference (s : FsState) (cs : List SysCall) : Prop where
  results : ∃ s', run sysCall s cs = .ok ((runRef (refCall (nameSpace s)) (files s) cs).1, s') ∧
    Represents s' (runRef (refCall (nameSpace s)) (files s) cs).2
  unchanged : Always sysCall (fun s _ r s' => r.ret = -1 → s' = s) s cs

/-- **Refinement.** On a tree of `ramfs` files, a sequence of allowed calls does what the reference does
exactly if each component of an opened path that the lookup comes to has room in `part`. -/
theorem sys_refines_iff (hwf : Wf s) (hg : Guarded sysCall Allowed s cs) :
    DoesAsReference s cs ↔ ∀ path, SysCall.sysOpen path ∈ cs → PathFits s path := by
  constructor
  · rintro ⟨⟨s', hrun, -⟩, -⟩ path hmem
    obtain ⟨u, r, u', hu, hc⟩ := exists_call SameTree.refl (fun _ _ _ => SameTree.trans)
      (fun _ _ _ _ => sysCall_sameTree) hrun hmem
    by_contra hfit
    obtain ⟨e, he⟩ := sysOpen_overrun.mpr fun hu' => hfit (hu.pathFits.mp hu')
    rw [sysCall, he] at hc
    cases hc
  · intro hfit
    have hrel : Refines s s (files s) := ⟨hwf, represents_files s, .refl s⟩
    have hg' := hg.and (P := fun c => ∀ path, c = .sysOpen path → PathFits s path)
      fun c hc path hp => hfit path (hp ▸ hc)
    constructor
    · obtain ⟨s', hrun, href⟩ := (sys_simulates s).run hrel hg'
      exact ⟨s', hrun, href.represents⟩
    · exact (sys_simulates s).always
        (fun _ _ _ _ _ hr hok hc => eq_of_neg_one hr.wf hr.represents hok.1 hc) hrel hg'

/-- The file is opened, written and read back. -/
def sampleCalls : List SysCall :=
  [.sysOpen (text "/f"), .sysWrite 0 (fun _ => 0x61) 5 0x400300, .sysSeek 0 0, .sysRead 0 8]

/-- After `sys_open` on the sample a valid descriptor has the offset 0. -/
theorem opened_offset {r : Reply} (h : sysCall sampleFile (.sysOpen path) = .ok (r, s'))
    (hfd : validFd s' fd) :
    (s'.fdTable fd.toNat).offset = 0 ∧ s'.nodes = sampleFile.nodes := by
  obtain ⟨⟨ret, u⟩, ho, heq⟩ := map_eq_ok h
  obtain ⟨-, rfl⟩ := Prod.mk.inj heq
  have hfree (i : ℕ) : (sampleFile.fdTable i).used = false := by
    rw [sampleFile_eq]
    rfl
  obtain ⟨-, hs⟩ | ⟨node, -, -, i, -, -, -, hs⟩ := sysOpen_ok ho
  · have hused := hfd.2
    rw [hs, hfree] at hused
    exact Bool.noConfusion hused
  · have hused := hfd.2
    rw [hs] at hused ⊢
    dsimp only at hused ⊢
    by_cases hi : fd.toNat = i
    · rw [hi, Function.update_self]
      exact ⟨rfl, rfl⟩
    · rw [Function.update_of_ne hi, hfree] at hused
      exact Bool.noConfusion hused

theorem sampleCalls_allowed : Guarded sysCall Allowed sampleFile sampleCalls := by
  refine ⟨trivial, fun r s h => ⟨fun hfd _ => ?_, fun r s _ => ⟨trivial, fun r s' h =>
    ⟨fun hfd => ?_, fun _ _ _ => trivial⟩⟩⟩⟩
  · obtain ⟨hoff, hnodes⟩ := opened_offset h hfd
    rw [hoff]
    refine ⟨Nat.zero_le _, by decide, fun _ => ⟨by decide, by decide, fun a _ => .inr ?_⟩⟩
    obtain ⟨hdata, hcap⟩ := sampleFile_blank a
    rw [hnodes, hdata, hcap]
    exact Nat.zero_le _
  · obtain ⟨-, rfl⟩ := Prod.mk.inj (Except.ok.inj h)
    unfold sysSeek at hfd ⊢
    split_ifs at hfd ⊢ with hs
    · dsimp only
      rw [Function.update_self]
      show (0 : Word).toNat + (8 : Word).toNat < 2 ^ 31
      decide
    · exact absurd hfd hs

theorem sampleCalls_refines : DoesAsReference sampleFile sampleCalls := by
  refine (sys_refines_iff wf_sampleFile sampleCalls_allowed).mpr fun path hmem => ?_
  have hpath : path = text "/f" := by
    simp only [sampleCalls, List.mem_cons, SysCall.sysOpen.injEq, reduceCtorEq, List.not_mem_nil,
      or_false] at hmem
    exact hmem
  rw [hpath]
  decide +kernel

/-- A component of 200 characters runs over `part`. -/
theorem not_sys_refines : ¬ ∀ s cs, Wf s → Guarded sysCall Allowed s cs → DoesAsReference s cs := by
  intro h
  obtain ⟨⟨s', hrun, -⟩, -⟩ := h sampleFile [.sysOpen (List.replicate 200 0x61)] wf_sampleFile
    ⟨trivial, fun _ _ _ => trivial⟩
  have hfit : ¬ PathFits sampleFile (List.replicate 200 0x61) := by decide +kernel
  obtain ⟨e, he⟩ := sysOpen_overrun.mpr hfit
  rw [run, sysCall, he] at hrun
  cases hrun

/-! ### Trees that the calls build -/

/-- The calls that build trees: nodes are made at new addresses, and roots are nodes. -/
def Builds (s : FsState) : Call → Prop
  | .createInstance answer => answer ≠ 0 ∧ ¬ s.Live answer
  | .setRoot root => root = 0 ∨ s.Live root
  | .create parent _ _ answer => CreateAllocates s parent → answer ≠ 0 ∧ ¬ s.Live answer
  | .mount _ fsRoot => s.Live fsRoot
  | .sys c => Allowed s c

theorem Wf.sysCall {r : Reply} (h : Wf s) (hok : Allowed s c) (hc : sysCall s c = .ok (r, s')) : Wf s' := by
  have hfit (path : List Byte) (hp : c = .sysOpen path) : PathFits s path := by
    subst hp
    by_contra hfit
    obtain ⟨e, he⟩ := sysOpen_overrun.mpr hfit
    rw [Fs.sysCall, he] at hc
    cases hc
  obtain ⟨u, hu, href⟩ := sys_simulates s s (files s) c ⟨h, represents_files s, .refl s⟩ ⟨hok, hfit⟩
  obtain ⟨-, rfl⟩ := Prod.mk.inj (Except.ok.inj (hu.symm.trans hc))
  exact href.wf

theorem Wf.step {c : Call} (h : Wf s) (hok : Builds s c) (hc : after s c = some s') : Wf s' := by
  cases after_effect hc with
  | createInstance => exact h.createInstance hok.1 hok.2
  | setRoot => exact h.of_eq rfl hok h.mounts h.fds
  | full => exact h
  | create hparent hpriv hroom =>
    obtain ⟨h0, hnew⟩ := hok ⟨hparent, hpriv, hroom⟩
    exact h.linked h0 hnew hpriv
  | mount _ =>
    refine h.of_eq rfl h.root (fun m hm => ?_) h.fds
    obtain hm | hm := List.mem_append.mp hm
    · exact h.mounts m hm
    · rw [List.mem_singleton.mp hm]
      exact hok
  | sys hc => exact h.sysCall hok hc

/-- What the calls build from nothing is a tree of `ramfs` files. -/
theorem wf_of_reach (h : Reach fsMachine Builds s) : Wf s := by
  refine h.invariant (fun s hs => ?_) fun s c s' hs hok hc => ?_
  · obtain ⟨mem, table, rfl⟩ := hs
    exact wf_of_blank (fun _ => rfl) rfl rfl fun i hi => fdInit_used hi
  · exact hs.step hok hc

end SpatulaOS.Fs
