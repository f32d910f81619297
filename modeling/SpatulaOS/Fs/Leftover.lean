import SpatulaOS.Fs.Blocks
import SpatulaOS.Fs.Refinement
import SpatulaOS.Lib.History

/-!
# Bytes that were never written

`ramfs_write` copies the old contents into a larger buffer and lays the caller's bytes over it.
What is between the two it does not clear: a write behind the end of a file leaves
there what was in the block before, and a read delivers it. The runs are recorded with the byte
that `sys_write` last wrote at each position of each file. Every byte that is read is this
one or zero if no write leaves such a gap (`read_lastWritten`).
-/

namespace SpatulaOS.Fs

open ByteMemory Runs

variable {s s' : FsState} {t : FsState × (Word → ℕ → Option Byte)} {c : Call}
  {a b size answer offset : Word} {fd : ℤ}
  {i : ℕ} {ns : List Word} {buffer : ℕ → Byte}

/-! ### What was written -/

/-- The byte that was last written to a file at a position. -/
abbrev LastWritten := Word → ℕ → Option Byte

/-- What was last written, after a write of `size` bytes to the file `a`. -/
def LastWritten.write (h : LastWritten) (a : Word) (offset size : ℕ) (buffer : ℕ → Byte) :
    LastWritten := fun b i =>
  if b = a ∧ offset ≤ i ∧ i < offset + size then some (buffer (i - offset)) else h b i

theorem LastWritten.write_self {h : LastWritten} {n : ℕ} {off : ℕ} (hi : off ≤ i ∧ i < off + n) :
    h.write a off n buffer a i = some (buffer (i - off)) := if_pos ⟨rfl, hi⟩

theorem LastWritten.write_of_not {h : LastWritten} {n : ℕ} {off : ℕ}
    (hi : ¬ (b = a ∧ off ≤ i ∧ i < off + n)) :
    h.write a off n buffer b i = h b i := if_neg hi

/-- The descriptor is valid, and what it refers to is a file. -/
def WritesFile (s : FsState) (fd : ℤ) : Prop :=
  validFd s fd ∧ (s.nodes (s.fdTable fd.toNat).node).flags &&& VFS_DIR = 0

instance (s : FsState) (fd : ℤ) : Decidable (WritesFile s fd) := by unfold WritesFile; infer_instance

/-- What was last written, after a call. -/
def LastWritten.next (s : FsState) (h : LastWritten) (c : Call) (_ : FsState) : LastWritten :=
  match c with
  | .sys (.sysWrite fd buffer size _) =>
    let desc := s.fdTable fd.toNat
    if WritesFile s fd then h.write desc.node desc.offset.toNat size.toNat buffer else h
  | _ => h

/-- The calls on the file system, with what was last written. -/
def writtenMachine : Machine (FsState × LastWritten) Call :=
  fsMachine.record (fun _ _ => none) LastWritten.next

/-- The calls in question: neither a write to a file nor a read goes beyond 2^31, and `kmalloc`
answers with a new node or a fresh buffer. -/
def BelowLimit (s : FsState) : Call → Prop
  | .sys (.sysWrite fd _ size answer) => WritesFile s fd →
    let desc := s.fdTable fd.toNat
    desc.offset.toNat + size.toNat < 2 ^ 31 ∧
      (Grows s desc.node desc.offset size → FreshBuffer s answer (desc.offset + size))
  | c => Builds s c

/-- A write leaves no gap: it does not start behind the end of the file, or the buffer that the file has
then is zero between the end and the start already. -/
def LeavesNoGap (s : FsState) : Call → Prop
  | .sys (.sysWrite fd _ size answer) => WritesFile s fd →
    let desc := s.fdTable fd.toNat
    let n := s.nodes desc.node
    let data := if Grows s desc.node desc.offset size then answer else n.data
    ∀ i, n.size.toNat ≤ i → i < desc.offset.toNat → s.mem (byteAddr data i) = 0
  | _ => True

/-- Every byte that a read delivers is zero, or it was the last one written at its position. -/
def ReadsWritten (t : FsState × LastWritten) (fd : ℤ) (size : Word) : Prop :=
  ∀ ret out s', sysRead t.1 fd size = .ok (ret, out, s') → ∀ i, (hi : i < out.length) → out[i] = 0 ∨
    t.2 (t.1.fdTable fd.toNat).node ((t.1.fdTable fd.toNat).offset.toNat + i) = some out[i]

/-! ### The bytes of a file -/

/-- The byte of a file at a position. -/
def fileByte (s : FsState) (a : Word) (i : ℕ) : Byte := s.mem (byteAddr (s.nodes a).data i)

/-- What is in the buffer of the file when the caller's bytes are copied to it: the old contents, and
behind them what was there. -/
theorem grownMem_at (hwf : Wf s) (hw : WriteAllowed s a offset size answer)
    (hi : i < max (s.nodes a).size.toNat offset.toNat) :
    grownMem s a offset size answer (byteAddr (writtenNode s a offset size answer).data i) =
      if i < (s.nodes a).size.toNat then fileByte s a i
      else s.mem (byteAddr (writtenNode s a offset size answer).data i) := by
  have hlt := hw.lt
  have hlen := (represents_files s).length a hw.live
  split_ifs with hold
  · have hbyte := (represents_files s).grownMem hwf hw i (hlen.symm ▸ hold)
    rw [hbyte, ← (represents_files s).holds a hw.live i (hlen.symm ▸ hold)]
    rfl
  · unfold grownMem
    split_ifs with hg
    -- the old contents end before this byte
    · have hdata : (writtenNode s a offset size answer).data = answer := if_pos hg.1
      have hsize := (hwf.node a hw.live).size_lt
      rw [hdata]
      refine Mem.fill_of_ne fun j hj heq => hold ?_
      rw [byteAddr_inj (by omega) (by omega) heq]
      exact hj
    · rfl

/-- The bytes of a file after a write: the caller's bytes, the old ones, and between them what was in the
buffer. -/
theorem fileByte_written (hwf : Wf s) (hw : WriteAllowed s a offset size answer)
    (hi : i < max (s.nodes a).size.toNat (offset.toNat + size.toNat)) :
    fileByte (written s a offset size buffer answer) a i =
      if offset.toNat ≤ i ∧ i < offset.toNat + size.toNat then buffer (i - offset.toNat)
      else if i < (s.nodes a).size.toNat then fileByte s a i
      else s.mem (byteAddr (writtenNode s a offset size answer).data i) := by
  have hlt := hw.lt
  have hsize := (hwf.node a hw.live).size_lt
  rw [fileByte, written_nodes_self]
  by_cases hin : offset.toNat ≤ i ∧ i < offset.toNat + size.toNat
  · rw [if_pos hin]
    obtain ⟨j, rfl⟩ := Nat.exists_eq_add_of_le hin.1
    rw [Nat.add_sub_cancel_left, ← byteAddr_offset]
    exact Mem.copyIn_at _ _ (by omega) (by omega)
  · rw [if_neg hin, ← grownMem_at hwf hw (by omega)]
    refine Mem.fill_of_ne fun j hj heq => hin ?_
    rw [byteAddr_offset] at heq
    rw [byteAddr_inj (by omega) (by omega) heq]
    omega

theorem fileByte_written_of_ne (hwf : Wf s) (hw : WriteAllowed s a offset size answer)
    (hb : s.Live b) (hba : b ≠ a)
    (hi : i < (s.nodes b).size.toNat) :
    fileByte (written s a offset size buffer answer) b i = fileByte s b i := by
  have hroom := (hwf.node b hb).room
  have hle := (hwf.node b hb).size_le
  rw [fileByte, written_nodes_of_ne hba, fileByte]
  refine hw.keeps hwf _ ?_
  rw [toNat_byteAddr (by omega), Set.mem_Ico]
  obtain hapart | hapart := hw.apart hwf hb hba
  · omega
  · omega

/-! ### Every byte was written -/

/-- The invariant: every byte of a file is zero or was the last one written there. -/
structure AllWritten (t : FsState × LastWritten) : Prop where
  wf : Wf t.1
  byte : ∀ a, t.1.Live a → ∀ i, i < (t.1.nodes a).size.toNat →
    fileByte t.1 a i = 0 ∨ t.2 a i = some (fileByte t.1 a i)

theorem AllWritten.readsWritten (h : AllWritten t)
    (hlt : validFd t.1 fd → (t.1.fdTable fd.toNat).offset.toNat + size.toNat < 2 ^ 31) :
      ReadsWritten t fd size := by
  intro ret out s' hread i hi
  by_cases hfd : validFd t.1 fd
  · have hlive := h.wf.live_desc hfd
    have hpriv := (h.wf.node _ hlive).self
    have hlt := hlt hfd
    rw [sysRead, if_neg (not_not.mpr hfd)] at hread
    dsimp only at hread
    rw [if_neg (by rw [(h.wf.node _ hlive).ops]; exact Bool.noConfusion)] at hread
    obtain ⟨-, hout⟩ := Prod.mk.inj (Except.ok.inj hread)
    obtain ⟨rfl, -⟩ := Prod.mk.inj hout
    rw [ramfsRead_getElem hpriv hi]
    exact h.byte _ hlive _ (readsInside_of_lt hpriv (by omega) i hi)
  · rw [sysRead, if_pos hfd] at hread
    obtain ⟨-, hout⟩ := Prod.mk.inj (Except.ok.inj hread)
    obtain ⟨rfl, -⟩ := Prod.mk.inj hout
    exact absurd hi (Nat.not_lt_zero i)

/-- A call that changes no file: a node of the new state is empty, or it has the buffer and the size of
before. -/
theorem AllWritten.of_eq {h : LastWritten} (hi : AllWritten (s, h)) (hwf : Wf s') (hmem : s'.mem = s.mem)
    (hnodes : ∀ a, s'.Live a → (s'.nodes a).size = 0 ∨
      s.Live a ∧ (s'.nodes a).data = (s.nodes a).data ∧ (s'.nodes a).size = (s.nodes a).size) :
        AllWritten (s', h) := by
  refine ⟨hwf, fun a ha i hlt => ?_⟩
  obtain hzero | ⟨hlive, hdata, hsize⟩ := hnodes a ha
  · rw [hzero] at hlt
    exact absurd hlt (Nat.not_lt_zero i)
  · have hbyte := hi.byte a hlive i (hsize ▸ hlt)
    unfold fileByte at hbyte ⊢
    rw [hmem, hdata]
    exact hbyte

/-- The nodes behind a new one: they keep their buffers and sizes. -/
theorem nodes_linked {parent flags : Word} {name : List Byte} (hpriv : (s.nodes parent).fsPrivate = parent)
    (hne : parent ≠ answer) (ha : (linked s parent name flags answer).Live a) :
    ((linked s parent name flags answer).nodes a).size = 0 ∨
      s.Live a ∧ ((linked s parent name flags answer).nodes a).data = (s.nodes a).data ∧
        ((linked s parent name flags answer).nodes a).size = (s.nodes a).size := by
  by_cases haa : a = answer
  · left
    rw [haa, linked_nodes_answer name flags hpriv hne]
    rfl
  right
  by_cases hap : a = parent
  · rw [FsState.Live, hap, linked_nodes_parent name flags hpriv hne] at ha
    rw [hap, linked_nodes_parent name flags hpriv hne]
    exact ⟨ha, rfl, rfl⟩
  · rw [FsState.Live, linked_nodes_of_ne name flags hpriv haa hap] at ha
    rw [linked_nodes_of_ne name flags hpriv haa hap]
    exact ⟨ha, rfl, rfl⟩

/-- A write to a file keeps the invariant if it leaves no gap. -/
theorem AllWritten.write {h : LastWritten} (hi : AllWritten (s, h)) (hw : WriteAllowed s a offset size answer)
    (hgap : ∀ i, (s.nodes a).size.toNat ≤ i → i < offset.toNat →
      s.mem (byteAddr (writtenNode s a offset size answer).data i) = 0) :
    AllWritten (written s a offset size buffer answer, h.write a offset.toNat size.toNat buffer) := by
  have hlt := hw.lt
  refine ⟨hi.wf.written hw, fun b hb i hlen => ?_⟩
  rw [sameTree_written.live] at hb
  by_cases hba : b = a
  · subst hba
    dsimp only at hlen ⊢
    rw [written_nodes_self, size_writtenNode (by omega)] at hlen
    rw [fileByte_written hi.wf hw hlen]
    by_cases hin : offset.toNat ≤ i ∧ i < offset.toNat + size.toNat
    · right
      rw [if_pos hin, LastWritten.write_self hin]
    · rw [if_neg hin, LastWritten.write_of_not fun hand => hin hand.2]
      by_cases hold : i < (s.nodes b).size.toNat
      · rw [if_pos hold]
        exact hi.byte b hb i hold
      · rw [if_neg hold]
        exact .inl (hgap i (by omega) (by omega))
  · dsimp only at hlen ⊢
    rw [written_nodes_of_ne hba] at hlen
    rw [fileByte_written_of_ne hi.wf hw hb hba hlen, LastWritten.write_of_not fun hand => hba hand.1]
    exact hi.byte b hb i hlen

theorem nodes_createInstance (ha : (ramfsCreateInstance s answer).2.Live a) :
    ((ramfsCreateInstance s answer).2.nodes a).size = 0 ∨
      s.Live a ∧ ((ramfsCreateInstance s answer).2.nodes a).data = (s.nodes a).data ∧
        ((ramfsCreateInstance s answer).2.nodes a).size = (s.nodes a).size := by
  rw [ramfsCreateInstance_eq] at ha ⊢
  dsimp only [FsState.Live] at ha ⊢
  by_cases haa : a = answer
  · left
    rw [haa, Function.update_self]
  · rw [Function.update_of_ne haa] at ha ⊢
    exact .inr ⟨ha, rfl, rfl⟩

theorem sysWrite_file (hwf : Wf s) (hfile : WritesFile s fd) : sysWrite s fd buffer size answer =
    .ok (size.toInt,
      moveOffset (written s (s.fdTable fd.toNat).node (s.fdTable fd.toNat).offset size
      buffer answer)
      fd.toNat size.toInt) := by
  have hlive := hwf.live_desc hfile.1
  have hne := hwf.ne_zero hlive
  rw [sysWrite_valid hwf hfile.1, ramfsWrite_file hne (hwf.node _ hlive).self hne hfile.2]
  rfl

theorem AllWritten.moveOffset {h : LastWritten} (hi : AllWritten (s, h)) (hfd : validFd s fd) {count : ℤ} :
    AllWritten (moveOffset s fd.toNat count, h) := by
  unfold Fs.moveOffset
  split_ifs
  · exact hi.of_eq (hi.wf.setOffset hfd _) rfl fun a ha => .inr ⟨ha, rfl, rfl⟩
  · exact hi

/-- A call on descriptors keeps the invariant if it leaves no gap. -/
theorem AllWritten.sys {h : LastWritten} {c : SysCall} {r : Reply} (hi : AllWritten (s, h))
    (hok : BelowLimit s (.sys c)) (hgap : LeavesNoGap s (.sys c)) (hc : sysCall s c = .ok (r, s')) :
    AllWritten (s', LastWritten.next s h (.sys c) s') := by
  have hwf : Wf s := hi.wf
  have hquiet (hw : ∀ fd buffer size answer, c ≠ .sysWrite fd buffer size answer) : AllWritten (s', h) := by
    have hok' : Allowed s c := by
      cases c with
      | sysWrite fd buffer size answer => exact absurd rfl (hw fd buffer size answer)
      | _ => exact hok
    have hwf' := hwf.sysCall hok' hc
    have hnodes (heq : s'.nodes = s.nodes) (a : Word) (ha : s'.Live a) : (s'.nodes a).size = 0 ∨
        s.Live a ∧ (s'.nodes a).data = (s.nodes a).data ∧ (s'.nodes a).size = (s.nodes a).size := by
      rw [FsState.Live, heq] at ha
      rw [heq]
      exact .inr ⟨ha, rfl, rfl⟩
    cases sysCall_effect hc with
    | unchanged => exact hi
    | descriptor _ => exact hi.of_eq hwf' rfl (hnodes rfl)
    | write _ _ _ _ _ => exact absurd rfl (hw _ _ _ _)
  cases c with
  | sysWrite fd buffer size answer =>
    obtain ⟨⟨ret, u⟩, hw, heq⟩ := map_eq_ok hc
    obtain ⟨-, rfl⟩ := Prod.mk.inj heq
    dsimp only [LastWritten.next]
    by_cases hfile : WritesFile s fd
    · obtain ⟨hlt, hfresh⟩ := hok hfile
      have hallowed : WriteAllowed s (s.fdTable fd.toNat).node (s.fdTable fd.toNat).offset size answer :=
        ⟨hwf.live_desc hfile.1, hlt, hfresh⟩
      rw [sysWrite_file hwf hfile] at hw
      obtain ⟨-, rfl⟩ := Prod.mk.inj (Except.ok.inj hw)
      rw [if_pos hfile]
      exact (hi.write hallowed (hgap hfile)).moveOffset hfile.1
    · rw [if_neg hfile]
      obtain ⟨-, hs⟩ | ⟨desc, rfl, hfd, -, -, hflags, -⟩ := sysWrite_cases hw
      · rw [hs]
        exact hi
      · -- the node that is written is the one of the descriptor
        exact absurd ⟨hfd, hflags⟩ hfile
  | _ => exact hquiet fun _ _ _ _ => SysCall.noConfusion

/-- Every call keeps the invariant if it leaves no gap. -/
theorem AllWritten.step {h : LastWritten} (hi : AllWritten (s, h)) (hok : BelowLimit s c)
    (hgap : LeavesNoGap s c)
    (hs : after s c = some s') : AllWritten (s', LastWritten.next s h c s') := by
  have hwf : Wf s := hi.wf
  have hsame (a : Word) (ha : s.Live a) : (s.nodes a).size = 0 ∨
      s.Live a ∧ (s.nodes a).data = (s.nodes a).data ∧ (s.nodes a).size = (s.nodes a).size :=
        .inr ⟨ha, rfl, rfl⟩
  have hstep (hbuilds : Builds s c) : Wf s' := hwf.step hbuilds hs
  cases c with
  | createInstance answer =>
    have hwf' := hstep hok
    cases after_effect hs with
    | createInstance =>
      refine hi.of_eq hwf' ?_ fun a ha => nodes_createInstance ha
      rw [ramfsCreateInstance_eq]
  | setRoot root =>
    have hwf' := hstep hok
    cases after_effect hs with
    | setRoot => exact hi.of_eq hwf' rfl hsame
  | create parent name flags answer =>
    have hwf' := hstep hok
    cases after_effect hs with
    | full => exact hi
    | create hparent hpriv hroom =>
      obtain ⟨-, hnew⟩ := hok ⟨hparent, hpriv, hroom⟩
      have hne : parent ≠ answer := fun heq => hnew (heq ▸ hpriv)
      exact hi.of_eq hwf' rfl fun a ha => nodes_linked (hwf.node parent hpriv).self hne ha
  | mount path fsRoot =>
    have hwf' := hstep hok
    cases after_effect hs with
    | mount _ => exact hi.of_eq hwf' rfl hsame
  | sys c =>
    obtain ⟨r, hcall⟩ := after_eq_some.mp hs
    exact hi.sys hok hgap hcall

/-- **Every byte that is read was written, or it is zero**, in every run in which no write leaves a gap behind
the end of its file. -/
theorem read_lastWritten (ht : Reach writtenMachine (fun t c => BelowLimit t.1 c ∧ LeavesNoGap t.1 c) t)
    (hlt : validFd t.1 fd → (t.1.fdTable fd.toNat).offset.toNat + size.toNat < 2 ^ 31) :
      ReadsWritten t fd size := by
  refine (ht.invariant (I := AllWritten) ?_ ?_).readsWritten hlt
  · rintro ⟨s, h⟩ ⟨⟨mem, table, rfl⟩, -⟩
    exact ⟨wf_of_blank (fun _ => rfl) rfl rfl fun i hi => fdInit_used hi, fun a ha => absurd rfl ha⟩
  · rintro ⟨s, h⟩ c ⟨s', h'⟩ hi ⟨hok, hgap⟩ ⟨hs, hh⟩
    obtain rfl : h' = LastWritten.next s h c s' := hh
    exact hi.step hok hgap hs

/-! ### Runs on a sample -/

instance (a n b m : Word) : Decidable (BytesApart a n b m) := by unfold BytesApart; infer_instance

instance (s : FsState) : (c : Call) → Decidable (LeavesNoGap s c)
  | .sys (.sysWrite _ _ _ _) => by
    unfold LeavesNoGap
    infer_instance
  | .sys (.sysOpen _) | .sys (.sysRead _ _) | .sys (.sysClose _) | .sys (.sysSeek _ _) => .isTrue trivial
  | .createInstance _ | .create _ _ _ _ | .setRoot _ | .mount _ _ => .isTrue trivial

/-- A new buffer overlaps none of those of the blocks, where the nodes are. -/
def ApartFromBlocks (s : FsState) : Call → Prop
  | .setRoot root => s.Live root
  | .mount _ fsRoot => s.Live fsRoot
  | .sys (.sysWrite fd _ size answer) =>
    let desc := s.fdTable fd.toNat
    desc.offset.toNat + size.toNat < 2 ^ 31 ∧ answer ≠ 0 ∧
      answer.toNat + (desc.offset + size).toNat ≤ 2 ^ 32 ∧
      s.blocks.all fun b => BytesApart answer (desc.offset + size) (s.nodes b).data (s.nodes b).capacity
  | .sys (.sysRead fd size) => (s.fdTable fd.toNat).offset.toNat + size.toNat < 2 ^ 31
  | _ => True

instance (s : FsState) : (c : Call) → Decidable (ApartFromBlocks s c)
  | .setRoot root => inferInstanceAs (Decidable (s.Live root))
  | .mount _ fsRoot => inferInstanceAs (Decidable (s.Live fsRoot))
  | .sys (.sysWrite _ _ _ _) => by
    unfold ApartFromBlocks
    infer_instance
  | .sys (.sysRead fd size) =>
    inferInstanceAs (Decidable ((s.fdTable fd.toNat).offset.toNat + size.toNat < 2 ^ 31))
  | .sys (.sysOpen _) | .sys (.sysClose _) | .sys (.sysSeek _ _) => .isTrue trivial
  | .createInstance _ | .create _ _ _ _ => .isTrue trivial

/-- Such a call is one of those in question if `kmalloc` succeeds. -/
theorem belowLimit_of_blocks (ht : Tree s ns) (hk : KmallocSucceeds s c) (hc : ApartFromBlocks s c) :
    BelowLimit s c := by
  have hnew {answer : Word} (h : Fresh s answer) : answer ≠ 0 ∧ ¬ s.Live answer :=
    ⟨h.1, fun hlive => h.2 (ht.blocks (ht.mem hlive))⟩
  cases c with
  | createInstance answer => exact hnew hk
  | setRoot root => exact .inr hc
  | create parent name flags answer => exact fun halloc => hnew (hk halloc)
  | mount path fsRoot => exact hc
  | sys c =>
    cases c with
    | sysWrite fd buffer size answer =>
      obtain ⟨hlt, h0, hroom, hapart⟩ := hc
      refine fun _ => ⟨hlt, fun _ => ⟨h0, hroom, fun a ha => ?_⟩⟩
      exact of_decide_eq_true (List.all_eq_true.mp hapart a (ht.blocks (ht.mem ha)))
    | sysRead fd size => exact fun _ => hc
    | _ => trivial

theorem exists_written_reach (ok : FsState → Call → Prop) [∀ s c, Decidable (ok s c)] {α : Type*}
    {f : FsState × LastWritten → α} {v : α} (mem : Mem) (cs : List Call)
    (h : (exec (fun t c => if (KmallocSucceeds t.1 c ∧ ApartFromBlocks t.1 c) ∧ ok t.1 c then
      recordExec after LastWritten.next t c else none) (fdInit (.empty mem),
        fun _ _ => none) cs).map f = some v) :
    ∃ t, Reach writtenMachine (fun t c => BelowLimit t.1 c ∧ ok t.1 c) t ∧ f t = v := by
  obtain ⟨t, ht, rfl⟩ := Option.map_eq_some_iff.mp h
  have hstart : writtenMachine.start (fdInit (.empty mem), fun _ _ => none) := ⟨⟨mem, _, rfl⟩, rfl⟩
  have hrun : Reach writtenMachine (fun t c => (KmallocSucceeds t.1 c ∧ ApartFromBlocks t.1 c) ∧
      ok t.1 c) t :=
    Reach.exec_guarded (f := recordExec after LastWritten.next)
      (fun _ _ _ h => recordExec_step (fun _ _ _ h => h) h) (.start hstart) ht
  refine ⟨t, hrun.imp fun u c hu ⟨⟨hk, hc⟩, hok⟩ => ⟨?_, hok⟩, rfl⟩
  have hplain : Reach fsMachine KmallocSucceeds u.1 := (hu.imp fun _ _ _ h => h.1.1).forget
  obtain ⟨ns, htree⟩ := exists_tree hplain
  exact belowLimit_of_blocks htree hk hc

/-- A file is made and opened. -/
def openedFile : List Call :=
  [.createInstance 0x400018, .setRoot 0x400018, .create 0x400018 (text "f") VFS_FILE 0x400100,
    .sys (.sysOpen (text "/f"))]

/-- The letter x is written at the beginning and read back. -/
theorem read_lastWritten_x : ∃ t, Reach writtenMachine (fun t c => BelowLimit t.1 c ∧ LeavesNoGap t.1 c) t ∧
    (sysRead t.1 0 8).map (fun r => r.2.1) = .ok [0x78] ∧ ReadsWritten t 0 8 := by
  obtain ⟨t, ht, heq⟩ := exists_written_reach LeavesNoGap
    (f := fun t => ((t.1.fdTable 0).offset, (sysRead t.1 0 8).map fun r => r.2.1)) (v := (0, .ok [0x78]))
    (fun _ => 0x41)
    (openedFile ++ [.sys (.sysWrite 0 (fun _ => 0x78) 1 0x400300), .sys (.sysSeek 0 0)]) (by decide +kernel)
  obtain ⟨hoff, hread⟩ := Prod.mk.inj heq
  refine ⟨t, ht, hread, read_lastWritten ht fun _ => ?_⟩
  rw [show (t.1.fdTable (0 : ℤ).toNat).offset = 0 from hoff]
  decide

/-- It is written four bytes behind the beginning of an empty file: what was in the new block is
read as the first byte of the file. -/
theorem not_read_lastWritten : ¬ ∀ t, Reach writtenMachine (fun t c => BelowLimit t.1 c) t → ∀ fd size,
    (validFd t.1 fd → (t.1.fdTable fd.toNat).offset.toNat + size.toNat < 2 ^ 31) →
      ReadsWritten t fd size := by
  intro hall
  obtain ⟨t, ht, heq⟩ := exists_written_reach (fun _ _ => True)
    (f := fun t => (t.1.fdTable 0, t.2 0x400100 0, (sysRead t.1 0 8).map fun r => (r.1, r.2.1)))
    (v := (⟨true, 0x400100, 0⟩, none, .ok (5, [0x41, 0x41, 0x41, 0x41, 0x78]))) (fun _ => 0x41)
    (openedFile ++ [.sys (.sysSeek 0 4), .sys (.sysWrite 0 (fun _ => 0x78) 1 0x400300), .sys (.sysSeek 0 0)])
    (by decide +kernel)
  obtain ⟨hdesc, heq⟩ := Prod.mk.inj heq
  obtain ⟨hnone, hread⟩ := Prod.mk.inj heq
  obtain ⟨⟨ret, out, s'⟩, hread, heq⟩ := map_eq_ok hread
  obtain ⟨-, rfl⟩ := Prod.mk.inj heq
  have hdesc' : t.1.fdTable (0 : ℤ).toNat = ⟨true, 0x400100, 0⟩ := hdesc
  have hbyte :=
    hall t (ht.imp fun _ _ _ h => h.1) 0 8
    (fun _ => by rw [hdesc']; decide) _ _ _ hread 0 (by decide)
  rw [hdesc'] at hbyte
  obtain hzero | hwritten := hbyte
  · exact absurd hzero (by decide)
  · cases hnone.symm.trans hwritten

end SpatulaOS.Fs
