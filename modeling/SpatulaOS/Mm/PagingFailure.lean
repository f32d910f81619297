import SpatulaOS.Mm.Paging

/-!
# `map_page` without a frame for its table

`map_page` does not test what `pmm_alloc_frame` returns. With no frame it takes the
`NULL` for a table: it clears the words from address 0 on, puts address 0 in the
directory and stores the entry there. The tracked table is `NULL` as before. The call
leaves everything as it was only if an earlier call did the same (`unchanged_iff`).
-/

namespace SpatulaOS.Mm

open ByteMemory WordBitmap Runs SpatulaOS.Core

variable {s s' : Paging} {m m' : Mem} {p : Pmm} {va pa t i : Word} {d : ℕ}

/-! ### What there is to change -/

/-- There is a page table at `t`: the directory has it, or it is tracked. -/
def Paging.ExistingTable (s : Paging) (t : Word) : Prop :=
  ∃ d, d < PAGE_ENTRIES ∧
    (s.pageDirectory d &&& PRESENT ≠ 0 ∧ t = s.pageDirectory d &&& 0xFFFFF000 ∨
      s.pageTables d ≠ 0 ∧ t = s.pageTables d)

/-- The paging state `s'` is `s`: the directory, the tracked tables, the entries of the tables
that exist in `s`, and so the walk of every address. -/
structure Paging.Unchanged (s s' : Paging) : Prop where
  directory : s'.pageDirectory = s.pageDirectory
  tables : s'.pageTables = s.pageTables
  entries : ∀ t, s.ExistingTable t → ∀ i : Word, i.toNat < PAGE_ENTRIES →
    s'.mem.load (entryAddr t i) = s.mem.load (entryAddr t i)
  walk : ∀ va, s'.walk va = s.walk va

theorem Paging.Unchanged.of_entries (hd : s'.pageDirectory = s.pageDirectory)
    (ht : s'.pageTables = s.pageTables)
    (he : ∀ t, s.ExistingTable t → ∀ i : Word, i.toNat < PAGE_ENTRIES →
      s'.mem.load (entryAddr t i) = s.mem.load (entryAddr t i)) : s.Unchanged s' := by
  refine ⟨hd, ht, he, fun va => ?_⟩
  unfold Paging.walk
  rw [hd]
  dsimp only
  by_cases hpresent : s.pageDirectory (dirIndex va) &&& PRESENT = 0
  · rw [if_pos hpresent, if_pos hpresent]
  · rw [he _ ⟨_, dirIndex_lt va, .inl ⟨hpresent, rfl⟩⟩ _ (tableIndex_lt va)]

/-! ### The call that fails -/

/-- A failed allocation returns `NULL` and leaves the allocator alone. -/
theorem pmmAllocFrame_failed (hfail : firstFreeFrame p = -1) : pmmAllocFrame p = (0, p) := by
  unfold pmmAllocFrame
  exact if_pos hfail

/-- With no frame, the directory gets the table at address 0, which is cleared but for the entry
of `va`. -/
theorem mapPage_failed (h0 : s.pageTables (dirIndex va) = 0) (hfail : firstFreeFrame s.pmm = -1) :
    mapPage s va pa =
    { pmm := s.pmm
      mem := (forEntries 0 0 (fun _ => 0) s.mem).store (entryAddr 0 (tableIndex va))
        (entry (pa &&& 0xFFFFF000))
      pageDirectory := Function.update s.pageDirectory (dirIndex va) (entry 0)
      pageTables := s.pageTables } := by
  have htables : Function.update s.pageTables (dirIndex va) 0 = s.pageTables := by
    rw [← h0, Function.update_eq_self]
  unfold mapPage makeTable
  rw [if_pos h0, pmmAllocFrame_failed hfail]
  dsimp only
  rw [htables, h0]

theorem entryAddr_zero (i : Word) : entryAddr 0 i = BitVec.ofNat 32 (4 * i.toNat) := by
  have h := entryAddr_frameAddr 0 i
  rwa [Nat.zero_mul, Nat.zero_add] at h

theorem load_failed (m : Mem) (x : Word) (hi : i.toNat < PAGE_ENTRIES) :
    ((forEntries 0 0 (fun _ => 0) m).store (entryAddr 0 (tableIndex va)) x).load (entryAddr 0 i) =
      if i = tableIndex va then x else 0 := by
  have hva := tableIndex_lt va
  unfold PAGE_ENTRIES at hi hva
  split_ifs with hiva
  · rw [hiva, Mem.load_store_self]
  · have hne : i.toNat ≠ (tableIndex va).toNat := fun h => hiva (BitVec.eq_of_toNat_eq h)
    rw [entryAddr_zero, entryAddr_zero, Mem.load_store_of_apart _ _ (by omega) (by omega) (by omega),
      ← entryAddr_zero]
    exact (forEntries_frameAddr (f := 0) (by decide) 0 (fun _ => 0) m).2 i (Nat.zero_le _) hi

theorem keeps_failed (m : Mem) (va x : Word) : Keeps (Set.Ico 0 4096) m
    ((forEntries 0 0 (fun _ => 0) m).store (entryAddr 0 (tableIndex va)) x) := by
  have hva := tableIndex_lt va
  unfold PAGE_ENTRIES at hva
  have hclear := (forEntries_frameAddr (f := 0) (by decide) 0 (fun _ => 0) m).1
  rw [Nat.zero_mul, Nat.zero_add] at hclear
  rw [entryAddr_zero]
  exact hclear.store x (by omega) (Set.Ico_subset_Ico (Nat.zero_le _) (by omega))

theorem eq_of_keeps_frame (hk : Keeps (Set.Ico 0 4096) m m')
    (hw : ∀ i : Word, i.toNat < PAGE_ENTRIES → m'.load (entryAddr 0 i) = m.load (entryAddr 0 i)) :
      m' = m := by
  funext x
  by_cases hx : x.toNat < 4096
  swap
  · exact hk x fun h => hx h.2
  · have hdiv : (BitVec.ofNat 32 (x.toNat / 4)).toNat = x.toNat / 4 := by
      rw [BitVec.toNat_ofNat]
      omega
    have hx' : x = entryAddr 0 (BitVec.ofNat 32 (x.toNat / 4)) + BitVec.ofNat 32 (x.toNat % 4) := by
      rw [entryAddr_zero, hdiv, ← BitVec.ofNat_add, Nat.div_add_mod, BitVec.ofNat_toNat, BitVec.setWidth_eq]
    have hload := hw (BitVec.ofNat 32 (x.toNat / 4)) (by rw [hdiv]; unfold PAGE_ENTRIES; omega)
    have hbyte := congrArg (fun v : Word => v.extractLsb' (8 * (x.toNat % 4)) 8) hload
    simp only [Mem.load_byte _ _ (Nat.mod_lt x.toNat (by decide : 0 < 4)), ← hx'] at hbyte
    exact hbyte

/-! ### When nothing changes -/

/-- The condition: the directory has the table at address 0 in the slot, and this table has the
entry asked for and no other. It is what an earlier call without a frame left. -/
def Paging.LeftByFailure (s : Paging) (va pa : Word) : Prop :=
  s.pageDirectory (dirIndex va) = entry 0 ∧ ∀ i : Word, i.toNat < PAGE_ENTRIES →
    s.mem.load (entryAddr 0 i) = if i = tableIndex va then entry (pa &&& 0xFFFFF000) else 0

theorem leftByFailure_mapPage (pa : Word) (h0 : s.pageTables (dirIndex va) = 0)
    (hfail : firstFreeFrame s.pmm = -1) :
    (mapPage s va pa).LeftByFailure va pa := by
  rw [mapPage_failed h0 hfail]
  exact ⟨Function.update_self _ _ _, fun i hi => load_failed _ _ hi⟩

/-- After a failed call the table is still missing, and there is still no frame. -/
theorem mapPage_failed_again (pa : Word) (h0 : s.pageTables (dirIndex va) = 0)
    (hfail : firstFreeFrame s.pmm = -1) :
    (mapPage s va pa).pageTables (dirIndex va) = 0 ∧ firstFreeFrame (mapPage s va pa).pmm = -1 := by
  rw [mapPage_failed h0 hfail]
  exact ⟨h0, hfail⟩

/-- **A call of `map_page` that needs a table and gets no frame leaves the paging state unchanged
exactly if it repeats an earlier one.** -/
theorem unchanged_iff (h0 : s.pageTables (dirIndex va) = 0) (hfail : firstFreeFrame s.pmm = -1) :
    s.Unchanged (mapPage s va pa) ↔ s.LeftByFailure va pa := by
  constructor
  · intro hun
    obtain ⟨hdir, hleft⟩ := leftByFailure_mapPage pa h0 hfail
    rw [hun.directory] at hdir
    -- the directory has the table at address 0 before the call, so the call may not change it
    have htable : s.ExistingTable 0 := by
      refine ⟨_, dirIndex_lt va, .inl ⟨?_, ?_⟩⟩
      · rw [hdir]
        exact entry_and_present 0
      · rw [hdir]
        rfl
    exact ⟨hdir, fun i hi => (hun.entries 0 htable i hi).symm.trans (hleft i hi)⟩
  · rintro ⟨hdir, hleft⟩
    rw [mapPage_failed h0 hfail]
    refine .of_entries ?_ rfl fun t _ i _ => ?_
    · rw [← hdir]
      exact Function.update_eq_self _ _
    · dsimp only
      rw [eq_of_keeps_frame (keeps_failed s.mem va _) fun i hi =>
        (load_failed _ _ hi).trans (hleft i hi).symm]

/-- 32 frames, of which only frame 1 is free. -/
def oneFree : Pmm := ⟨fun _ => 0xFFFFFFFD, 32, by decide⟩

/-- After `paging_init` took the free frame, and page 0 was mapped to itself. -/
def outOfFrames : Paging := mapPage (pagingInit ⟨oneFree, fun _ => 0, fun _ => 0, fun _ => 0⟩) 0 0

theorem outOfFrames_spec : outOfFrames.pageTables (dirIndex 0x400000) = 0 ∧ outOfFrames.pageDirectory 1 = 0 ∧
    outOfFrames.pmm.free = ∅ ∧ firstFreeFrame outOfFrames.pmm = -1 := by
  decide +kernel

/-- The second of two equal calls. -/
theorem repeated_unchanged : (mapPage outOfFrames 0x400000 0x5000).Unchanged
    (mapPage (mapPage outOfFrames 0x400000 0x5000) 0x400000 0x5000) := by
  obtain ⟨h0, -, -, hfail⟩ := outOfFrames_spec
  obtain ⟨h0', hfail'⟩ := mapPage_failed_again 0x5000 h0 hfail
  exact (unchanged_iff h0' hfail').mpr (leftByFailure_mapPage _ h0 hfail)

/-- The first of them puts a table in a slot of the directory that had none. -/
theorem not_unchanged : ¬ ∀ (s : Paging) va pa, s.pageTables (dirIndex va) = 0 → s.pmm.free = ∅ →
    s.Unchanged (mapPage s va pa) := by
  intro hall
  obtain ⟨h0, hdir, hfree, hfail⟩ := outOfFrames_spec
  have hsame := congrFun (hall outOfFrames 0x400000 0x5000 h0 hfree).directory 1
  rw [mapPage_failed h0 hfail, hdir] at hsame
  dsimp only at hsame
  rw [show dirIndex 0x400000 = 1 from rfl, Function.update_self] at hsame
  exact absurd hsame (by decide)

end SpatulaOS.Mm
