import SpatulaOS.Mm.Paging

/-!
# `map_page` with paging on

`paging_init` ends with paging turned on, so the table that `map_page` clears and stores to is
accessed at a virtual address, which the code takes for the physical one. A table whose page is not
present faults, and one whose page is mapped elsewhere is not the one that is changed. In both cases
the call does not do what it is asked.

Where the page of the table is mapped to itself the call is the one of `Mm.Paging`
(`Enabled.mapPage_eq`). As long as this is so at every call, and unless frame 0 becomes the first
table, `map_page` translates the page that it is given and no other one (`Enabled.mapsExactly`). The
code, the stack and the static data of the kernel are not part of the memory here; they are taken to
stay where they are.
-/

namespace SpatulaOS.Mm

open ByteMemory WordBitmap Runs SpatulaOS.Core

variable {s s' : Paging} {p : Pmm} {va va' pa t x : Word} {f g : ℕ}

/-! ### Accesses through the tables -/

/-- The physical address behind a virtual one, if its page is present. -/
def physical (s : Paging) (va : Word) : Option Word := (s.walk va).map fun r => r.1 ||| (va &&& 0xFFF)

/-- `*(uint32_t*)va = x`, or `none` if it faults. The words that are stored lie in one page each. -/
def storeVirtual (s : Paging) (va x : Word) : Option Paging :=
  (physical s va).map fun pa => { s with mem := s.mem.store pa x }

theorem frameAddr_or (hf : f < 2 ^ 20) (va : Word) :
    (frameAddr f ||| (va &&& 0xFFF)).toNat = f * 4096 + va.toNat % 4096 := by
  have hlow : (va &&& 0xFFF).toNat = va.toNat % 4096 := by
    rw [BitVec.toNat_and]
    exact Nat.and_two_pow_sub_one_eq_mod _ 12
  rw [BitVec.toNat_or, toNat_frameAddr hf, hlow, show f * 4096 = f <<< 12 from (Nat.shiftLeft_eq f 12).symm,
    Nat.shiftLeft_add_eq_or_of_lt (Nat.mod_lt _ (by decide))]

theorem physical_eq (h : s.walk va = some (frameAddr f, true)) :
    physical s va = some (frameAddr f ||| (va &&& 0xFFF)) := by
  rw [physical, h]
  rfl

theorem walk_of_page_eq (h : va' >>> 12 = va >>> 12) (s : Paging) : s.walk va' = s.walk va := by
  obtain ⟨hdir, htab⟩ := page_eq_iff.mp h
  unfold Paging.walk
  rw [hdir, htab]

/-- The entries of the table in a frame lie in its page. -/
theorem entryAddr_page {i : Word} (hf : f < 2 ^ 20) (hi : i.toNat < PAGE_ENTRIES) :
    (entryAddr (frameAddr f) i).toNat = f * 4096 + 4 * i.toNat ∧
      entryAddr (frameAddr f) i >>> 12 = frameAddr f >>> 12 := by
  unfold PAGE_ENTRIES at hi
  have hnat : (entryAddr (frameAddr f) i).toNat = f * 4096 + 4 * i.toNat := by
    rw [entryAddr_frameAddr, BitVec.toNat_ofNat]
    omega
  refine ⟨hnat, ?_⟩
  rw [← BitVec.toNat_inj, BitVec.toNat_ushiftRight, BitVec.toNat_ushiftRight, hnat, toNat_frameAddr hf,
    Nat.shiftRight_eq_div_pow, Nat.shiftRight_eq_div_pow]
  omega

/-- A store to a table whose page is mapped to itself. -/
theorem storeVirtual_entry {i : Word} (hf : f < 2 ^ 20)
    (hself : s.walk (frameAddr f) = some (frameAddr f, true))
    (hi : i.toNat < PAGE_ENTRIES) (x : Word) : storeVirtual s (entryAddr (frameAddr f) i) x =
      some { s with mem := s.mem.store (entryAddr (frameAddr f) i) x } := by
  obtain ⟨hnat, hpage⟩ := entryAddr_page hf hi
  unfold PAGE_ENTRIES at hi
  have haddr : frameAddr f ||| (entryAddr (frameAddr f) i &&& 0xFFF) = entryAddr (frameAddr f) i := by
    apply BitVec.eq_of_toNat_eq
    rw [frameAddr_or hf, hnat]
    omega
  rw [storeVirtual, physical_eq (f := f) (by rw [walk_of_page_eq hpage, hself]), haddr]
  rfl

namespace Enabled

/-! ### `map_page` -/

/-- `for (int i = 0; i < PAGE_ENTRIES; i++) table[i] = 0;` -/
def clearTable (s : Paging) (table : Word) : Option Paging :=
  (List.range' 0 PAGE_ENTRIES).foldlM (fun s i => storeVirtual s (entryAddr table (BitVec.ofNat 32 i)) 0) s

/-- The part of `map_page` that makes the table of `dir_index` exist. -/
def makeTable (s : Paging) (dir : ℕ) : Option Paging :=
  if s.pageTables dir = 0 then
    let r := pmmAllocFrame s.pmm
    let table := r.1
    (clearTable { s with pmm := r.2 } table).map fun s =>
      { s with
        pageDirectory := Function.update s.pageDirectory dir (table ||| PRESENT ||| WRITABLE)
        pageTables := Function.update s.pageTables dir table }
  else some s

/-- `map_page`, or `none` if one of its stores faults. -/
def mapPage (s : Paging) (va pa : Word) : Option Paging :=
  (makeTable s (dirIndex va)).bind fun s =>
    storeVirtual s (entryAddr (s.pageTables (dirIndex va)) (tableIndex va))
      (pa &&& 0xFFFFF000 ||| PRESENT ||| WRITABLE)

/-- The table that `map_page` stores to: the one of the slot, or the frame that it is about to get for it. -/
def tableOf (s : Paging) (va : Word) : Word :=
  if s.pageTables (dirIndex va) = 0 then (pmmAllocFrame s.pmm).1 else s.pageTables (dirIndex va)

/-- The page of that table is mapped to itself. -/
def TableSelf (s : Paging) (va : Word) : Prop := s.walk (tableOf s va) = some (tableOf s va, true)

instance instDecidableTableSelf (s : Paging) (va : Word) : Decidable (TableSelf s va) :=
  inferInstanceAs (Decidable (s.walk (tableOf s va) = some (tableOf s va, true)))

/-! ### Tables that are mapped to themselves -/

/-- A table that is cleared, when its page is mapped to itself through another table. -/
theorem clearTable_eq (hg : g < 2 ^ 20) (hself : s.walk (frameAddr g) = some (frameAddr g, true)) (hf : f < 2 ^ 20)
    (hl : s.pageDirectory (dirIndex (frameAddr g)) = entry (frameAddr f)) (hfg : f ≠ g) :
    clearTable s (frameAddr g) = some { s with mem := forEntries 0 (frameAddr g) (fun _ => 0) s.mem } := by
  have hloop (l : List ℕ) (hbound : ∀ i ∈ l, i < PAGE_ENTRIES) :
      l.foldlM (fun s i => storeVirtual s (entryAddr (frameAddr g) (BitVec.ofNat 32 i)) 0) s =
        some { s with mem := l.foldl (fun m i => m.store (entryAddr (frameAddr g) (BitVec.ofNat 32 i)) 0) s.mem } := by
    induction l generalizing s with
    | nil => rfl
    | cons i l ih =>
      obtain ⟨hi, hbound⟩ := List.forall_mem_cons.mp hbound
      have hnat : (BitVec.ofNat 32 i).toNat < PAGE_ENTRIES := by
        unfold PAGE_ENTRIES at *
        rw [BitVec.toNat_ofNat]
        omega
      have haddr := (entryAddr_page hg hnat).1
      rw [List.foldlM_cons, storeVirtual_entry hg hself hnat]
      -- the store changes the new table only
      obtain ⟨s₁, hs₁⟩ :
          ∃ s₁ : Paging, s₁ =
          { s with mem := s.mem.store (entryAddr (frameAddr g) (BitVec.ofNat 32 i)) 0 } :=
        ⟨_, rfl⟩
      have hk : Keeps (Set.Ico (g * 4096) (g * 4096 + 4096)) s.mem s₁.mem := by
        unfold PAGE_ENTRIES at hnat
        rw [hs₁, entryAddr_frameAddr]
        refine (keeps_store s.mem 0 (by omega)).mono (Set.Ico_subset_Ico ?_ ?_) <;> omega
      have hpd : s₁.pageDirectory = s.pageDirectory := by rw [hs₁]
      have hself₁ : s₁.walk (frameAddr g) = some (frameAddr g, true) :=
        (walk_of_apart hl hf (congrFun hpd _) hfg hk).trans hself
      rw [← hs₁]
      refine (ih hself₁ (by rw [hpd, hl]) hbound).trans ?_
      rw [hs₁]
      rfl
  exact hloop _ fun i hi => by simpa using List.mem_range'_1.mp hi

/-- A new table whose page is mapped to itself through another slot's is made as the one at its
physical address. -/
theorem makeTable_new {dir : ℕ} (h0 : s.pageTables dir = 0)
    (hr : (pmmAllocFrame s.pmm).1 = frameAddr g) (hg : g < 2 ^ 20)
    (hself : s.walk (frameAddr g) = some (frameAddr g, true)) (hf : f < 2 ^ 20)
    (hl : s.pageDirectory (dirIndex (frameAddr g)) = entry (frameAddr f)) (hfg : f ≠ g) :
    makeTable s dir = some (Mm.makeTable s dir) := by
  have hclear := clearTable_eq (s := { s with pmm := (pmmAllocFrame s.pmm).2 }) hg hself hf hl hfg
  unfold makeTable Mm.makeTable
  rw [if_pos h0, if_pos h0]
  dsimp only
  rw [hr, hclear, Option.map_some]

/-- The page of the table is mapped to itself, also when the table is new: then through another slot. -/
structure SelfMapped (s : Paging) (va : Word) (g : ℕ) : Prop where
  lt : g < 2 ^ 20
  table : tableOf s va = frameAddr g
  walk : s.walk (frameAddr g) = some (frameAddr g, true)
  slot : s.pageTables (dirIndex va) = 0 → dirIndex (frameAddr g) ≠ dirIndex va
  listed : s.pageTables (dirIndex va) = 0 →
    ∃ f, f < 2 ^ 20 ∧ f ≠ g ∧ s.pageDirectory (dirIndex (frameAddr g)) = entry (frameAddr f)

/-- The table that the call makes exist is the one at its physical address. -/
theorem SelfMapped.makeTable_eq (h : SelfMapped s va g) :
    makeTable s (dirIndex va) = some (Mm.makeTable s (dirIndex va)) ∧
    (Mm.makeTable s (dirIndex va)).pageTables (dirIndex va) = frameAddr g ∧
    (Mm.makeTable s (dirIndex va)).walk (frameAddr g) = some (frameAddr g, true) := by
  have htable := h.table
  unfold tableOf at htable
  by_cases h0 : s.pageTables (dirIndex va) = 0
  · rw [if_pos h0] at htable
    obtain ⟨f, hf, hfg, hl⟩ := h.listed h0
    obtain ⟨-, hmem, htr, -⟩ := makeTable_of_eq h0
    rw [htable] at hmem htr
    have hpd := (makeTable_slot s (h.slot h0)).2
    have hk : Keeps (Set.Ico (g * 4096) (g * 4096 + 4096)) s.mem (Mm.makeTable s (dirIndex va)).mem := by
      rw [hmem]
      exact (forEntries_frameAddr h.lt 0 _ _).1
    have hself : (Mm.makeTable s (dirIndex va)).walk (frameAddr g) = s.walk (frameAddr g) :=
      walk_of_apart hl hf hpd hfg hk
    exact ⟨makeTable_new h0 htable h.lt h.walk hf hl hfg, htr, hself.trans h.walk⟩
  · rw [if_neg h0] at htable
    rw [makeTable, if_neg h0, makeTable_of_ne h0]
    exact ⟨rfl, htable, h.walk⟩

theorem SelfMapped.tracked (h : SelfMapped s va g) (pa : Word) :
    (Mm.mapPage s va pa).pageTables (dirIndex va) = frameAddr g := h.makeTable_eq.2.1

/-- A call whose table is mapped to itself does what it does with the table at its physical address. -/
theorem SelfMapped.mapPage_eq (h : SelfMapped s va g) (pa : Word) :
    mapPage s va pa = some (Mm.mapPage s va pa) := by
  obtain ⟨hmake, htr, hself⟩ := h.makeTable_eq
  rw [mapPage, hmake, Option.bind_some, htr, storeVirtual_entry h.lt hself (tableIndex_lt va),
    Mm.mapPage, htr]

/-! ### Runs -/

/-- The table at address 0, which `paging_init` leaves if it gets no frame, does not map page 0. -/
structure Inv (s : Paging) : Prop where
  slots : s.Inv
  null : s.NoTable 0 → s.walk 0 = none

/-- The table of a call is a frame: the one of the slot, the next free one, or frame 0 if there is none. -/
theorem exists_tableOf (hi : s.Inv) (va : Word) : ∃ g, g < 2 ^ 20 ∧ tableOf s va = frameAddr g ∧
    (s.pageTables (dirIndex va) ≠ 0 ∧ s.IsTable (dirIndex va) g ∨
      s.pageTables (dirIndex va) = 0 ∧
        (g ∈ s.pmm.free ∧ g < s.pmm.searched ∨ g = 0 ∧ ∀ f ∈ s.pmm.free, s.pmm.searched ≤ f)) := by
  unfold tableOf
  by_cases h0 : s.pageTables (dirIndex va) = 0
  · rw [if_pos h0]
    obtain ⟨hr, hall⟩ | ⟨g, hg, hlt, -, hr⟩ := pmmAllocFrame_spec s.pmm
    · exact ⟨0, by decide, by rw [hr]; rfl, .inr ⟨h0, .inr ⟨rfl, hall⟩⟩⟩
    · exact ⟨g, Pmm.lt_of_mem_free hg, by rw [hr]; rfl, .inr ⟨h0, .inl ⟨hg, hlt⟩⟩⟩
  · rw [if_neg h0]
    obtain ⟨g, hg⟩ := hi.exists_table (dirIndex_lt va) h0
    exact ⟨g, hg.lt, hg.tracked, .inl ⟨h0, hg⟩⟩

/-- The page of a new table is mapped through another slot, which has a table. -/
theorem Inv.selfMapped (hi : Inv s) (h : TableSelf s va) : ∃ g, SelfMapped s va g := by
  obtain ⟨g, hg, ht, hor⟩ := exists_tableOf hi.slots va
  have hwalk : s.walk (frameAddr g) = some (frameAddr g, true) := ht ▸ h
  rcases hor with ⟨hne, -⟩ | ⟨h0, hframe⟩
  · exact ⟨g, hg, ht, hwalk, fun h0 => absurd h0 hne, fun h0 => absurd h0 hne⟩
  have hslot : ∃ f, s.IsTable (dirIndex (frameAddr g)) f := by
    obtain ⟨htr, hempty | ⟨hli, hall⟩⟩ | ht := hi.slots.slot _ (dirIndex_lt (frameAddr g))
    · rw [walk_of_eq_zero hempty] at hwalk
      cases hwalk
    · rcases hframe with ⟨hfree, hlt⟩ | ⟨rfl, -⟩
      · exact absurd hlt (Nat.not_lt_of_le (hall g hfree))
      · have hnone : s.walk (frameAddr 0) = none := hi.null ⟨htr, .inr ⟨hli, hall⟩⟩
        rw [hnone] at hwalk
        cases hwalk
    · exact ht
  obtain ⟨f, hf⟩ := hslot
  refine ⟨g, hg, ht, hwalk, fun _ hdir => hf.ne_zero (hdir ▸ h0), fun _ => ⟨f, hf.lt, ?_, hf.listed⟩⟩
  rintro rfl
  rcases hframe with ⟨hfree, -⟩ | ⟨hzero, -⟩
  · exact hi.slots.used _ _ (dirIndex_lt _) hf hfree
  · exact hf.pos.ne' hzero

/-- A call whose table is mapped to itself keeps the invariant. -/
theorem Inv.mapPage (hi : Inv s) (h : TableSelf s va) (pa : Word) : Inv (Mm.mapPage s va pa) := by
  refine ⟨hi.slots.mapPage va pa, fun hno => ?_⟩
  have hother (hne : 0 ≠ dirIndex va) : s.NoTable 0 :=
    (hi.slots.slot 0 (by decide)).resolve_right fun ⟨f, hf⟩ =>
      hf.ne_zero ((makeTable_slot s hne).1.symm.trans hno.1)
  by_cases ha : s.TableAvailable va
  · have hne : 0 ≠ dirIndex va := by
      intro h0
      obtain ⟨f, hf, -⟩ := hi.slots.exists_makeTable ha
      rw [← h0] at hf
      exact hf.ne_zero (h0 ▸ hno.1)
    rw [hi.slots.walk_mapPage ha, if_neg fun hpage =>
      hne ((show dirIndex 0 = 0 from rfl).symm.trans (page_eq_iff.mp hpage).1)]
    exact hi.null (hother hne)
  · -- the table is `NULL`, so page 0 is mapped to itself, by a table that stays
    obtain ⟨h0, hfail⟩ := not_or.mp ha
    have hnull : tableOf s va = 0 := by
      rw [tableOf, if_pos (not_not.mp h0), pmmAllocFrame, if_pos (not_not.mp hfail)]
    rw [TableSelf, hnull] at h
    have hne : 0 ≠ dirIndex va := by
      rintro hva
      obtain hnone | ⟨f, hf⟩ := hi.slots.slot 0 (by decide)
      · rw [hi.null hnone] at h
        cases h
      · exact hf.ne_zero (hva ▸ not_not.mp h0)
    rw [hi.null (hother hne)] at h
    cases h

/-- A loop over the entries from `start` on leaves those below alone. -/
theorem forEntries_below {start : ℕ} {i : Word} (hf : f < 2 ^ 20) (hi : i.toNat < start)
    (value : Word → Word) (m : Mem) :
    (forEntries start (frameAddr f) value m).load (entryAddr (frameAddr f) i) =
      m.load (entryAddr (frameAddr f) i) := by
  have hloop (l : List ℕ) (hl : ∀ j ∈ l, start ≤ j ∧ j < PAGE_ENTRIES) (m : Mem) :
      (l.foldl (fun m j =>
        m.store (entryAddr (frameAddr f) (BitVec.ofNat 32 j)) (value (BitVec.ofNat 32 j))) m).load
        (entryAddr (frameAddr f) i) = m.load (entryAddr (frameAddr f) i) := by
    induction l generalizing m with
    | nil => rfl
    | cons j l ih =>
      obtain ⟨⟨hlo, hhi⟩, hl⟩ := List.forall_mem_cons.mp hl
      unfold PAGE_ENTRIES at hhi
      have hj : (BitVec.ofNat 32 j).toNat = j := by
        rw [BitVec.toNat_ofNat]
        omega
      rw [List.foldl_cons, ih hl, entryAddr_frameAddr, entryAddr_frameAddr, hj]
      exact Mem.load_store_of_apart _ _ (by omega) (by omega) (by omega)
  refine hloop _ (fun j hj => ?_) m
  have hrange := List.mem_range'_1.mp hj
  unfold PAGE_ENTRIES at *
  omega

theorem walk_pagingInit_zero (s : Paging) : (pagingInit s).walk 0 = none := by
  obtain ⟨f, hf, hr⟩ := exists_firstTable s.pmm
  refine walk_of_entry_zero (x := frameAddr f) (pagingInit_eq s hf hr).2.1 ?_
  have hmem : (pagingInit s).mem = forEntries 1 (frameAddr f) (fun i => i * 4096 ||| PRESENT ||| WRITABLE)
      (forEntries 0 (frameAddr f) (fun _ => 0) s.mem) := by
    unfold pagingInit
    dsimp only
    rw [hr]
  have hzero : (tableIndex 0).toNat = 0 := rfl
  rw [frameAddr_and_page hf, hmem, forEntries_below hf (by omega)]
  exact (forEntries_frameAddr hf 0 _ _).2 _ (Nat.zero_le _) (tableIndex_lt 0)

theorem Inv.init (s : Paging) (hp : s.pmm.FirstTableNotNull) : Inv (pagingInit s) :=
  ⟨Paging.Inv.init s hp, fun _ => walk_pagingInit_zero s⟩

/-- Calls of `map_page(virtual_addr, physical_addr)` after `paging_init`, from the allocator `p`
and any contents of memory and of the static arrays on. -/
def pagingMachine (p : Pmm) : Machine Paging (Word × Word) where
  start s := ∃ m d t, s = pagingInit ⟨p, m, d, t⟩
  step s o s' := mapPage s o.1 o.2 = some s'

/-- A call of `map_page` changes what it is asked to change: it returns, the page of `va` is translated to the
page of `pa`, present and writable, and every other page as before. -/
def MapsExactly (s : Paging) (va pa : Word) : Prop :=
  ∃ s', mapPage s va pa = some s' ∧
    ∀ va', s'.walk va' = if va' >>> 12 = va >>> 12 then some (pa &&& 0xFFFFF000, true) else s.walk va'

theorem inv_of_reach (hp : p.FirstTableNotNull)
    (hs : Reach (pagingMachine p) (fun s o => TableSelf s o.1) s) : Inv s := by
  refine hs.invariant (I := Inv) ?_ ?_
  · rintro s ⟨m, d, t, rfl⟩
    exact .init ⟨p, m, d, t⟩ hp
  · rintro s ⟨va, pa⟩ s' hi hself hs'
    obtain ⟨g, hg⟩ := hi.selfMapped hself
    obtain rfl := Option.some.inj ((hg.mapPage_eq pa).symm.trans hs')
    exact hi.mapPage hself pa

/-- `map_page` does what it is asked after every run from `paging_init` on, if frame 0 is not free
at the start (or is the only free frame that the allocator finds), and as long as the page of the
table that a call stores to is mapped to itself. -/
theorem mapsExactly (hp : p.FirstTableNotNull) (hs : Reach (pagingMachine p) (fun s o => TableSelf s o.1) s)
    (ha : s.TableAvailable va) (hself : TableSelf s va) (pa : Word) : MapsExactly s va pa := by
  have hi := inv_of_reach hp hs
  obtain ⟨g, hg⟩ := hi.selfMapped hself
  exact ⟨_, hg.mapPage_eq pa, hi.slots.walk_mapPage ha pa⟩

/-- With frame 0 in use: a call that makes a table, and a call for the next page in it. -/
theorem lowFrame_mapsExactly : ∃ s s', Reach (pagingMachine lowFrame) (fun s o => TableSelf s o.1) s ∧
    mapPage s 0x801000 0x6123 = some s' ∧ s'.walk 0x801000 = some (0x6000, true) ∧
      s'.walk 0x800000 = some (0x5000, true) := by
  obtain ⟨s₀, hs₀⟩ : ∃ s₀, s₀ = pagingInit ⟨lowFrame, fun _ => 0, fun _ => 0, fun _ => 0⟩ := ⟨_, rfl⟩
  have hp : lowFrame.FirstTableNotNull := fun h => absurd h.1 (by decide)
  have hreach₀ : Reach (pagingMachine lowFrame) (fun s o => TableSelf s o.1) s₀ := .start ⟨_, _, _, hs₀⟩
  have hself₀ : TableSelf s₀ 0x800000 := by rw [hs₀]; decide +kernel
  obtain ⟨g, hg⟩ := (inv_of_reach hp hreach₀).selfMapped hself₀
  have hreach := hreach₀.step (o := (0x800000, 0x5000)) hself₀ (hg.mapPage_eq 0x5000)
  have hself : TableSelf (Mm.mapPage s₀ 0x800000 0x5000) 0x801000 := by rw [hs₀]; decide +kernel
  have ha : (Mm.mapPage s₀ 0x800000 0x5000).TableAvailable 0x801000 := by
    rw [hs₀]
    exact .inl (by decide +kernel)
  obtain ⟨s', hs', hwalk⟩ := mapsExactly hp hreach ha hself 0x6123
  refine ⟨_, s', hreach, hs', (hwalk 0x801000).trans (if_pos rfl), ?_⟩
  rw [hwalk, if_neg (by decide), hs₀]
  decide +kernel

/-- If the table of the first 4 MiB is at address 0, a call for these puts an empty table in its
place: the page of the new table itself is no longer mapped. -/
theorem mapPage_of_null (htr : s.pageTables 0 = 0) (hli : s.pageDirectory 0 = entry (frameAddr 0))
    (hr : (pmmAllocFrame s.pmm).1 = frameAddr g) (hpos : 0 < g) (hlow : g < 1024)
    (hself : s.walk (frameAddr g) = some (frameAddr g, true)) (pa : Word) : mapPage s 0 pa = none := by
  have hg : g < 2 ^ 20 := by omega
  have hdir : dirIndex (frameAddr g) = 0 := by
    rw [dirIndex_eq, toNat_frameAddr hg]
    omega
  have hmake : makeTable s 0 = some (Mm.makeTable s 0) :=
    makeTable_new htr hr hg hself (by decide) (hdir ▸ hli) hpos.ne
  obtain ⟨-, hmem, htr', hli'⟩ := makeTable_of_eq htr
  rw [hr] at hmem htr' hli'
  have hempty : (Mm.makeTable s 0).walk (frameAddr g) = none := by
    refine walk_of_entry_zero (x := frameAddr g) (hdir ▸ hli') ?_
    rw [frameAddr_and_page hg, hmem]
    exact (forEntries_frameAddr hg 0 (fun _ => 0) _).2 _ (Nat.zero_le _) (tableIndex_lt _)
  rw [mapPage, show dirIndex 0 = 0 from rfl, hmake, Option.bind_some, htr', storeVirtual, physical,
    walk_of_page_eq (entryAddr_page hg (tableIndex_lt 0)).2, hempty]
  rfl

/-- 64 frames, all free: `paging_init` takes frame 0 for its table. -/
theorem not_mapsExactly : ¬ ∀ p : Pmm, 2 ≤ p.free.card →
    ∀ s, Reach (pagingMachine p) (fun _ _ => True) s → ∀ va pa, s.TableAvailable va →
      MapsExactly s va pa := by
  intro h
  obtain ⟨s, hs⟩ : ∃ s, s = pagingInit ⟨allFree, fun _ => 0, fun _ => 0, fun _ => 0⟩ := ⟨_, rfl⟩
  have htr : s.pageTables 0 = 0 := by rw [hs]; decide +kernel
  have hli : s.pageDirectory 0 = entry (frameAddr 0) := by rw [hs]; decide +kernel
  have hr : (pmmAllocFrame s.pmm).1 = frameAddr 1 := by rw [hs]; decide +kernel
  have hself : s.walk (frameAddr 1) = some (frameAddr 1, true) := by rw [hs]; decide +kernel
  have ha : s.TableAvailable 0 := by rw [hs]; exact .inr (by decide +kernel)
  obtain ⟨s', hs', -⟩ := h allFree (by decide) s (.start ⟨_, _, _, hs⟩) 0 0 ha
  rw [mapPage_of_null htr hli hr (by decide) (by decide) hself] at hs'
  cases hs'

end Enabled

end SpatulaOS.Mm
