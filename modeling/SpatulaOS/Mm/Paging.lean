import SpatulaOS.Mm.PmmFrames

/-!
# Paging

`paging_init` and `map_page` of `mm/paging.c`. The page directory and the array
`page_tables`, which tracks the tables that exist, are static arrays of the kernel; they
are modelled as functions of the index, apart from the memory that holds the tables. What
the hardware makes of the directory and the tables is `Paging.walk`.

Here `map_page` accesses a page table at its physical address. That is what the code means
by the pointers that it stores to, but not what paging makes of them: the calls with paging
on are in `Mm.PagingOn`, which also says when the two are the same.

A slot of the directory and its tracked table agree in every run unless frame 0 is free
at the start (`Paging.Inv`): then `paging_init` puts its table at address 0, which
`map_page` takes for a table that is missing.
-/

namespace SpatulaOS.Mm

open ByteMemory WordBitmap SpatulaOS.Core

/-- `PAGE_ENTRIES`. -/
abbrev PAGE_ENTRIES : ℕ := 1024

/-- `PRESENT`. -/
abbrev PRESENT : Word := 0x1

/-- `WRITABLE`. -/
abbrev WRITABLE : Word := 0x2

/-- The frame allocator, physical memory, and the static arrays of `mm/paging.c`. -/
structure Paging where
  /-- The frame allocator. -/
  pmm : Pmm
  /-- Physical memory. -/
  mem : Mem
  /-- `page_directory` -/
  pageDirectory : ℕ → Word
  /-- `page_tables` -/
  pageTables : ℕ → Word

/-! ### `paging_init` and `map_page` -/

/-- The address of `table[i]`. -/
def entryAddr (table i : Word) : Word := table + 4 * i

/-- `for (int i = start; i < PAGE_ENTRIES; i++) table[i] = value(i);` -/
def forEntries (start : ℕ) (table : Word) (value : Word → Word) (m : Mem) : Mem :=
  (List.range' start (PAGE_ENTRIES - start)).foldl
    (fun m i => m.store (entryAddr table (BitVec.ofNat 32 i)) (value (BitVec.ofNat 32 i))) m

/-- `virtual_addr >> 22`. -/
def dirIndex (va : Word) : ℕ := (va >>> 22).toNat

/-- `(virtual_addr >> 12) & 0x03FF`. -/
def tableIndex (va : Word) : Word := (va >>> 12) &&& 0x03FF

/-- `paging_init`. -/
def pagingInit (s : Paging) : Paging :=
  let pageDirectory := (List.range PAGE_ENTRIES).foldl (fun d i => Function.update d i 0) s.pageDirectory
  let pageTables := (List.range PAGE_ENTRIES).foldl (fun t i => Function.update t i 0) s.pageTables
  let r := pmmAllocFrame s.pmm
  let firstTable := r.1
  let mem := forEntries 0 firstTable (fun _ => 0) s.mem
  let mem := forEntries 1 firstTable (fun i => i * 4096 ||| PRESENT ||| WRITABLE) mem
  { pmm := r.2
    mem := mem
    pageDirectory := Function.update pageDirectory 0 (firstTable ||| PRESENT ||| WRITABLE)
    pageTables := Function.update pageTables 0 firstTable }

/-- The part of `map_page` that makes the table of `dir_index` exist, if the table is accessed at
its physical address. -/
def makeTable (s : Paging) (dir : ℕ) : Paging :=
  if s.pageTables dir = 0 then
    let r := pmmAllocFrame s.pmm
    let table := r.1
    { pmm := r.2
      mem := forEntries 0 table (fun _ => 0) s.mem
      pageDirectory := Function.update s.pageDirectory dir (table ||| PRESENT ||| WRITABLE)
      pageTables := Function.update s.pageTables dir table }
  else s

/-- `map_page`, if the table is accessed at its physical address. -/
def mapPage (s : Paging) (va pa : Word) : Paging :=
  let s := makeTable s (dirIndex va)
  { s with
    mem := s.mem.store (entryAddr (s.pageTables (dirIndex va)) (tableIndex va))
      (pa &&& 0xFFFFF000 ||| PRESENT ||| WRITABLE) }

/-- The hardware's walk from `page_directory`: the physical page of a virtual address, and
whether it may be written, or `none` if it is not present. -/
def Paging.walk (s : Paging) (va : Word) : Option (Word × Bool) :=
  let pde := s.pageDirectory (dirIndex va)
  if pde &&& PRESENT = 0 then none
  else
    let pte := s.mem.load (entryAddr (pde &&& 0xFFFFF000) (tableIndex va))
    if pte &&& PRESENT = 0 then none
    else some (pte &&& 0xFFFFF000, decide (pde &&& pte &&& WRITABLE ≠ 0))

variable {s s' : Paging} {p : Pmm} {va va' x y : Word} {d e f g i : ℕ}

/-! ### Entries and indices -/

/-- A table or directory entry for the page at `x`. -/
abbrev entry (x : Word) : Word := x ||| PRESENT ||| WRITABLE

theorem entry_and_present (x : Word) : entry x &&& PRESENT ≠ 0 := by
  intro h
  have hbit := congrArg (fun y => y.getLsbD 0) h
  simp at hbit

theorem entry_and_page (x : Word) : entry x &&& 0xFFFFF000 = x &&& 0xFFFFF000 := by
  rw [BitVec.and_or_distrib_right, BitVec.and_or_distrib_right]
  exact (BitVec.or_zero).trans BitVec.or_zero

theorem entry_and_writable (x y : Word) : entry x &&& entry y &&& WRITABLE ≠ 0 := by
  intro h
  have hbit := congrArg (fun y => y.getLsbD 1) h
  simp at hbit

theorem and_page_idem (x : Word) : x &&& 0xFFFFF000 &&& 0xFFFFF000 = x &&& 0xFFFFF000 := by
  rw [BitVec.and_assoc]
  rfl

theorem toNat_and_page (x : Word) : (x &&& 0xFFFFF000).toNat = x.toNat / 4096 * 4096 :=
  toNat_and_not_low x 12

theorem frameAddr_and_page (hf : f < 2 ^ 20) : frameAddr f &&& 0xFFFFF000 = frameAddr f := by
  apply BitVec.eq_of_toNat_eq
  rw [toNat_and_page, toNat_frameAddr hf, Nat.mul_div_cancel f (by decide)]

theorem dirIndex_eq (va : Word) : dirIndex va = va.toNat / 2 ^ 22 := by
  rw [dirIndex, BitVec.toNat_ushiftRight, Nat.shiftRight_eq_div_pow]

theorem dirIndex_lt (va : Word) : dirIndex va < PAGE_ENTRIES := by
  rw [dirIndex_eq]
  unfold PAGE_ENTRIES
  omega

theorem toNat_tableIndex (va : Word) : (tableIndex va).toNat = va.toNat / 2 ^ 12 % 1024 := by
  rw [tableIndex, BitVec.toNat_and, BitVec.toNat_ushiftRight, Nat.shiftRight_eq_div_pow]
  exact Nat.and_two_pow_sub_one_eq_mod _ 10

theorem tableIndex_lt (va : Word) : (tableIndex va).toNat < PAGE_ENTRIES := by
  rw [toNat_tableIndex]
  exact Nat.mod_lt _ (by decide)

/-- Two addresses lie in one page if their indices agree. -/
theorem page_eq_iff : va' >>> 12 = va >>> 12 ↔ dirIndex va' = dirIndex va ∧
    tableIndex va' = tableIndex va := by
  rw [← BitVec.toNat_inj, ← BitVec.toNat_inj, toNat_tableIndex, toNat_tableIndex, dirIndex_eq, dirIndex_eq,
    BitVec.toNat_ushiftRight, BitVec.toNat_ushiftRight, Nat.shiftRight_eq_div_pow, Nat.shiftRight_eq_div_pow]
  omega

theorem entryAddr_frameAddr (f : ℕ) (i : Word) :
    entryAddr (frameAddr f) i = BitVec.ofNat 32 (f * 4096 + 4 * i.toNat) := by
  rw [entryAddr, frameAddr, BitVec.ofNat_add, BitVec.ofNat_mul 4, BitVec.ofNat_toNat, BitVec.setWidth_eq]
  rfl

/-! ### The loops -/

/-- The entries of a table in a frame after a loop over them; the loop writes in the frame only. -/
theorem forEntries_frameAddr (hf : f < 2 ^ 20) (start : ℕ) (value : Word → Word) (m : Mem) :
    Keeps (Set.Ico (f * 4096) (f * 4096 + 4096)) m (forEntries start (frameAddr f) value m) ∧
    ∀ i : Word, start ≤ i.toNat → i.toNat < PAGE_ENTRIES →
      (forEntries start (frameAddr f) value m).load (entryAddr (frameAddr f) i) = value i := by
  have hrun (n : ℕ) (hn : start + n ≤ PAGE_ENTRIES) :
      Keeps (Set.Ico (f * 4096) (f * 4096 + 4096)) m ((List.range' start n).foldl
        (fun m i => m.store (entryAddr (frameAddr f) (BitVec.ofNat 32 i)) (value (BitVec.ofNat 32 i))) m) ∧
      ∀ i : Word, start ≤ i.toNat → i.toNat < start + n → ((List.range' start n).foldl
        (fun m i => m.store (entryAddr (frameAddr f) (BitVec.ofNat 32 i)) (value (BitVec.ofNat 32 i))) m).load
        (entryAddr (frameAddr f) i) = value i := by
    unfold PAGE_ENTRIES at hn
    induction n with
    | zero => exact ⟨Keeps.refl _ _, fun i h1 h2 => absurd h1 (Nat.not_le_of_lt h2)⟩
    | succ n ih =>
      obtain ⟨hk, hl⟩ := ih (by omega)
      have hlast : (BitVec.ofNat 32 (start + n)).toNat = start + n := by
        rw [BitVec.toNat_ofNat]
        omega
      rw [List.range'_concat, List.foldl_append, List.foldl_cons, List.foldl_nil, Nat.one_mul,
        entryAddr_frameAddr,
        hlast]
      constructor
      · refine hk.store _ (by omega) (Set.Ico_subset_Ico ?_ ?_) <;> omega
      · intro i h1 h2
        by_cases hi : i.toNat = start + n
        · obtain rfl : i = BitVec.ofNat 32 (start + n) := by rw [← hi, BitVec.ofNat_toNat, BitVec.setWidth_eq]
          rw [entryAddr_frameAddr, hlast, Mem.load_store_self]
        · rw [entryAddr_frameAddr, Mem.load_store_of_apart _ _ (by omega) (by omega) (by omega),
            ← entryAddr_frameAddr]
          exact hl i h1 (by omega)
  by_cases hstart : start ≤ PAGE_ENTRIES
  · obtain ⟨hk, hl⟩ := hrun (PAGE_ENTRIES - start) (by omega)
    exact ⟨hk, fun i h1 h2 => hl i h1 (by omega)⟩
  · rw [forEntries, Nat.sub_eq_zero_of_le (Nat.le_of_not_le hstart)]
    exact ⟨Keeps.refl _ _, fun i h1 h2 => absurd (h1.trans h2.le) hstart⟩

/-! ### The invariant -/

/-- The table of slot `d` is the frame `f`, and the directory has it. -/
structure Paging.IsTable (s : Paging) (d f : ℕ) : Prop where
  pos : 0 < f
  lt : f < 2 ^ 20
  tracked : s.pageTables d = frameAddr f
  listed : s.pageDirectory d = entry (frameAddr f)

/-- The slot has no table: the directory has none either, or it has the one at address 0
that a failed allocation left, and no allocation succeeds from then on. -/
def Paging.NoTable (s : Paging) (d : ℕ) : Prop :=
  s.pageTables d = 0 ∧
    (s.pageDirectory d = 0 ∨ s.pageDirectory d = entry 0 ∧ ∀ f ∈ s.pmm.free, s.pmm.searched ≤ f)

/-- The directory and the tracked tables agree in every slot, and no frame is used for
two tables, or for a table and still free. -/
structure Paging.Inv (s : Paging) : Prop where
  free_pos : ∀ f ∈ s.pmm.free, f < s.pmm.searched → 0 < f
  slot : ∀ d, d < PAGE_ENTRIES → s.NoTable d ∨ ∃ f, s.IsTable d f
  used : ∀ d f, d < PAGE_ENTRIES → s.IsTable d f → f ∉ s.pmm.free
  inj : ∀ d e f, d < PAGE_ENTRIES → e < PAGE_ENTRIES → s.IsTable d f → s.IsTable e f → d = e

theorem Paging.IsTable.ne_zero (h : s.IsTable d f) : s.pageTables d ≠ 0 := by
  rw [h.tracked]
  exact fun h0 => h.pos.ne' ((frameAddr_eq_zero_iff h.lt).mp h0)

/-- A tracked table that is not `NULL` is a frame's. -/
theorem Paging.Inv.exists_table (hi : s.Inv) (hd : d < PAGE_ENTRIES) (h : s.pageTables d ≠ 0) :
    ∃ f, s.IsTable d f :=
  (hi.slot d hd).resolve_left fun hno => h hno.1

theorem Paging.Inv.take (hi : s.Inv) {q : Pmm} (hfree : q.free ⊆ s.pmm.free)
    (hse : q.searched = s.pmm.searched) :
    ({ s with pmm := q } : Paging).Inv := by
  refine ⟨fun f hf hlt => hi.free_pos f (hfree hf) (hse ▸ hlt), fun d hd => ?_, fun d f hd ht hf => ?_, ?_⟩
  · obtain ⟨h0, hpd⟩ | ⟨f, ht⟩ := hi.slot d hd
    · refine .inl ⟨h0, hpd.imp_right fun h => ⟨h.1, fun f hf => ?_⟩⟩
      rw [show ({ s with pmm := q } : Paging).pmm.searched = s.pmm.searched from hse]
      exact h.2 f (hfree hf)
    · exact .inr ⟨f, ht.pos, ht.lt, ht.tracked, ht.listed⟩
  · exact hi.used d f hd ⟨ht.pos, ht.lt, ht.tracked, ht.listed⟩ (hfree hf)
  · intro d e f hd he ht ht'
    exact hi.inj d e f hd he ⟨ht.pos, ht.lt, ht.tracked, ht.listed⟩ ⟨ht'.pos, ht'.lt, ht'.tracked, ht'.listed⟩

/-! ### A table that is missing -/

theorem makeTable_of_ne (h : s.pageTables d ≠ 0) : makeTable s d = s := if_neg h

theorem makeTable_of_eq (h0 : s.pageTables d = 0) : (makeTable s d).pmm = (pmmAllocFrame s.pmm).2 ∧
    (makeTable s d).mem = forEntries 0 (pmmAllocFrame s.pmm).1 (fun _ => 0) s.mem ∧
    (makeTable s d).pageTables d = (pmmAllocFrame s.pmm).1 ∧
    (makeTable s d).pageDirectory d = entry (pmmAllocFrame s.pmm).1 := by
  refine ⟨by rw [makeTable, if_pos h0], by rw [makeTable, if_pos h0], ?_, ?_⟩
  · rw [makeTable, if_pos h0]
    exact Function.update_self _ _ _
  · rw [makeTable, if_pos h0]
    exact Function.update_self _ _ _

theorem makeTable_slot (s : Paging) (hed : e ≠ d) : (makeTable s d).pageTables e = s.pageTables e ∧
    (makeTable s d).pageDirectory e = s.pageDirectory e := by
  unfold makeTable
  split_ifs
  · exact ⟨Function.update_of_ne hed _ _, Function.update_of_ne hed _ _⟩
  · exact ⟨rfl, rfl⟩

theorem isTable_makeTable_of_ne (s : Paging) (hed : e ≠ d) : (makeTable s d).IsTable e f ↔ s.IsTable e f := by
  obtain ⟨htr, hli⟩ := makeTable_slot s hed
  constructor
  · exact fun h => ⟨h.pos, h.lt, htr ▸ h.tracked, hli ▸ h.listed⟩
  · exact fun h => ⟨h.pos, h.lt, htr.trans h.tracked, hli.trans h.listed⟩

/-- The other slots without a table still have none when there are fewer free frames. -/
theorem Paging.NoTable.makeTable (h : s.NoTable e) (hed : e ≠ d)
    (hfree : (makeTable s d).pmm.free ⊆ s.pmm.free)
    (hse : (Mm.makeTable s d).pmm.searched = s.pmm.searched) : (Mm.makeTable s d).NoTable e := by
  obtain ⟨htr, hli⟩ := makeTable_slot s hed
  rw [NoTable, htr, hli, hse]
  exact ⟨h.1, h.2.imp_right fun h => ⟨h.1, fun f hf => h.2 f (hfree hf)⟩⟩

/-- A new table, in the frame `g`. -/
theorem Paging.Inv.makeTable_alloc (hi : s.Inv) (h0 : s.pageTables d = 0) (hg : g ∈ s.pmm.free)
    (hlt : g < s.pmm.searched)
    (hr : pmmAllocFrame s.pmm = (frameAddr g, setFrame s.pmm (BitVec.ofNat 32 g))) :
    (makeTable s d).Inv ∧ (makeTable s d).IsTable d g ∧ (makeTable s d).pmm.free = s.pmm.free.erase g := by
  have hg20 := Pmm.lt_of_mem_free hg
  obtain ⟨hpmm, -, htr, hli⟩ := makeTable_of_eq h0
  simp only [hr] at hpmm htr hli
  have hfree : (makeTable s d).pmm.free = s.pmm.free.erase g := by
    rw [hpmm, setFrame_free, BitVec.toNat_ofNat, Nat.mod_eq_of_lt (by omega)]
  have hd : (makeTable s d).IsTable d g := ⟨hi.free_pos g hg hlt, hg20, htr, hli⟩
  have hself {e f : ℕ} (hed : e = d) (ht : (makeTable s d).IsTable e f) : f = g := by
    subst hed
    exact frameAddr_inj ht.lt hg20 (ht.tracked.symm.trans htr)
  refine ⟨⟨fun f hf hse => ?_, fun e he => ?_, fun e f he ht hf => ?_, fun e e' f he he' ht ht' =>
    ?_⟩, hd, hfree⟩
  · rw [hfree] at hf
    rw [hpmm] at hse
    exact hi.free_pos f (Finset.mem_of_mem_erase hf) hse
  · by_cases hed : e = d
    · exact .inr ⟨g, hed ▸ hd⟩
    · obtain hno | ⟨f, ht⟩ := hi.slot e he
      · refine .inl (hno.makeTable hed ?_ ?_)
        · rw [hfree]
          exact Finset.erase_subset _ _
        · rw [hpmm]
          rfl
      · exact .inr ⟨f, (isTable_makeTable_of_ne s hed).mpr ht⟩
  · rw [hfree, Finset.mem_erase] at hf
    by_cases hed : e = d
    · exact hf.1 (hself hed ht)
    · exact hi.used e f he ((isTable_makeTable_of_ne s hed).mp ht) hf.2
  -- the frame of the new table was free, so it is no other slot's
  · by_cases hed : e = d <;> by_cases hed' : e' = d
    · rw [hed, hed']
    · have := hi.used e' f he' ((isTable_makeTable_of_ne s hed').mp ht')
      rw [hself hed ht] at this
      exact absurd hg this
    · have := hi.used e f he ((isTable_makeTable_of_ne s hed).mp ht)
      rw [hself hed' ht'] at this
      exact absurd hg this
    · exact hi.inj e e' f he he' ((isTable_makeTable_of_ne s hed).mp ht)
        ((isTable_makeTable_of_ne s hed').mp ht')

/-- A failed allocation leaves the table at address 0 in the directory. -/
theorem Paging.Inv.makeTable_null (hi : s.Inv) (h0 : s.pageTables d = 0)
    (hr : pmmAllocFrame s.pmm = (0, s.pmm))
    (hall : ∀ f ∈ s.pmm.free, s.pmm.searched ≤ f) : (makeTable s d).Inv := by
  obtain ⟨hpmm, -, htr, hli⟩ := makeTable_of_eq h0
  simp only [hr] at hpmm htr hli
  have hne {e f : ℕ} (ht : (makeTable s d).IsTable e f) : e ≠ d := by
    rintro rfl
    exact ht.ne_zero htr
  refine ⟨fun f hf hse => hi.free_pos f (hpmm ▸ hf) (hpmm ▸ hse), fun e he => ?_, fun e f he ht hf => ?_,
    fun e e' f he he' ht ht' => ?_⟩
  · by_cases hed : e = d
    · subst hed
      exact .inl ⟨htr, .inr ⟨hli, fun f hf => by rw [hpmm]; exact hall f (hpmm ▸ hf)⟩⟩
    · obtain hno | ⟨f, ht⟩ := hi.slot e he
      · refine .inl (hno.makeTable hed ?_ ?_)
        · rw [hpmm]
        · rw [hpmm]
      · exact .inr ⟨f, (isTable_makeTable_of_ne s hed).mpr ht⟩
  · exact hi.used e f he ((isTable_makeTable_of_ne s (hne ht)).mp ht) (hpmm ▸ hf)
  · exact hi.inj e e' f he he' ((isTable_makeTable_of_ne s (hne ht)).mp ht)
      ((isTable_makeTable_of_ne s (hne ht')).mp ht')

theorem Paging.Inv.makeTable (hi : s.Inv) (d : ℕ) : (makeTable s d).Inv := by
  by_cases h0 : s.pageTables d = 0
  · obtain ⟨hr, hall⟩ | ⟨g, hg, hlt, -, hr⟩ := pmmAllocFrame_spec s.pmm
    · exact hi.makeTable_null h0 hr hall
    · exact (hi.makeTable_alloc h0 hg hlt hr).1
  · rw [makeTable_of_ne h0]
    exact hi

/-! ### The walk -/

/-- The walk depends on the slot of the directory and the entry of the table. -/
theorem walk_congr (hpd : s'.pageDirectory (dirIndex va) = s.pageDirectory (dirIndex va))
    (hmem : s.pageDirectory (dirIndex va) ≠ 0 →
      s'.mem.load (entryAddr (s.pageDirectory (dirIndex va) &&& 0xFFFFF000) (tableIndex va)) =
        s.mem.load (entryAddr (s.pageDirectory (dirIndex va) &&& 0xFFFFF000) (tableIndex va))) :
    s'.walk va = s.walk va := by
  unfold Paging.walk
  rw [hpd]
  by_cases h0 : s.pageDirectory (dirIndex va) = 0
  · rw [h0]
    rfl
  · dsimp only
    rw [hmem h0]

theorem walk_of_eq_zero (h : s.pageDirectory (dirIndex va) = 0) : s.walk va = none := by
  unfold Paging.walk
  rw [h]
  rfl

theorem walk_of_entry (hx : s.pageDirectory (dirIndex va) = entry x)
    (hy : s.mem.load (entryAddr (x &&& 0xFFFFF000) (tableIndex va)) = entry y) :
    s.walk va = some (y &&& 0xFFFFF000, true) := by
  unfold Paging.walk
  dsimp only
  rw [hx, if_neg (entry_and_present x), entry_and_page, hy, if_neg (entry_and_present y), entry_and_page,
    decide_eq_true (entry_and_writable x y)]

theorem walk_of_entry_zero (hx : s.pageDirectory (dirIndex va) = entry x)
    (hy : s.mem.load (entryAddr (x &&& 0xFFFFF000) (tableIndex va)) = 0) : s.walk va = none := by
  unfold Paging.walk
  dsimp only
  rw [hx, if_neg (entry_and_present x), entry_and_page, hy]
  rfl

/-- What the directory lists is the frame of a table, or the one at address 0. -/
theorem Paging.Inv.listed (hi : s.Inv) (hd : d < PAGE_ENTRIES) (h : s.pageDirectory d ≠ 0) :
    ∃ f, f < 2 ^ 20 ∧ s.pageDirectory d = entry (frameAddr f) ∧ (f = 0 ∨ s.IsTable d f) := by
  obtain ⟨-, h0 | ⟨h0, -⟩⟩ | ⟨f, ht⟩ := hi.slot d hd
  · exact absurd h0 h
  · exact ⟨0, by decide, h0, .inl rfl⟩
  · exact ⟨f, ht.lt, ht.listed, .inr ht⟩

/-- A change outside of the table of a slot does not change the walk through that slot. -/
theorem walk_of_apart (hl : s.pageDirectory (dirIndex va) = entry (frameAddr f)) (hf : f < 2 ^ 20)
    (hpd : s'.pageDirectory (dirIndex va) = s.pageDirectory (dirIndex va)) (hfg : f ≠ g)
    (hk : Keeps (Set.Ico (g * 4096) (g * 4096 + 4096)) s.mem s'.mem) : s'.walk va = s.walk va := by
  refine walk_congr hpd fun _ => ?_
  have hidx := tableIndex_lt va
  unfold PAGE_ENTRIES at hidx
  rw [hl, entry_and_page, frameAddr_and_page hf, entryAddr_frameAddr]
  refine hk.load (by omega) fun n h1 h2 h3 => hfg ?_
  rw [Set.mem_Ico] at h3
  omega

/-- A change in a frame that no other slot uses does not change the walk through these slots. -/
theorem Paging.Inv.walk_frame (hi : s.Inv) (s' : Paging)
    (hpd : s'.pageDirectory (dirIndex va) = s.pageDirectory (dirIndex va))
    (hg : 0 < g) (hk : Keeps (Set.Ico (g * 4096) (g * 4096 + 4096)) s.mem s'.mem)
    (hne : ¬ s.IsTable (dirIndex va) g) : s'.walk va = s.walk va := by
  by_cases h0 : s.pageDirectory (dirIndex va) = 0
  · exact walk_congr hpd fun h => absurd h0 h
  · obtain ⟨f, hf, hl, hor⟩ := hi.listed (dirIndex_lt va) h0
    refine walk_of_apart hl hf hpd ?_ hk
    rintro rfl
    exact hor.elim hg.ne' hne

/-- A new table translates nothing, and the walk of every page is the same as before. -/
theorem Paging.Inv.walk_makeTable (hi : s.Inv) (h0 : s.pageTables d = 0) (hg : g ∈ s.pmm.free)
    (hlt : g < s.pmm.searched) (hr : pmmAllocFrame s.pmm = (frameAddr g, setFrame s.pmm (BitVec.ofNat 32 g)))
    (va : Word) :
    (Mm.makeTable s d).walk va = s.walk va := by
  have hg20 := Pmm.lt_of_mem_free hg
  obtain ⟨-, hmem, -, hli⟩ := makeTable_of_eq h0
  rw [hr] at hmem hli
  obtain ⟨hk, hz⟩ := forEntries_frameAddr hg20 0 (fun _ => 0) s.mem
  by_cases hd : dirIndex va = d
  · -- the slot was empty, since an allocation succeeds
    have hempty : s.pageDirectory d = 0 := by
      obtain ⟨-, h | ⟨-, h⟩⟩ | ⟨f, ht⟩ := hi.slot d (hd ▸ dirIndex_lt va)
      · exact h
      · exact absurd (h g hg) (Nat.not_le_of_lt hlt)
      · exact absurd h0 ht.ne_zero
    rw [walk_of_eq_zero (s := s) (hd ▸ hempty)]
    refine walk_of_entry_zero (x := frameAddr g) (hd ▸ hli) ?_
    rw [frameAddr_and_page hg20, hmem]
    exact hz _ (Nat.zero_le _) (tableIndex_lt va)
  · refine hi.walk_frame _ (makeTable_slot s hd).2 (hi.free_pos g hg hlt) (hmem ▸ hk) fun ht => ?_
    exact hi.used _ _ (dirIndex_lt va) ht hg

/-- An entry of a table translates its page, and the walk of every other page is the same. -/
theorem Paging.Inv.walk_store (hi : s.Inv) (ht : s.IsTable (dirIndex va) f) (va' y : Word) :
    ({ s with
        mem := s.mem.store (entryAddr (s.pageTables (dirIndex va)) (tableIndex va)) (entry y) } :
          Paging).walk va' =
      if va' >>> 12 = va >>> 12 then some (y &&& 0xFFFFF000, true) else s.walk va' := by
  have hidx := tableIndex_lt va
  have hf := ht.lt
  unfold PAGE_ENTRIES at hidx
  split_ifs with hpage
  · obtain ⟨hdir, htab⟩ := page_eq_iff.mp hpage
    refine walk_of_entry (x := frameAddr f) (hdir ▸ ht.listed) ?_
    rw [frameAddr_and_page hf, htab, ht.tracked]
    exact Mem.load_store_self _ _ _
  · by_cases hdir : dirIndex va' = dirIndex va
    -- another entry of the same table
    · have htab : (tableIndex va').toNat ≠ (tableIndex va).toNat := fun h =>
        hpage (page_eq_iff.mpr ⟨hdir, BitVec.eq_of_toNat_eq h⟩)
      have hidx' := tableIndex_lt va'
      unfold PAGE_ENTRIES at hidx'
      refine walk_congr rfl fun _ => ?_
      rw [hdir, ht.listed, entry_and_page, frameAddr_and_page hf, ht.tracked, entryAddr_frameAddr,
        entryAddr_frameAddr]
      exact Mem.load_store_of_apart _ _ (by omega) (by omega) (by omega)
    · refine hi.walk_frame _ rfl ht.pos ?_ fun ht' => ?_
      · rw [ht.tracked, entryAddr_frameAddr]
        refine (keeps_store s.mem (entry y) (by omega)).mono (Set.Ico_subset_Ico ?_ ?_) <;> omega
      · exact hdir (hi.inj _ _ _ (dirIndex_lt va') (dirIndex_lt va) ht' ht)

/-! ### What `map_page` does -/

/-- The frame that `map_page` needs for a table, if it needs one, is available. -/
def Paging.TableAvailable (s : Paging) (va : Word) : Prop :=
  s.pageTables (dirIndex va) ≠ 0 ∨ firstFreeFrame s.pmm ≠ -1

/-- The table that `map_page` writes to, after it made it exist. -/
theorem Paging.Inv.exists_makeTable (hi : s.Inv) (ha : s.TableAvailable va) :
    ∃ f, (Mm.makeTable s (dirIndex va)).IsTable (dirIndex va) f ∧
      ((s.IsTable (dirIndex va) f ∧ (Mm.makeTable s (dirIndex va)).pmm.free = s.pmm.free) ∨
        f ∈ s.pmm.free ∧ (Mm.makeTable s (dirIndex va)).pmm.free = s.pmm.free.erase f) ∧
      ∀ va', (Mm.makeTable s (dirIndex va)).walk va' = s.walk va' := by
  by_cases h0 : s.pageTables (dirIndex va) = 0
  · obtain ⟨hr, hall⟩ | ⟨g, hg, hlt, -, hr⟩ := pmmAllocFrame_spec s.pmm
    · obtain ⟨f, hf, hlt⟩ := firstFreeFrame_ne_iff.mp (ha.resolve_left fun h => h h0)
      exact absurd hlt (Nat.not_lt_of_le (hall f hf))
    · obtain ⟨-, ht, hfree⟩ := hi.makeTable_alloc h0 hg hlt hr
      exact ⟨g, ht, .inr ⟨hg, hfree⟩, hi.walk_makeTable h0 hg hlt hr⟩
  · obtain ⟨f, ht⟩ := hi.exists_table (dirIndex_lt va) h0
    rw [makeTable_of_ne h0]
    exact ⟨f, ht, .inl ⟨ht, rfl⟩, fun _ => rfl⟩

/-- `map_page` translates the page of `va` to the page of `pa`, present and writable, and every
other page as before. -/
theorem Paging.Inv.walk_mapPage (hi : s.Inv) (ha : s.TableAvailable va) (pa va' : Word) :
    (mapPage s va pa).walk va' = if va' >>> 12 = va >>> 12 then some (pa &&& 0xFFFFF000, true)
      else s.walk va' := by
  obtain ⟨f, ht, -, hwalk⟩ := hi.exists_makeTable ha
  have hstore := (hi.makeTable (dirIndex va)).walk_store ht va' (pa &&& 0xFFFFF000)
  rw [and_page_idem, hwalk] at hstore
  exact hstore

/-- `map_page` keeps the invariant, also when it gets no frame for the table. -/
theorem Paging.Inv.mapPage (hi : s.Inv) (va pa : Word) : (mapPage s va pa).Inv := by
  obtain ⟨h1, h2, h3, h4⟩ := hi.makeTable (dirIndex va)
  refine ⟨h1, fun d hd => (h2 d hd).imp_right ?_, fun d f hd ht => h3 d f hd ?_, fun d e f hd he ht ht' =>
    h4 d e f hd he ?_ ?_⟩
  · exact fun ⟨f, ht⟩ => ⟨f, ht.pos, ht.lt, ht.tracked, ht.listed⟩
  · exact ⟨ht.pos, ht.lt, ht.tracked, ht.listed⟩
  · exact ⟨ht.pos, ht.lt, ht.tracked, ht.listed⟩
  · exact ⟨ht'.pos, ht'.lt, ht'.tracked, ht'.listed⟩

theorem Paging.Inv.free_mapPage (hi : s.Inv) (ha : s.TableAvailable va) (pa : Word) :
    (Mm.mapPage s va pa).pmm.free ⊆ s.pmm.free := by
  obtain ⟨f, -, ⟨-, hfree⟩ | ⟨-, hfree⟩, -⟩ := hi.exists_makeTable ha
  · exact hfree.subset
  · exact hfree.subset.trans (Finset.erase_subset _ _)

/-- A frame of a table after `map_page` was one before, or it was free. -/
theorem Paging.Inv.table_mapPage (hi : s.Inv) (ha : s.TableAvailable va) {pa : Word}
    (ht : (Mm.mapPage s va pa).IsTable d f) : s.IsTable d f ∨ f ∈ s.pmm.free := by
  have ht' : (Mm.makeTable s (dirIndex va)).IsTable d f := ⟨ht.pos, ht.lt, ht.tracked, ht.listed⟩
  by_cases hd : d = dirIndex va
  · subst hd
    obtain ⟨g, hg, hor, -⟩ := hi.exists_makeTable ha
    obtain rfl := frameAddr_inj ht'.lt hg.lt (ht'.tracked.symm.trans hg.tracked)
    exact hor.imp (fun h => h.1) (fun h => h.1)
  · exact .inl ((isTable_makeTable_of_ne s hd).mp ht')

/-! ### What `paging_init` leaves -/

/-- The slots and the memory after `paging_init`, whose table is at the frame `f`. -/
theorem pagingInit_eq (s : Paging) (hf : f < 2 ^ 20) (hr : (pmmAllocFrame s.pmm).1 = frameAddr f) :
    (pagingInit s).pageTables 0 = frameAddr f ∧ (pagingInit s).pageDirectory 0 = entry (frameAddr f) ∧
    (∀ d, 0 < d → d < PAGE_ENTRIES → (pagingInit s).pageTables d = 0 ∧ (pagingInit s).pageDirectory d = 0) ∧
    ∀ i : Word, 0 < i.toNat → i.toNat < PAGE_ENTRIES →
      (pagingInit s).mem.load (entryAddr (frameAddr f) i) = entry (i * 4096) := by
  refine ⟨?_, ?_, fun d hd hlt => ⟨?_, ?_⟩, fun i hi hlt => ?_⟩
  · unfold pagingInit
    dsimp only
    rw [Function.update_self, hr]
  · unfold pagingInit
    dsimp only
    rw [Function.update_self, hr]
  · unfold pagingInit
    dsimp only
    rw [Function.update_of_ne hd.ne']
    exact (foldl_update_apply (fun _ => 0) _ _ _).trans (if_pos hlt)
  · unfold pagingInit
    dsimp only
    rw [Function.update_of_ne hd.ne']
    exact (foldl_update_apply (fun _ => 0) _ _ _).trans (if_pos hlt)
  · unfold pagingInit
    dsimp only
    rw [hr]
    exact (forEntries_frameAddr hf 1 _ _).2 i hi hlt

/-- The table of `paging_init` is in a frame, or at address 0. -/
theorem exists_firstTable (p : Pmm) : ∃ f, f < 2 ^ 20 ∧ (pmmAllocFrame p).1 = frameAddr f := by
  obtain ⟨hr, -⟩ | ⟨f, hf, -, -, hr⟩ := pmmAllocFrame_spec p
  · exact ⟨0, by decide, by rw [hr]; rfl⟩
  · exact ⟨f, Pmm.lt_of_mem_free hf, by rw [hr]; rfl⟩

/-- `paging_init` maps the pages of the first 4 MiB but page 0 to themselves. -/
theorem walk_pagingInit (s : Paging) (hdir : dirIndex va = 0) (htab : tableIndex va ≠ 0) :
    (pagingInit s).walk va = some (va &&& 0xFFFFF000, true) := by
  obtain ⟨f, hf, hr⟩ := exists_firstTable s.pmm
  obtain ⟨-, hpd, -, hmem⟩ := pagingInit_eq s hf hr
  have hpage : va &&& 0xFFFFF000 = tableIndex va * 4096 := by
    apply BitVec.eq_of_toNat_eq
    rw [dirIndex_eq] at hdir
    rw [toNat_and_page, BitVec.toNat_mul, toNat_tableIndex, show (4096 : Word).toNat = 4096 from rfl]
    omega
  have hpos : 0 < (tableIndex va).toNat := Nat.pos_of_ne_zero fun h => htab (BitVec.eq_of_toNat_eq h)
  have hwalk := walk_of_entry (s := pagingInit s) (x := frameAddr f) (y := tableIndex va * 4096)
    (by rw [hdir, hpd]) (by rw [frameAddr_and_page hf, hmem _ hpos (tableIndex_lt va)])
  rwa [← hpage, and_page_idem] at hwalk

/-- The condition on the allocator: frame 0 is not free, or the search sees no other free frame. -/
def Pmm.FirstTableNotNull (p : Pmm) : Prop := ¬ (0 ∈ p.free ∧ ∃ g ∈ p.free, 0 < g ∧ g < p.searched)

/-- `paging_init` establishes the invariant unless frame 0 becomes its table. -/
theorem Paging.Inv.init (s : Paging) (hp : s.pmm.FirstTableNotNull) : (pagingInit s).Inv := by
  have hslot {f : ℕ} (hf : f < 2 ^ 20) (hr : (pmmAllocFrame s.pmm).1 = frameAddr f)
      (h0 : (pagingInit s).NoTable 0 ∨ ∃ f, (pagingInit s).IsTable 0 f) (d : ℕ) (hd : d < PAGE_ENTRIES) :
      (pagingInit s).NoTable d ∨ ∃ f, (pagingInit s).IsTable d f := by
    obtain rfl | hpos := Nat.eq_zero_or_pos d
    · exact h0
    · have := (pagingInit_eq s hf hr).2.2.1 d hpos hd
      exact .inl ⟨this.1, .inl this.2⟩
  have hzero {f : ℕ} (hf : f < 2 ^ 20) (hr : (pmmAllocFrame s.pmm).1 = frameAddr f) {d e : ℕ}
      (hd : d < PAGE_ENTRIES) (ht : (pagingInit s).IsTable d e) : d = 0 :=
    (Nat.eq_zero_or_pos d).resolve_right fun hpos => ht.ne_zero ((pagingInit_eq s hf hr).2.2.1 d hpos hd).1
  have hpmm : (pagingInit s).pmm = (pmmAllocFrame s.pmm).2 := rfl
  obtain ⟨hr, hall⟩ | ⟨f, hf, hlt, hmin, hr⟩ := pmmAllocFrame_spec s.pmm
  -- no frame is found, and the table is at address 0
  · have h0 : (pmmAllocFrame s.pmm).1 = frameAddr 0 := by rw [hr]; rfl
    obtain ⟨hpt, hpd, -, -⟩ := pagingInit_eq s (by decide) h0
    rw [hr] at hpmm
    have hno {e : ℕ} (ht : (pagingInit s).IsTable 0 e) : False := ht.ne_zero hpt
    refine ⟨fun f hf hlt => ?_, hslot (by decide) h0 (.inl ⟨hpt, .inr ⟨hpd, fun f hf => ?_⟩⟩),
      fun d e hd ht => ?_,
      fun d d' e hd hd' ht ht' => ?_⟩
    · rw [hpmm] at hf hlt
      exact absurd hlt (Nat.not_lt_of_le (hall f hf))
    · rw [hpmm] at hf ⊢
      exact hall f hf
    · exact (hno (hzero (by decide) h0 hd ht ▸ ht)).elim
    · exact (hno (hzero (by decide) h0 hd ht ▸ ht)).elim
  · have hf20 := Pmm.lt_of_mem_free hf
    have hf0 : (pmmAllocFrame s.pmm).1 = frameAddr f := by rw [hr]; rfl
    obtain ⟨hpt, hpd, -, -⟩ := pagingInit_eq s hf20 hf0
    have hfree : (pagingInit s).pmm.free = s.pmm.free.erase f := by
      rw [hpmm, hr, setFrame_free, BitVec.toNat_ofNat, Nat.mod_eq_of_lt (by omega)]
    have hse : (pagingInit s).pmm.searched = s.pmm.searched := by
      rw [hpmm, hr]
      rfl
    have hself {d e : ℕ} (hd : d < PAGE_ENTRIES) (ht : (pagingInit s).IsTable d e) : e = f := by
      obtain rfl := hzero hf20 hf0 hd ht
      exact frameAddr_inj ht.lt hf20 (ht.tracked.symm.trans hpt)
    refine ⟨fun g hg _ => ?_, hslot hf20 hf0 ?_, fun d e hd ht he => ?_, fun d d' e hd hd' ht ht' => ?_⟩
    · rw [hfree, Finset.mem_erase] at hg
      exact Nat.pos_of_ne_zero fun h => hg.1 (by have := hmin g hg.2; omega)
    · obtain rfl | hpos := Nat.eq_zero_or_pos f
      -- frame 0 becomes the table, and no other frame is found from then on
      · refine .inl ⟨hpt, .inr ⟨hpd, fun g hg => ?_⟩⟩
        rw [hfree, Finset.mem_erase] at hg
        rw [hse]
        by_contra hlt
        exact hp ⟨hf, g, hg.2, Nat.pos_of_ne_zero hg.1, Nat.lt_of_not_le hlt⟩
      · exact .inr ⟨f, hpos, hf20, hpt, hpd⟩
    · rw [hself hd ht, hfree] at he
      exact Finset.notMem_erase f _ he
    · rw [hzero hf20 hf0 hd ht, hzero hf20 hf0 hd' ht']

end SpatulaOS.Mm
