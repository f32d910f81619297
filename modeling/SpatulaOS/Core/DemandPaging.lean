import SpatulaOS.Core.Idt
import SpatulaOS.Lib.OnDemand
import SpatulaOS.Mm.PagingOn
import SpatulaOS.Mm.PmmMap

/-!
# The memory of the kernel heap

What the kernel reads and writes in its heap goes through the page tables that
`page_fault_handler` fills, in frames that keep whatever they held before. The kernel
cannot tell: from `paging_init` on, every program that stays in the heap ends as it would
over a flat memory, unless the allocator runs out of frames, and it changes no frame that
was in use (`demandPaging_flat`).

The handler runs with paging on as well, and stores to a table at its virtual address. It
makes one table, for the 4 MiB of the heap, in the third frame that is handed out, so that
frame has to lie in the first 4 MiB, which stay mapped to themselves. The table of
`paging_init` may be frame 0, which `map_page` could not see; a fault on the heap does not
touch it. A fault is taken to reach the handler with its address and its error code, and no
frame that is handed out to hold a part of the kernel.
-/

namespace SpatulaOS.Core

open ByteMemory WordBitmap OnDemand SpatulaOS.Mm SpatulaOS.Video

/-- The addresses of the heap. -/
def heapRange : Set Word := { va | KERNEL_HEAP_START ≤ va ∧ va < KERNEL_HEAP_END }

/-- The error code of an access of the kernel to a page that is not present. -/
def faultCode (write : Bool) : Word := if write then 2 else 0

/-- `page_fault_handler` with paging on, or `none` if a store of its `map_page` faults. -/
def Enabled.pageFaultHandler (s : Paging) (faultAddr errCode : Word) : Option FaultResult :=
  let alignedAddr := faultAddr &&& 0xFFFFF000
  let notPresent := errCode &&& 0x1 = 0
  let user := errCode &&& 0x4 ≠ 0
  if notPresent ∧ ¬ user ∧ alignedAddr ≥ KERNEL_HEAP_START ∧ alignedAddr < KERNEL_HEAP_END then
    let r := pmmAllocFrame s.pmm
    let frame := r.1
    let s := { s with pmm := r.2 }
    if frame = 0 then some (.panic [] "Out of physical memory during demand paging")
    else (Enabled.mapPage s alignedAddr frame).map .recovered
  else some (.panic (fatalReport faultAddr errCode) "Unhandled Page Fault")

/-- The memory as the kernel accesses it. An error is a panic, or `none` for a fault in the handler. -/
def kernelMemory : Demand Paging Word Byte (Option (List VgaCall × String)) where
  view s va := (physical s va).map s.mem
  fault s va write :=
    match Enabled.pageFaultHandler s va (faultCode write) with
    | some (.recovered s) => .ok s
    | some (.panic printed message) => .error (some (printed, message))
    | none => .error none
  put s ws := { s with mem := OnDemand.put s.mem (ws.filterMap fun w =>
    (physical s w.1).map fun pa => (pa, w.2)) }

/-! ### Addresses and frames -/

variable {p q : Pmm} {s s' : Paging} {m₀ : Mem} {H : List Word} {va va' a : Word} {f f₀ g : ℕ}

theorem toNat_of_mem_heapRange (h : va ∈ heapRange) : 0x400000 ≤ va.toNat ∧ va.toNat < 0x800000 := h

theorem dirIndex_of_mem_heapRange (h : va ∈ heapRange) : dirIndex va = 1 := by
  have := toNat_of_mem_heapRange h
  rw [dirIndex_eq]
  omega

theorem page_mem_heapRange (h : va ∈ heapRange) : va &&& 0xFFFFF000 ∈ heapRange := by
  have := toNat_of_mem_heapRange h
  refine ⟨?_, ?_⟩
  · show 0x400000 ≤ (va &&& 0xFFFFF000).toNat
    rw [toNat_and_page]
    omega
  · show (va &&& 0xFFFFF000).toNat < 0x800000
    rw [toNat_and_page]
    omega

theorem page_eq_page_iff : va &&& 0xFFFFF000 = va' &&& 0xFFFFF000 ↔ va >>> 12 = va' >>> 12 := by
  rw [← BitVec.toNat_inj, ← BitVec.toNat_inj, toNat_and_page, toNat_and_page, BitVec.toNat_ushiftRight,
    BitVec.toNat_ushiftRight, Nat.shiftRight_eq_div_pow, Nat.shiftRight_eq_div_pow]
  omega

theorem view_eq_none_iff : kernelMemory.view s va = none ↔ s.walk va = none := by
  show ((s.walk va).map _).map s.mem = none ↔ _
  rw [Option.map_eq_none_iff, Option.map_eq_none_iff]

theorem view_eq (h : s.walk va = some (frameAddr f, true)) :
    kernelMemory.view s va = some (s.mem (frameAddr f ||| (va &&& 0xFFF))) := by
  show (physical s va).map s.mem = _
  rw [physical_eq h]
  rfl

/-! ### The frames that are left -/

/-- The frames that can still be allocated: those that are free and that the search sees. -/
def allocatable (p : Pmm) : Finset ℕ := p.free.filter (· < p.searched)

theorem mem_free_of_allocatable (h : f ∈ allocatable p) : f ∈ p.free := (Finset.mem_filter.mp h).1

theorem lt_of_allocatable (h : f ∈ allocatable p) : f < 2 ^ 20 :=
  Pmm.lt_of_mem_free (mem_free_of_allocatable h)

/-- Those of them that lie in the first 4 MiB, where a page table can be reached. -/
def lowFrames (p : Pmm) : Finset ℕ := (allocatable p).filter (· < 1024)

theorem allocatable_of_low (h : f ∈ lowFrames p) : f ∈ allocatable p := Finset.mem_of_mem_filter f h

theorem alloc_of_allocatable (h : (allocatable p).Nonempty) :
    ∃ f ∈ allocatable p, (∀ g ∈ p.free, f ≤ g) ∧ (pmmAllocFrame p).1 = frameAddr f ∧
      (pmmAllocFrame p).2.free = p.free.erase f ∧ (pmmAllocFrame p).2.searched = p.searched ∧
      allocatable (pmmAllocFrame p).2 = (allocatable p).erase f := by
  obtain ⟨-, hall⟩ | ⟨f, hf, hlt, hmin, hr⟩ := pmmAllocFrame_spec p
  · obtain ⟨f, hf⟩ := h
    obtain ⟨hf, hlt⟩ := Finset.mem_filter.mp hf
    exact absurd hlt (Nat.not_lt_of_le (hall f hf))
  · have hf20 := Pmm.lt_of_mem_free hf
    have hfree : (pmmAllocFrame p).2.free = p.free.erase f := by
      rw [hr, setFrame_free, BitVec.toNat_ofNat, Nat.mod_eq_of_lt (by omega)]
    have hse : (pmmAllocFrame p).2.searched = p.searched := by
      rw [hr]
      rfl
    refine ⟨f, Finset.mem_filter.mpr ⟨hf, hlt⟩, hmin, by rw [hr]; rfl, hfree, hse, ?_⟩
    rw [allocatable, hfree, hse, Finset.filter_erase, ← allocatable]

theorem alloc_of_not_allocatable (h : allocatable p = ∅) : pmmAllocFrame p = (0, p) := by
  obtain ⟨hr, -⟩ | ⟨f, hf, hlt, -, -⟩ := pmmAllocFrame_spec p
  · exact hr
  · exact absurd (Finset.mem_filter.mpr ⟨hf, hlt⟩) (h ▸ Finset.notMem_empty f)

/-! ### The directory without its first slot -/

/-- The state without the table of the first 4 MiB, which no fault on the heap touches. -/
def upper (s : Paging) : Paging :=
  { s with
    pageDirectory := Function.update s.pageDirectory 0 0
    pageTables := Function.update s.pageTables 0 0 }

theorem upper_walk (h : dirIndex va ≠ 0) (s : Paging) : (upper s).walk va = s.walk va := by
  unfold Paging.walk upper
  dsimp only
  rw [Function.update_of_ne h]

theorem upper_mapPage (h : dirIndex va ≠ 0) (s : Paging) (pa : Word) :
    upper (mapPage s va pa) = mapPage (upper s) va pa := by
  have htable : (upper s).pageTables (dirIndex va) = s.pageTables (dirIndex va) := Function.update_of_ne h _ _
  unfold mapPage makeTable
  by_cases h0 : s.pageTables (dirIndex va) = 0
  · rw [if_pos h0, if_pos (htable.trans h0)]
    unfold upper
    dsimp only
    rw [Function.update_comm h, Function.update_comm h, Function.update_self, Function.update_self]
  · rw [if_neg h0, if_neg fun h => h0 (htable.symm.trans h)]
    unfold upper
    dsimp only
    rw [Function.update_of_ne h]

/-! ### The invariant -/

/-- The heap behind the page tables, after faults on the pages `H`, from the frames that `q` has
free when `paging_init` returns with its table in frame `f₀`. -/
structure Paged (q : Pmm) (f₀ : ℕ) (m₀ : Mem) (H : List Word) (s : Paging) : Prop where
  pos : ∀ f ∈ allocatable q, 0 < f
  first_lt : f₀ < 2 ^ 20
  first_used : f₀ ∉ allocatable q
  first : s.pageDirectory 0 = entry (frameAddr f₀)
  slots : (upper s).Inv
  free : s.pmm.free ⊆ q.free
  searched : s.pmm.searched = q.searched
  /-- The table of the heap was free. -/
  table : ∀ g, (upper s).IsTable 1 g → g ∈ lowFrames q
  /-- Each page has a frame of its own, which is not the table. -/
  backed : ∀ a ∈ H, ∃ f, s.walk a = some (frameAddr f, true) ∧ f ∈ allocatable q ∧ f ∉ s.pmm.free ∧
    ¬ (upper s).IsTable 1 f
  distinct : ∀ a ∈ H, ∀ b ∈ H, s.walk a = s.walk b → a = b
  /-- No other page of the heap is present. -/
  present : ∀ va ∈ heapRange, s.walk va ≠ none → va &&& 0xFFFFF000 ∈ H
  nodup : H.Nodup
  page : ∀ a ∈ H, a ∈ heapRange ∧ a &&& 0xFFFFF000 = a
  /-- The frames that are gone are those of the pages and of the table. -/
  frames : H = [] ∧ (allocatable s.pmm).card = (allocatable q).card ∨
    s.pageTables 1 ≠ 0 ∧ (allocatable q).card ≤ (allocatable s.pmm).card + H.length + 1
  identity : ∀ va, dirIndex va = 0 → tableIndex va ≠ 0 → s.walk va = some (va &&& 0xFFFFF000, true)
  keeps : Keeps { n | n / 4096 ∈ allocatable q } m₀ s.mem

theorem frame_subset (hf : f ∈ allocatable q) :
    Set.Ico (f * 4096) (f * 4096 + 4096) ⊆ { n | n / 4096 ∈ allocatable q } := by
  rintro n ⟨h1, h2⟩
  rw [Set.mem_ofPred_eq, show n / 4096 = f by omega]
  exact hf

theorem Paged.allocatable_subset (h : Paged q f₀ m₀ H s) : allocatable s.pmm ⊆ allocatable q := fun f hf => by
  obtain ⟨hf, hlt⟩ := Finset.mem_filter.mp hf
  exact Finset.mem_filter.mpr ⟨h.free hf, h.searched ▸ hlt⟩

/-- A change in a frame that was free and is not the table of the heap changes no walk in the heap. -/
theorem Paged.walk_heap (h : Paged q f₀ m₀ H s) (hpd : s'.pageDirectory = s.pageDirectory)
    (hg : g ∈ allocatable q)
    (hk : Keeps (Set.Ico (g * 4096) (g * 4096 + 4096)) s.mem s'.mem) (hne : ¬ (upper s).IsTable 1 g)
    (hva : va ∈ heapRange) : s'.walk va = s.walk va := by
  have hdir := dirIndex_of_mem_heapRange hva
  have hdir0 : dirIndex va ≠ 0 := by rw [hdir]; decide
  rw [← upper_walk hdir0 s, ← upper_walk hdir0 s']
  refine h.slots.walk_frame (upper s') ?_ (h.pos g hg) hk (by rwa [hdir])
  show Function.update s'.pageDirectory 0 0 (dirIndex va) = Function.update s.pageDirectory 0 0 (dirIndex va)
  rw [hpd]

/-- A change in a frame that was free changes no walk in the first 4 MiB. -/
theorem Paged.walk_low (h : Paged q f₀ m₀ H s) (hpd : s'.pageDirectory 0 = s.pageDirectory 0)
    (hg : g ∈ allocatable q)
    (hk : Keeps (Set.Ico (g * 4096) (g * 4096 + 4096)) s.mem s'.mem) (hva : dirIndex va = 0) :
    s'.walk va = s.walk va := by
  refine walk_of_apart (hva ▸ h.first) h.first_lt (hva ▸ hpd) ?_ hk
  rintro rfl
  exact h.first_used hg

/-- A page of the heap that is present is backed. -/
theorem Paged.backed_of_walk (h : Paged q f₀ m₀ H s) (hva : va ∈ heapRange) (hw : s.walk va ≠ none) :
    ∃ f, s.walk va = some (frameAddr f, true) ∧ f ∈ allocatable q ∧ f ∉ s.pmm.free ∧
      ¬ (upper s).IsTable 1 f := by
  obtain ⟨f, hf, hrest⟩ := h.backed _ (h.present va hva hw)
  exact ⟨f, by rw [← walk_page]; exact hf, hrest⟩

theorem Paged.length_lt (h : Paged q f₀ m₀ H s) (hva : va ∈ heapRange) (hnew : va &&& 0xFFFFF000 ∉ H) :
    H.length < 1024 := by
  have hpage {a : Word} (ha : a ∈ (va &&& 0xFFFFF000) :: H) : a ∈ heapRange ∧ a &&& 0xFFFFF000 = a := by
    rcases List.mem_cons.mp ha with rfl | ha
    · exact ⟨page_mem_heapRange hva, and_page_idem va⟩
    · exact h.page a ha
  have hsub : (((va &&& 0xFFFFF000) :: H).map fun a => a.toNat / 4096 % 1024).toFinset ⊆
      Finset.range 1024 := by
    intro n hn
    obtain ⟨a, -, rfl⟩ := List.mem_map.mp (List.mem_toFinset.mp hn)
    exact Finset.mem_range.mpr (Nat.mod_lt _ (by decide))
  have hnodup : (((va &&& 0xFFFFF000) :: H).map fun a => a.toNat / 4096 % 1024).Nodup := by
    refine List.Nodup.map_on (fun a ha b hb hab => ?_) (List.nodup_cons.mpr ⟨hnew, h.nodup⟩)
    have ha' := toNat_of_mem_heapRange (hpage ha).1
    have hb' := toNat_of_mem_heapRange (hpage hb).1
    rw [← (hpage ha).2, ← (hpage hb).2, ← BitVec.toNat_inj, toNat_and_page, toNat_and_page]
    omega
  have hcard := Finset.card_le_card hsub
  rw [List.toFinset_card_of_nodup hnodup, List.length_map, List.length_cons, Finset.card_range] at hcard
  exact hcard

/-! ### Faults -/

/-- `map_page` writes to one table, which existed or was free. -/
theorem keeps_mapPage (hi : s.Inv) (ha : s.TableAvailable va) (pa : Word) :
    ∃ g, (mapPage s va pa).IsTable (dirIndex va) g ∧ (s.IsTable (dirIndex va) g ∨ g ∈ allocatable s.pmm) ∧
      Keeps (Set.Ico (g * 4096) (g * 4096 + 4096)) s.mem (mapPage s va pa).mem := by
  have hidx := tableIndex_lt va
  unfold PAGE_ENTRIES at hidx
  obtain ⟨g, hg, -, -⟩ := hi.exists_makeTable ha
  have hlt := hg.lt
  have hstore :
      Keeps (Set.Ico (g * 4096) (g * 4096 + 4096)) (makeTable s (dirIndex va)).mem
      (mapPage s va pa).mem := by
    unfold mapPage
    dsimp only
    rw [hg.tracked, entryAddr_frameAddr]
    refine (keeps_store _ _ (by omega)).mono (Set.Ico_subset_Ico ?_ ?_) <;> omega
  refine ⟨g, ⟨hg.pos, hg.lt, hg.tracked, hg.listed⟩, ?_, Keeps.trans_same ?_ hstore⟩
  · by_cases h0 : s.pageTables (dirIndex va) = 0
    · obtain ⟨k, hk, hlt'⟩ := firstFreeFrame_ne_iff.mp (ha.resolve_left fun h => h h0)
      obtain ⟨f, hf, -, hr, -⟩ := alloc_of_allocatable ⟨k, Finset.mem_filter.mpr ⟨hk, hlt'⟩⟩
      obtain ⟨-, -, htr, -⟩ := makeTable_of_eq h0
      obtain rfl := frameAddr_inj hlt (lt_of_allocatable hf) (hg.tracked.symm.trans (htr.trans hr))
      exact .inr hf
    · rw [makeTable_of_ne h0] at hg
      exact .inl hg
  · by_cases h0 : s.pageTables (dirIndex va) = 0
    · obtain ⟨-, hmem, htr, -⟩ := makeTable_of_eq h0
      rw [hmem, ← htr, hg.tracked]
      exact (forEntries_frameAddr hlt 0 _ _).1
    · rw [makeTable_of_ne h0]
      exact Keeps.refl _ _

theorem allocatable_mapPage (s : Paging) (va pa : Word) :
    (mapPage s va pa).pmm.searched = s.pmm.searched ∧
    (s.pageTables (dirIndex va) ≠ 0 → (mapPage s va pa).pmm = s.pmm) ∧
    (allocatable s.pmm).card ≤ (allocatable (mapPage s va pa).pmm).card + 1 := by
  unfold mapPage
  dsimp only
  by_cases h0 : s.pageTables (dirIndex va) = 0
  · rw [(makeTable_of_eq h0).1]
    obtain hempty | hleft := (allocatable s.pmm).eq_empty_or_nonempty
    · rw [alloc_of_not_allocatable hempty]
      exact ⟨rfl, fun h => absurd h0 h, Nat.le_succ _⟩
    · obtain ⟨f, hf, -, -, -, hse, herase⟩ := alloc_of_allocatable hleft
      refine ⟨hse, fun h => absurd h0 h, ?_⟩
      rw [herase, Finset.card_erase_of_mem hf]
      omega
  · rw [makeTable_of_ne h0]
    exact ⟨rfl, fun _ => rfl, Nat.le_succ _⟩

/-- Two bytes of the heap that are present lie at different places. -/
theorem Paged.physical_inj (h : Paged q f₀ m₀ H s) (hva : va ∈ heapRange) (hva' : va' ∈ heapRange) {pa : Word}
    (hp : physical s va = some pa) (hp' : physical s va' = some pa) : va = va' := by
  have hwalk {va : Word} (hp : physical s va = some pa) : s.walk va ≠ none := by
    intro hno
    rw [physical, hno] at hp
    cases hp
  have hmem := h.present va hva (hwalk hp)
  have hmem' := h.present va' hva' (hwalk hp')
  obtain ⟨f, hf, hfree, -⟩ := h.backed_of_walk hva (hwalk hp)
  obtain ⟨f', hf', hfree', -⟩ := h.backed_of_walk hva' (hwalk hp')
  rw [physical_eq hf] at hp
  rw [physical_eq hf'] at hp'
  have heq := congrArg BitVec.toNat (Option.some.inj (hp.trans hp'.symm))
  rw [frameAddr_or (lt_of_allocatable hfree), frameAddr_or (lt_of_allocatable hfree')] at heq
  obtain rfl : f = f' := by omega
  have hnat := congrArg BitVec.toNat (h.distinct _ hmem _ hmem' (by rw [walk_page, walk_page, hf, hf']))
  rw [toNat_and_page, toNat_and_page] at hnat
  exact BitVec.eq_of_toNat_eq (by omega)

/-- What is present stays present and the same, when a table is changed. -/
theorem Paged.extends {H' : List Word} (h' : Paged q f₀ m₀ H' s')
    (hg : (upper s').IsTable 1 g) (hk : Keeps (Set.Ico (g * 4096) (g * 4096 + 4096)) s.mem s'.mem)
    (hw : ∀ va ∈ heapRange, s.walk va ≠ none → s'.walk va = s.walk va) :
    kernelMemory.Extends heapRange s s' := by
  intro va hva b hb
  have hne : s.walk va ≠ none := fun hno => by
    rw [view_eq_none_iff.mpr hno] at hb
    cases hb
  have hsame := hw va hva hne
  obtain ⟨f, hf, hfree, -, hnot⟩ := h'.backed_of_walk hva (hsame ▸ hne)
  rw [view_eq (hsame ▸ hf)] at hb
  rw [view_eq hf, ← hb]
  refine congrArg some (hk _ fun hmem => hnot ?_)
  rw [Set.mem_Ico, frameAddr_or (lt_of_allocatable hfree)] at hmem
  rwa [show f = g by omega]

theorem faultCode_bits (write : Bool) : faultCode write &&& 0x1 = 0 ∧ faultCode write &&& 0x4 = 0 := by
  cases write <;> decide

/-- The frames for a fault on the heap: one for the page, and a low one for the table if there is none. -/
theorem Paged.second_frame (h : Paged q f₀ m₀ H s) (hleft : (allocatable s.pmm).Nonempty)
    (hq : 2 ≤ (lowFrames q).card) (h0 : s.pageTables 1 = 0) :
      (lowFrames (pmmAllocFrame s.pmm).2).Nonempty := by
  obtain ⟨f, hf, -, -, -, -, herase⟩ := alloc_of_allocatable hleft
  rcases h.frames with ⟨-, heq⟩ | ⟨hne, -⟩
  · have hsame : allocatable s.pmm = allocatable q :=
      Finset.eq_of_subset_of_card_le h.allocatable_subset heq.ge
    have hcard := Finset.pred_card_le_card_erase (s := lowFrames q) (a := f)
    rw [lowFrames, herase, hsame, Finset.filter_erase, ← lowFrames, ← Finset.card_pos]
    omega
  · exact absurd h0 hne

/-- A frame of the first 4 MiB is mapped to itself, through slot 0. -/
theorem Paged.low_self (h : Paged q f₀ m₀ H s) (hg : g ∈ lowFrames q) :
    dirIndex (frameAddr g) = 0 ∧ s.walk (frameAddr g) = some (frameAddr g, true) := by
  obtain ⟨hgq, hlow⟩ := Finset.mem_filter.mp hg
  have hpos := h.pos g hgq
  have hlt := lt_of_allocatable hgq
  have hdir : dirIndex (frameAddr g) = 0 := by
    rw [dirIndex_eq, toNat_frameAddr hlt]
    omega
  have htab : tableIndex (frameAddr g) ≠ 0 := by
    intro h0
    have hnat := congrArg BitVec.toNat h0
    rw [toNat_tableIndex, toNat_frameAddr hlt, show BitVec.toNat (0 : Word) = 0 from rfl] at hnat
    omega
  have hid := h.identity _ hdir htab
  rw [frameAddr_and_page hlt] at hid
  exact ⟨hdir, hid⟩

/-- The table of the heap lies in the first 4 MiB, also when it is about to be made in the frame
after the next one. -/
theorem Paged.exists_table (h : Paged q f₀ m₀ H s) (hleft : (allocatable s.pmm).Nonempty)
    (hq : 2 ≤ (lowFrames q).card)
    (hdir : dirIndex va = 1) :
    ∃ g ∈ lowFrames q, Enabled.tableOf { s with pmm := (pmmAllocFrame s.pmm).2 } va = frameAddr g := by
  rw [Enabled.tableOf, hdir]
  dsimp only
  by_cases h0 : s.pageTables 1 = 0
  · -- the least frame that is left
    obtain ⟨f, -, -, -, -, -, herase⟩ := alloc_of_allocatable hleft
    obtain ⟨k, hk⟩ := h.second_frame hleft hq h0
    obtain ⟨g, hg, hmin, hr, -⟩ := alloc_of_allocatable ⟨k, allocatable_of_low hk⟩
    have hgk := hmin k (mem_free_of_allocatable (allocatable_of_low hk))
    have hlow := (Finset.mem_filter.mp hk).2
    rw [herase] at hg
    have hgq := h.allocatable_subset (Finset.mem_of_mem_erase hg)
    exact ⟨g, Finset.mem_filter.mpr ⟨hgq, by omega⟩, by rw [if_pos h0, hr]⟩
  · obtain ⟨htr, -⟩ | ⟨g, ht⟩ := h.slots.slot 1 (by decide)
    · exact absurd htr h0
    · exact ⟨g, h.table g ht, (if_neg h0).trans ht.tracked⟩

/-- The table of the heap, which the handler stores to, is mapped to itself. -/
theorem Paged.selfMapped (h : Paged q f₀ m₀ H s) (hva : va ∈ heapRange) (hleft : (allocatable s.pmm).Nonempty)
    (hq : 2 ≤ (lowFrames q).card) : ∃ g ∈ lowFrames q,
      Enabled.SelfMapped { s with pmm := (pmmAllocFrame s.pmm).2 } (va &&& 0xFFFFF000) g := by
  have hpage : dirIndex (va &&& 0xFFFFF000) = 1 := dirIndex_of_mem_heapRange (page_mem_heapRange hva)
  obtain ⟨g, hg, htable⟩ := h.exists_table hleft hq hpage
  obtain ⟨hdir, hself⟩ := h.low_self hg
  have hgq := allocatable_of_low hg
  refine ⟨g, hg, lt_of_allocatable hgq, htable, hself, fun _ => by rw [hdir, hpage]; decide,
    fun _ => ⟨f₀, h.first_lt, ?_, ?_⟩⟩
  · rintro rfl
    exact h.first_used hgq
  · rw [hdir]
    exact h.first

theorem Paged.heapFault (h : Paged q f₀ m₀ H s) (hva : va ∈ heapRange) (hno : s.walk va = none)
    (hleft : (allocatable s.pmm).Nonempty) (hq : 2 ≤ (lowFrames q).card) (write : Bool) :
    HeapFault ⟨s, H⟩ ⟨va, faultCode write⟩ := by
  have hne {f : ℕ} (hf : f ∈ allocatable s.pmm) : frameAddr f ≠ 0 := fun h0 =>
    (h.pos f (h.allocatable_subset hf)).ne' ((frameAddr_eq_zero_iff (lt_of_allocatable hf)).mp h0)
  obtain ⟨f, hf, -, hr, -, -, herase⟩ := alloc_of_allocatable hleft
  refine ⟨(faultCode_bits write).1, (faultCode_bits write).2, hva.1, hva.2, hno, hr ▸ hne hf, fun h0 => ?_⟩
  rw [show dirIndex (Fault.page ⟨va, faultCode write⟩) = 1 from dirIndex_of_mem_heapRange
    (page_mem_heapRange hva)] at h0
  obtain ⟨k, hk⟩ := h.second_frame hleft hq h0
  obtain ⟨g, hg, -, hr', -⟩ := alloc_of_allocatable ⟨k, allocatable_of_low hk⟩
  rw [herase] at hg
  exact hr' ▸ hne (Finset.mem_of_mem_erase hg)

/-- What the handler leaves: the page of `va` is in the frame `f`, and the table of the heap in `g`. -/
structure Mapped (q : Pmm) (H : List Word) (s : Paging) (va : Word) (f g : ℕ) (s' : Paging) : Prop where
  was_free : f ∈ allocatable s.pmm
  slots : (upper s').Inv
  is_table : (upper s').IsTable 1 g
  table_free : g ∈ lowFrames q
  keeps : Keeps (Set.Ico (g * 4096) (g * 4096 + 4096)) s.mem s'.mem
  free : s'.pmm.free ⊆ s.pmm.free.erase f
  searched : s'.pmm.searched = s.pmm.searched
  table : ∀ k, (upper s').IsTable 1 k → (upper s).IsTable 1 k ∨ k = g ∧ k ∈ s.pmm.free.erase f
  walk : ∀ x ∈ heapRange, s'.walk x = if x >>> 12 = va >>> 12 then some (frameAddr f, true) else s.walk x
  first : s'.pageDirectory 0 = s.pageDirectory 0
  frames : (allocatable q).card ≤ (allocatable s'.pmm).card + H.length + 2

theorem Paged.mapped (h : Paged q f₀ m₀ H s) (hva : va ∈ heapRange) (hleft : (allocatable s.pmm).Nonempty)
    (hq : 2 ≤ (lowFrames q).card) : ∃ f g, (pmmAllocFrame s.pmm).1 = frameAddr f ∧
      Mapped q H s va f g
        (mapPage { s with pmm := (pmmAllocFrame s.pmm).2 } (va &&& 0xFFFFF000) (frameAddr f)) := by
  have hpage : dirIndex (va &&& 0xFFFFF000) = 1 := dirIndex_of_mem_heapRange (page_mem_heapRange hva)
  have hpage0 : dirIndex (va &&& 0xFFFFF000) ≠ 0 := by rw [hpage]; decide
  obtain ⟨f, hf, -, hr, hfree, hse, herase⟩ := alloc_of_allocatable hleft
  -- the state in which it is called
  obtain ⟨s₁, hs₁⟩ : ∃ s₁ : Paging, s₁ = { s with pmm := (pmmAllocFrame s.pmm).2 } := ⟨_, rfl⟩
  have hpmm₁ : (upper s₁).pmm = (pmmAllocFrame s.pmm).2 := by rw [hs₁]; rfl
  have htable₁ {g : ℕ} (ht : (upper s₁).IsTable 1 g) : (upper s).IsTable 1 g := by
    rw [hs₁] at ht
    exact ⟨ht.pos, ht.lt, ht.tracked, ht.listed⟩
  have hi : (upper s₁).Inv := by
    rw [hs₁]
    exact h.slots.take (q := (pmmAllocFrame s.pmm).2) (by rw [hfree]; exact Finset.erase_subset _ _) hse
  have htab₁ : (upper s₁).pageTables (dirIndex (va &&& 0xFFFFF000)) = s.pageTables 1 := by
    rw [hpage, hs₁]
    rfl
  have ha : (upper s₁).TableAvailable (va &&& 0xFFFFF000) := by
    unfold Paging.TableAvailable
    rw [hpmm₁, htab₁]
    refine or_iff_not_imp_left.mpr fun h0 => firstFreeFrame_ne_iff.mpr ?_
    obtain ⟨k, hk⟩ := h.second_frame hleft hq (not_not.mp h0)
    exact ⟨k, Finset.mem_filter.mp (allocatable_of_low hk)⟩
  -- what it does
  obtain ⟨s₂, hs₂⟩ : ∃ s₂, s₂ = mapPage s₁ (va &&& 0xFFFFF000) (frameAddr f) := ⟨_, rfl⟩
  have hup : mapPage (upper s₁) (va &&& 0xFFFFF000) (frameAddr f) = upper s₂ := by
    rw [hs₂, upper_mapPage hpage0]
  obtain ⟨g, hg, -, hk⟩ := keeps_mapPage hi ha (frameAddr f)
  obtain ⟨hse₂, hsame, hle₂⟩ := allocatable_mapPage (upper s₁) (va &&& 0xFFFFF000) (frameAddr f)
  have hslots := hi.mapPage (va &&& 0xFFFFF000) (frameAddr f)
  have hsub := hi.free_mapPage ha (frameAddr f)
  rw [htab₁, hup, hpmm₁] at hsame
  rw [hup] at hg hk hslots hsub
  rw [hpage] at hg
  rw [hup, hpmm₁] at hle₂ hse₂
  have hlow : g ∈ lowFrames q := by
    obtain ⟨g', hlow, hself⟩ := h.selfMapped hva hleft hq
    rw [← hs₁] at hself
    have htr : s₂.pageTables 1 = frameAddr g' := by rw [hs₂, ← hpage, hself.tracked]
    rwa [frameAddr_inj hg.lt hself.lt (hg.tracked.symm.trans htr)]
  refine ⟨f, g, hr, ?_⟩
  rw [← hs₁, ← hs₂]
  refine ⟨hf, hslots, hg, hlow, by rw [hs₁] at hk; exact hk, ?_, hse₂.trans hse, fun k ht => ?_,
    fun x hx => ?_, ?_, ?_⟩
  · rw [← hfree, ← hpmm₁]
    exact hsub
  · obtain rfl := frameAddr_inj ht.lt hg.lt (ht.tracked.symm.trans hg.tracked)
    rw [← hup] at ht
    rw [← hfree, ← hpmm₁]
    exact (hi.table_mapPage ha ht).imp htable₁ fun hmem => ⟨rfl, hmem⟩
  · have hx0 : dirIndex x ≠ 0 := by rw [dirIndex_of_mem_heapRange hx]; decide
    have hold : (upper s₁).walk x = s.walk x := by
      rw [upper_walk hx0, hs₁]
      rfl
    rw [← upper_walk hx0, ← hup, hi.walk_mapPage ha, frameAddr_and_page (lt_of_allocatable hf), hold]
    exact if_congr (by rw [← page_eq_page_iff, and_page_idem, page_eq_page_iff]) rfl rfl
  · rw [hs₂]
    unfold mapPage
    rw [hpage, (makeTable_slot s₁ (by decide : 0 ≠ 1)).2, hs₁]
  · rw [herase, Finset.card_erase_of_mem hf] at hle₂
    change (allocatable s.pmm).card - 1 ≤ (allocatable s₂.pmm).card + 1 at hle₂
    rcases h.frames with ⟨-, heq⟩ | ⟨hne, hle⟩
    · omega
    · have hpmm₂ : s₂.pmm = (pmmAllocFrame s.pmm).2 := hsame hne
      rw [hpmm₂, herase, Finset.card_erase_of_mem hf]
      omega

/-- The page of the fault is backed by `f`, and the others as before. -/
theorem Paged.of_mapped (h : Paged q f₀ m₀ H s) (hva : va ∈ heapRange) (hno : s.walk va = none)
    (hm : Mapped q H s va f g s') : Paged q f₀ m₀ ((va &&& 0xFFFFF000) :: H) s' := by
  have hnotin : va &&& 0xFFFFF000 ∉ H := fun hmem => by
    obtain ⟨k, hk, -⟩ := h.backed _ hmem
    rw [walk_page, hno] at hk
    cases hk
  have hfree : s'.pmm.free ⊆ s.pmm.free := hm.free.trans (Finset.erase_subset _ _)
  have hnew : s'.walk (va &&& 0xFFFFF000) = some (frameAddr f, true) := by
    rw [walk_page, hm.walk va hva, if_pos rfl]
  have hold {a : Word} (ha : a ∈ H) : s'.walk a = s.walk a := by
    rw [hm.walk a (h.page a ha).1, if_neg fun hava => hnotin ?_]
    rwa [← page_eq_page_iff.mpr hava, (h.page a ha).2]
  -- a frame that is in use is not the new one
  have hne {a : Word} (ha : a ∈ H) : s'.walk a ≠ s'.walk (va &&& 0xFFFFF000) := by
    obtain ⟨k, hk, hkq, hkf, -⟩ := h.backed a ha
    rw [hold ha, hk, hnew]
    intro he
    have hkf' := frameAddr_inj (lt_of_allocatable hkq) (lt_of_allocatable hm.was_free)
      (congrArg Prod.fst (Option.some.inj he))
    exact hkf (hkf' ▸ mem_free_of_allocatable hm.was_free)
  refine ⟨h.pos, h.first_lt, h.first_used, hm.first.trans h.first, hm.slots, hfree.trans h.free,
    hm.searched.trans h.searched, fun k ht => ?_,
    fun a ha => ?_, fun a ha b hb hab => ?_, fun x hx hw => ?_,
      List.nodup_cons.mpr ⟨hnotin, h.nodup⟩, fun a ha => ?_,
    .inr ⟨?_, ?_⟩, fun x hdir htab => ?_, ?_⟩
  · exact (hm.table k ht).elim (h.table k) fun hk => hk.1 ▸ hm.table_free
  · rcases List.mem_cons.mp ha with rfl | ha
    · refine ⟨f, hnew, h.allocatable_subset hm.was_free,
        fun hmem => Finset.notMem_erase f _ (hm.free hmem), fun ht => ?_⟩
      rcases hm.table f ht with ht | hmem
      · exact h.slots.used 1 f (by decide) ht (mem_free_of_allocatable hm.was_free)
      · exact Finset.notMem_erase f _ hmem.2
    · obtain ⟨k, hk, hkq, hkf, hkt⟩ := h.backed a ha
      refine ⟨k, (hold ha).trans hk, hkq, fun hmem => hkf (hfree hmem), fun ht => ?_⟩
      exact (hm.table k ht).elim hkt fun hmem => hkf (Finset.mem_of_mem_erase hmem.2)
  · rcases List.mem_cons.mp ha with rfl | ha <;> rcases List.mem_cons.mp hb with rfl | hb
    · rfl
    · exact absurd hab.symm (hne hb)
    · exact absurd hab (hne ha)
    · rw [hold ha, hold hb] at hab
      exact h.distinct a ha b hb hab
  · rw [hm.walk x hx] at hw
    split_ifs at hw with hxva
    · exact List.mem_cons.mpr (.inl (page_eq_page_iff.mpr hxva))
    · exact List.mem_cons_of_mem _ (h.present x hx hw)
  · rcases List.mem_cons.mp ha with rfl | ha
    · exact ⟨page_mem_heapRange hva, and_page_idem va⟩
    · exact h.page a ha
  · exact hm.is_table.ne_zero
  · have := hm.frames
    rw [List.length_cons]
    omega
  · rw [h.walk_low hm.first (allocatable_of_low hm.table_free) hm.keeps hdir]
    exact h.identity x hdir htab
  · exact h.keeps.trans_same (hm.keeps.mono (frame_subset (allocatable_of_low hm.table_free)))

/-- If the table that the handler stores to is mapped to itself, no store of the handler faults. -/
theorem enabled_pageFaultHandler
    (h : Enabled.SelfMapped { s with pmm := (pmmAllocFrame s.pmm).2 } (va &&& 0xFFFFF000) g)
    (errCode : Word) :
    Enabled.pageFaultHandler s va errCode = some (pageFaultHandler s va errCode) := by
  unfold Enabled.pageFaultHandler pageFaultHandler
  dsimp only
  split_ifs
  · rfl
  · rw [h.mapPage_eq, Option.map_some]
  · rfl

/-- A fault on the heap is handled while there are frames. -/
theorem Paged.fault (h : Paged q f₀ m₀ H s) (hva : va ∈ heapRange) (hno : s.walk va = none)
    (hleft : (allocatable s.pmm).Nonempty) (hq : 2 ≤ (lowFrames q).card) (write : Bool) :
    ∃ s', Enabled.pageFaultHandler s va (faultCode write) = some (.recovered s') ∧
      Paged q f₀ m₀ ((va &&& 0xFFFFF000) :: H) s' ∧ s'.walk va ≠ none ∧
        kernelMemory.Extends heapRange s s' := by
  obtain ⟨f, g, hr, hm⟩ := h.mapped hva hleft hq
  obtain ⟨k, -, hself⟩ := h.selfMapped hva hleft hq
  have h' := h.of_mapped hva hno hm
  refine ⟨_, ?_, hr ▸ h', ?_, ?_⟩
  · rw [enabled_pageFaultHandler hself, pageFaultHandler_eq (h.heapFault hva hno hleft hq write)]
  · rw [hr, hm.walk va hva, if_pos rfl]
    exact Option.some_ne_none _
  · rw [hr]
    refine h'.extends hm.is_table hm.keeps fun x hx hw => ?_
    rw [hm.walk x hx, if_neg fun hxva => hw ?_]
    rw [← walk_page, page_eq_page_iff.mpr hxva, walk_page, hno]

/-! ### Writes -/

/-- The state with a byte written at a physical address. -/
abbrev setByte (s : Paging) (pa : Word) (b : Byte) : Paging := { s with mem := Function.update s.mem pa b }

/-- The physical address of a byte that is present lies in a frame that was free. -/
theorem Paged.exists_frame (h : Paged q f₀ m₀ H s) (hva : va ∈ heapRange) {pa : Word}
    (hp : physical s va = some pa) :
    ∃ f ∈ allocatable q, ¬ (upper s).IsTable 1 f ∧ f * 4096 ≤ pa.toNat ∧ pa.toNat < f * 4096 + 4096 := by
  have hw : s.walk va ≠ none := by
    intro hno
    rw [physical, hno] at hp
    cases hp
  obtain ⟨f, hf, hfq, -, hne⟩ := h.backed_of_walk hva hw
  rw [physical_eq hf] at hp
  have hpa := congrArg BitVec.toNat (Option.some.inj hp)
  rw [frameAddr_or (lt_of_allocatable hfq)] at hpa
  exact ⟨f, hfq, hne, by omega, by omega⟩

/-- A byte written in the heap changes no table. -/
theorem Paged.setByte (h : Paged q f₀ m₀ H s) (hva : va ∈ heapRange) {pa : Word}
    (hp : physical s va = some pa)
    (b : Byte) : Paged q f₀ m₀ H (setByte s pa b) ∧ ∀ x ∈ heapRange, (setByte s pa b).walk x = s.walk x := by
  obtain ⟨f, hfq, hne, hlo, hhi⟩ := h.exists_frame hva hp
  have hk : Keeps (Set.Ico (f * 4096) (f * 4096 + 4096)) s.mem (Core.setByte s pa b).mem := by
    intro x hx
    refine Function.update_of_ne ?_ _ _
    rintro rfl
    exact hx ⟨hlo, hhi⟩
  have hwalk (x : Word) (hx : x ∈ heapRange) : (Core.setByte s pa b).walk x = s.walk x :=
    h.walk_heap rfl hfq hk hne hx
  have hwalkH {a : Word} (ha : a ∈ H) : (Core.setByte s pa b).walk a = s.walk a := hwalk a (h.page a ha).1
  have htable {k : ℕ} (ht : (upper (Core.setByte s pa b)).IsTable 1 k) : (upper s).IsTable 1 k :=
    ⟨ht.pos, ht.lt, ht.tracked, ht.listed⟩
  have hslots : (upper (Core.setByte s pa b)).Inv :=
    ⟨h.slots.free_pos, fun d hd => (h.slots.slot d hd).imp_right fun ⟨k, ht⟩ =>
      ⟨k, ht.pos, ht.lt, ht.tracked, ht.listed⟩,
      fun d k hd ht => h.slots.used d k hd ⟨ht.pos, ht.lt, ht.tracked, ht.listed⟩,
      fun d e k hd he ht ht' => h.slots.inj d e k hd he ⟨ht.pos, ht.lt, ht.tracked, ht.listed⟩
        ⟨ht'.pos, ht'.lt, ht'.tracked, ht'.listed⟩⟩
  refine ⟨⟨h.pos, h.first_lt, h.first_used, h.first, hslots, h.free, h.searched,
    fun k ht => h.table k (htable ht), fun a ha => ?_,
    fun a ha c hc hac => ?_, fun x hx hw => ?_, h.nodup, h.page, h.frames, fun x hdir htab => ?_, ?_⟩, hwalk⟩
  · obtain ⟨k, hk, hkq, hkf, hkt⟩ := h.backed a ha
    exact ⟨k, (hwalkH ha).trans hk, hkq, hkf, fun ht => hkt (htable ht)⟩
  · rw [hwalkH ha, hwalkH hc] at hac
    exact h.distinct a ha c hc hac
  · rw [hwalk x hx] at hw
    exact h.present x hx hw
  · have hlow : (Core.setByte s pa b).walk x = s.walk x := h.walk_low rfl hfq hk hdir
    exact hlow.trans (h.identity x hdir htab)
  · exact h.keeps.trans_same (hk.mono (frame_subset hfq))

theorem Paged.view_setByte (h : Paged q f₀ m₀ H s) (hva : va ∈ heapRange) {pa : Word}
    (hp : physical s va = some pa)
    (b : Byte) {x : Word} (hx : x ∈ heapRange) :
    kernelMemory.view (Core.setByte s pa b) x = (kernelMemory.view s x).map fun v =>
      if x = va then b else v := by
  have hphys : physical (Core.setByte s pa b) x = physical s x := by
    rw [physical, physical, (h.setByte hva hp b).2 x hx]
  show (physical (Core.setByte s pa b) x).map (Function.update s.mem pa b) = ((physical s x).map s.mem).map _
  rw [hphys, Option.map_map]
  cases hpx : physical s x with
  | none => rfl
  | some px =>
    refine congrArg some ?_
    by_cases hxva : x = va
    · subst hxva
      obtain rfl := Option.some.inj (hp.symm.trans hpx)
      rw [Function.update_self, Function.comp_apply, if_pos rfl]
    · rw [Function.update_of_ne, Function.comp_apply, if_neg hxva]
      rintro rfl
      exact hxva (h.physical_inj hx hva hpx hp)

/-- A write to addresses that are present changes what it writes only. -/
theorem Paged.put (h : Paged q f₀ m₀ H s) {ws : List (Word × Byte)}
    (hws : ∀ w ∈ ws, w.1 ∈ heapRange ∧ kernelMemory.view s w.1 ≠ none) :
    Paged q f₀ m₀ H (kernelMemory.put s ws) ∧ ∀ a ∈ heapRange,
      kernelMemory.view (kernelMemory.put s ws) a = (kernelMemory.view s a).map fun v => OnDemand.put (fun _ => v) ws a := by
  induction ws generalizing s with
  | nil =>
    refine ⟨h, fun a _ => ?_⟩
    exact Option.map_id'.symm
  | cons w ws ih =>
    obtain ⟨⟨hw, hpres⟩, hws⟩ := List.forall_mem_cons.mp hws
    obtain ⟨pa, hp⟩ : ∃ pa, physical s w.1 = some pa := by
      refine Option.ne_none_iff_exists'.mp fun hno => hpres ?_
      show (physical s w.1).map s.mem = none
      rw [hno]
      rfl
    obtain ⟨h₁, hwalk₁⟩ := h.setByte hw hp w.2
    have hphys {x : Word} (hx : x ∈ heapRange) : physical (Core.setByte s pa w.2) x = physical s x := by
      rw [physical, physical, hwalk₁ x hx]
    have hput : kernelMemory.put s (w :: ws) = kernelMemory.put (Core.setByte s pa w.2) ws := by
      show { s with mem := OnDemand.put s.mem (List.filterMap _ (w :: ws)) } =
        ({ Core.setByte s pa w.2 with mem := OnDemand.put (Function.update s.mem pa w.2) (List.filterMap _ ws) } : Paging)
      rw [List.filterMap_cons_some (b := (pa, w.2)) (by rw [hp]; rfl)]
      rw [List.filterMap_congr fun v hv => by rw [← hphys (hws v hv).1]]
      rfl
    obtain ⟨h₂, hview₂⟩ := ih h₁ fun v hv => ⟨(hws v hv).1, by
      rw [h.view_setByte hw hp w.2 (hws v hv).1]
      exact mt Option.map_eq_none_iff.mp (hws v hv).2⟩
    rw [hput]
    refine ⟨h₂, fun a ha => ?_⟩
    rw [hview₂ a ha, h.view_setByte hw hp w.2 ha, Option.map_map]
    refine congrArg (fun g => Option.map g _) (funext fun v => ?_)
    refine put_apply_congr ?_
    show (if a = w.1 then w.2 else v) = Function.update (fun _ => v) w.1 w.2 a
    by_cases haw : a = w.1
    · rw [haw, if_pos rfl, Function.update_self]
    · rw [if_neg haw, Function.update_of_ne haw]

/-! ### Programs -/

/-- The message of the panic without a frame. -/
abbrev outOfMemory : Option (List VgaCall × String) :=
  some ([], "Out of physical memory during demand paging")

/-- The heap is a memory on demand; its faults are fatal when no frame is left. -/
theorem lawful_kernelMemory (hq : 2 ≤ (lowFrames q).card) : kernelMemory.Lawful heapRange
    (fun s => ∃ H, Paged q f₀ m₀ H s) fun e => e = outOfMemory ∧ (allocatable q).card < 1025 := by
  constructor
  · rintro s va write ⟨H, h⟩ hva hnone
    have hno := view_eq_none_iff.mp hnone
    obtain h0 | hleft := (allocatable s.pmm).eq_empty_or_nonempty
    · left
      refine ⟨_, ?_, rfl, ?_⟩
      · have hlt := toNat_of_mem_heapRange (page_mem_heapRange hva)
        have hpanic : Enabled.pageFaultHandler s va (faultCode write) =
            some (.panic [] "Out of physical memory during demand paging") := by
          unfold Enabled.pageFaultHandler
          dsimp only
          rw [if_pos ⟨(faultCode_bits write).1, not_not.mpr (faultCode_bits write).2, hlt.1, hlt.2⟩,
            alloc_of_not_allocatable h0, if_pos rfl]
        unfold kernelMemory
        dsimp only
        rw [hpanic]
      · have hnotin : va &&& 0xFFFFF000 ∉ H := fun hmem => by
          obtain ⟨k, hk, -⟩ := h.backed _ hmem
          rw [walk_page, hno] at hk
          cases hk
        have := h.length_lt hva hnotin
        rcases h.frames with ⟨-, heq⟩ | ⟨-, hle⟩ <;> rw [h0, Finset.card_empty] at * <;> omega
    · right
      obtain ⟨s', hs', h', hw, hext⟩ := h.fault hva hno hleft hq write
      refine ⟨s', ?_, ⟨_, h'⟩, mt view_eq_none_iff.mp hw, hext⟩
      unfold kernelMemory
      dsimp only
      rw [hs']
  · rintro s ws ⟨H, h⟩ hws
    obtain ⟨h', hview⟩ := h.put hws
    exact ⟨⟨H, h'⟩, hview⟩

/-- The state after `paging_init`: no page of the heap is present. -/
theorem Paged.init (hp : (allocatable p).Nonempty) (m : Mem) (d pt : ℕ → Word) :
    ∃ q f₀, f₀ ∈ allocatable p ∧ allocatable q = (allocatable p).erase f₀ ∧
      Keeps { n | n / 4096 ∈ allocatable p } m (pagingInit ⟨p, m, d, pt⟩).mem ∧
      Paged q f₀ (pagingInit ⟨p, m, d, pt⟩).mem [] (pagingInit ⟨p, m, d, pt⟩) := by
  obtain ⟨f₀, hf₀, hmin, hr, hfree, hse, herase⟩ := alloc_of_allocatable hp
  have hlt := lt_of_allocatable hf₀
  obtain ⟨-, hpd, hrest, -⟩ := pagingInit_eq ⟨p, m, d, pt⟩ hlt hr
  have hslot (k : ℕ) (hk : k < PAGE_ENTRIES) : (upper (pagingInit ⟨p, m, d, pt⟩)).pageTables k = 0 ∧
      (upper (pagingInit ⟨p, m, d, pt⟩)).pageDirectory k = 0 := by
    unfold upper
    dsimp only
    obtain rfl | hpos := Nat.eq_zero_or_pos k
    · exact ⟨Function.update_self .., Function.update_self ..⟩
    · rw [Function.update_of_ne hpos.ne', Function.update_of_ne hpos.ne']
      exact hrest k hpos hk
  have hno {k f : ℕ} (hk : k < PAGE_ENTRIES) : ¬ (upper (pagingInit ⟨p, m, d, pt⟩)).IsTable k f := fun ht =>
    ht.ne_zero (hslot k hk).1
  -- the table is in the least free frame, so no other one is frame 0
  have hpos : ∀ f ∈ (pmmAllocFrame p).2.free, 0 < f := fun f hf => by
    rw [hfree, Finset.mem_erase] at hf
    have := hmin f hf.2
    omega
  have hnil {P : Word → Prop} : ∀ a ∈ ([] : List Word), P a := fun a ha => absurd ha List.not_mem_nil
  refine ⟨(pmmAllocFrame p).2, f₀, hf₀, herase, ?_, ?_⟩
  · have hmem :
        (pagingInit ⟨p, m, d, pt⟩).mem =
        forEntries 1 (frameAddr f₀) (fun i => i * 4096 ||| PRESENT ||| WRITABLE)
        (forEntries 0 (frameAddr f₀) (fun _ => 0) m) := by
      unfold pagingInit
      dsimp only
      rw [hr]
    rw [hmem]
    exact ((forEntries_frameAddr hlt 0 _ _).1.trans_same (forEntries_frameAddr hlt 1 _ _).1).mono
      (frame_subset hf₀)
  · refine ⟨fun f hf => hpos f (mem_free_of_allocatable hf), hlt, ?_, hpd, ⟨fun f hf _ => hpos f hf,
      fun k hk => .inl ⟨(hslot k hk).1, .inl (hslot k hk).2⟩, fun k f hk ht => absurd ht (hno hk),
      fun k j f hk _ ht => absurd ht (hno hk)⟩, subset_rfl, rfl,
        fun g ht => absurd ht (hno (by decide)), hnil, hnil,
      fun x hx hw => ?_, List.nodup_nil, hnil, .inl ⟨rfl, rfl⟩, fun x => walk_pagingInit _, Keeps.refl _ _⟩
    · rw [herase]
      exact Finset.notMem_erase _ _
    · refine absurd (walk_of_eq_zero ?_) hw
      rw [dirIndex_of_mem_heapRange hx]
      exact (hrest 1 (by decide) (by decide)).2

/-- From `paging_init` on the heap is a memory on demand, if three low frames can be allocated: the
first table, a page and the table of the heap. The first 4 MiB stay mapped to themselves, and no
frame that was in use is changed. -/
theorem lawful_pagingInit (hp : 3 ≤ (lowFrames p).card) (m : Mem) (d pt : ℕ → Word) :
    ∃ I : Paging → Prop, I (pagingInit ⟨p, m, d, pt⟩) ∧
      kernelMemory.Lawful heapRange I (fun e => e = outOfMemory ∧ (allocatable p).card < 1026) ∧
      ∀ s, I s → (∀ va, dirIndex va = 0 → tableIndex va ≠ 0 → s.walk va = some (va &&& 0xFFFFF000, true)) ∧
        Keeps { n | n / 4096 ∈ allocatable p } m s.mem := by
  obtain ⟨f, hf⟩ := Finset.card_pos.mp (by omega : 0 < (lowFrames p).card)
  obtain ⟨q, f₀, hf₀, hq, hk, h⟩ := Paged.init ⟨f, allocatable_of_low hf⟩ m d pt
  have hcard : (allocatable q).card + 1 = (allocatable p).card := by
    rw [hq]
    exact Finset.card_erase_add_one hf₀
  have hlow : 2 ≤ (lowFrames q).card := by
    have hle := Finset.pred_card_le_card_erase (s := lowFrames p) (a := f₀)
    rw [lowFrames, hq, Finset.filter_erase, ← lowFrames]
    omega
  have hlaw := @lawful_kernelMemory q (pagingInit ⟨p, m, d, pt⟩).mem f₀ hlow
  refine ⟨_, ⟨[], h⟩, ⟨fun s a w hs ha hv => (hlaw.fault s a w hs ha hv).imp_left ?_, hlaw.put⟩, ?_⟩
  · rintro ⟨e, he, rfl, hlt⟩
    exact ⟨_, he, rfl, by omega⟩
  · rintro s ⟨H, h'⟩
    refine ⟨h'.identity, hk.trans_same (h'.keeps.mono fun x hx => ?_)⟩
    rw [Set.mem_ofPred_eq, hq] at hx
    exact Finset.mem_of_mem_erase hx

/-- **Demand paging makes the heap a flat memory**: after `paging_init`, with three frames of the
first 4 MiB that can be allocated, a program whose accesses all lie in the heap ends as it would
over some flat memory, in a state in which the present pages of the heap hold what that memory
holds; or it ends in the panic that no frame is left, which needs fewer than 1026 frames at the
start. The first 4 MiB stay mapped to themselves, and no frame that was in use is changed. -/
theorem demandPaging_flat {α : Type} (hp : 3 ≤ (lowFrames p).card) (m : Mem) (d pt : ℕ → Word)
    (prog : Prog Word Byte α) (hprog : ∀ flat, prog.Within heapRange flat) :
    ∃ n, (kernelMemory.steps n (prog, pagingInit ⟨p, m, d, pt⟩) = .error outOfMemory ∧
      (allocatable p).card < 1026) ∨
      ∃ s flat, kernelMemory.steps n (prog, pagingInit ⟨p, m, d, pt⟩) = .ok (.ret (prog.run flat).1, s) ∧
        kernelMemory.Agrees heapRange s (prog.run flat).2 ∧
        (∀ va, dirIndex va = 0 → tableIndex va ≠ 0 → s.walk va = some (va &&& 0xFFFFF000, true)) ∧
        Keeps { n | n / 4096 ∈ allocatable p } m s.mem := by
  obtain ⟨I, hI, hlaw, hframe⟩ := lawful_pagingInit hp m d pt
  obtain ⟨n, ⟨e, he, rfl, hlt⟩ | ⟨s, flat, hs, hIs, -, hag⟩⟩ := hlaw.run prog hI fun flat _ => hprog flat
  · exact ⟨n, .inl ⟨he, hlt⟩⟩
  · exact ⟨n, .inr ⟨s, flat, hs, hag, hframe s hIs⟩⟩

/-- 2048 frames, all free. -/
def ampleFrames : Pmm := ⟨fun _ => 0, 2048, by decide⟩

/-- A program that writes a byte at each end of the heap and reads them back. -/
def bothEnds : Prog Word Byte (List Byte) :=
  .write [(0x400000, 1), (0x7fffff, 2)] (.read [0x400000, 0x7fffff] .ret)

theorem bothEnds_within (flat : Word → Byte) : bothEnds.Within heapRange flat := by
  have hlo : (0x400000 : Word) ∈ heapRange := ⟨by decide, by decide⟩
  have hhi : (0x7fffff : Word) ∈ heapRange := ⟨by decide, by decide⟩
  have hall : ∀ a ∈ [(0x400000 : Word), 0x7fffff], a ∈ heapRange :=
    List.forall_mem_cons.mpr ⟨hlo, List.forall_mem_singleton.mpr hhi⟩
  exact ⟨List.forall_mem_map.mp hall, hall, trivial⟩

theorem bothEnds_flat : ∃ n s, kernelMemory.steps n
    (bothEnds, pagingInit ⟨ampleFrames, fun _ => 0, fun _ => 0, fun _ => 0⟩) = .ok (.ret [1, 2], s) := by
  have hcount : 1026 ≤ (allocatable ampleFrames).card := by decide +kernel
  have hlow : 3 ≤ (lowFrames ampleFrames).card := by decide +kernel
  obtain ⟨n, ⟨-, hlt⟩ | ⟨s, flat, hs, -⟩⟩ :=
    demandPaging_flat hlow (fun _ => 0) (fun _ => 0) (fun _ => 0) bothEnds
    bothEnds_within
  · exact absurd hlt (Nat.not_lt_of_le hcount)
  · exact ⟨n, s, hs⟩

/-! ### From the memory map on -/

/-- The usable regions start at a frame, and lie where frame numbers are not truncated. -/
def AlignedMap (es : List MmapEntry) : Prop :=
  ∀ e ∈ es, e.type = 1 → e.addr.toNat % 4096 = 0 ∧ e.addr.toNat + e.len.toNat < 2 ^ 44

/-- The bytes that may be used: those of the usable regions outside of the kernel and the bitmap. -/
def usableBytes (es : List MmapEntry) (image : Image) (p : Pmm) : Set ℕ :=
  { n | (∃ e ∈ es, e.type = 1 ∧ n ∈ regionBytes e) ∧ n ∉ image.bytes ∧ n ∉ bitmapBytes image p }

variable {es : List MmapEntry} {image : Image} {k : ℕ} {m : Mem} {ram : Bitmap 32} {p' : Pmm} {addr : Word}

/-- The frames that can be allocated after `pmm_init` on an aligned map: those in the whole words of
the bitmap that lie in a usable region, and outside of the kernel and the bitmap. -/
theorem mem_allocatable_iff (hinit : pmmInit k m image ram p addr = some (0, p'))
    (hes : mmapEntries m (multibootInfo m addr).mmapEnd k (multibootInfo m addr).mmapAddr = some es)
    (hal : AlignedMap es) : f ∈ allocatable p' ↔ f < mapFrames es / 32 * 32 ∧
      (∃ e ∈ es, e.type = 1 ∧ frameBytes (frameAddr f) ⊆ regionBytes e) ∧
        ¬ Reserved image (mapFrames es) f := by
  obtain ⟨es', hes', htotal, hfree⟩ := pmmInit_spec hinit
  obtain rfl := Option.some.inj (hes'.symm.trans hes)
  rw [allocatable, Finset.mem_filter, and_comm, ← searched_eq htotal]
  refine and_congr_right fun hlt =>
    (hfree f hlt).trans (and_congr_left' (exists_congr fun e => and_congr_right fun he => ?_))
  have hf20 : f < 2 ^ 20 := hlt.trans_le ((Pmm.searched_le p').trans p'.total_le)
  refine and_congr_right fun ht => ?_
  obtain ⟨ha, hend⟩ := hal e he ht
  rw [toNat_startFrame, toNat_endFrame (by omega), frame_subset_region hf20]
  omega

/-- A map of 8 MiB, with the usual hole below the first one. -/
def pcMap : List MmapEntry := [usable 0 0x9fc00, usable 0x100000 0x700000]

end SpatulaOS.Core
