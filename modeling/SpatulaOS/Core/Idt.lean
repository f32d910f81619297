import SpatulaOS.Mm.Paging
import SpatulaOS.Mm.PmmInit
import SpatulaOS.Video.Vga

/-!
# Demand paging of the kernel heap

`page_fault_handler` of `core/idt.c`: a fault of the kernel on a page of the heap that is
not present is answered with a frame from the allocator, and every other fault ends in a
panic. A panic does not return; it is modelled by its message and what was printed before.

In a run of faults whose requests for frames succeed (`HeapFault`), the pages of the heap
get distinct frames, none of which is a page table (`Faults.Inv`).
-/

namespace SpatulaOS.Core

open ByteMemory WordBitmap Runs SpatulaOS.Mm SpatulaOS.Video

/-- `KERNEL_HEAP_START`. -/
abbrev KERNEL_HEAP_START : Word := 0x400000

/-- `KERNEL_HEAP_END`. -/
abbrev KERNEL_HEAP_END : Word := 0x800000

/-- How the handler ends. -/
inductive FaultResult where
  /-- It returns, and the faulting instruction is run again. -/
  | recovered (s : Paging)
  /-- `debug_panic_from_exception(regs, message)`, after what is printed. -/
  | panic (printed : List VgaCall) (message : String)

/-- What the handler prints before the panic. -/
def fatalReport (faultAddr errCode : Word) : List VgaCall :=
  let notPresent := errCode &&& 0x1 = 0
  let write := errCode &&& 0x2 ≠ 0
  let user := errCode &&& 0x4 ≠ 0
  let reserved := errCode &&& 0x8 ≠ 0
  let instrFetch := errCode &&& 0x10 ≠ 0
  [.print "\n=== FATAL PAGE FAULT ===\n", .print "Fault Address: ", .printHex faultAddr,
    .print "\n", .print "Flags:",
    if notPresent then .print " [Not Present]" else .print " [Protection Violation]",
    if write then .print " [Write]" else .print " [Read]",
    if user then .print " [User Mode]" else .print " [Kernel Mode]"] ++
  (if reserved then [.print " [Reserved Bit]"] else []) ++
  (if instrFetch then [.print " [Instruction Fetch]"] else []) ++ [.print "\n"]

/-- `page_fault_handler`, with the contents of `cr2` and of `regs->err_code`, if page tables are
accessed at their physical addresses. -/
def pageFaultHandler (s : Paging) (faultAddr errCode : Word) : FaultResult :=
  let alignedAddr := faultAddr &&& 0xFFFFF000
  let notPresent := errCode &&& 0x1 = 0
  let user := errCode &&& 0x4 ≠ 0
  if notPresent ∧ ¬ user ∧ alignedAddr ≥ KERNEL_HEAP_START ∧ alignedAddr < KERNEL_HEAP_END then
    let r := pmmAllocFrame s.pmm
    let frame := r.1
    let s := { s with pmm := r.2 }
    if frame = 0 then .panic [] "Out of physical memory during demand paging"
    else .recovered (mapPage s alignedAddr frame)
  else .panic (fatalReport faultAddr errCode) "Unhandled Page Fault"

/-! ### Runs of faults -/

/-- The paging state, and the pages whose faults were handled, the latest first. -/
structure Faults where
  /-- The paging state. -/
  paging : Paging
  /-- The pages whose faults were handled. -/
  handled : List Word

/-- A fault: the contents of `cr2` and the error code. -/
structure Fault where
  /-- The address that was accessed. -/
  addr : Word
  /-- `err_code` -/
  errCode : Word

/-- The page of the access. -/
abbrev Fault.page (o : Fault) : Word := o.addr &&& 0xFFFFF000

/-- The handler is called for one fault after the other, after `paging_init` with the allocator `p`. -/
def faultMachine (p : Pmm) : Machine Faults Fault where
  start t := ∃ m d pt, t = ⟨pagingInit ⟨p, m, d, pt⟩, []⟩
  step t o t' := ∃ s, pageFaultHandler t.paging o.addr o.errCode = .recovered s ∧
    t' = ⟨s, o.page :: t.handled⟩

/-- A fault of the kernel on a page of the heap that is not present, for which the requests for
frames succeed: the one for the page, and the one for a page table if there is none. -/
structure HeapFault (t : Faults) (o : Fault) : Prop where
  not_present : o.errCode &&& 0x1 = 0
  kernel : o.errCode &&& 0x4 = 0
  start_le : KERNEL_HEAP_START ≤ o.addr
  lt_end : o.addr < KERNEL_HEAP_END
  unmapped : t.paging.walk o.addr = none
  frame : (pmmAllocFrame t.paging.pmm).1 ≠ 0
  table : t.paging.pageTables (dirIndex o.page) = 0 →
    (pmmAllocFrame (pmmAllocFrame t.paging.pmm).2).1 ≠ 0

variable {p : Pmm} {image : Image} {t t' : Faults} {o : Fault} {s : Paging} {va : Word} {d e f g : ℕ}

/-! ### One fault -/

theorem walk_page (s : Paging) (va : Word) : s.walk (va &&& 0xFFFFF000) = s.walk va := by
  have hpage : (va &&& 0xFFFFF000) >>> 12 = va >>> 12 := by
    rw [← BitVec.toNat_inj, BitVec.toNat_ushiftRight, BitVec.toNat_ushiftRight, toNat_and_page,
      Nat.shiftRight_eq_div_pow, Nat.shiftRight_eq_div_pow]
    omega
  obtain ⟨hdir, htab⟩ := page_eq_iff.mp hpage
  unfold Paging.walk
  rw [hdir, htab]

/-- The fault is handled: the handler takes a frame for the page and maps it. -/
theorem pageFaultHandler_eq (h : HeapFault t o) : pageFaultHandler t.paging o.addr o.errCode = .recovered
    (mapPage { t.paging with pmm := (pmmAllocFrame t.paging.pmm).2 } o.page
      (pmmAllocFrame t.paging.pmm).1) := by
  have h1 : 0x400000 ≤ o.addr.toNat := h.start_le
  have h2 : o.addr.toNat < 0x800000 := h.lt_end
  have hlo : o.page ≥ KERNEL_HEAP_START := by
    show 0x400000 ≤ o.page.toNat
    rw [toNat_and_page]
    omega
  have hhi : o.page < KERNEL_HEAP_END := by
    show o.page.toNat < 0x800000
    rw [toNat_and_page]
    omega
  unfold pageFaultHandler
  dsimp only
  rw [if_pos ⟨h.not_present, not_not.mpr h.kernel, hlo, hhi⟩, if_neg h.frame]

/-- An allocation that does not return `NULL` finds a frame. -/
theorem firstFreeFrame_ne (h : (pmmAllocFrame p).1 ≠ 0) : firstFreeFrame p ≠ -1 := by
  intro h0
  rw [pmmAllocFrame, if_pos h0] at h
  exact h rfl

/-! ### The invariant -/

/-- The page `a` is mapped, writable, to the frame `f`, which was free in `p` and is not a table. -/
structure Backed (p : Pmm) (s : Paging) (a : Word) (f : ℕ) : Prop where
  walk : s.walk a = some (frameAddr f, true)
  free : f ∈ p.free
  used : f ∉ s.pmm.free
  not_table : ∀ d, d < PAGE_ENTRIES → ¬ s.IsTable d f

/-- The handled pages are backed by distinct frames, and the identity mapping stands. -/
structure Faults.Inv (p : Pmm) (t : Faults) : Prop where
  paging : t.paging.Inv
  free : t.paging.pmm.free ⊆ p.free
  backed : ∀ a ∈ t.handled, ∃ f, Backed p t.paging a f
  distinct : ∀ a ∈ t.handled, ∀ b ∈ t.handled, t.paging.walk a = t.paging.walk b → a = b
  identity : ∀ va, dirIndex va = 0 → tableIndex va ≠ 0 → t.paging.walk va = some (va &&& 0xFFFFF000, true)

theorem Faults.Inv.init (hp : 0 ∉ p.free) (m : Mem) (d pt : ℕ → Word) :
    Faults.Inv p ⟨pagingInit ⟨p, m, d, pt⟩, []⟩ := by
  refine ⟨.init _ fun h => hp h.1, ?_, fun _ h => absurd h List.not_mem_nil,
    fun _ h => absurd h List.not_mem_nil,
    fun va => walk_pagingInit _⟩
  show (pmmAllocFrame p).2.free ⊆ p.free
  obtain ⟨hr, -⟩ | ⟨f, -, -, -, hr⟩ := pmmAllocFrame_spec p
  · rw [hr]
  · rw [hr, setFrame_free]
    exact Finset.erase_subset _ _

/-- What one fault does: its page is mapped to a frame that was free, and every other page is
mapped as before. -/
theorem Faults.Inv.fault (hi : t.Inv p) (h : HeapFault t o) (hs : (faultMachine p).step t o t') :
    ∃ f ∈ t.paging.pmm.free, t'.handled = o.page :: t.handled ∧ t'.paging.Inv ∧
      t'.paging.pmm.free ⊆ t.paging.pmm.free.erase f ∧
      (∀ d e, t'.paging.IsTable d e → t.paging.IsTable d e ∨ e ∈ t.paging.pmm.free.erase f) ∧
      ∀ va, t'.paging.walk va = if va >>> 12 = o.page >>> 12 then some (frameAddr f, true)
        else t.paging.walk va := by
  obtain ⟨s, hs, rfl⟩ := hs
  obtain rfl := FaultResult.recovered.inj ((pageFaultHandler_eq h).symm.trans hs)
  obtain ⟨h0, -⟩ | ⟨f, hf, -, -, hr⟩ := pmmAllocFrame_spec t.paging.pmm
  · exact absurd (congrArg Prod.fst h0) h.frame
  have hf20 := Pmm.lt_of_mem_free hf
  have htable := h.table
  rw [hr] at htable
  have hfree : (setFrame t.paging.pmm (BitVec.ofNat 32 f)).free = t.paging.pmm.free.erase f := by
    rw [setFrame_free, BitVec.toNat_ofNat, Nat.mod_eq_of_lt (by omega)]
  -- the state in which `map_page` is called
  have hi1 := hi.paging.take (q := setFrame t.paging.pmm (BitVec.ofNat 32 f))
    (by rw [hfree]; exact Finset.erase_subset _ _) rfl
  have ha : ({ t.paging with pmm := setFrame t.paging.pmm (BitVec.ofNat 32 f) } :
    Paging).TableAvailable o.page := by
    by_cases h0 : t.paging.pageTables (dirIndex o.page) = 0
    · exact .inr (firstFreeFrame_ne (htable h0))
    · exact .inl h0
  rw [hr]
  refine ⟨f, hf, rfl, hi1.mapPage _ _, ?_, fun d e ht => ?_, fun va => ?_⟩
  · rw [← hfree]
    exact hi1.free_mapPage ha _
  · rw [← hfree]
    exact (hi1.table_mapPage ha ht).imp_left fun h => ⟨h.pos, h.lt, h.tracked, h.listed⟩
  · have hwalk := hi1.walk_mapPage ha (frameAddr f) va
    rw [frameAddr_and_page hf20] at hwalk
    exact hwalk

/-- A fault keeps the invariant. -/
theorem Faults.Inv.step (hi : t.Inv p) (h : HeapFault t o) (hs : (faultMachine p).step t o t') :
    t'.Inv p := by
  obtain ⟨f, hf, hh, hpg, hfree, htab, hwalk⟩ := hi.fault h hs
  have hnew : Backed p t'.paging o.page f := by
    refine ⟨by rw [hwalk, if_pos rfl], hi.free hf, fun hm => Finset.notMem_erase f _ (hfree hm),
      fun d hd ht => ?_⟩
    obtain ht | hm := htab d f ht
    · exact hi.paging.used d f hd ht hf
    · exact Finset.notMem_erase f _ hm
  -- the page of the fault was not present, so it is none of the others
  have hold {va : Word} (hva : t.paging.walk va ≠ none) : t'.paging.walk va = t.paging.walk va := by
    rw [hwalk, if_neg fun hpage => hva ?_]
    obtain ⟨hdir, htb⟩ := page_eq_iff.mp hpage
    have := h.unmapped
    rw [← walk_page] at this
    unfold Paging.walk at this ⊢
    rwa [hdir, htb]
  have hpresent {a : Word} (ha : a ∈ t.handled) : t.paging.walk a ≠ none := by
    obtain ⟨g, hg⟩ := hi.backed a ha
    rw [hg.walk]
    exact Option.some_ne_none _
  have hne {a : Word} (ha : a ∈ t.handled) : t'.paging.walk a ≠ t'.paging.walk o.page := by
    obtain ⟨g, hg⟩ := hi.backed a ha
    rw [hold (hpresent ha), hg.walk, hnew.walk]
    intro he
    have hgf := frameAddr_inj (Pmm.lt_of_mem_free hg.free) (Pmm.lt_of_mem_free hnew.free)
      (congrArg Prod.fst (Option.some.inj he))
    exact hg.used (hgf ▸ hf)
  refine ⟨hpg, (hfree.trans (Finset.erase_subset _ _)).trans hi.free, fun a ha => ?_, fun a ha b hb hab => ?_,
    fun va hdir htb => ?_⟩
  · rw [hh] at ha
    obtain rfl | ha := List.mem_cons.mp ha
    · exact ⟨f, hnew⟩
    · obtain ⟨g, hg⟩ := hi.backed a ha
      refine ⟨g, (hold (hpresent ha)).trans hg.walk, hg.free, fun hm => ?_, fun d hd ht => ?_⟩
      · exact hg.used (Finset.mem_of_mem_erase (hfree hm))
      · obtain ht | hm := htab d g ht
        · exact hg.not_table d hd ht
        · exact hg.used (Finset.mem_of_mem_erase hm)
  · rw [hh] at ha hb
    obtain rfl | ha := List.mem_cons.mp ha <;> obtain rfl | hb := List.mem_cons.mp hb
    · rfl
    · exact absurd hab.symm (hne hb)
    · exact absurd hab (hne ha)
    · rw [hold (hpresent ha), hold (hpresent hb)] at hab
      exact hi.distinct a ha b hb hab
  · have hid := hi.identity va hdir htb
    rw [hold (by rw [hid]; exact Option.some_ne_none _), hid]

theorem Faults.inv (hp : 0 ∉ p.free) (ht : Reach (faultMachine p) HeapFault t) : t.Inv p := by
  refine ht.invariant (I := fun t => t.Inv p) ?_ ?_
  · rintro t ⟨m, d, pt, rfl⟩
    exact .init hp m d pt
  · exact fun t o t' hi h hs => hi.step h hs

/-- A backing frame is not in the directory and not tracked as a table. -/
theorem Backed.not_listed {a : Word} (h : Backed p s a f) (hi : s.Inv) (h0 : f ≠ 0) (hd : d < PAGE_ENTRIES) :
    s.pageTables d ≠ frameAddr f ∧ s.pageDirectory d &&& 0xFFFFF000 ≠ frameAddr f := by
  have hf20 := Pmm.lt_of_mem_free h.free
  have hz : frameAddr f ≠ 0 := fun hz => h0 ((frameAddr_eq_zero_iff hf20).mp hz)
  constructor
  · intro heq
    obtain ⟨g, hg⟩ := hi.exists_table hd (heq ▸ hz)
    obtain rfl := frameAddr_inj hf20 hg.lt (heq.symm.trans hg.tracked)
    exact h.not_table d hd hg
  · intro heq
    have hpd : s.pageDirectory d ≠ 0 := by
      intro hpd
      rw [hpd] at heq
      exact hz heq.symm
    obtain ⟨g, hg20, hg, hor⟩ := hi.listed hd hpd
    rw [hg, entry_and_page, frameAddr_and_page hg20] at heq
    obtain rfl := frameAddr_inj hg20 hf20 heq
    exact h.not_table d hd (hor.resolve_left h0)

/-- What demand paging promises in a state after faults on the heap: every handled page is
present and writable, in a frame of its own that is not a page table and not reserved for the
kernel or the bitmap; pages 1 to 1023 are mapped to themselves; and the next such fault is
handled and changes no other mapping. -/
structure Faults.Sound (p : Pmm) (image : Image) (t : Faults) : Prop where
  mapped : ∀ a ∈ t.handled, ∃ f, t.paging.walk a = some (frameAddr f, true) ∧ f ∈ p.free ∧
    ¬ Reserved image p.totalFrames.toNat f ∧
    ∀ d, d < PAGE_ENTRIES →
      t.paging.pageTables d ≠ frameAddr f ∧ t.paging.pageDirectory d &&& 0xFFFFF000 ≠ frameAddr f
  distinct : ∀ a ∈ t.handled, ∀ b ∈ t.handled, t.paging.walk a = t.paging.walk b → a = b
  identity : ∀ i, 0 < i → i < 1024 →
    t.paging.walk (BitVec.ofNat 32 (i * 4096)) = some (BitVec.ofNat 32 (i * 4096), true)
  next : ∀ o, HeapFault t o → ∃ s, pageFaultHandler t.paging o.addr o.errCode = .recovered s ∧
    (∃ frame, s.walk o.addr = some (frame, true)) ∧
    ∀ va : Word, va >>> 12 ≠ o.addr >>> 12 → s.walk va = t.paging.walk va

/-- **Demand paging of the heap is sound** from every allocator state whose free frames exclude
frame 0, the kernel image and the bitmap. -/
theorem heapFaults_sound (hp : ∀ f ∈ p.free, f ≠ 0 ∧ ¬ Reserved image p.totalFrames.toNat f)
    (ht : Reach (faultMachine p) HeapFault t) : t.Sound p image := by
  have hi := Faults.inv (fun h => (hp 0 h).1 rfl) ht
  refine ⟨fun a ha => ?_, hi.distinct, fun i hpos hlt => ?_, fun o h => ?_⟩
  · obtain ⟨f, hf⟩ := hi.backed a ha
    exact ⟨f, hf.walk, hf.free, (hp f hf.free).2, fun d hd => hf.not_listed hi.paging (hp f hf.free).1 hd⟩
  · have hnat : (BitVec.ofNat 32 (i * 4096)).toNat = i * 4096 := toNat_frameAddr (f := i) (by omega)
    have hdir : dirIndex (BitVec.ofNat 32 (i * 4096)) = 0 := by
      rw [dirIndex_eq, hnat]
      omega
    have htab : tableIndex (BitVec.ofNat 32 (i * 4096)) ≠ 0 := by
      intro h0
      have := congrArg BitVec.toNat h0
      rw [toNat_tableIndex, hnat, show BitVec.toNat (0 : Word) = 0 from rfl] at this
      omega
    rw [hi.identity _ hdir htab]
    exact congrArg (fun w => some (w, true)) (frameAddr_and_page (f := i) (by omega))
  · have hstep : (faultMachine p).step t o _ := ⟨_, pageFaultHandler_eq h, rfl⟩
    obtain ⟨f, -, -, -, -, -, hwalk⟩ := hi.fault h hstep
    have hpage (va : Word) : va >>> 12 = o.page >>> 12 ↔ va >>> 12 = o.addr >>> 12 := by
      rw [← BitVec.toNat_inj, ← BitVec.toNat_inj, BitVec.toNat_ushiftRight, BitVec.toNat_ushiftRight,
        BitVec.toNat_ushiftRight, toNat_and_page, Nat.shiftRight_eq_div_pow, Nat.shiftRight_eq_div_pow,
        Nat.shiftRight_eq_div_pow]
      omega
    refine ⟨_, pageFaultHandler_eq h, ⟨frameAddr f, ?_⟩, fun va hva => ?_⟩
    · rw [hwalk, if_pos ((hpage _).mpr rfl)]
    · rw [hwalk, if_neg fun h => hva ((hpage va).mp h)]

/-- The state after `paging_init` and two faults, on a read and on a write. -/
def twoFaults : Faults :=
  let s := pagingInit ⟨lowFrame, fun _ => 0, fun _ => 0, fun _ => 0⟩
  let s := mapPage { s with pmm := (pmmAllocFrame s.pmm).2 } 0x400000 (pmmAllocFrame s.pmm).1
  ⟨mapPage { s with pmm := (pmmAllocFrame s.pmm).2 } 0x7ff000 (pmmAllocFrame s.pmm).1, [0x7ff000, 0x400000]⟩

theorem twoFaults_sound :
    Reach (faultMachine lowFrame) HeapFault twoFaults ∧ twoFaults.Sound lowFrame smallImage := by
  have hreach : Reach (faultMachine lowFrame) HeapFault twoFaults := by
    have h0 : HeapFault ⟨pagingInit ⟨lowFrame, fun _ => 0, fun _ => 0, fun _ => 0⟩, []⟩ ⟨0x400010, 0⟩ :=
      ⟨by decide, by decide, by decide, by decide, by decide +kernel, by decide +kernel, by decide +kernel⟩
    refine .step (.step (.start ⟨_, _, _, rfl⟩) h0 ⟨_, pageFaultHandler_eq h0, rfl⟩)
      (o := ⟨0x7ffffc, 2⟩) ?_ ?_
    · exact ⟨by decide, by decide, by decide, by decide, by decide +kernel, by decide +kernel, by decide +kernel⟩
    · exact ⟨_, pageFaultHandler_eq ⟨by decide, by decide, by decide, by decide, by decide +kernel, by decide +kernel,
        by decide +kernel⟩, rfl⟩
  exact ⟨hreach, heapFaults_sound (by decide +kernel) hreach⟩

end SpatulaOS.Core
