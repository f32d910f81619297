import SpatulaOS.Lib.Loops
import SpatulaOS.Video.Vga

/-!
# The Multiboot memory map

The information that the boot loader leaves in memory (`core/multiboot.h`). The
memory map is a run of packed entries of 24 bytes or more: an entry's `size` field
does not count itself, and the next entry is `size + 4` bytes further on. The kernel
walks over the map with a loop that reads an entry, does something with it, and goes
on while it is below the end of the map; `mmapLoop` is that loop with its body as a
parameter. It takes a bound on the number of entries, as the other loops do, and is a
fold over the entries that it visits (`mmapLoop_eq`).

Nothing keeps the walk from going round: the sizes are added modulo `2 ^ 32`. It ends
if and only if it comes to no entry twice (`mmapLoop_ends_iff`).
-/

namespace SpatulaOS.Core

open ByteMemory Loops SpatulaOS.Video

/-- `multiboot_mmap_entry_t`. -/
structure MmapEntry where
  /-- `size` -/
  size : Word
  /-- `addr` -/
  addr : BitVec 64
  /-- `len` -/
  len : BitVec 64
  /-- `type` -/
  type : Word
  deriving DecidableEq

/-- The `multiboot_mmap_entry_t` at `mmap`. -/
def mmapEntry (m : Mem) (mmap : Word) : MmapEntry where
  size := m.load mmap
  addr := m.load (mmap + 8) ++ m.load (mmap + 4)
  len := m.load (mmap + 16) ++ m.load (mmap + 12)
  type := m.load (mmap + 20)

/-- What the kernel reads of `multiboot_info_t`. -/
structure MultibootInfo where
  /-- `flags` -/
  flags : Word
  /-- `mmap_length` -/
  mmapLength : Word
  /-- `mmap_addr` -/
  mmapAddr : Word

/-- The `multiboot_info_t` at `addr`. -/
def multibootInfo (m : Mem) (addr : Word) : MultibootInfo where
  flags := m.load addr
  mmapLength := m.load (addr + 44)
  mmapAddr := m.load (addr + 48)

/-- `mbi->flags & (1 << 6)`: there is a memory map. -/
def MultibootInfo.HasMmap (mbi : MultibootInfo) : Prop := mbi.flags &&& 1#32 <<< 6 ≠ 0

instance (mbi : MultibootInfo) : Decidable mbi.HasMmap := by unfold MultibootInfo.HasMmap; infer_instance

/-- `mbi->mmap_addr + mbi->mmap_length`. -/
def MultibootInfo.mmapEnd (mbi : MultibootInfo) : Word := mbi.mmapAddr + mbi.mmapLength

/-- The address of the entry after the one at `mmap`. -/
def nextEntry (m : Mem) (mmap : Word) : Word := mmap + (mmapEntry m mmap).size + 4

variable {σ : Type*} {m : Mem} {stop mmap : Word} {body : MmapEntry → σ → σ} {s : σ} {k : ℕ}

/-- `while ((uint32_t)mmap < stop) { body; mmap = next entry; }` -/
def mmapLoop (m : Mem) (stop : Word) (body : MmapEntry → σ → σ) : ℕ → Word → σ → Option σ
  | 0, _, _ => none
  | fuel + 1, mmap, s =>
    if mmap < stop then mmapLoop m stop body fuel (nextEntry m mmap) (body (mmapEntry m mmap) s) else some s

/-- The entries that the loop visits. -/
def mmapEntries (m : Mem) (stop : Word) : ℕ → Word → Option (List MmapEntry)
  | 0, _ => none
  | fuel + 1, mmap =>
    if mmap < stop then (mmapEntries m stop fuel (nextEntry m mmap)).map (mmapEntry m mmap :: ·) else some []

/-- The loop is a fold over the entries that it visits. -/
theorem mmapLoop_eq : mmapLoop m stop body k mmap s =
    (mmapEntries m stop k mmap).map fun es => es.foldl (fun s e => body e s) s := by
  induction k generalizing mmap s with
  | zero => rfl
  | succ k ih =>
    rw [mmapLoop, mmapEntries]
    split_ifs with h
    · rw [ih, Option.map_map]
      rfl
    · rfl

/-! ### Whether the walk ends -/

/-- The loop as one on the cursor and what the body computes. -/
theorem mmapLoop_eq_whileLoop : mmapLoop m stop body k mmap s =
    (whileLoop (fun x => x.1 < stop) (fun x => (nextEntry m x.1, body (mmapEntry m x.1) x.2)) k (mmap, s)).map
      Prod.snd := by
  induction k generalizing mmap s with
  | zero => rfl
  | succ k ih =>
    rw [mmapLoop, whileLoop]
    split_ifs with h
    · exact ih
    · rfl

/-- The walk ends if and only if it comes to no entry twice, whatever is done with the entries. -/
theorem mmapLoop_ends_iff :
    (∃ k t, mmapLoop m stop body k mmap s = some t) ↔ ¬ Recurs (· < stop) (nextEntry m) mmap := by
  have hcursor : Function.Semiconj Prod.fst
      (fun x : Word × σ => (nextEntry m x.1, body (mmapEntry m x.1) x.2)) (nextEntry m) := fun _ => rfl
  rw [← ends_iff, ← ends_semiconj hcursor (mmap, s), ← whileLoop_ends_iff]
  simp only [mmapLoop_eq_whileLoop, Option.map_eq_some_iff]
  refine exists_congr fun k => ⟨?_, ?_⟩
  · rintro ⟨t, x, hx, -⟩
    exact ⟨x, hx⟩
  · rintro ⟨x, hx⟩
    exact ⟨x.2, x, hx, rfl⟩

theorem mmapLoop_mono {l : ℕ} {t : σ} (h : mmapLoop m stop body k mmap s = some t) (hk : k ≤ l) :
    mmapLoop m stop body l mmap s = some t := by
  rw [mmapLoop_eq_whileLoop, Option.map_eq_some_iff] at h ⊢
  obtain ⟨x, hx, hxt⟩ := h
  exact ⟨x, whileLoop_mono hx hk, hxt⟩

/-- The entry behind one whose size does not lead round the address space is further up. -/
theorem lt_nextEntry (h : mmap.toNat + (mmapEntry m mmap).size.toNat + 4 < 2 ^ 32) :
    mmap.toNat < (nextEntry m mmap).toNat := by
  rw [nextEntry]
  bv_omega

/-! ### Printing the map -/

/-- What is printed for an entry. -/
def printRegion (e : MmapEntry) (printed : List VgaCall) : List VgaCall :=
  printed ++ [.print "Region: ", .printHex (e.addr.setWidth 32), .print " - ",
    .printHex ((e.addr + e.len).setWidth 32), .print "\n"]

/-- `multiboot_print_memory`: what it prints. -/
def multibootPrintMemory (fuel : ℕ) (m : Mem) (multibootAddr : Word) : Option (List VgaCall) :=
  let mbi := multibootInfo m multibootAddr
  if ¬ mbi.HasMmap then some [.print "No memory map found\n"]
  else mmapLoop m mbi.mmapEnd printRegion fuel mbi.mmapAddr [.print "Memory map:\n"]

/-- `multiboot_print_memory` ends if there is no map, or its walk comes to no entry twice. -/
theorem multibootPrintMemory_ends_iff {addr : Word} : (∃ k out, multibootPrintMemory k m addr = some out) ↔
    ((multibootInfo m addr).HasMmap →
      ¬ Recurs (· < (multibootInfo m addr).mmapEnd) (nextEntry m) (multibootInfo m addr).mmapAddr) := by
  unfold multibootPrintMemory
  by_cases hmap : (multibootInfo m addr).HasMmap
  · simp only [if_neg (not_not.mpr hmap)]
    rw [mmapLoop_ends_iff]
    exact (imp_iff_right hmap).symm
  · simp only [if_pos hmap]
    exact iff_of_true ⟨0, _, rfl⟩ fun h => absurd h hmap

/-! ### A boot loader's memory -/

/-- Words stored one after the other, from `a` on. -/
def storeWords (m : Mem) (a : Word) : List Word → Mem
  | [] => m
  | v :: vs => storeWords (m.store a v) (a + 4) vs

/-- An entry, word by word. -/
def MmapEntry.words (e : MmapEntry) : List Word :=
  [e.size, e.addr.setWidth 32, (e.addr >>> 32).setWidth 32, e.len.setWidth 32,
    (e.len >>> 32).setWidth 32, e.type]

/-- A usable region. -/
def usable (addr len : BitVec 64) : MmapEntry := ⟨20, addr, len, 1⟩

/-- A memory with the information at `0x1000` and the memory map `es`, of entries without
further bytes, at `0x2000`. -/
def bootMemory (es : List MmapEntry) : Mem :=
  let m : Mem := fun _ => 0
  let m := m.store 0x1000 0x40
  let m := m.store 0x102c (24 * BitVec.ofNat 32 es.length)
  let m := m.store 0x1030 0x2000
  storeWords m 0x2000 (es.flatMap MmapEntry.words)

end SpatulaOS.Core
