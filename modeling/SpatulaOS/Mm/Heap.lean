import SpatulaOS.Lib.Memory
import SpatulaOS.Video.Vga

/-!
# The kernel heap

The allocator of `mm/heap.c`: `heap_init`, `kmalloc`, `kfree`, `heap_dump` and
`heap_validate`, over a byte-addressed memory. A block is a header of five words
(`magic`, `size`, `free`, `next`, `prev`), the payload, and a guard word after it
that holds `HEAP_MAGIC`. Pointers are 32-bit words, `NULL` is `0`, and all the
arithmetic wraps round at `2 ^ 32` as the compiled code's does.

A `while` loop of the source takes a bound on the number of its iterations and
gives `none` when the bound is too small; a routine terminates on a state when
some bound gives a result.
-/

namespace SpatulaOS.Mm

open ByteMemory SpatulaOS.Video

/-- `KERNEL_HEAP_START`. -/
abbrev KERNEL_HEAP_START : Word := 0x400000

/-- `KERNEL_HEAP_END`. -/
abbrev KERNEL_HEAP_END : Word := 0x800000

/-- `MIN_BLOCK_SIZE`. -/
abbrev MIN_BLOCK_SIZE : Word := 8

/-- `HEAP_MAGIC`. -/
abbrev HEAP_MAGIC : Word := 0xDEADBEEF

/-- `sizeof(block_header_t)`. -/
abbrev SIZEOF_HEADER : Word := 20

/-- `sizeof(uint32_t)`. -/
abbrev SIZEOF_WORD : Word := 4

/-! ### Block headers -/

/-- `block->magic`. -/
def magic (m : Mem) (block : Word) : Word := m.load block

/-- `block->size`. -/
def size (m : Mem) (block : Word) : Word := m.load (block + 4)

/-- `block->free`. -/
def free (m : Mem) (block : Word) : Word := m.load (block + 8)

/-- `block->next`. -/
def next (m : Mem) (block : Word) : Word := m.load (block + 12)

/-- `block->prev`. -/
def prev (m : Mem) (block : Word) : Word := m.load (block + 16)

/-- `block->magic = v`. -/
def setMagic (m : Mem) (block v : Word) : Mem := m.store block v

/-- `block->size = v`. -/
def setSize (m : Mem) (block v : Word) : Mem := m.store (block + 4) v

/-- `block->free = v`. -/
def setFree (m : Mem) (block v : Word) : Mem := m.store (block + 8) v

/-- `block->next = v`. -/
def setNext (m : Mem) (block v : Word) : Mem := m.store (block + 12) v

/-- `block->prev = v`. -/
def setPrev (m : Mem) (block v : Word) : Mem := m.store (block + 16) v

/-- `(uint32_t*)((char*)(block + 1) + n)`: where the guard word of a block of `n`
bytes is. -/
def tail (block n : Word) : Word := block + SIZEOF_HEADER + n

/-- The allocator's state: the memory and the static variables of `heap.c`. -/
structure Heap where
  /-- The memory. -/
  mem : Mem
  /-- `heap_start`. -/
  heapStart : Word
  /-- `heap_end`. -/
  heapEnd : Word
  /-- `heap_head`. -/
  heapHead : Word

/-- `heap_init`. -/
def heapInit (h : Heap) : Heap :=
  { h with heapStart := KERNEL_HEAP_START, heapEnd := KERNEL_HEAP_START }

/-- The allocator just after `heap_init` at boot, when `heap_head` is still `NULL`,
with whatever the memory holds. -/
def boot (m : Mem) : Heap := heapInit ⟨m, 0, 0, 0⟩

/-! ### `kmalloc` -/

/-- `(size + 7) & ~7`. -/
def align (n : Word) : Word := (n + 7) &&& ~~~7

/-- The first allocation: the block starts at `heap_end`, and the guard word that is
written after it is not counted in the new `heap_end`. -/
def kmallocFirst (h : Heap) (n : Word) : Word × Heap :=
  let newEnd := h.heapEnd + SIZEOF_HEADER + n
  if newEnd ≥ KERNEL_HEAP_END then (0, h)
  else
    let head := h.heapEnd
    let m := setMagic h.mem head HEAP_MAGIC
    let m := setSize m head n
    let m := setFree m head 0
    let m := setNext m head 0
    let m := setPrev m head 0
    let m := m.store (tail head n) HEAP_MAGIC
    (head + SIZEOF_HEADER, { h with mem := m, heapEnd := newEnd, heapHead := head })

/-- How the search of the free blocks ends. -/
inductive Search where
  /-- At a free block that is large enough. -/
  | fit (current : Word)
  /-- At the last block. -/
  | last (current : Word)

/-- The search loop of `kmalloc`, from `current`. -/
def search (m : Mem) (n : Word) : ℕ → Word → Option Search
  | 0, _ => none
  | fuel + 1, current =>
    if free m current ≠ 0 ∧ size m current ≥ n then some (.fit current)
    else if next m current = 0 then some (.last current)
    else search m n fuel (next m current)

/-- The split of a block that has room for another one after `n` bytes. -/
def split (m : Mem) (current n : Word) : Mem :=
  let newBlock := tail current n
  let m := setMagic m newBlock HEAP_MAGIC
  let m := setSize m newBlock (size m current - n - SIZEOF_HEADER - SIZEOF_WORD)
  let m := setFree m newBlock 1
  let m := setNext m newBlock (next m current)
  let m := setPrev m newBlock current
  let m := m.store (tail newBlock (size m newBlock)) HEAP_MAGIC
  let m := if next m newBlock ≠ 0 then setPrev m (next m newBlock) newBlock else m
  let m := setSize m current n
  let m := setNext m current newBlock
  m.store (tail current n) HEAP_MAGIC

/-- Take the free block `current` for a request of `n` bytes. -/
def take (m : Mem) (current n : Word) : Mem :=
  let m := if size m current ≥ n + SIZEOF_HEADER + SIZEOF_WORD + MIN_BLOCK_SIZE
    then split m current n else m
  setFree m current 0

/-- Append a block after the last one, `current`. -/
def append (h : Heap) (current n : Word) : Word × Heap :=
  let newEnd := h.heapEnd + SIZEOF_HEADER + n + SIZEOF_WORD
  if newEnd < h.heapEnd then (0, h)
  else if newEnd ≥ KERNEL_HEAP_END then (0, h)
  else
    let newBlock := h.heapEnd
    let m := setMagic h.mem newBlock HEAP_MAGIC
    let m := setSize m newBlock n
    let m := setFree m newBlock 0
    let m := setNext m newBlock 0
    let m := setPrev m newBlock current
    let m := m.store (tail newBlock (size m newBlock)) HEAP_MAGIC
    let m := setNext m current newBlock
    (newBlock + SIZEOF_HEADER, { h with mem := m, heapEnd := newEnd })

/-- `kmalloc`. -/
def kmalloc (fuel : ℕ) (h : Heap) (n : Word) : Option (Word × Heap) :=
  if n = 0 then some (0, h)
  else if align n < n then some (0, h)
  else if align n > KERNEL_HEAP_END - h.heapEnd - SIZEOF_HEADER - SIZEOF_WORD then some (0, h)
  else if h.heapHead = 0 then some (kmallocFirst h (align n))
  else
    match search h.mem (align n) fuel h.heapHead with
    | none => none
    | some (.fit current) =>
      some (current + SIZEOF_HEADER, { h with mem := take h.mem current (align n) })
    | some (.last current) => some (append h current (align n))

/-! ### `kfree` -/

/-- The test that `kfree` makes of a neighbour before it merges with it. -/
def mergeable (h : Heap) (m : Mem) (block : Word) : Prop :=
  block ≠ 0 ∧ block ≥ h.heapStart ∧ block < h.heapEnd ∧ free m block ≠ 0

instance (h : Heap) (m : Mem) (block : Word) : Decidable (mergeable h m block) := by
  unfold mergeable; infer_instance

/-- Merge `block` with the next one. -/
def mergeNext (m : Mem) (block : Word) : Mem :=
  let m := setSize m block
    (size m block + (SIZEOF_HEADER + size m (next m block) + SIZEOF_WORD))
  let m := setNext m block (next m (next m block))
  let m := m.store (tail block (size m block)) HEAP_MAGIC
  if next m block ≠ 0 then setPrev m (next m block) block else m

/-- Merge `block` into the previous one. -/
def mergePrev (m : Mem) (block : Word) : Mem :=
  let m := setSize m (prev m block)
    (size m (prev m block) + (SIZEOF_HEADER + size m block + SIZEOF_WORD))
  let m := m.store (tail (prev m block) (size m (prev m block))) HEAP_MAGIC
  let m := setNext m (prev m block) (next m block)
  if next m block ≠ 0 then setPrev m (next m block) (prev m block) else m

/-- The loop that looks for the last block, from `last`. -/
def lastBlock (m : Mem) : ℕ → Word → Option Word
  | 0, _ => none
  | fuel + 1, last =>
    if last ≠ 0 ∧ next m last ≠ 0 then lastBlock m fuel (next m last) else some last

/-- The end of `kfree`: an empty heap is reset, and a free block at the end moves
`heap_end` back to it. -/
def retract (fuel : ℕ) (h : Heap) : Option Heap :=
  if h.heapHead ≠ 0 ∧ free h.mem h.heapHead ≠ 0 ∧ next h.mem h.heapHead = 0 then
    some { h with heapEnd := h.heapStart, heapHead := 0 }
  else
    match lastBlock h.mem fuel h.heapHead with
    | none => none
    | some last =>
      if last ≠ 0 ∧ free h.mem last ≠ 0 then some { h with heapEnd := last } else some h

/-- The two merges of `kfree`, after the block is marked free. -/
def coalesce (h : Heap) (block : Word) : Mem :=
  let m := setFree h.mem block 1
  let m := if mergeable h m (next m block) then mergeNext m block else m
  if mergeable h m (prev m block) then mergePrev m block else m

/-- `kfree`, and what it prints. -/
def kfree (fuel : ℕ) (h : Heap) (ptr : Word) : Option (Heap × List VgaCall) :=
  if ptr = 0 then some (h, [])
  else
    let block := ptr - SIZEOF_HEADER
    if block < h.heapStart ∨ block ≥ h.heapEnd then
      some (h, [.print "Invalid free header!\n"])
    else if magic h.mem block ≠ HEAP_MAGIC then
      some (h, [.print "Heap header corrupted!\n"])
    else if h.mem.load (tail block (size h.mem block)) ≠ HEAP_MAGIC then
      some (h, [.print "Heap tail corruption detected!\n"])
    else if size h.mem block = 0 ∨ block + SIZEOF_HEADER + size h.mem block > h.heapEnd then
      some (h, [.print "Heap corruption detected!\n"])
    else if free h.mem block ≠ 0 then
      some (h, [.print "Double free detected!\n"])
    else
      match retract fuel { h with mem := coalesce h block } with
      | none => none
      | some h => some (h, [])

/-! ### `heap_dump` and `heap_validate` -/

/-- The loop of `heap_dump`, from `current`, with the blocks counted so far. -/
def dumpLoop (m : Mem) : ℕ → Word → Word → Option (List VgaCall)
  | 0, _, _ => none
  | fuel + 1, current, index =>
    if current = 0 then some []
    else
      (dumpLoop m fuel (next m current) (index + 1)).map fun out =>
        [.print "  Block ", .printDec index, .print ": addr=", .printHex current,
          .print " size=", .printDec (size m current), .print " header=", .printHex current,
          .print " payload=", .printHex (current + SIZEOF_HEADER), .print " ",
          .print (if free m current ≠ 0 then "FREE" else "USED"), .print "\n"] ++ out

/-- `heap_dump`. -/
def heapDump (fuel : ℕ) (h : Heap) : Option (List VgaCall) :=
  if h.heapHead = 0 then some [.print "Heap empty.\n"]
  else (dumpLoop h.mem fuel h.heapHead 0).map (.print "Heap blocks:\n" :: ·)

/-- The two-pointer loop of `heap_validate`: whether it finds a cycle. -/
def cycleLoop (m : Mem) : ℕ → Word → Word → Option Bool
  | 0, _, _ => none
  | fuel + 1, slow, fast =>
    if fast ≠ 0 ∧ next m fast ≠ 0 then
      let slow := next m slow
      let fast := next m (next m fast)
      if slow = fast then some true else cycleLoop m fuel slow fast
    else some false

/-- The block loop of `heap_validate`, from `current`: what it prints at the end. -/
def validateLoop (h : Heap) : ℕ → Word → Option VgaCall
  | 0, _ => none
  | fuel + 1, current =>
    if current = 0 then some (.print "Heap structure valid.\n")
    else if magic h.mem current ≠ HEAP_MAGIC then some (.print "Heap magic corrupted!\n")
    else if next h.mem current ≠ 0 ∧ prev h.mem (next h.mem current) ≠ current then
      some (.print "Heap corruption detected!\n")
    else if current < h.heapStart ∨ current ≥ h.heapEnd then
      some (.print "Block outside heap range!\n")
    else if current + SIZEOF_HEADER + size h.mem current > h.heapEnd then
      some (.print "Block exceeds heap boundary!\n")
    else validateLoop h fuel (next h.mem current)

/-- `heap_validate`: what it prints. -/
def heapValidate (fuel : ℕ) (h : Heap) : Option VgaCall :=
  match cycleLoop h.mem fuel h.heapHead h.heapHead with
  | none => none
  | some true => some (.print "Heap cycle detected!\n")
  | some false => validateLoop h fuel h.heapHead

/-! ### The bound on the iterations

A larger bound gives the same result, so a routine has one result at most. -/

theorem search_mono {m : Mem} {n c : Word} {r : Search} {k j : ℕ} (h : search m n k c = some r)
    (hkj : k ≤ j) : search m n j c = some r := by
  induction k generalizing c j with
  | zero => exact absurd h (by simp [search])
  | succ k ih =>
    obtain ⟨j, rfl⟩ : ∃ i, j = i + 1 := ⟨j - 1, by omega⟩
    rw [search] at h ⊢
    split_ifs at h ⊢ with h1 h2
    · exact h
    · exact h
    · exact ih h (by omega)

theorem lastBlock_mono {m : Mem} {c r : Word} {k j : ℕ} (h : lastBlock m k c = some r) (hkj : k ≤ j) :
    lastBlock m j c = some r := by
  induction k generalizing c j with
  | zero => exact absurd h (by simp [lastBlock])
  | succ k ih =>
    obtain ⟨j, rfl⟩ : ∃ i, j = i + 1 := ⟨j - 1, by omega⟩
    rw [lastBlock] at h ⊢
    split_ifs at h ⊢ with h1
    · exact ih h (by omega)
    · exact h

theorem kmalloc_mono {h : Heap} {n : Word} {r : Word × Heap} {k j : ℕ} (hk : kmalloc k h n = some r)
    (hkj : k ≤ j) : kmalloc j h n = some r := by
  unfold kmalloc at hk ⊢
  split_ifs at hk ⊢
  · exact hk
  · exact hk
  · exact hk
  · exact hk
  · cases hs : search h.mem (align n) k h.heapHead with
    | none => rw [hs] at hk; exact absurd hk (by simp)
    | some c => rw [hs] at hk; rw [search_mono hs hkj]; exact hk

theorem retract_mono {h h' : Heap} {k j : ℕ} (hk : retract k h = some h') (hkj : k ≤ j) :
    retract j h = some h' := by
  unfold retract at hk ⊢
  split_ifs at hk ⊢
  · exact hk
  · cases hl : lastBlock h.mem k h.heapHead with
    | none => rw [hl] at hk; exact absurd hk (by simp)
    | some c => rw [hl] at hk; rw [lastBlock_mono hl hkj]; exact hk

theorem kfree_mono {h : Heap} {p : Word} {r : Heap × List VgaCall} {k j : ℕ} (hk : kfree k h p = some r)
    (hkj : k ≤ j) : kfree j h p = some r := by
  unfold kfree at hk ⊢
  dsimp only at hk ⊢
  split_ifs at hk ⊢
  · exact hk
  · exact hk
  · exact hk
  · exact hk
  · exact hk
  · exact hk
  · generalize Heap.mk _ _ _ _ = h₁ at hk ⊢
    cases hr : retract k h₁ with
    | none => rw [hr] at hk; exact absurd hk (by simp)
    | some c => rw [hr] at hk; rw [retract_mono hr hkj]; exact hk

theorem cycleLoop_mono {m : Mem} {slow fast : Word} {r : Bool} {k j : ℕ}
    (h : cycleLoop m k slow fast = some r) (hkj : k ≤ j) : cycleLoop m j slow fast = some r := by
  induction k generalizing slow fast j with
  | zero => exact absurd h (by simp [cycleLoop])
  | succ k ih =>
    obtain ⟨j, rfl⟩ : ∃ i, j = i + 1 := ⟨j - 1, by omega⟩
    rw [cycleLoop] at h ⊢
    dsimp only at h ⊢
    split_ifs at h ⊢ with h1 h2
    · exact h
    · exact ih h (by omega)
    · exact h

theorem validateLoop_mono {h : Heap} {c : Word} {r : VgaCall} {k j : ℕ} (hk : validateLoop h k c = some r)
    (hkj : k ≤ j) : validateLoop h j c = some r := by
  induction k generalizing c j with
  | zero => exact absurd hk (by simp [validateLoop])
  | succ k ih =>
    obtain ⟨j, rfl⟩ : ∃ i, j = i + 1 := ⟨j - 1, by omega⟩
    rw [validateLoop] at hk ⊢
    split_ifs at hk ⊢
    · exact hk
    · exact hk
    · exact hk
    · exact hk
    · exact hk
    · exact ih hk (by omega)

theorem heapValidate_mono {h : Heap} {r : VgaCall} {k j : ℕ} (hk : heapValidate k h = some r)
    (hkj : k ≤ j) : heapValidate j h = some r := by
  unfold heapValidate at hk ⊢
  cases hc : cycleLoop h.mem k h.heapHead h.heapHead with
  | none => rw [hc] at hk; exact absurd hk (by simp)
  | some c =>
    rw [hc] at hk
    rw [cycleLoop_mono hc hkj]
    cases c with
    | true => exact hk
    | false => exact validateLoop_mono hk hkj

theorem search_unique {m : Mem} {n c : Word} {r r' : Search} {k j : ℕ} (hk : search m n k c = some r)
    (hj : search m n j c = some r') : r = r' :=
  Option.some.inj ((search_mono hk (le_max_left k j)).symm.trans (search_mono hj (le_max_right k j)))

theorem kmalloc_unique {h : Heap} {n : Word} {r r' : Word × Heap} {k j : ℕ} (hk : kmalloc k h n = some r)
    (hj : kmalloc j h n = some r') : r = r' :=
  Option.some.inj ((kmalloc_mono hk (le_max_left k j)).symm.trans (kmalloc_mono hj (le_max_right k j)))

theorem kfree_unique {h : Heap} {p : Word} {r r' : Heap × List VgaCall} {k j : ℕ}
    (hk : kfree k h p = some r) (hj : kfree j h p = some r') : r = r' :=
  Option.some.inj ((kfree_mono hk (le_max_left k j)).symm.trans (kfree_mono hj (le_max_right k j)))

end SpatulaOS.Mm
