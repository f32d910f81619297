import SpatulaOS.Lib.OnDemand
import SpatulaOS.Mm.FirstFit

/-!
# The allocator, access by access

The routines of `mm/heap.c` as programs that read and write words one after the other, so that they
can run where an access may fault. Over a memory that is all there they do what `kmalloc`, `kfree`
and `heap_dump` do (`HeapCode.call_run`).
-/

namespace SpatulaOS.Mm

open ByteMemory OnDemand Threaded Block SpatulaOS.Video

/-- A program of the kernel. -/
abbrev HeapCode := Prog Word Byte

/-- The static variables of `heap.c`, which lie outside of the heap. -/
structure Statics where
  /-- `heap_start`. -/
  heapStart : Word
  /-- `heap_end`. -/
  heapEnd : Word
  /-- `heap_head`. -/
  heapHead : Word

/-- The allocator with a memory. -/
def Statics.heap (v : Statics) (m : Mem) : Heap := ⟨m, v.heapStart, v.heapEnd, v.heapHead⟩

/-- The static variables of the allocator. -/
def Heap.statics (h : Heap) : Statics := ⟨h.heapStart, h.heapEnd, h.heapHead⟩

/-- The static variables just after `heap_init` at boot, when `heap_head` is still `NULL`. -/
def Statics.heapInit : Statics := ⟨KERNEL_HEAP_START, KERNEL_HEAP_START, 0⟩

namespace HeapCode

/-! ### Words and fields -/

/-- A word is read. -/
def load (a : Word) : HeapCode Word :=
  .read [a, a + 1, a + 2, a + 3] fun bs => .ret (bs.getD 3 0 ++ bs.getD 2 0 ++ bs.getD 1 0 ++ bs.getD 0 0)

/-- A word is written. -/
def store (a v : Word) : HeapCode Unit :=
  .write [(a, v.extractLsb' 0 8), (a + 1, v.extractLsb' 8 8), (a + 2, v.extractLsb' 16 8),
    (a + 3, v.extractLsb' 24 8)]
    (.ret ())

/-- `if (c) p` -/
def when (c : Prop) [Decidable c] (p : HeapCode Unit) : HeapCode Unit := if c then p else pure ()

/-- `c && p` -/
def both (c : Prop) [Decidable c] (p : HeapCode Bool) : HeapCode Bool := if c then p else pure false

def magic (block : Word) : HeapCode Word := load block

def size (block : Word) : HeapCode Word := load (block + 4)

def free (block : Word) : HeapCode Word := load (block + 8)

def next (block : Word) : HeapCode Word := load (block + 12)

def prev (block : Word) : HeapCode Word := load (block + 16)

def setMagic (block v : Word) : HeapCode Unit := store block v

def setSize (block v : Word) : HeapCode Unit := store (block + 4) v

def setFree (block v : Word) : HeapCode Unit := store (block + 8) v

def setNext (block v : Word) : HeapCode Unit := store (block + 12) v

def setPrev (block v : Word) : HeapCode Unit := store (block + 16) v

/-! ### `kmalloc` -/

/-- The first allocation. -/
def kmallocFirst (v : Statics) (n : Word) : HeapCode (Word × Statics) :=
  let newEnd := v.heapEnd + SIZEOF_HEADER + n
  if newEnd ≥ KERNEL_HEAP_END then pure (0, v)
  else do
    let head := v.heapEnd
    setMagic head HEAP_MAGIC
    setSize head n
    setFree head 0
    setNext head 0
    setPrev head 0
    store (tail head n) HEAP_MAGIC
    pure (head + SIZEOF_HEADER, { v with heapEnd := newEnd, heapHead := head })

/-- The test of the search loop. -/
def serves (n current : Word) : HeapCode Bool := do
  let free ← free current
  both (free ≠ 0) do
    let size ← size current
    pure (decide (size ≥ n))

/-- The search loop of `kmalloc`, from `current`. -/
def search (n : Word) : ℕ → Word → HeapCode (Option Search)
  | 0, _ => pure none
  | fuel + 1, current => do
    let fits ← serves n current
    if fits then pure (some (.fit current))
    else do
      let next ← next current
      if next = 0 then pure (some (.last current)) else search n fuel next

/-- The split of a block that has room for another one after `n` bytes. -/
def split (current n : Word) : HeapCode Unit := do
  let newBlock := tail current n
  setMagic newBlock HEAP_MAGIC
  let currentSize ← size current
  setSize newBlock (currentSize - n - SIZEOF_HEADER - SIZEOF_WORD)
  setFree newBlock 1
  let currentNext ← next current
  setNext newBlock currentNext
  setPrev newBlock current
  let newSize ← size newBlock
  store (tail newBlock newSize) HEAP_MAGIC
  let newNext ← next newBlock
  when (newNext ≠ 0) (setPrev newNext newBlock)
  setSize current n
  setNext current newBlock
  store (tail current n) HEAP_MAGIC

/-- Take the free block `current` for a request of `n` bytes. -/
def take (current n : Word) : HeapCode Unit := do
  let currentSize ← size current
  when (currentSize ≥ n + SIZEOF_HEADER + SIZEOF_WORD + MIN_BLOCK_SIZE) (split current n)
  setFree current 0

/-- Append a block after the last one, `current`. -/
def append (v : Statics) (current n : Word) : HeapCode (Word × Statics) :=
  let newEnd := v.heapEnd + SIZEOF_HEADER + n + SIZEOF_WORD
  if newEnd < v.heapEnd then pure (0, v)
  else if newEnd ≥ KERNEL_HEAP_END then pure (0, v)
  else do
    let newBlock := v.heapEnd
    setMagic newBlock HEAP_MAGIC
    setSize newBlock n
    setFree newBlock 0
    setNext newBlock 0
    setPrev newBlock current
    let newSize ← size newBlock
    store (tail newBlock newSize) HEAP_MAGIC
    setNext current newBlock
    pure (newBlock + SIZEOF_HEADER, { v with heapEnd := newEnd })

/-- What `kmalloc` does where its search ends. -/
def serve (v : Statics) (n : Word) : Option Search → HeapCode (Option (Word × Statics))
  | none => pure none
  | some (.fit current) => do
    take current n
    pure (some (current + SIZEOF_HEADER, v))
  | some (.last current) => do
    let r ← append v current n
    pure (some r)

/-- `kmalloc` -/
def kmalloc (fuel : ℕ) (v : Statics) (n : Word) : HeapCode (Option (Word × Statics)) :=
  if n = 0 then pure (some (0, v))
  else if align n < n then pure (some (0, v))
  else if align n > KERNEL_HEAP_END - v.heapEnd - SIZEOF_HEADER - SIZEOF_WORD then pure (some (0, v))
  else if v.heapHead = 0 then do
    let r ← kmallocFirst v (align n)
    pure (some r)
  else do
    let found ← search (align n) fuel v.heapHead
    serve v (align n) found

/-! ### `kfree` and `heap_dump` -/

/-- The test that `kfree` makes of a neighbour before it merges with it. -/
def mergeable (v : Statics) (block : Word) : HeapCode Bool :=
  both (block ≠ 0 ∧ block ≥ v.heapStart ∧ block < v.heapEnd) do
    let free ← free block
    pure (decide (free ≠ 0))

/-- Merge `block` with the next one. -/
def mergeNext (block : Word) : HeapCode Unit := do
  let blockSize ← size block
  let blockNext ← next block
  let nextSize ← size blockNext
  setSize block (blockSize + (SIZEOF_HEADER + nextSize + SIZEOF_WORD))
  let blockNext ← next block
  let nextNext ← next blockNext
  setNext block nextNext
  let blockSize ← size block
  store (tail block blockSize) HEAP_MAGIC
  let blockNext ← next block
  when (blockNext ≠ 0) (setPrev blockNext block)

/-- Merge `block` into the previous one. -/
def mergePrev (block : Word) : HeapCode Unit := do
  let blockPrev ← prev block
  let prevSize ← size blockPrev
  let blockSize ← size block
  setSize blockPrev (prevSize + (SIZEOF_HEADER + blockSize + SIZEOF_WORD))
  let blockPrev ← prev block
  let prevSize ← size blockPrev
  store (tail blockPrev prevSize) HEAP_MAGIC
  let blockPrev ← prev block
  let blockNext ← next block
  setNext blockPrev blockNext
  let blockNext ← next block
  let blockPrev ← prev block
  when (blockNext ≠ 0) (setPrev blockNext blockPrev)

/-- The two merges of `kfree`, after the block is marked free. -/
def coalesce (v : Statics) (block : Word) : HeapCode Unit := do
  setFree block 1
  let blockNext ← next block
  let merges ← mergeable v blockNext
  when (merges = true) (mergeNext block)
  let blockPrev ← prev block
  let merges ← mergeable v blockPrev
  when (merges = true) (mergePrev block)

/-- The loop that looks for the last block, from `last`. -/
def lastBlock : ℕ → Word → HeapCode (Option Word)
  | 0, _ => pure none
  | fuel + 1, last =>
    if last = 0 then pure (some last)
    else do
      let next ← next last
      if next = 0 then pure (some last) else lastBlock fuel next

/-- `block && block->free` -/
def isFree (block : Word) : HeapCode Bool :=
  both (block ≠ 0) do
    let free ← free block
    pure (decide (free ≠ 0))

/-- What `kfree` does at the last block. -/
def settle (v : Statics) : Option Word → HeapCode (Option Statics)
  | none => pure none
  | some last => do
    let isFree ← isFree last
    pure (some (if isFree then { v with heapEnd := last } else v))

/-- `head && head->free && head->next == NULL` -/
def isFreeAlone (head : Word) : HeapCode Bool := do
  let isFree ← isFree head
  both (isFree = true) do
    let next ← next head
    pure (decide (next = 0))

/-- The end of `kfree`. -/
def retract (fuel : ℕ) (v : Statics) : HeapCode (Option Statics) := do
  let empty ← isFreeAlone v.heapHead
  if empty then pure (some { v with heapEnd := v.heapStart, heapHead := 0 })
  else do
    let last ← lastBlock fuel v.heapHead
    settle v last

/-- `kfree`, and what it prints. -/
def kfree (fuel : ℕ) (v : Statics) (ptr : Word) : HeapCode (Option (Statics × List VgaCall)) :=
  if ptr = 0 then pure (some (v, []))
  else
    let block := ptr - SIZEOF_HEADER
    if block < v.heapStart ∨ block ≥ v.heapEnd then pure (some (v, [.print "Invalid free header!\n"]))
    else do
      let blockMagic ← magic block
      if blockMagic ≠ HEAP_MAGIC then pure (some (v, [.print "Heap header corrupted!\n"]))
      else do
        let blockSize ← size block
        let guard ← load (tail block blockSize)
        if guard ≠ HEAP_MAGIC then pure (some (v, [.print "Heap tail corruption detected!\n"]))
        else if blockSize = 0 ∨ block + SIZEOF_HEADER + blockSize > v.heapEnd then
          pure (some (v, [.print "Heap corruption detected!\n"]))
        else do
          let blockFree ← free block
          if blockFree ≠ 0 then pure (some (v, [.print "Double free detected!\n"]))
          else do
            coalesce v block
            let r ← retract fuel v
            pure (r.map fun v => (v, []))

/-- The loop of `heap_dump`, from `current`, with the blocks counted so far. -/
def dumpLoop : ℕ → Word → Word → HeapCode (Option (List VgaCall))
  | 0, _, _ => pure none
  | fuel + 1, current, index =>
    if current = 0 then pure (some [])
    else do
      let currentSize ← size current
      let currentFree ← free current
      let currentNext ← next current
      let out ← dumpLoop fuel currentNext (index + 1)
      pure (out.map fun out =>
        [.print "  Block ", .printDec index, .print ": addr=", .printHex current,
          .print " size=", .printDec currentSize, .print " header=", .printHex current,
          .print " payload=", .printHex (current + SIZEOF_HEADER), .print " ",
          .print (if currentFree ≠ 0 then "FREE" else "USED"), .print "\n"] ++ out)

/-- `heap_dump` -/
def heapDump (fuel : ℕ) (v : Statics) : HeapCode (Option (List VgaCall)) :=
  if v.heapHead = 0 then pure (some [.print "Heap empty.\n"])
  else do
    let out ← dumpLoop fuel v.heapHead 0
    pure (out.map (.print "Heap blocks:\n" :: ·))

/-! ### Clients -/

end HeapCode

/-- The static variables, and the pointers that the clients hold. -/
structure Holder where
  /-- The static variables. -/
  statics : Statics
  /-- The live allocations. -/
  live : List (Word × Word)

/-- The clients with a memory. -/
def Holder.clients (s : Holder) (m : Mem) : Clients := ⟨s.statics.heap m, s.live⟩

def Clients.holder (s : Clients) : Holder := ⟨s.heap.statics, s.live⟩

/-- At boot there are no live allocations. -/
def Holder.boot : Holder := ⟨.heapInit, []⟩

namespace HeapCode

/-- A call of a client. -/
def call (k : ℕ) (s : Holder) : HeapCall → HeapCode (Option (HeapReply × Holder))
  | .malloc n => do
    let r ← kmalloc k s.statics n
    pure (r.map fun r => (.pointer r.1, ⟨r.2, if r.1 = 0 then s.live else (r.1, n) :: s.live⟩))
  | .free p =>
    if p ∈ s.live.map Prod.fst then do
      let r ← kfree k s.statics p
      pure (r.map fun r => (.printed r.2, ⟨r.1, s.live.filter fun q => q.1 ≠ p⟩))
    else pure none
  | .write a v => if InLive s.live a then .write [(a, v)] (.ret (some (.done, s))) else pure none
  | .read a => if InLive s.live a then .read [a] fun bs => .ret (some (.byte (bs.getD 0 0), s)) else pure none
  | .dump => do
    let out ← heapDump k s.statics
    pure (out.map fun out => (.printed out, s))

/-- The calls behind the first one. -/
def andThen (f : Holder → HeapCode (Option (List HeapReply × Holder))) : Option (HeapReply × Holder) →
    HeapCode (Option (List HeapReply × Holder))
  | none => pure none
  | some r => do
    let t ← f r.2
    pure (t.map fun t => (r.1 :: t.1, t.2))

/-- A sequence of calls. -/
def calls (k : ℕ) : List HeapCall → Holder → HeapCode (Option (List HeapReply × Holder))
  | [], s => pure (some ([], s))
  | c :: cs, s => do
    let r ← call k s c
    andThen (calls k cs) r

/-! ### Over a complete memory -/

section Run

variable {α : Type} (m : Mem) (a block v : Word)

@[simp] theorem load_run : (load a).run m = (m.load a, m) := (rfl)

@[simp] theorem store_run : (store a v).run m = ((), m.store a v) := by
  refine Prod.ext rfl (funext fun x => ?_)
  show Function.update
    (Function.update (Function.update (Function.update m a _) (a + 1) _) (a + 2) _) (a + 3) _ x =
    m.store a v x
  by_cases hx3 : x = a + 3
  · rw [hx3, Function.update_self]
    exact (Mem.store_apply_add m a v (by decide : 3 < 4)).symm
  rw [Function.update_of_ne hx3]
  by_cases hx2 : x = a + 2
  · rw [hx2, Function.update_self]
    exact (Mem.store_apply_add m a v (by decide : 2 < 4)).symm
  rw [Function.update_of_ne hx2]
  by_cases hx1 : x = a + 1
  · rw [hx1, Function.update_self]
    exact (Mem.store_apply_add m a v (by decide : 1 < 4)).symm
  rw [Function.update_of_ne hx1]
  by_cases hx0 : x = a
  · have h0 := Mem.store_apply_add m a v (by decide : 0 < 4)
    rw [BitVec.add_zero] at h0
    rw [hx0, Function.update_self]
    exact h0.symm
  · have hfar : ¬ x - a < 4 := by bv_omega
    rw [Function.update_of_ne hx0]
    exact (if_neg hfar).symm

@[simp] theorem when_run (c : Prop) {inst : Decidable c} (p : HeapCode Unit) :
    (when c p).run m = ((), if c then (p.run m).2 else m) := by
  unfold when
  split_ifs <;> rfl

theorem both_run {c d : Prop} {inst : Decidable c} {inst' : Decidable d} {p : HeapCode Bool}
    (hp : p.run m = (decide d, m)) :
    (both c p).run m = (decide (c ∧ d), m) := by
  unfold both
  by_cases hc : c
  · rw [if_pos hc, hp]
    exact congrArg (·, m) (decide_eq_decide.mpr (iff_and_self.mpr fun _ => hc))
  · rw [if_neg hc, decide_eq_false fun h => hc h.1]
    rfl

@[simp] theorem magic_run : (magic block).run m = (Mm.magic m block, m) := (rfl)
@[simp] theorem size_run : (size block).run m = (Mm.size m block, m) := (rfl)
@[simp] theorem free_run : (free block).run m = (Mm.free m block, m) := (rfl)
@[simp] theorem next_run : (next block).run m = (Mm.next m block, m) := (rfl)
@[simp] theorem prev_run : (prev block).run m = (Mm.prev m block, m) := (rfl)
@[simp] theorem setMagic_run : (setMagic block v).run m = ((), Mm.setMagic m block v) := store_run m _ v
@[simp] theorem setSize_run : (setSize block v).run m = ((), Mm.setSize m block v) := store_run m _ v
@[simp] theorem setFree_run : (setFree block v).run m = ((), Mm.setFree m block v) := store_run m _ v
@[simp] theorem setNext_run : (setNext block v).run m = ((), Mm.setNext m block v) := store_run m _ v
@[simp] theorem setPrev_run : (setPrev block v).run m = ((), Mm.setPrev m block v) := store_run m _ v

variable (u : Statics) (n : Word)

theorem kmallocFirst_run : (kmallocFirst u n).run m =
    (((Mm.kmallocFirst (u.heap m) n).1, (Mm.kmallocFirst (u.heap m) n).2.statics),
      (Mm.kmallocFirst (u.heap m) n).2.mem) := by
  by_cases h : u.heapEnd + SIZEOF_HEADER + n ≥ KERNEL_HEAP_END
  · have hfull : Mm.kmallocFirst (u.heap m) n = (0, u.heap m) := if_pos h
    rw [hfull, kmallocFirst, if_pos h]
    rfl
  · rw [kmallocFirst, if_neg h]
    simp only [run_bind, setMagic_run, setSize_run, setFree_run, setNext_run, setPrev_run,
      store_run, run_pure]
    rw [Mm.kmallocFirst, if_neg (show ¬ (u.heap m).heapEnd + SIZEOF_HEADER + n ≥ KERNEL_HEAP_END from h)]
    rfl

theorem serves_run : (serves n block).run m = (decide (Mm.free m block ≠ 0 ∧ Mm.size m block ≥ n), m) := by
  rw [serves, run_bind, free_run]
  exact both_run m rfl

theorem search_run (k : ℕ) : (search n k block).run m = (Mm.search m n k block, m) := by
  induction k generalizing block with
  | zero => rfl
  | succ k ih =>
    rw [search, Mm.search, run_bind, serves_run]
    by_cases hfits : Mm.free m block ≠ 0 ∧ Mm.size m block ≥ n
    · rw [if_pos hfits, if_pos (decide_eq_true hfits)]
      rfl
    rw [if_neg hfits, if_neg (by simpa using hfits), run_bind, next_run]
    by_cases hn : Mm.next m block = 0
    · rw [if_pos hn, if_pos hn]
      rfl
    · rw [if_neg hn, if_neg hn]
      exact ih _

theorem split_run : (split block n).run m = ((), Mm.split m block n) := by
  simp only [split, run_bind, setMagic_run, size_run, setSize_run, setFree_run, next_run,
    setNext_run, setPrev_run,
    store_run, when_run, Mm.split]

theorem take_run : (take block n).run m = ((), Mm.take m block n) := by
  simp only [take, run_bind, size_run, when_run, split_run, setFree_run, Mm.take]

theorem append_run : (append u block n).run m =
    (((Mm.append (u.heap m) block n).1, (Mm.append (u.heap m) block n).2.statics),
      (Mm.append (u.heap m) block n).2.mem) := by
  by_cases h : u.heapEnd + SIZEOF_HEADER + n + SIZEOF_WORD < u.heapEnd
  · have hwrap : Mm.append (u.heap m) block n = (0, u.heap m) := if_pos h
    rw [hwrap, append, if_pos h]
    rfl
  by_cases h' : u.heapEnd + SIZEOF_HEADER + n + SIZEOF_WORD ≥ KERNEL_HEAP_END
  · have hfull : Mm.append (u.heap m) block n = (0, u.heap m) := (if_neg h).trans (if_pos h')
    rw [hfull, append, if_neg h, if_pos h']
    rfl
  · rw [append, if_neg h, if_neg h']
    simp only [run_bind, setMagic_run, setSize_run, setFree_run, setNext_run, setPrev_run,
      size_run, store_run, run_pure]
    rw [Mm.append,
      if_neg (show ¬ (u.heap m).heapEnd + SIZEOF_HEADER + n + SIZEOF_WORD <
      (u.heap m).heapEnd from h),
      if_neg (show ¬ (u.heap m).heapEnd + SIZEOF_HEADER + n + SIZEOF_WORD ≥ KERNEL_HEAP_END from h')]
    rfl

/-- `kmalloc` over a memory that is all there. -/
theorem kmalloc_run {k : ℕ} {r : Word × Heap} (h : Mm.kmalloc k (u.heap m) n = some r) :
    (kmalloc k u n).run m = (some (r.1, r.2.statics), r.2.mem) := by
  have hkeep {p : Word} (he : some (p, u.heap m) = some r) :
      (pure (some (p, u)) : HeapCode (Option (Word × Statics))).run m =
        (some (r.1, r.2.statics), r.2.mem) := by
    obtain rfl := Option.some.inj he
    rfl
  rw [Mm.kmalloc] at h
  rw [kmalloc]
  by_cases h1 : n = 0
  · rw [if_pos h1] at h ⊢
    exact hkeep h
  rw [if_neg h1] at h ⊢
  by_cases h2 : align n < n
  · rw [if_pos h2] at h ⊢
    exact hkeep h
  rw [if_neg h2] at h ⊢
  by_cases h3 : align n > KERNEL_HEAP_END - u.heapEnd - SIZEOF_HEADER - SIZEOF_WORD
  · rw [if_pos (show
      align n > KERNEL_HEAP_END - (u.heap m).heapEnd - SIZEOF_HEADER - SIZEOF_WORD from h3)] at h
    rw [if_pos h3]
    exact hkeep h
  rw [if_neg (show ¬ align n > KERNEL_HEAP_END - (u.heap m).heapEnd - SIZEOF_HEADER - SIZEOF_WORD
    from h3)] at h
  rw [if_neg h3]
  by_cases h4 : u.heapHead = 0
  · rw [if_pos (show (u.heap m).heapHead = 0 from h4)] at h
    obtain rfl := Option.some.inj h
    rw [if_pos h4, run_bind, kmallocFirst_run]
    rfl
  rw [if_neg (show ¬ (u.heap m).heapHead = 0 from h4)] at h
  rw [if_neg h4, run_bind, search_run]
  cases hs : Mm.search (u.heap m).mem (align n) k (u.heap m).heapHead with
  | none =>
    rw [hs] at h
    cases h
  | some c =>
    rw [hs] at h
    rw [show Mm.search m (align n) k u.heapHead = some c from hs]
    cases c with
    | fit current =>
      obtain rfl := Option.some.inj h
      show (serve u (align n) (some (.fit current))).run m = _
      rw [serve, run_bind, take_run]
      rfl
    | last current =>
      obtain rfl := Option.some.inj h
      show (serve u (align n) (some (.last current))).run m = _
      rw [serve, run_bind, append_run]
      rfl

theorem mergeable_run : (mergeable u block).run m = (decide (Mm.mergeable (u.heap m) m block), m) := by
  refine (both_run m rfl).trans (congrArg (·, m) (decide_eq_decide.mpr ?_))
  exact (and_assoc.trans (and_congr_right fun _ => and_assoc) : (_ ∧ _ ∧ _) ∧ Mm.free m block ≠ 0 ↔ _)

theorem mergeNext_run : (mergeNext block).run m = ((), Mm.mergeNext m block) := by
  simp only [mergeNext, run_bind, size_run, next_run, setSize_run, setNext_run, setPrev_run,
    store_run, when_run,
    Mm.mergeNext]

theorem mergePrev_run : (mergePrev block).run m = ((), Mm.mergePrev m block) := by
  simp only [mergePrev, run_bind, size_run, next_run, prev_run, setSize_run, setNext_run,
    setPrev_run, store_run, when_run,
    Mm.mergePrev]

theorem coalesce_run : (coalesce u block).run m = ((), Mm.coalesce (u.heap m) block) := by
  simp only [coalesce, run_bind, setFree_run, next_run, prev_run, mergeable_run, when_run,
    mergeNext_run, mergePrev_run,
    decide_eq_true_eq, Mm.coalesce]
  rfl

theorem lastBlock_run (k : ℕ) : (lastBlock k block).run m = (Mm.lastBlock m k block, m) := by
  induction k generalizing block with
  | zero => rfl
  | succ k ih =>
    rw [lastBlock, Mm.lastBlock]
    by_cases h0 : block = 0
    · rw [if_pos h0, if_neg fun h => h.1 h0]
      rfl
    rw [if_neg h0, run_bind, next_run]
    by_cases hn : Mm.next m block = 0
    · rw [if_pos hn, if_neg fun h => h.2 hn]
      rfl
    · rw [if_neg hn, if_pos ⟨h0, hn⟩]
      exact ih _

theorem isFree_run : (isFree block).run m = (decide (block ≠ 0 ∧ Mm.free m block ≠ 0), m) := both_run m rfl

theorem isFreeAlone_run : (isFreeAlone block).run m =
    (decide (block ≠ 0 ∧ Mm.free m block ≠ 0 ∧ Mm.next m block = 0), m) := by
  rw [isFreeAlone, run_bind, isFree_run]
  refine (both_run m rfl).trans (congrArg (·, m) (decide_eq_decide.mpr ?_))
  rw [decide_eq_true_eq, and_assoc]
  exact Iff.rfl

theorem retract_run {k : ℕ} {h : Heap} (hr : Mm.retract k (u.heap m) = some h) :
    (retract k u).run m = (some h.statics, m) ∧ h.mem = m := by
  rw [Mm.retract] at hr
  rw [retract, run_bind, isFreeAlone_run]
  by_cases halone : u.heapHead ≠ 0 ∧ Mm.free m u.heapHead ≠ 0 ∧ Mm.next m u.heapHead = 0
  · obtain rfl := Option.some.inj ((if_pos halone).symm.trans hr)
    rw [if_pos (decide_eq_true halone)]
    exact ⟨rfl, rfl⟩
  replace hr := (if_neg halone).symm.trans hr
  rw [if_neg (by simpa using halone), run_bind, lastBlock_run]
  cases hl : Mm.lastBlock m k u.heapHead with
  | none =>
    rw [show Mm.lastBlock (u.heap m).mem k (u.heap m).heapHead = none from hl] at hr
    cases hr
  | some last =>
    rw [show Mm.lastBlock (u.heap m).mem k (u.heap m).heapHead = some last from hl] at hr
    show (settle u (some last)).run m = _ ∧ _
    rw [settle, run_bind, isFree_run]
    by_cases hfree : last ≠ 0 ∧ Mm.free m last ≠ 0
    · obtain rfl := Option.some.inj ((if_pos hfree).symm.trans hr)
      rw [if_pos (decide_eq_true hfree)]
      exact ⟨rfl, rfl⟩
    · obtain rfl := Option.some.inj ((if_neg hfree).symm.trans hr)
      rw [if_neg (by simpa using hfree)]
      exact ⟨rfl, rfl⟩

/-- `kfree` over a memory that is all there. -/
theorem kfree_run {k : ℕ} {p : Word} {r : Heap × List VgaCall} (h : Mm.kfree k (u.heap m) p = some r) :
    (kfree k u p).run m = (some (r.1.statics, r.2), r.1.mem) := by
  have hkeep {out : List VgaCall} (he : some (u.heap m, out) = some r) :
      (pure (some (u, out)) : HeapCode (Option (Statics × List VgaCall))).run m =
        (some (r.1.statics, r.2), r.1.mem) := by
    obtain rfl := Option.some.inj he
    rfl
  rw [kfree]
  rw [Mm.kfree] at h
  by_cases h1 : p = 0
  · rw [if_pos h1] at h ⊢
    exact hkeep h
  rw [if_neg h1] at h ⊢
  dsimp only at h ⊢
  generalize p - SIZEOF_HEADER = block at h ⊢
  by_cases h2 : block < u.heapStart ∨ block ≥ u.heapEnd
  · rw [if_pos h2]
    exact hkeep ((if_pos h2).symm.trans h)
  replace h := (if_neg h2).symm.trans h
  rw [if_neg h2, run_bind, magic_run]
  by_cases h3 : Mm.magic m block ≠ HEAP_MAGIC
  · rw [if_pos h3]
    exact hkeep ((if_pos h3).symm.trans h)
  replace h := (if_neg h3).symm.trans h
  rw [if_neg h3, run_bind, size_run, run_bind, load_run]
  by_cases h4 : m.load (tail block (Mm.size m block)) ≠ HEAP_MAGIC
  · rw [if_pos h4]
    exact hkeep ((if_pos h4).symm.trans h)
  replace h := (if_neg h4).symm.trans h
  rw [if_neg h4]
  by_cases h5 : Mm.size m block = 0 ∨ block + SIZEOF_HEADER + Mm.size m block > u.heapEnd
  · rw [if_pos h5]
    exact hkeep ((if_pos h5).symm.trans h)
  replace h := (if_neg h5).symm.trans h
  rw [if_neg h5, run_bind, free_run]
  by_cases h6 : Mm.free m block ≠ 0
  · rw [if_pos h6]
    exact hkeep ((if_pos h6).symm.trans h)
  replace h := (if_neg h6).symm.trans h
  rw [if_neg h6, run_bind, coalesce_run, run_bind]
  cases hr : Mm.retract k (u.heap (Mm.coalesce (u.heap m) block)) with
  | none =>
    rw [show Mm.retract k { u.heap m with mem := Mm.coalesce (u.heap m) block } = none from hr] at h
    cases h
  | some h' =>
    rw [show Mm.retract k { u.heap m with mem := Mm.coalesce (u.heap m) block } = some h' from hr] at h
    obtain rfl := Option.some.inj h
    obtain ⟨hrun, hmem⟩ := retract_run _ _ hr
    rw [hrun]
    exact congrArg _ hmem.symm

theorem dumpLoop_run (k : ℕ) (i : Word) : (dumpLoop k block i).run m = (Mm.dumpLoop m k block i, m) := by
  induction k generalizing block i with
  | zero => rfl
  | succ k ih =>
    rw [dumpLoop, Mm.dumpLoop]
    by_cases h0 : block = 0
    · rw [if_pos h0, if_pos h0]
      rfl
    · rw [if_neg h0, if_neg h0, run_bind, size_run, run_bind, free_run, run_bind, next_run, run_bind, ih]
      rfl

theorem heapDump_run (k : ℕ) : (heapDump k u).run m = (Mm.heapDump k (u.heap m), m) := by
  rw [heapDump, Mm.heapDump]
  by_cases h0 : u.heapHead = 0
  · rw [if_pos h0]
    exact congrArg (·, m) (if_pos h0).symm
  · rw [if_neg h0, run_bind, dumpLoop_run]
    exact congrArg (·, m) (if_neg h0).symm

/-- A call of a client over a memory that is all there. -/
theorem call_run {k : ℕ} {s : Holder} {c : HeapCall} {r : HeapReply} {t : Clients}
    (h : (s.clients m).call k c = some (r, t)) :
    (call k s c).run m = (some (r, t.holder), t.heap.mem) := by
  cases c with
  | malloc n =>
    obtain ⟨q, hq, he⟩ := Option.map_eq_some_iff.mp h
    obtain ⟨rfl, rfl⟩ := Prod.mk.inj he
    rw [call, run_bind, kmalloc_run _ _ _ hq]
    rfl
  | free p =>
    rw [Clients.call] at h
    split_ifs at h with hp
    obtain ⟨q, hq, he⟩ := Option.map_eq_some_iff.mp h
    obtain ⟨rfl, rfl⟩ := Prod.mk.inj he
    rw [call, if_pos (show p ∈ s.live.map Prod.fst from hp), run_bind, kfree_run _ _ hq]
    rfl
  | write a v =>
    rw [Clients.call] at h
    split_ifs at h with ha
    obtain ⟨rfl, rfl⟩ := Prod.mk.inj (Option.some.inj h)
    rw [call, if_pos (show InLive s.live a from ha)]
    refine Prod.ext rfl (funext fun x => ?_)
    show Function.update m a v x = m.storeByte a v x
    by_cases hx : x = a
    · rw [hx, Function.update_self]
      exact (if_pos rfl).symm
    · rw [Function.update_of_ne hx]
      exact (if_neg hx).symm
  | read a =>
    rw [Clients.call] at h
    split_ifs at h with ha
    obtain ⟨rfl, rfl⟩ := Prod.mk.inj (Option.some.inj h)
    rw [call, if_pos (show InLive s.live a from ha)]
    rfl
  | dump =>
    obtain ⟨out, hout, he⟩ := Option.map_eq_some_iff.mp h
    obtain ⟨rfl, rfl⟩ := Prod.mk.inj he
    rw [call, run_bind, heapDump_run, show Mm.heapDump k (s.statics.heap m) = some out from hout]
    rfl

/-- Calls of the clients over a memory that is all there. -/
theorem calls_run {k : ℕ} {s : Holder} {cs : List HeapCall} {rs : List HeapReply} {t : Clients}
    (h : (s.clients m).calls k cs = some (rs, t)) :
      (calls k cs s).run m = (some (rs, t.holder), t.heap.mem) := by
  induction cs generalizing s m rs with
  | nil =>
    obtain ⟨rfl, rfl⟩ := Prod.mk.inj (Option.some.inj h)
    rfl
  | cons c cs ih =>
    obtain ⟨⟨r, s₁⟩, hr, hs⟩ := Option.bind_eq_some_iff.mp h
    obtain ⟨⟨rs', t'⟩, hrs, he⟩ := Option.map_eq_some_iff.mp hs
    obtain ⟨rfl, rfl⟩ := Prod.mk.inj he
    rw [calls, run_bind, call_run _ hr]
    show (andThen (calls k cs) (some (r, s₁.holder))).run _ = _
    rw [andThen, run_bind, ih (s := s₁.holder) s₁.heap.mem hrs]
    rfl

end Run

end HeapCode

end SpatulaOS.Mm
