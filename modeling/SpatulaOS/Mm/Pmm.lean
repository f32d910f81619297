import SpatulaOS.Core.Multiboot
import SpatulaOS.Lib.Bitmap

/-!
# The physical frame allocator

The allocator of `mm/pmm.c`: `pmm_init`, `pmm_alloc_frame`, `pmm_free_frame` and the
two counters, over a bitmap with one bit for each frame of 4096 bytes; a set bit is a
frame in use. The bitmap lies in memory behind the kernel image. It is modelled as the
sequence of words from there on, apart from the memory that holds the boot loader's
information; `ram` is what these words hold before `pmm_init`.

Frame numbers and addresses are 32-bit words. An allocation returns `NULL`, which is
`0`, when the search fails and also when it finds frame 0.
-/

namespace SpatulaOS.Mm

open ByteMemory WordBitmap SpatulaOS.Core

/-- `FRAME_SIZE`. -/
abbrev FRAME_SIZE : ℕ := 4096

/-- `MISSING_MEMORY_MAP`. -/
abbrev MISSING_MEMORY_MAP : Word := 1

/-- The allocator's static variables: the words at `bitmap`, and `total_frames`, which
is a 32-bit address divided by the frame size. -/
structure Pmm where
  /-- `bitmap` -/
  bitmap : Bitmap 32
  /-- `total_frames` -/
  totalFrames : Word
  /-- There are not more frames than the address space has. -/
  total_le : totalFrames.toNat ≤ 2 ^ 20

/-- The addresses of `kernel_start` and `kernel_end`, which the linker defines. The image
leaves room for a bitmap behind it. -/
structure Image where
  /-- `&kernel_start` -/
  kernelStart : Word
  /-- `&kernel_end` -/
  kernelEnd : Word
  start_le : kernelStart.toNat ≤ kernelEnd.toNat
  end_le : kernelEnd.toNat + 2 ^ 17 + FRAME_SIZE ≤ 2 ^ 32

/-! ### Bitmap helpers -/

/-- `set_frame`. -/
def setFrame (p : Pmm) (frame : Word) : Pmm :=
  { p with
    bitmap := Function.update p.bitmap (frame / 32).toNat
      (p.bitmap (frame / 32).toNat ||| 1#32 <<< (frame % 32).toNat) }

/-- `clear_frame`. -/
def clearFrame (p : Pmm) (frame : Word) : Pmm :=
  { p with
    bitmap := Function.update p.bitmap (frame / 32).toNat
      (p.bitmap (frame / 32).toNat &&& ~~~(1#32 <<< (frame % 32).toNat)) }

/-- `first_free_frame`, whose result is an `int`. -/
def firstFreeFrame (p : Pmm) : Word :=
  ((List.range (p.totalFrames / 32).toNat).findSome? fun i =>
    if p.bitmap i ≠ 0xFFFFFFFF then
      (List.range 32).findSome? fun j =>
        if p.bitmap i &&& 1#32 <<< j = 0 then some (BitVec.ofNat 32 (i * 32 + j)) else none
    else none).getD (-1)

/-! ### `pmm_init` -/

/-- `for (uint32_t f = start; f < stop; f++) body`. -/
def forFrames {σ : Type*} (start stop : Word) (body : Word → σ → σ) (s : σ) : σ :=
  (List.range' start.toNat (stop.toNat - start.toNat)).foldl (fun s f => body (BitVec.ofNat 32 f) s) s

/-- The body of the loop that looks for the highest address. -/
def raiseHighest (e : MmapEntry) (highest : Word) : Word :=
  let regionEnd := (e.addr + e.len).setWidth 32
  if regionEnd > highest then regionEnd else highest

/-- The first frame of a region. -/
def startFrame (e : MmapEntry) : Word := (e.addr / 4096).setWidth 32

/-- The frame behind a region. -/
def endFrame (e : MmapEntry) : Word := ((e.addr + e.len) / 4096).setWidth 32

/-- The body of the loop that frees usable memory. -/
def freeRegion (e : MmapEntry) (p : Pmm) : Pmm :=
  if e.type = 1 then
    forFrames (startFrame e) (endFrame e) (fun f p => if f < p.totalFrames then clearFrame p f else p) p
  else p

theorem div_frame_le (x : Word) : (x / 4096).toNat ≤ 2 ^ 20 := by
  have := x.isLt
  rw [BitVec.toNat_udiv, show (4096 : Word).toNat = 4096 from rfl]
  omega

/-- The allocator with all the frames of the whole words of its bitmap marked as used. -/
def allUsed (ram : Bitmap 32) (highest : Word) : Pmm where
  bitmap := (List.range (highest / 4096 / 32).toNat).foldl (fun b i => Function.update b i 0xFFFFFFFF) ram
  totalFrames := highest / 4096
  total_le := div_frame_le highest

/-- The bytes of the bitmap. -/
def bitmapSize (p : Pmm) : Word := (p.totalFrames + 31) / 32 * 4

/-- The end of the bitmap, rounded up. -/
def bitmapEnd (image : Image) (p : Pmm) : Word :=
  (image.kernelEnd + bitmapSize p + 4096 - 1) &&& ~~~(4096 - 1)

/-- The two loops that reserve the frames of the kernel and of the bitmap. -/
def reserve (image : Image) (p : Pmm) : Pmm :=
  let q := forFrames (image.kernelStart / 4096) ((image.kernelEnd + 4096 - 1) / 4096)
    (fun f p => setFrame p f) p
  forFrames (image.kernelEnd / 4096) (bitmapEnd image p / 4096) (fun f p => setFrame p f) q

/-- `pmm_init`, with the bitmap's previous contents: what it returns, and the allocator. -/
def pmmInit (fuel : ℕ) (m : Mem) (image : Image) (ram : Bitmap 32) (p : Pmm) (multibootAddr : Word) :
    Option (Word × Pmm) :=
  let mbi := multibootInfo m multibootAddr
  if ¬ mbi.HasMmap then some (MISSING_MEMORY_MAP, p)
  else
    match mmapLoop m mbi.mmapEnd raiseHighest fuel mbi.mmapAddr 0 with
    | none => none
    | some highest =>
      match mmapLoop m mbi.mmapEnd freeRegion fuel mbi.mmapAddr (allUsed ram highest) with
      | none => none
      | some p => some (0, reserve image p)

/-! ### Allocation -/

/-- `pmm_alloc_frame`. -/
def pmmAllocFrame (p : Pmm) : Word × Pmm :=
  let frame := firstFreeFrame p
  if frame = -1 then (0, p) else (frame * 4096, setFrame p frame)

/-- `pmm_free_frame`. -/
def pmmFreeFrame (p : Pmm) (frame : Word) : Pmm := clearFrame p (frame / 4096)

/-- `pmm_get_total_frames`. -/
def pmmGetTotalFrames (p : Pmm) : Word := p.totalFrames

/-- `pmm_get_free_frames`. -/
def pmmGetFreeFrames (p : Pmm) : Word :=
  (List.range p.totalFrames.toNat).foldl
    (fun free i => if p.bitmap (i / 32) &&& 1#32 <<< (i % 32) = 0 then free + 1 else free) 0

/-! ### What the operations do to the set of free frames -/

variable {p : Pmm} {f g : ℕ}

/-- The frames that are free: those whose bit is clear. -/
def Pmm.free (p : Pmm) : Finset ℕ := clear p.bitmap p.totalFrames.toNat

/-- The number of frames that `first_free_frame` looks at: those in whole words. -/
def Pmm.searched (p : Pmm) : ℕ := (p.totalFrames / 32).toNat * 32

theorem Pmm.searched_le (p : Pmm) : p.searched ≤ p.totalFrames.toNat := by
  rw [searched, BitVec.toNat_udiv]
  exact Nat.div_mul_le_self _ _

theorem Pmm.mem_free : f ∈ p.free ↔ f < p.totalFrames.toNat ∧ test p.bitmap f = false := mem_clear

theorem Pmm.lt_of_mem_free (h : f ∈ p.free) : f < 2 ^ 20 := (mem_free.mp h).1.trans_le p.total_le

theorem toNat_div_mod (frame : Word) :
    (frame / 32).toNat = frame.toNat / 32 ∧ (frame % 32).toNat = frame.toNat % 32 :=
  ⟨BitVec.toNat_udiv, BitVec.toNat_umod⟩

theorem setFrame_bitmap (p : Pmm) (frame : Word) : (setFrame p frame).bitmap = mark p.bitmap frame.toNat := by
  rw [setFrame, (toNat_div_mod frame).1, (toNat_div_mod frame).2]
  rfl

theorem clearFrame_bitmap (p : Pmm) (frame : Word) :
    (clearFrame p frame).bitmap = unmark p.bitmap frame.toNat := by
  rw [clearFrame, (toNat_div_mod frame).1, (toNat_div_mod frame).2]
  rfl

theorem setFrame_free (p : Pmm) (frame : Word) : (setFrame p frame).free = p.free.erase frame.toNat := by
  rw [Pmm.free, setFrame_bitmap]
  exact clear_mark (by decide)

theorem clearFrame_free {frame : Word} (h : frame.toNat < p.totalFrames.toNat) :
    (clearFrame p frame).free = insert frame.toNat p.free := by
  rw [Pmm.free, clearFrame_bitmap]
  exact clear_unmark (by decide) h

theorem firstFreeFrame_eq (p : Pmm) : firstFreeFrame p =
    ((firstClear (p.totalFrames / 32).toNat p.bitmap).map (BitVec.ofNat 32)).getD (-1) := by
  rw [firstFreeFrame, firstClear, List.map_findSome?]
  congr 2
  funext i
  rw [Function.comp_apply, apply_ite (Option.map _), firstClearOf, List.map_findSome?, Option.map_none]
  congr 2
  funext j
  rw [Function.comp_apply, apply_ite (Option.map _)]
  rfl

/-- What the search finds: nothing, if the whole words are full, or the first clear bit. -/
theorem firstFreeFrame_cases (p : Pmm) :
    (firstFreeFrame p = -1 ∧ ∀ f, f < p.searched → test p.bitmap f = true) ∨
    ∃ f, f < p.searched ∧ test p.bitmap f = false ∧ (∀ g, g < f → test p.bitmap g = true) ∧ f < 2 ^ 20 ∧
      firstFreeFrame p = BitVec.ofNat 32 f := by
  rw [firstFreeFrame_eq]
  cases hs : firstClear (p.totalFrames / 32).toNat p.bitmap with
  | none => exact .inl ⟨rfl, fun f hf => firstClear_eq_none hs hf⟩
  | some f =>
    obtain ⟨hlt, hf, hmin⟩ := firstClear_eq_some hs
    exact .inr ⟨f, hlt, hf, hmin, (lt_of_lt_of_le hlt p.searched_le).trans_le p.total_le, rfl⟩

/-- The number of a frame is not the result of a search that fails. -/
theorem ofNat_ne_neg_one (hf : f < 2 ^ 20) : BitVec.ofNat 32 f ≠ -1 := by
  bv_omega

theorem clearFrame_setFrame (p : Pmm) {frame : Word} (h : test p.bitmap frame.toNat = false) :
    clearFrame (setFrame p frame) frame = p := by
  have hbitmap : (clearFrame (setFrame p frame) frame).bitmap = p.bitmap := by
    rw [clearFrame_bitmap, setFrame_bitmap, unmark_mark (by decide) h]
  cases p
  unfold clearFrame setFrame at hbitmap ⊢
  rw [Pmm.mk.injEq]
  exact ⟨hbitmap, rfl⟩

/-- **`first_free_frame` finds the least clear bit of the whole words**, and `-1` if and only if
they are full. Setting the bit that it finds changes no other one, and clearing it again restores
the bitmap. -/
theorem firstFreeFrame_spec (p : Pmm) :
    (firstFreeFrame p = -1 ↔ ∀ f, f < 32 * (p.totalFrames.toNat / 32) → test p.bitmap f = true) ∧
    (firstFreeFrame p = -1 ∨
      ∃ f : ℕ, (firstFreeFrame p).toInt = f ∧
        IsLeast { g | g < 32 * (p.totalFrames.toNat / 32) ∧ test p.bitmap g = false } f ∧
        test (setFrame p (firstFreeFrame p)).bitmap f = true ∧
        (∀ g, g ≠ f → test (setFrame p (firstFreeFrame p)).bitmap g = test p.bitmap g) ∧
        clearFrame (setFrame p (firstFreeFrame p)) (firstFreeFrame p) = p) := by
  have hsearched : p.searched = 32 * (p.totalFrames.toNat / 32) := by
    rw [Pmm.searched, (toNat_div_mod p.totalFrames).1, Nat.mul_comm]
  rw [← hsearched]
  obtain ⟨hfail, hfull⟩ | ⟨f, hlt, hf, hmin, hbound, heq⟩ := firstFreeFrame_cases p
  · exact ⟨iff_of_true hfail hfull, .inl hfail⟩
  · have htoNat : (BitVec.ofNat 32 f).toNat = f := by rw [BitVec.toNat_ofNat, Nat.mod_eq_of_lt (by omega)]
    have hfull : ¬ ∀ g, g < p.searched → test p.bitmap g = true := fun h => by
      rw [h f hlt] at hf
      exact Bool.noConfusion hf
    rw [heq]
    refine ⟨iff_of_false (ofNat_ne_neg_one hbound) hfull, .inr ⟨f, ?_, ⟨⟨hlt, hf⟩, ?_⟩, ?_, ?_, ?_⟩⟩
    · rw [BitVec.toInt_eq_toNat_of_lt (by omega), htoNat]
    · rintro g ⟨-, hg⟩
      by_contra hgf
      rw [hmin g (Nat.lt_of_not_le hgf)] at hg
      exact Bool.noConfusion hg
    · rw [setFrame_bitmap, htoNat, test_mark (by decide), decide_eq_true rfl, Bool.or_true]
    · intro g hg
      rw [setFrame_bitmap, htoNat, test_mark (by decide), decide_eq_false hg, Bool.or_false]
    · exact clearFrame_setFrame p (by rwa [htoNat])

/-- The search succeeds if there is a free frame in the whole words. -/
theorem firstFreeFrame_ne_iff : firstFreeFrame p ≠ -1 ↔ ∃ f ∈ p.free, f < p.searched := by
  obtain ⟨hfail, hfull⟩ | ⟨f, hlt, hf, -, hbound, heq⟩ := firstFreeFrame_cases p
  · refine iff_of_false (fun h => h hfail) fun ⟨f, hmem, hlt⟩ => ?_
    have := hfull f hlt
    rw [(Pmm.mem_free.mp hmem).2] at this
    exact Bool.noConfusion this
  · refine iff_of_true ?_ ⟨f, Pmm.mem_free.mpr ⟨lt_of_lt_of_le hlt p.searched_le, hf⟩, hlt⟩
    rw [heq]
    exact ofNat_ne_neg_one hbound

/-- `pmm_alloc_frame` takes the first free frame of the whole words and returns its address,
or returns `NULL` if there is none. -/
theorem pmmAllocFrame_spec (p : Pmm) :
    (pmmAllocFrame p = (0, p) ∧ ∀ f ∈ p.free, p.searched ≤ f) ∨
    ∃ f ∈ p.free, f < p.searched ∧ (∀ g ∈ p.free, f ≤ g) ∧
      pmmAllocFrame p = (BitVec.ofNat 32 (f * 4096), setFrame p (BitVec.ofNat 32 f)) := by
  unfold pmmAllocFrame
  obtain ⟨hfail, hfull⟩ | ⟨f, hlt, hf, hmin, hbound, heq⟩ := firstFreeFrame_cases p
  · rw [hfail]
    refine .inl ⟨rfl, fun f hf => ?_⟩
    by_contra hlt
    have := hfull f (Nat.lt_of_not_le hlt)
    rw [(Pmm.mem_free.mp hf).2] at this
    exact Bool.noConfusion this
  · rw [heq]
    refine .inr ⟨f, Pmm.mem_free.mpr ⟨lt_of_lt_of_le hlt p.searched_le, hf⟩, hlt, fun g hg => ?_, ?_⟩
    · by_contra hgf
      have := hmin g (Nat.lt_of_not_le hgf)
      rw [(Pmm.mem_free.mp hg).2] at this
      exact Bool.noConfusion this
    · rw [if_neg (ofNat_ne_neg_one hbound), BitVec.ofNat_mul]
      rfl

theorem and_bit_eq_zero (b : Bitmap 32) (i : ℕ) : b (i / 32) &&& 1#32 <<< (i % 32) = 0 ↔ test b i = false :=
  and_mask_eq_zero (b (i / 32)) (Nat.mod_lt i (by decide))

/-- `pmm_get_free_frames` counts the free frames. -/
theorem toNat_pmmGetFreeFrames (p : Pmm) : (pmmGetFreeFrames p).toNat = p.free.card := by
  have hloop (n : ℕ) (hn : n ≤ 2 ^ 20) : ((List.range n).foldl (fun free i =>
      if p.bitmap (i / 32) &&& 1#32 <<< (i % 32) = 0 then free + 1 else free) (0 : Word)).toNat =
      (clear p.bitmap n).card := by
    induction n with
    | zero => rfl
    | succ n ih =>
      have hle : (clear p.bitmap n).card ≤ n := (Finset.card_filter_le _ _).trans_eq (Finset.card_range n)
      rw [← countP_clear, List.range_succ, List.countP_append, countP_clear, List.countP_singleton,
        ← ih (by omega),
        List.foldl_append, List.foldl_cons, List.foldl_nil]
      rw [← ih (by omega)] at hle
      by_cases h : test p.bitmap n = false
      · rw [if_pos ((and_bit_eq_zero _ _).mpr h), if_pos (decide_eq_true h), BitVec.toNat_add,
          show (1 : Word).toNat = 1 from rfl, Nat.mod_eq_of_lt (by omega)]
      · rw [if_neg fun h0 => h ((and_bit_eq_zero _ _).mp h0), if_neg (by simpa using h)]
        rfl
  exact hloop _ p.total_le

end SpatulaOS.Mm
