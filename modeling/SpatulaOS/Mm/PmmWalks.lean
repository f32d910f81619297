import Mathlib.Data.Finite.Prod
import SpatulaOS.Mm.PmmMap

/-!
# The walks of `pmm_init`

`pmm_init` once more, with the bitmap in the memory that holds the boot loader's information: it may
overwrite the map while it walks over it. The first walk only reads, and the second one reads the
end of the map again before every entry, and the size of an entry after it has freed the frames. An
entry of the size `0xFFFFFFFC` is followed by itself, so that neither walk ends (`not_walks_end`).
They end if no entry that they come to leads round the address space, and in general if and only if
they are in no state twice (`walks_end_iff`).

Where the bitmap is apart from the map, `pmm_init` computes what it does with a bitmap of its own
(`pmmInitIn_eq`).
-/

namespace SpatulaOS.Mm

open ByteMemory WordBitmap Loops SpatulaOS.Core

/-! ### `pmm_init` in one memory -/

/-- `&bitmap[i]` -/
def bitmapAddr (image : Image) (i : Word) : Word := image.kernelEnd + 4 * i

/-- `set_frame`. -/
def setFrameIn (image : Image) (m : Mem) (frame : Word) : Mem :=
  m.store (bitmapAddr image (frame / 32))
    (m.load (bitmapAddr image (frame / 32)) ||| 1#32 <<< (frame % 32).toNat)

/-- `clear_frame`. -/
def clearFrameIn (image : Image) (m : Mem) (frame : Word) : Mem :=
  m.store (bitmapAddr image (frame / 32))
    (m.load (bitmapAddr image (frame / 32)) &&& ~~~(1#32 <<< (frame % 32).toNat))

/-- The loop that marks all frames. -/
def fillBitmap (image : Image) (totalFrames : Word) (m : Mem) : Mem :=
  (List.range (totalFrames / 32).toNat).foldl
    (fun m i => m.store (bitmapAddr image (BitVec.ofNat 32 i)) 0xFFFFFFFF) m

/-- The body of the loop that frees usable memory. -/
def freeRegionIn (image : Image) (totalFrames : Word) (e : MmapEntry) (m : Mem) : Mem :=
  if e.type = 1 then
    forFrames (startFrame e) (endFrame e) (fun f m => if f < totalFrames then clearFrameIn image m f else m) m
  else m

/-- The test of that loop, with the end of the map as it is now. -/
def FreeRuns (multibootAddr : Word) (x : Word × Mem) : Prop := x.1 < (multibootInfo x.2 multibootAddr).mmapEnd

instance (multibootAddr : Word) : DecidablePred (FreeRuns multibootAddr) := fun x => by
  unfold FreeRuns
  infer_instance

/-- One round of that loop. -/
def freeStep (image : Image) (totalFrames : Word) (x : Word × Mem) : Word × Mem :=
  let m := freeRegionIn image totalFrames (mmapEntry x.2 x.1) x.2
  (nextEntry m x.1, m)

/-- `bitmap_end` -/
def bitmapEndIn (image : Image) (totalFrames : Word) : Word :=
  (image.kernelEnd + (totalFrames + 31) / 32 * 4 + 4096 - 1) &&& ~~~(4096 - 1)

/-- The two loops that reserve the frames of the kernel and of the bitmap. -/
def reserveIn (image : Image) (totalFrames : Word) (m : Mem) : Mem :=
  let m := forFrames (image.kernelStart / 4096) ((image.kernelEnd + 4096 - 1) / 4096)
    (fun f m => setFrameIn image m f) m
  forFrames (image.kernelEnd / 4096) (bitmapEndIn image totalFrames / 4096)
    (fun f m => setFrameIn image m f) m

/-- `pmm_init`: what it returns, `total_frames` and the memory. -/
def pmmInitIn (fuel : ℕ) (m : Mem) (image : Image) (totalFrames multibootAddr : Word) :
    Option (Word × Word × Mem) :=
  let mbi := multibootInfo m multibootAddr
  if ¬ mbi.HasMmap then some (MISSING_MEMORY_MAP, totalFrames, m)
  else
    match mmapLoop m mbi.mmapEnd raiseHighest fuel mbi.mmapAddr 0 with
    | none => none
    | some highest =>
      let totalFrames := highest / 4096
      let m := fillBitmap image totalFrames m
      match whileLoop (FreeRuns multibootAddr) (freeStep image totalFrames) fuel
          ((multibootInfo m multibootAddr).mmapAddr, m) with
      | none => none
      | some x => some (0, totalFrames, reserveIn image totalFrames x.2)

/-! ### Whether the walks end -/

variable {m m' : Mem} {image : Image} {total addr highest : Word} {k : ℕ}

/-- The walk that only reads the map comes to an entry twice. -/
def WalkRecurs (m : Mem) (addr : Word) : Prop :=
  Recurs (· < (multibootInfo m addr).mmapEnd) (nextEntry m) (multibootInfo m addr).mmapAddr

/-- The highest address that the first walk finds. -/
def FindsHighest (m : Mem) (addr highest : Word) : Prop :=
  ∃ k, mmapLoop m (multibootInfo m addr).mmapEnd raiseHighest k (multibootInfo m addr).mmapAddr 0 =
    some highest

/-- The walk that frees memory comes to an entry twice with the same memory. -/
def FreeRecurs (image : Image) (m : Mem) (addr highest : Word) : Prop :=
  let m := fillBitmap image (highest / 4096) m
  Recurs (FreeRuns addr) (freeStep image (highest / 4096)) ((multibootInfo m addr).mmapAddr, m)

theorem FindsHighest.unique {highest' : Word} (h : FindsHighest m addr highest)
    (h' : FindsHighest m addr highest') :
    highest = highest' := by
  obtain ⟨k, hk⟩ := h
  obtain ⟨k', hk'⟩ := h'
  exact Option.some_inj.mp
    ((mmapLoop_mono hk (le_max_left k k')).symm.trans (mmapLoop_mono hk' (le_max_right k k')))

/-- `pmm_init` ends if there is no map, or its walks are in no state twice. -/
theorem pmmInitIn_ends_iff : (∃ k r, pmmInitIn k m image total addr = some r) ↔
    ((multibootInfo m addr).HasMmap →
      ¬ WalkRecurs m addr ∧ ∀ highest, FindsHighest m addr highest → ¬ FreeRecurs image m addr highest) := by
  unfold pmmInitIn
  by_cases hmap : (multibootInfo m addr).HasMmap
  · simp only [if_neg (not_not.mpr hmap), imp_iff_right hmap]
    constructor
    · rintro ⟨k, r, hk⟩
      split at hk
      · cases hk
      · rename_i highest hfirst
        split at hk
        · cases hk
        · rename_i x hsecond
          refine ⟨mmapLoop_ends_iff.mp ⟨k, highest, hfirst⟩, fun highest' hhighest => ?_⟩
          obtain rfl := FindsHighest.unique ⟨k, hfirst⟩ hhighest
          exact ends_iff.mp (whileLoop_ends_iff.mp ⟨k, x, hsecond⟩)
    · rintro ⟨hwalk, hfree⟩
      obtain ⟨k, highest, hfirst⟩ := mmapLoop_ends_iff.mpr hwalk
      obtain ⟨l, x, hsecond⟩ := whileLoop_ends_iff.mpr (ends_iff.mpr (hfree highest ⟨k, hfirst⟩))
      refine ⟨max k l, (0, highest / 4096, reserveIn image (highest / 4096) x.2), ?_⟩
      rw [mmapLoop_mono hfirst (le_max_left k l)]
      dsimp only
      rw [whileLoop_mono hsecond (le_max_right k l)]
  · simp only [if_pos hmap]
    exact iff_of_true ⟨0, _, rfl⟩ fun h => absurd h hmap

/-- No entry that the walk over the map comes to leads round the address space. -/
def WalkNoWrap (m : Mem) (addr : Word) : Prop :=
  ∀ x, Enters (· < (multibootInfo m addr).mmapEnd) (nextEntry m) (multibootInfo m addr).mmapAddr x →
    x.toNat + (mmapEntry m x).size.toNat + 4 < 2 ^ 32

/-- Nor does one that the walk comes to that frees memory, with the size that it has when the frames
are freed. -/
def FreeNoWrap (image : Image) (m : Mem) (addr highest : Word) : Prop :=
  let m := fillBitmap image (highest / 4096) m
  ∀ x, Enters (FreeRuns addr) (freeStep image (highest / 4096)) ((multibootInfo m addr).mmapAddr, m) x →
    x.1.toNat + (mmapEntry (freeStep image (highest / 4096) x).2 x.1).size.toNat + 4 < 2 ^ 32

theorem WalkNoWrap.not_recurs (h : WalkNoWrap m addr) : ¬ WalkRecurs m addr :=
  not_recurs_of_lt (μ := BitVec.toNat) fun x hx => lt_nextEntry (h x hx)

theorem FreeNoWrap.not_recurs (h : FreeNoWrap image m addr highest) : ¬ FreeRecurs image m addr highest :=
  not_recurs_of_lt (μ := fun x => x.1.toNat) fun x hx => lt_nextEntry (h x hx)

/-- **When the walks over the memory map end.** Both functions return if no entry that a walk comes
to leads round the address space. In general the walk of `multiboot_print_memory` and the first one
of `pmm_init` end unless they come to an entry twice, and the second one of `pmm_init` unless it
does so with the same memory. -/
theorem walks_end_iff (m : Mem) (image : Image) (total addr : Word) :
    (WalkNoWrap m addr → ∃ k out, multibootPrintMemory k m addr = some out) ∧
    (WalkNoWrap m addr → (∀ highest, FindsHighest m addr highest → FreeNoWrap image m addr highest) →
      ∃ k r, pmmInitIn k m image total addr = some r) ∧
    ((∃ k out, multibootPrintMemory k m addr = some out) ↔
      ((multibootInfo m addr).HasMmap → ¬ WalkRecurs m addr)) ∧
    ((∃ k r, pmmInitIn k m image total addr = some r) ↔
      ((multibootInfo m addr).HasMmap →
        ¬ WalkRecurs m addr ∧ ∀ highest, FindsHighest m addr highest →
          ¬ FreeRecurs image m addr highest)) := by
  refine ⟨fun hwalk => ?_, fun hwalk hfree => ?_, multibootPrintMemory_ends_iff, pmmInitIn_ends_iff⟩
  · exact multibootPrintMemory_ends_iff.mpr fun _ => hwalk.not_recurs
  · exact pmmInitIn_ends_iff.mpr fun _ => ⟨hwalk.not_recurs, fun highest h => (hfree highest h).not_recurs⟩

theorem oneRegion_ends :
    (∃ k out, multibootPrintMemory k (bootMemory [usable 0x100000 0x8000]) 0x1000 = some out) ∧
    ∃ k r, pmmInitIn k (bootMemory [usable 0x100000 0x8000]) smallImage 0 0x1000 = some r := by
  obtain ⟨m, hm⟩ : ∃ m, m = bootMemory [usable 0x100000 0x8000] := ⟨_, rfl⟩
  rw [← hm]
  have hwalk : WalkNoWrap m 0x1000 := by
    intro x hx
    rw [hx.eq_first (by rw [hm]; decide +kernel), hm]
    decide +kernel
  have hfinds : FindsHighest m 0x1000 0x108000 := ⟨2, by rw [hm]; decide +kernel⟩
  have hfree (highest : Word) (h : FindsHighest m 0x1000 highest) :
      FreeNoWrap smallImage m 0x1000 highest := by
    obtain rfl := hfinds.unique h
    intro x hx
    rw [hx.eq_first (by rw [hm]; decide +kernel), hm]
    decide +kernel
  obtain ⟨hprint, hinit, -⟩ := walks_end_iff m smallImage 0 0x1000
  exact ⟨hprint hwalk, hinit hwalk hfree⟩

/-- A map with an entry that is followed by itself. -/
def circularMap : List MmapEntry := [⟨0xFFFFFFFC, 0x100000, 0x3000, 1⟩]

theorem circularMap_recurs : WalkRecurs (bootMemory circularMap) 0x1000 := by
  refine ⟨0, 1, Nat.one_pos, fun k hk => ?_, ?_⟩
  · obtain rfl : k = 0 := by omega
    decide
  · decide

/-- Neither function returns from that map, wherever the kernel lies. -/
theorem not_walks_end : (¬ ∃ k out, multibootPrintMemory k (bootMemory circularMap) 0x1000 = some out) ∧
    ∀ image total, ¬ ∃ k r, pmmInitIn k (bootMemory circularMap) image total 0x1000 = some r := by
  have hmap : (multibootInfo (bootMemory circularMap) 0x1000).HasMmap := by decide
  refine ⟨fun hprint => ?_, fun image total hinit => ?_⟩
  · exact multibootPrintMemory_ends_iff.mp hprint hmap circularMap_recurs
  · exact (pmmInitIn_ends_iff.mp hinit hmap).1 circularMap_recurs

/-! ### A bitmap that is apart from the map -/

/-- The bytes that the bitmap may take. -/
def Image.bitmap (image : Image) : Set ℕ := Set.Ico image.kernelEnd.toNat (image.kernelEnd.toNat + 2 ^ 17)

/-- The words of the bitmap in a memory. -/
def bitmapIn (image : Image) (m : Mem) : Bitmap 32 := fun i => m.load (bitmapAddr image (BitVec.ofNat 32 i))

/-- The memory is `m` but for the bitmap, which is `b`. -/
structure Shows (image : Image) (m : Mem) (b : Bitmap 32) (m' : Mem) : Prop where
  keeps : Keeps image.bitmap m m'
  word : ∀ i, i < 2 ^ 15 → bitmapIn image m' i = b i

variable {b : Bitmap 32} {p : Pmm} {frame start stop mmap : Word} {i : ℕ} {es : List MmapEntry}

theorem bitmapAddr_eq (image : Image) (i : ℕ) :
    bitmapAddr image (BitVec.ofNat 32 i) = BitVec.ofNat 32 (image.kernelEnd.toNat + 4 * i) := by
  rw [bitmapAddr, BitVec.ofNat_add, BitVec.ofNat_mul, BitVec.ofNat_toNat, BitVec.setWidth_eq]
  rfl

theorem Shows.store (h : Shows image m b m') (hi : i < 2 ^ 15) (v : Word) :
    Shows image m (Function.update b i v) (m'.store (bitmapAddr image (BitVec.ofNat 32 i)) v) := by
  have hend := image.end_le
  refine ⟨?_, fun j hj => ?_⟩
  · rw [bitmapAddr_eq]
    exact h.keeps.store v (by omega) (Set.Ico_subset_Ico (by omega) (by omega))
  · rw [bitmapIn]
    by_cases hij : j = i
    · rw [hij, Mem.load_store_self, Function.update_self]
    · rw [Function.update_of_ne hij, ← h.word j hj, bitmapIn, bitmapAddr_eq, bitmapAddr_eq]
      exact Mem.load_store_of_apart _ _ (by omega) (by omega) (by omega)

theorem Shows.modify (h : Shows image m b m') (hf : frame.toNat < 2 ^ 20) (g : Word → Word) :
    Shows image m (Function.update b (frame / 32).toNat (g (b (frame / 32).toNat)))
      (m'.store (bitmapAddr image (frame / 32)) (g (m'.load (bitmapAddr image (frame / 32))))) := by
  have hi : (frame / 32).toNat < 2 ^ 15 := by
    rw [(toNat_div_mod frame).1]
    omega
  have hword := h.store hi (g (b (frame / 32).toNat))
  rw [← h.word _ hi, bitmapIn, BitVec.ofNat_toNat, BitVec.setWidth_eq] at hword
  rwa [← h.word _ hi, bitmapIn, BitVec.ofNat_toNat, BitVec.setWidth_eq]

theorem forFrames_rel {σ τ : Type*} {R : σ → τ → Prop} {body : Word → σ → σ} {body' : Word → τ → τ}
    {s : σ} {t : τ}
    (h0 : R s t) (hstep : ∀ f : Word, f < stop → ∀ s t, R s t → R (body f s) (body' f t)) :
    R (forFrames start stop body s) (forFrames start stop body' t) := by
  refine List.foldl_rel h0 fun f hf s t hst => hstep _ ?_ s t hst
  have hrange := List.mem_range'_1.mp hf
  have hstop := stop.isLt
  rw [BitVec.lt_def, BitVec.toNat_ofNat, Nat.mod_eq_of_lt (by omega)]
  omega

theorem shows_fillBitmap (image : Image) (m : Mem) (highest : Word) :
    Shows image m (allUsed (bitmapIn image m) highest).bitmap (fillBitmap image (highest / 4096) m) := by
  refine List.foldl_rel (r := fun b m' => Shows image m b m') ⟨Keeps.refl _ _,
    fun _ _ => rfl⟩ fun i hi b m' h => ?_
  have htotal := div_frame_le highest
  have hlt := List.mem_range.mp hi
  rw [(toNat_div_mod _).1] at hlt
  exact h.store (by omega) _

/-- The frames of a region, in the bitmap and in the memory. -/
theorem Shows.freeRegion (h : Shows image m p.bitmap m') (e : MmapEntry) :
    (freeRegion e p).totalFrames = p.totalFrames ∧
      Shows image m (Mm.freeRegion e p).bitmap (freeRegionIn image p.totalFrames e m') := by
  unfold Mm.freeRegion freeRegionIn
  split_ifs
  · refine forFrames_rel (R := fun (q : Pmm) m' => q.totalFrames = p.totalFrames ∧
      Shows image m q.bitmap m') ⟨rfl, h⟩ ?_
    rintro f - q m' ⟨htotal, hq⟩
    rw [htotal]
    split_ifs with hf
    · have hlt : f.toNat < p.totalFrames.toNat := hf
      exact ⟨htotal, hq.modify (hlt.trans_le p.total_le) fun x => x &&& ~~~(1#32 <<< (f % 32).toNat)⟩
    · exact ⟨htotal, hq⟩
  · exact ⟨rfl, h⟩

/-- The reserved frames, in the bitmap and in the memory. -/
theorem Shows.reserve (h : Shows image m p.bitmap m') :
    Shows image m (Mm.reserve image p).bitmap (reserveIn image p.totalFrames m') := by
  have hloop {start x : Word} {q : Pmm} {m' : Mem} (h : Shows image m q.bitmap m') :
      Shows image m (forFrames start (x / 4096) (fun f p => setFrame p f) q).bitmap
        (forFrames start (x / 4096) (fun f m => setFrameIn image m f) m') := by
    refine forFrames_rel (R := fun (q : Pmm) m' => Shows image m q.bitmap m') h fun f hf q m' hq => ?_
    have hlt : f.toNat < (x / 4096).toNat := hf
    exact hq.modify (hlt.trans_le (div_frame_le x)) fun x => x ||| 1#32 <<< (f % 32).toNat
  exact hloop (hloop h)

/-- The information and the entries that the walk comes to are apart from the bitmap. -/
structure MapApart (image : Image) (m : Mem) (addr : Word) : Prop where
  info : ∀ d : Word, d < 52 → (addr + d).toNat ∉ image.bitmap
  entries : ∀ x, Enters (· < (multibootInfo m addr).mmapEnd) (nextEntry m) (multibootInfo m addr).mmapAddr x →
    ∀ d : Word, d < 24 → (x + d).toNat ∉ image.bitmap

theorem multibootInfo_congr (h : ∀ d : Word, d < 52 → m' (addr + d) = m (addr + d)) :
    multibootInfo m' addr = multibootInfo m addr := by
  have h0 : m' addr = m addr := by simpa using h 0 (by decide)
  simp [multibootInfo, Mem.load, BitVec.add_assoc, h, h0]

theorem mmapEntry_congr (h : ∀ d : Word, d < 24 → m' (mmap + d) = m (mmap + d)) :
    mmapEntry m' mmap = mmapEntry m mmap := by
  have h0 : m' mmap = m mmap := by simpa using h 0 (by decide)
  simp [mmapEntry, Mem.load, BitVec.add_assoc, h, h0]

/-- The walk that frees memory, over a map that is apart from the bitmap. -/
theorem Shows.freeWalk (h : Shows image m p.bitmap m') {stop : Word}
    (hes : mmapEntries m stop k mmap = some es)
    (hstop : ∀ m', Keeps image.bitmap m m' → (multibootInfo m' addr).mmapEnd = stop)
    (hentries : ∀ x, Enters (· < stop) (nextEntry m) mmap x → ∀ d : Word, d < 24 →
      (x + d).toNat ∉ image.bitmap) :
    ∃ x, whileLoop (FreeRuns addr) (freeStep image p.totalFrames) k (mmap, m') = some x ∧
      Shows image m (es.foldl (fun p e => Mm.freeRegion e p) p).bitmap x.2 := by
  induction k generalizing mmap p m' es with
  | zero => exact absurd hes nofun
  | succ k ih =>
    rw [mmapEntries] at hes
    have hruns : FreeRuns addr (mmap, m') ↔ mmap < stop := by rw [FreeRuns, hstop m' h.keeps]
    by_cases hlt : mmap < stop
    · rw [if_pos hlt, Option.map_eq_some_iff] at hes
      obtain ⟨es, hes, rfl⟩ := hes
      have hentry {m'' : Mem} (hm : Keeps image.bitmap m m'') : mmapEntry m'' mmap = mmapEntry m mmap :=
        mmapEntry_congr fun d hd => hm _ (hentries mmap (.first hlt) d hd)
      obtain ⟨htotal, hfree⟩ := h.freeRegion (mmapEntry m mmap)
      rw [whileLoop, if_pos (hruns.mpr hlt), freeStep]
      dsimp only
      rw [hentry h.keeps, nextEntry, hentry hfree.keeps]
      have hrest := ih hfree hes fun x hx => hentries x (hx.later hlt)
      rwa [htotal] at hrest
    · rw [if_neg hlt] at hes
      cases hes
      rw [whileLoop, if_neg fun h => hlt (hruns.mp h)]
      exact ⟨_, rfl, h⟩

/-- In one memory `pmm_init` does what it does with a bitmap of its own, if that is apart from the map. -/
theorem pmmInitIn_eq (hmap : (multibootInfo m addr).HasMmap) (hapart : MapApart image m addr)
    (hes : mmapEntries m (multibootInfo m addr).mmapEnd k (multibootInfo m addr).mmapAddr = some es) :
    ∃ m', pmmInitIn k m image total addr =
      some (0, (initialized image es (bitmapIn image m)).totalFrames, m') ∧
      Shows image m (initialized image es (bitmapIn image m)).bitmap m' := by
  have hinfo (m' : Mem) (hm : Keeps image.bitmap m m') : multibootInfo m' addr = multibootInfo m addr :=
    multibootInfo_congr fun d hd => hm _ (hapart.info d hd)
  have hfill := shows_fillBitmap image m (highestAddr es)
  obtain ⟨x, hx, hshows⟩ := hfill.freeWalk hes (fun m' hm => by rw [hinfo m' hm]) hapart.entries
  have htotal :
      (es.foldl (fun p e =>
      freeRegion e p) (allUsed (bitmapIn image m) (highestAddr es))).totalFrames =
      highestAddr es / 4096 := (test_freeRegions es _ 0).1
  refine ⟨_, ?_, hshows.reserve⟩
  have hwalk : whileLoop (FreeRuns addr) (freeStep image (highestAddr es / 4096)) k
      ((multibootInfo m addr).mmapAddr, fillBitmap image (highestAddr es / 4096) m) = some x := hx
  unfold pmmInitIn
  dsimp only
  rw [if_neg (not_not.mpr hmap), mmapLoop_eq, hes, Option.map_some, ← highestAddr]
  dsimp only
  rw [hinfo _ hfill.keeps, hwalk, initialized, (test_reserve image _ 0).1, htotal]

end SpatulaOS.Mm
