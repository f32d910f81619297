import Mathlib.Data.List.Pairwise
import Mathlib.Order.Interval.Set.Disjoint
import SpatulaOS.Mm.PmmFrames

/-!
# The frames that `pmm_init` frees

After `pmm_init` a frame in the whole words of the bitmap is free exactly if the loop
over the usable regions cleared its bit and it is not reserved for the kernel or the
bitmap (`pmmInit_spec`). So the frames that are handed out lie outside the kernel and
the bitmap. They lie inside the usable regions unless a region starts in the middle of
a frame, whose number is rounded down, or has frame numbers that do not fit in 32 bits.
-/

namespace SpatulaOS.Mm

open ByteMemory WordBitmap Runs SpatulaOS.Core

variable {m : Mem} {image : Image} {ram : Bitmap 32} {p p' q : Pmm} {e e' : MmapEntry} {es : List MmapEntry}
  {addr a start stop : Word} {f g k : ℕ}

/-! ### The loops -/

/-- The invariant rule of the frame loops. -/
theorem forFrames_induct {σ : Type*} (start stop : Word) (body : Word → σ → σ) (s : σ) (I : ℕ → σ → Prop)
    (h0 : I start.toNat s)
    (hstep : ∀ f s, start.toNat ≤ f → f < stop.toNat → I f s → I (f + 1) (body (BitVec.ofNat 32 f) s)) :
    I (max start.toNat stop.toNat) (forFrames start stop body s) := by
  have hrun (n : ℕ) (hn : n ≤ stop.toNat - start.toNat) : I (start.toNat + n)
      ((List.range' start.toNat n).foldl (fun s f => body (BitVec.ofNat 32 f) s) s) := by
    induction n with
    | zero => exact h0
    | succ n ih =>
      rw [List.range'_concat, List.foldl_append, List.foldl_cons, List.foldl_nil, Nat.one_mul]
      exact hstep (start.toNat + n) _ (Nat.le_add_right _ _) (by omega) (ih (by omega))
  have hmax : max start.toNat stop.toNat = start.toNat + (stop.toNat - start.toNat) := by omega
  rw [hmax]
  exact hrun _ le_rfl

theorem test_setFrames (p : Pmm) (start stop : Word) (g : ℕ) :
    (forFrames start stop (fun f p => setFrame p f) p).totalFrames = p.totalFrames ∧
    (test (forFrames start stop (fun f p => setFrame p f) p).bitmap g = false ↔
      test p.bitmap g = false ∧ ¬ (start.toNat ≤ g ∧ g < stop.toNat)) := by
  have h := forFrames_induct start stop (fun f p => setFrame p f) p
    (fun n q => q.totalFrames = p.totalFrames ∧ (test q.bitmap g = false ↔
      test p.bitmap g = false ∧ ¬ (start.toNat ≤ g ∧ g < n))) ⟨rfl, (and_iff_left (by omega)).symm⟩ ?_
  · exact ⟨h.1, h.2.trans (and_congr_right' (by omega))⟩
  · rintro f q h1 h2 ⟨ht, hq⟩
    refine ⟨ht, ?_⟩
    have hf := stop.isLt
    rw [setFrame_bitmap, BitVec.toNat_ofNat, Nat.mod_eq_of_lt (by omega), test_mark (by decide),
      Bool.or_eq_false_iff, decide_eq_false_iff_not, hq, and_assoc]
    exact and_congr_right' (by omega)

theorem test_clearFrames (p : Pmm) (start stop : Word) (g : ℕ) :
    (forFrames start stop (fun f p => if f < p.totalFrames then clearFrame p f else p)
      p).totalFrames = p.totalFrames ∧
    (test (forFrames start stop (fun f p => if f < p.totalFrames then clearFrame p f else p)
      p).bitmap g = false ↔
      test p.bitmap g = false ∨ g < p.totalFrames.toNat ∧ start.toNat ≤ g ∧ g < stop.toNat) := by
  have h := forFrames_induct start stop (fun f p => if f < p.totalFrames then clearFrame p f else p) p
    (fun n q => q.totalFrames = p.totalFrames ∧ (test q.bitmap g = false ↔
      test p.bitmap g = false ∨ g < p.totalFrames.toNat ∧ start.toNat ≤ g ∧ g < n))
    ⟨rfl, (or_iff_left (by omega)).symm⟩ ?_
  · exact ⟨h.1, h.2.trans (or_congr_right (by omega))⟩
  · rintro f q h1 h2 ⟨ht, hq⟩
    have hf : (BitVec.ofNat 32 f).toNat = f := by
      have := stop.isLt
      rw [BitVec.toNat_ofNat, Nat.mod_eq_of_lt (by omega)]
    split_ifs with hlt
    · rw [BitVec.lt_def, hf, ht] at hlt
      refine ⟨ht, ?_⟩
      rw [clearFrame_bitmap, hf, test_unmark (by decide), Bool.and_eq_false_iff, Bool.not_eq_false',
        decide_eq_true_eq, hq, or_assoc]
      exact or_congr_right (by omega)
    · rw [BitVec.lt_def, hf, ht] at hlt
      exact ⟨ht, hq.trans (or_congr_right (by omega))⟩

/-- The frames that a usable region's loop clears. -/
def RegionFrees (e : MmapEntry) (f : ℕ) : Prop :=
  e.type = 1 ∧ (startFrame e).toNat ≤ f ∧ f < (endFrame e).toNat

theorem test_freeRegions (es : List MmapEntry) (p : Pmm) (g : ℕ) :
    (es.foldl (fun p e => freeRegion e p) p).totalFrames = p.totalFrames ∧
    (test (es.foldl (fun p e => freeRegion e p) p).bitmap g = false ↔
      test p.bitmap g = false ∨ g < p.totalFrames.toNat ∧ ∃ e ∈ es, RegionFrees e g) := by
  induction es generalizing p with
  | nil => simp
  | cons e es ih =>
    obtain ⟨h1, h2⟩ := ih (freeRegion e p)
    have hone : (freeRegion e p).totalFrames = p.totalFrames ∧ (test (freeRegion e p).bitmap g = false ↔
        test p.bitmap g = false ∨ g < p.totalFrames.toNat ∧ RegionFrees e g) := by
      unfold freeRegion RegionFrees
      split_ifs with ht
      · simpa only [ht, true_and] using test_clearFrames p (startFrame e) (endFrame e) g
      · exact ⟨rfl, (or_iff_left fun h => ht h.2.1).symm⟩
    rw [List.foldl_cons]
    refine ⟨h1.trans hone.1, h2.trans ?_⟩
    rw [hone.1, hone.2, List.exists_mem_cons_iff, or_assoc, ← and_or_left]

/-- The loop that marks all frames sets the whole words. -/
theorem allUsed_word (ram : Bitmap 32) (highest : Word) (i : ℕ) :
    (allUsed ram highest).bitmap i = if i < (highest / 4096 / 32).toNat then BitVec.allOnes 32 else ram i :=
  foldl_update_apply (fun _ => BitVec.allOnes 32) ram _ i

/-- All the frames of the whole words are marked at first. -/
theorem test_allUsed {highest : Word} (hf : f < (allUsed ram highest).searched) :
    test (allUsed ram highest).bitmap f = true := by
  obtain ⟨i, j, hi, hj, rfl⟩ := exists_word hf
  have hi : i < (highest / 4096 / 32).toNat := hi
  rw [test_word hj, allUsed_word, if_pos hi, BitVec.getLsbD_allOnes, decide_eq_true hj]

/-! ### The reservations -/

theorem toNat_bitmapSize (p : Pmm) : (bitmapSize p).toNat = (p.totalFrames.toNat + 31) / 32 * 4 := by
  have := p.total_le
  rw [bitmapSize, BitVec.toNat_mul, BitVec.toNat_udiv, BitVec.toNat_add, show (31 : Word).toNat = 31 from rfl,
    show (32 : Word).toNat = 32 from rfl, show (4 : Word).toNat = 4 from rfl]
  omega

theorem toNat_bitmapEnd (image : Image) (p : Pmm) : (bitmapEnd image p).toNat =
    (image.kernelEnd.toNat + (p.totalFrames.toNat + 31) / 32 * 4 + 4095) / 4096 * 4096 := by
  have := p.total_le
  have := image.end_le
  have hsum : (image.kernelEnd + bitmapSize p + 4096 - 1).toNat =
      image.kernelEnd.toNat + (p.totalFrames.toNat + 31) / 32 * 4 + 4095 := by
    have := toNat_bitmapSize p
    unfold FRAME_SIZE at *
    bv_omega
  rw [bitmapEnd, show (4096 - 1 : Word) = BitVec.ofNat 32 (2 ^ 12 - 1) from rfl, toNat_and_not_low, hsum]
  rfl

/-- The frames that `pmm_init` reserves: those that meet the kernel or the bitmap behind it. -/
def Reserved (image : Image) (total f : ℕ) : Prop :=
  image.kernelStart.toNat < f * 4096 + 4096 ∧ f * 4096 < image.kernelEnd.toNat + (total + 31) / 32 * 4

instance (image : Image) (total f : ℕ) :
    Decidable (Reserved image total f) := by unfold Reserved; infer_instance

theorem test_reserve (image : Image) (p : Pmm) (g : ℕ) : (reserve image p).totalFrames = p.totalFrames ∧
    (test (reserve image p).bitmap g = false ↔
      test p.bitmap g = false ∧ ¬ Reserved image p.totalFrames.toNat g) := by
  have hse := image.start_le
  have hend := image.end_le
  have h1 := test_setFrames p (image.kernelStart / 4096) ((image.kernelEnd + 4096 - 1) / 4096) g
  have h2 := test_setFrames (forFrames (image.kernelStart / 4096) ((image.kernelEnd + 4096 - 1) / 4096)
    (fun f p => setFrame p f) p) (image.kernelEnd / 4096) (bitmapEnd image p / 4096) g
  have hks : (image.kernelStart / 4096).toNat = image.kernelStart.toNat / 4096 := BitVec.toNat_udiv
  have hke : (image.kernelEnd / 4096).toNat = image.kernelEnd.toNat / 4096 := BitVec.toNat_udiv
  have hke' : ((image.kernelEnd + 4096 - 1) / 4096).toNat = (image.kernelEnd.toNat + 4095) / 4096 := by
    have hsum : (image.kernelEnd + 4096 - 1).toNat = image.kernelEnd.toNat + 4095 := by
      unfold FRAME_SIZE at *
      bv_omega
    rw [BitVec.toNat_udiv, hsum]
    rfl
  have hbe : (bitmapEnd image p / 4096).toNat =
      (image.kernelEnd.toNat + (p.totalFrames.toNat + 31) / 32 * 4 + 4095) / 4096 := by
    rw [BitVec.toNat_udiv, toNat_bitmapEnd]
    exact Nat.mul_div_cancel _ (by decide)
  refine ⟨h2.1.trans h1.1, h2.2.trans ?_⟩
  rw [h1.2, and_assoc, hks, hke, hke', hbe, Reserved]
  exact and_congr_right' (by omega)

/-! ### What `pmm_init` leaves -/

/-- The highest address of a region, truncated, as `pmm_init` computes it. -/
def highestAddr (es : List MmapEntry) : Word := es.foldl (fun highest e => raiseHighest e highest) 0

/-- The number of frames of a map. -/
def mapFrames (es : List MmapEntry) : ℕ := (highestAddr es / 4096).toNat

/-- What `pmm_init` leaves: in the whole words of the bitmap, the frames that are free are
those that a usable region's loop visits and that are not reserved. -/
theorem pmmInit_spec (hinit : pmmInit k m image ram p addr = some (0, p')) :
    ∃ es, mmapEntries m (multibootInfo m addr).mmapEnd k (multibootInfo m addr).mmapAddr = some es ∧
      p'.totalFrames.toNat = mapFrames es ∧ ∀ f, f < p'.searched →
        (f ∈ p'.free ↔ (∃ e ∈ es, RegionFrees e f) ∧ ¬ Reserved image (mapFrames es) f) := by
  unfold pmmInit at hinit
  dsimp only at hinit
  split_ifs at hinit
  swap
  · exact absurd (Prod.mk.inj (Option.some.inj hinit)).1 (by decide)
  rw [mmapLoop_eq] at hinit
  cases hes : mmapEntries m (multibootInfo m addr).mmapEnd k (multibootInfo m addr).mmapAddr with
  | none =>
    rw [hes] at hinit
    exact absurd hinit (by simp)
  | some es =>
    rw [hes] at hinit
    dsimp only [Option.map_some] at hinit
    rw [mmapLoop_eq, hes] at hinit
    obtain ⟨-, hp'⟩ := Prod.mk.inj (Option.some.inj hinit)
    -- the frames of the map are all those that the allocator has
    obtain ⟨u, hu⟩ : ∃ u, u = allUsed ram (highestAddr es) := ⟨_, rfl⟩
    obtain ⟨q, hq⟩ : ∃ q, q = es.foldl (fun p e => freeRegion e p) u := ⟨_, rfl⟩
    obtain rfl : p' = reserve image q := by rw [hq, hu]; exact hp'.symm
    have htotal : u.totalFrames.toNat = mapFrames es := by rw [hu]; rfl
    have hqu : q.totalFrames = u.totalFrames := by rw [hq]; exact (test_freeRegions es u 0).1
    have hrq := (test_reserve image q 0).1
    refine ⟨es, rfl, by rw [hrq, hqu, htotal], fun f hf => ?_⟩
    have hlt : f < u.totalFrames.toNat := by
      rw [← hqu, ← hrq]
      exact hf.trans_le (Pmm.searched_le _)
    have hused : test u.bitmap f = true := by
      rw [Pmm.searched, hrq, hqu, hu] at hf
      rw [hu]
      exact test_allUsed hf
    have hq' : test q.bitmap f = false ↔ ∃ e ∈ es, RegionFrees e f := by
      rw [hq, (test_freeRegions es u f).2, hused, and_iff_right hlt]
      exact or_iff_right (by decide)
    rw [Pmm.mem_free, (test_reserve image q f).2, hq', hrq, hqu, htotal, and_iff_right (by rwa [← htotal])]

/-! ### The frames that are handed out -/

/-- The bytes of a region. -/
def regionBytes (e : MmapEntry) : Set ℕ := Set.Ico e.addr.toNat (e.addr.toNat + e.len.toNat)

/-- The bytes of the frame at an address. -/
def frameBytes (a : Word) : Set ℕ := Set.Ico a.toNat (a.toNat + 4096)

/-- The bytes of the kernel image. -/
def Image.bytes (image : Image) : Set ℕ := Set.Ico image.kernelStart.toNat image.kernelEnd.toNat

/-- The bytes of the bitmap. -/
def bitmapBytes (image : Image) (p : Pmm) : Set ℕ :=
  Set.Ico image.kernelEnd.toNat (image.kernelEnd.toNat + (p.totalFrames.toNat + 31) / 32 * 4)

/-- The regions of a map do not overlap, and none wraps round. -/
structure Regions (es : List MmapEntry) : Prop where
  disjoint : es.Pairwise fun e e' => Disjoint (regionBytes e) (regionBytes e')
  noWrap : ∀ e ∈ es, e.addr.toNat + e.len.toNat < 2 ^ 64

/-- The frame lies in one usable region, and neither in the kernel nor in the bitmap. -/
structure UsableFrame (es : List MmapEntry) (image : Image) (p : Pmm) (a : Word) : Prop where
  region : ∃ e ∈ es, e.type = 1 ∧ frameBytes a ⊆ regionBytes e
  kernel : Disjoint (frameBytes a) image.bytes
  bitmap : Disjoint (frameBytes a) (bitmapBytes image p)

/-- All the frames that are ever handed out are usable. -/
def HandsOutUsable (es : List MmapEntry) (image : Image) (p : Pmm) : Prop :=
  ∀ s, Reach (frameMachine p) (fun _ _ => True) s → ∀ a r, pmmAllocFrame s.pmm = (a, r) → a ≠ 0 →
    UsableFrame es image p a

/-- The loop of the region frees the frame, and it can be handed out: it is not frame 0, it lies
in a whole word of the bitmap and it is not reserved. -/
def Releases (es : List MmapEntry) (image : Image) (e : MmapEntry) (f : ℕ) : Prop :=
  RegionFrees e f ∧ 0 < f ∧ f < mapFrames es / 32 * 32 ∧ ¬ Reserved image (mapFrames es) f

/-- The condition: a region below `2 ^ 44` starts at a frame, or the frame in which it starts is
not released; a region from there on, whose frame numbers are truncated, releases only
frames that happen to lie in usable regions. -/
def ReleasesUsable (es : List MmapEntry) (image : Image) : Prop := ∀ e ∈ es,
  (e.addr.toNat < 2 ^ 44 → e.addr.toNat % 4096 = 0 ∨ ¬ Releases es image e (e.addr.toNat / 4096)) ∧
  (2 ^ 44 ≤ e.addr.toNat → ∀ f, Releases es image e f →
    ∃ e' ∈ es, e'.type = 1 ∧ frameBytes (frameAddr f) ⊆ regionBytes e')

theorem toNat_startFrame (e : MmapEntry) : (startFrame e).toNat = e.addr.toNat / 4096 % 2 ^ 32 := by
  rw [startFrame, BitVec.toNat_setWidth, BitVec.toNat_udiv]
  rfl

theorem toNat_endFrame (h : e.addr.toNat + e.len.toNat < 2 ^ 64) :
    (endFrame e).toNat = (e.addr.toNat + e.len.toNat) / 4096 % 2 ^ 32 := by
  rw [endFrame, BitVec.toNat_setWidth, BitVec.toNat_udiv, BitVec.toNat_add, Nat.mod_eq_of_lt h]
  rfl

/-- A frame that a region below `2 ^ 44` frees ends in it, and it starts in it unless it is the
one in which the region starts. -/
theorem regionFrees_bounds (hv : RegionFrees e f) (hw : e.addr.toNat + e.len.toNat < 2 ^ 64)
    (hlt : e.addr.toNat < 2 ^ 44) :
    e.addr.toNat / 4096 ≤ f ∧ f * 4096 + 4096 ≤ e.addr.toNat + e.len.toNat := by
  obtain ⟨-, h1, h2⟩ := hv
  rw [toNat_startFrame] at h1
  rw [toNat_endFrame hw] at h2
  omega

theorem searched_eq (ht : p.totalFrames.toNat = mapFrames es) : p.searched = mapFrames es / 32 * 32 := by
  rw [Pmm.searched, BitVec.toNat_udiv, ht]
  rfl

theorem mem_frameBytes {x : ℕ} (hf : f < 2 ^ 20) :
    x ∈ frameBytes (frameAddr f) ↔ f * 4096 ≤ x ∧ x < f * 4096 + 4096 := by
  rw [frameBytes, toNat_frameAddr hf, Set.mem_Ico]

/-- A frame that a usable region frees lies in a usable region, on the condition. -/
theorem ReleasesUsable.region (hc : ReleasesUsable es image) (hr : Regions es) (he : e ∈ es)
    (hf : Releases es image e f) (hf20 : f < 2 ^ 20) :
    ∃ e ∈ es, e.type = 1 ∧ frameBytes (frameAddr f) ⊆ regionBytes e := by
  obtain hlt | hge := Nat.lt_or_ge e.addr.toNat (2 ^ 44)
  swap
  · exact (hc e he).2 hge f hf
  obtain ⟨h1, h2⟩ := regionFrees_bounds hf.1 (hr.noWrap e he) hlt
  have h3 : e.addr.toNat ≤ f * 4096 := by
    obtain hal | hno := (hc e he).1 hlt
    · omega
    · have hne : f ≠ e.addr.toNat / 4096 := fun h => hno (by rwa [← h])
      omega
  refine ⟨e, he, hf.1.1, fun x hx => ?_⟩
  rw [mem_frameBytes hf20] at hx
  rw [regionBytes, Set.mem_Ico]
  omega

/-- No region covers the frame in the middle of which another one starts. -/
theorem not_covered (hr : Regions es) (he : e ∈ es) (he' : e' ∈ es) (hlt : e.addr.toNat < 2 ^ 44)
    (hv : RegionFrees e (e.addr.toNat / 4096)) (hno : e.addr.toNat % 4096 ≠ 0)
    (hf20 : e.addr.toNat / 4096 < 2 ^ 20)
    (hsub : frameBytes (frameAddr (e.addr.toNat / 4096)) ⊆ regionBytes e') : False := by
  obtain ⟨-, h2⟩ := regionFrees_bounds hv (hr.noWrap e he) hlt
  by_cases hee : e' = e
  · have hx := hsub ((mem_frameBytes hf20).mpr ⟨le_rfl, by omega⟩)
    rw [hee, regionBytes, Set.mem_Ico] at hx
    omega
  · have : Std.Symm fun e e' => Disjoint (regionBytes e) (regionBytes e') := ⟨fun _ _ h => h.symm⟩
    have hd := hr.disjoint.forall he' he hee
    refine Set.disjoint_left.mp hd (hsub ((mem_frameBytes (x := e.addr.toNat) hf20).mpr (by omega))) ?_
    rw [regionBytes, Set.mem_Ico]
    omega

theorem HandsOutUsable.releases (hinit : pmmInit k m image ram p addr = some (0, p'))
    (hes : mmapEntries m (multibootInfo m addr).mmapEnd k (multibootInfo m addr).mmapAddr = some es)
    (hr : Regions es) (hall : HandsOutUsable es image p') : ReleasesUsable es image := by
  obtain ⟨es', hes', htotal, hfree⟩ := pmmInit_spec hinit
  obtain rfl := Option.some.inj (hes'.symm.trans hes)
  have hsearched := searched_eq htotal
  have hsub : ∀ e ∈ es', ∀ f, Releases es' image e f → f < 2 ^ 20 ∧
      ∃ e' ∈ es', e'.type = 1 ∧ frameBytes (frameAddr f) ⊆ regionBytes e' := by
    rintro e he f ⟨hv, hpos, hlt, hres⟩
    rw [← hsearched] at hlt
    have hf := (hfree f hlt).mpr ⟨⟨e, he, hv⟩, hres⟩
    have hf20 := Pmm.lt_of_mem_free hf
    obtain ⟨s, hs, ha⟩ := exists_alloc hf hlt
    refine ⟨hf20, (hall s hs _ _ (Prod.ext ha rfl) fun h0 => ?_).region⟩
    exact hpos.ne' ((frameAddr_eq_zero_iff hf20).mp h0)
  refine fun e he => ⟨fun hlt => ?_, fun _ f hf => (hsub e he f hf).2⟩
  by_contra hno
  rw [not_or, not_not] at hno
  obtain ⟨hf20, e', he', -, hcov⟩ := hsub e he _ hno.2
  exact not_covered hr he he' hlt hno.2.1 hno.1 hf20 hcov

/-- Only released frames are handed out, and the kernel and the bitmap are reserved. -/
theorem ReleasesUsable.handsOut (hinit : pmmInit k m image ram p addr = some (0, p'))
    (hes : mmapEntries m (multibootInfo m addr).mmapEnd k (multibootInfo m addr).mmapAddr = some es)
    (hr : Regions es) (hc : ReleasesUsable es image) : HandsOutUsable es image p' := by
  obtain ⟨es', hes', htotal, hfree⟩ := pmmInit_spec hinit
  obtain rfl := Option.some.inj (hes'.symm.trans hes)
  have hsearched := searched_eq htotal
  intro s hs a r ha ha0
  have hi := FrameClients.inv hs
  obtain ⟨h0, -⟩ | ⟨f, hf, hlt, -, hr'⟩ := pmmAllocFrame_spec s.pmm
  · rw [h0] at ha
    exact absurd (Prod.mk.inj ha).1.symm ha0
  obtain ⟨rfl, -⟩ := Prod.mk.inj (hr'.symm.trans ha)
  change frameAddr f ≠ 0 at ha0
  change UsableFrame es' image p' (frameAddr f)
  have hfp := ((hi.free f).mp hf).1
  have hf20 := Pmm.lt_of_mem_free hfp
  rw [Pmm.searched, hi.total, ← Pmm.searched] at hlt
  obtain ⟨⟨e, he, hv⟩, hres⟩ := (hfree f hlt).mp hfp
  have hpos : 0 < f := Nat.pos_of_ne_zero fun h => ha0 ((frameAddr_eq_zero_iff hf20).mpr h)
  have hrel : Releases es' image e f := ⟨hv, hpos, by rwa [← hsearched], hres⟩
  refine ⟨hc.region hr he hrel hf20, ?_, ?_⟩
  · refine Set.disjoint_left.mpr fun x hx hk => hres ?_
    rw [mem_frameBytes hf20] at hx
    rw [Image.bytes, Set.mem_Ico] at hk
    unfold Reserved
    omega
  · refine Set.disjoint_left.mpr fun x hx hk => hres ?_
    have := image.start_le
    rw [mem_frameBytes hf20] at hx
    rw [bitmapBytes, Set.mem_Ico, htotal] at hk
    unfold Reserved
    omega

/-- **After `pmm_init`, all the frames that are ever handed out are usable exactly on the
condition.** -/
theorem handsOutUsable_iff (hinit : pmmInit k m image ram p addr = some (0, p'))
    (hes : mmapEntries m (multibootInfo m addr).mmapEnd k (multibootInfo m addr).mmapAddr = some es)
    (hr : Regions es) : HandsOutUsable es image p' ↔ ReleasesUsable es image :=
  ⟨HandsOutUsable.releases hinit hes hr, ReleasesUsable.handsOut hinit hes hr⟩

/-- The usable regions of a map cover the kernel image. -/
def CoversKernel (es : List MmapEntry) (image : Image) : Prop :=
  ∀ x ∈ image.bytes, ∃ e ∈ es, e.type = 1 ∧ x ∈ regionBytes e

/-- A map in which the second region starts in the middle of a frame. -/
def unalignedMap : List MmapEntry := [usable 0x100000 0x3000, usable 0x103800 0x1c800]

/-- A map in which both regions start at a frame. -/
def alignedMap : List MmapEntry := [usable 0x100000 0x3000, usable 0x104000 0x1c000]

theorem regions_pair (h : e.addr.toNat + e.len.toNat ≤ e'.addr.toNat)
    (hw : e'.addr.toNat + e'.len.toNat < 2 ^ 64) :
    Regions [e, e'] := by
  refine ⟨List.pairwise_pair.mpr (Set.disjoint_left.mpr fun x hx hx' => ?_), fun f hf => ?_⟩
  · rw [regionBytes, Set.mem_Ico] at hx hx'
    omega
  · simp only [List.mem_cons, List.not_mem_nil, or_false] at hf
    obtain rfl | rfl := hf <;> omega

/-- On the second of these maps all the frames that are handed out are usable. -/
theorem aligned_handsOutUsable :
    ∃ p, pmmInit 3 (bootMemory alignedMap) smallImage (fun _ => 0) allFree 0x1000 =
    some (0, p) ∧ HandsOutUsable alignedMap smallImage p := by
  have hrun : (pmmInit 3 (bootMemory alignedMap) smallImage (fun _ => 0) allFree 0x1000).map
      (fun r => r.1) = some 0 := by
    decide +kernel
  obtain ⟨⟨r, p⟩, hinit, rfl⟩ := Option.map_eq_some_iff.mp hrun
  refine ⟨p, hinit,
    (handsOutUsable_iff hinit (by decide +kernel) (regions_pair (by decide) (by decide))).mpr ?_⟩
  intro e he
  simp only [List.mem_cons, List.not_mem_nil, or_false] at he
  obtain rfl | rfl := he
  · exact ⟨fun _ => .inl (by decide), fun h => absurd h (by decide)⟩
  · exact ⟨fun _ => .inl (by decide), fun h => absurd h (by decide)⟩

/-- On the first of these maps the first allocation returns the frame in which the second region
starts, half of which is not usable. -/
theorem not_handsOutUsable : ¬ ∀ k m image ram p addr p' es, pmmInit k m image ram p addr = some (0, p') →
    mmapEntries m (multibootInfo m addr).mmapEnd k (multibootInfo m addr).mmapAddr = some es →
    Regions es → CoversKernel es image → HandsOutUsable es image p' := by
  intro hall
  have hrun : (pmmInit 3 (bootMemory unalignedMap) smallImage (fun _ => 0) allFree 0x1000).map
      (fun r => (r.1, (pmmAllocFrame r.2).1)) = some (0, 0x103000) := by decide +kernel
  obtain ⟨⟨r, p⟩, hinit, hr⟩ := Option.map_eq_some_iff.mp hrun
  obtain ⟨rfl, halloc⟩ : r = 0 ∧ (pmmAllocFrame p).1 = 0x103000 := by simpa using hr
  have hcovers : CoversKernel unalignedMap smallImage := fun x hx =>
    ⟨usable 0x100000 0x3000, by simp [unalignedMap], rfl, Set.Ico_subset_Ico_right (by decide) hx⟩
  have hu := hall _ _ _ _ _ _ p unalignedMap hinit (by decide +kernel)
    (regions_pair (by decide) (by decide)) hcovers
    ⟨p, []⟩ (.start rfl) _ _ (Prod.ext halloc rfl) (by decide)
  obtain ⟨e, he, -, hsub⟩ := hu.region
  have hx : 0x103000 ∈ regionBytes e := hsub (by rw [frameBytes, Set.mem_Ico]; decide)
  simp only [unalignedMap, List.mem_cons, List.not_mem_nil, or_false] at he
  rw [regionBytes, Set.mem_Ico] at hx
  obtain rfl | rfl := he
  · exact absurd hx (by decide)
  · exact absurd hx (by decide)

end SpatulaOS.Mm
