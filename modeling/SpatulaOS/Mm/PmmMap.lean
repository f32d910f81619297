import SpatulaOS.Mm.PmmInit

/-!
# What `pmm_init` leaves to chance, and what it leaves out

`pmm_init` counts the words of the bitmap with the last one rounded up, and marks the
frames of the whole words only. A bit of the partial word behind them is defined only
if a later loop writes it: the one over the usable regions, or one of those that reserve
frames. So the allocator after `pmm_init` is a function of the memory map exactly if
these loops write all the bits of the partial word (`sameFrames_iff`).

The highest address of the map is kept in 32 bits. A usable region that reaches 4 GiB
has its end truncated, and then its last frame below 4 GiB is not managed; without such
a region all the usable frames below 4 GiB are (`usableManaged_iff`).
-/

namespace SpatulaOS.Mm

open ByteMemory WordBitmap Runs SpatulaOS.Core

variable {m : Mem} {image : Image} {ram ram' : Bitmap 32} {p p' q : Pmm} {e : MmapEntry} {es : List MmapEntry}
  {addr : Word} {f k : ℕ}

/-! ### What `pmm_init` computes -/

/-- The allocator after `pmm_init`, from the entries of the map and what the bitmap held. -/
def initialized (image : Image) (es : List MmapEntry) (ram : Bitmap 32) : Pmm :=
  reserve image (es.foldl (fun p e => freeRegion e p) (allUsed ram (highestAddr es)))

theorem pmmInit_eq (hmap : (multibootInfo m addr).HasMmap)
    (hes : mmapEntries m (multibootInfo m addr).mmapEnd k (multibootInfo m addr).mmapAddr = some es) :
    pmmInit k m image ram p addr = some (0, initialized image es ram) := by
  unfold pmmInit
  dsimp only
  rw [if_neg (not_not.mpr hmap), mmapLoop_eq, hes, Option.map_some]
  dsimp only
  rw [mmapLoop_eq, hes]
  rfl

theorem initialized_totalFrames : (initialized image es ram).totalFrames.toNat = mapFrames es := by
  rw [initialized, (test_reserve image _ 0).1, (test_freeRegions es _ 0).1]
  rfl

/-- A frame is free at the end if it was not marked at first or a usable region frees it, and it
is not reserved. -/
theorem test_initialized (hf : f < mapFrames es) : test (initialized image es ram).bitmap f = false ↔
    (test (allUsed ram (highestAddr es)).bitmap f = false ∨ ∃ e ∈ es, RegionFrees e f) ∧
      ¬ Reserved image (mapFrames es) f := by
  have htotal : (allUsed ram (highestAddr es)).totalFrames.toNat = mapFrames es := rfl
  rw [initialized, (test_reserve image _ f).2, (test_freeRegions es _ f).2,
    (test_freeRegions es _ f).1, htotal,
    and_iff_right hf]

/-! ### Two runs on one map -/

/-- The two allocators have the same frames, in the same states, and so count the same free
frames. -/
structure SameFrames (p q : Pmm) : Prop where
  total : p.totalFrames = q.totalFrames
  bits : ∀ f, f < p.totalFrames.toNat → test p.bitmap f = test q.bitmap f
  count : pmmGetFreeFrames p = pmmGetFreeFrames q

theorem SameFrames.of_bits (ht : p.totalFrames = q.totalFrames)
    (hb : ∀ f, f < p.totalFrames.toNat → test p.bitmap f = test q.bitmap f) : SameFrames p q := by
  refine ⟨ht, hb, ?_⟩
  have hfree : p.free = q.free := by
    ext f
    rw [Pmm.mem_free, Pmm.mem_free, ← ht]
    exact and_congr_right fun hf => by rw [hb f hf]
  rw [← BitVec.toNat_inj, toNat_pmmGetFreeFrames, toNat_pmmGetFreeFrames, hfree]

/-- The condition: a usable region frees, or the kernel or the bitmap reserves, every frame behind
the whole words of the bitmap. -/
def PartialWordWritten (es : List MmapEntry) (image : Image) : Prop :=
  ∀ f, mapFrames es / 32 * 32 ≤ f → f < mapFrames es →
    (∃ e ∈ es, RegionFrees e f) ∨ Reserved image (mapFrames es) f

theorem toNat_wholeWords : (highestAddr es / 4096 / 32).toNat = mapFrames es / 32 := BitVec.toNat_udiv

theorem allUsed_searched (ram : Bitmap 32) (es : List MmapEntry) :
    (allUsed ram (highestAddr es)).searched = mapFrames es / 32 * 32 := searched_eq rfl

/-- The words that are not whole keep what they held. -/
theorem test_allUsed_of_le (hf : mapFrames es / 32 * 32 ≤ f) :
    test (allUsed ram (highestAddr es)).bitmap f = test ram f := by
  have hword : (allUsed ram (highestAddr es)).bitmap (f / 32) = ram (f / 32) := by
    rw [allUsed_word, toNat_wholeWords, if_neg (by omega)]
  exact congrArg (fun x : Word => x.getLsbD (f % 32)) hword

/-- The marks and the regions hide what the bitmap held, on the condition. -/
theorem PartialWordWritten.same (hc : PartialWordWritten es image) (ram ram' : Bitmap 32) :
    SameFrames (initialized image es ram) (initialized image es ram') := by
  refine .of_bits (BitVec.toNat_inj.mp (by rw [initialized_totalFrames, initialized_totalFrames]))
    fun f hf => ?_
  rw [initialized_totalFrames] at hf
  rw [Bool.eq_iff_iff, ← Bool.not_eq_false, ← Bool.not_eq_false, not_iff_not, test_initialized hf,
    test_initialized hf]
  obtain hlt | hge := Nat.lt_or_ge f (mapFrames es / 32 * 32)
  · rw [test_allUsed (by rwa [allUsed_searched]), test_allUsed (by rwa [allUsed_searched])]
  · obtain hfrees | hres := hc f hge hf
    · simp only [hfrees, or_true]
    · simp only [hres, not_true, and_false]

/-- **Any two runs of `pmm_init` on a map agree on all its frames exactly if every frame of the
partial word is written.** -/
theorem sameFrames_iff (hmap : (multibootInfo m addr).HasMmap)
    (hes : mmapEntries m (multibootInfo m addr).mmapEnd k (multibootInfo m addr).mmapAddr = some es) :
    (∀ ram ram' p₁ p₂, pmmInit k m image ram p addr = some (0, p₁) →
      pmmInit k m image ram' p addr = some (0, p₂) →
      SameFrames p₁ p₂) ↔ PartialWordWritten es image := by
  constructor
  · intro hall f hge hf
    by_contra hno
    rw [not_or] at hno
    -- one run finds the bit clear, the other finds it set
    have hsame :=
      (hall (fun _ => 0) (fun _ => BitVec.allOnes 32) _ _ (pmmInit_eq hmap hes)
      (pmmInit_eq hmap hes)).bits f
      (by rwa [initialized_totalFrames])
    have h0 : test (initialized image es fun _ => 0).bitmap f = false := by
      rw [test_initialized hf, test_allUsed_of_le hge]
      exact ⟨.inl BitVec.getLsbD_zero, hno.2⟩
    rw [h0, eq_comm, test_initialized hf, test_allUsed_of_le hge, test, BitVec.getLsbD_allOnes,
      decide_eq_true (Nat.mod_lt f (by decide))] at hsame
    exact hsame.1.elim (fun h => Bool.noConfusion h) hno.1
  · intro hc ram ram' p₁ p₂ h₁ h₂
    rw [pmmInit_eq hmap hes] at h₁ h₂
    obtain ⟨-, rfl⟩ := Prod.mk.inj (Option.some.inj h₁)
    obtain ⟨-, rfl⟩ := Prod.mk.inj (Option.some.inj h₂)
    exact hc.same ram ram'

/-- A map of 288 frames, which are nine words. -/
theorem aligned_sameFrames : ∃ p₁ p₂,
    pmmInit 3 (bootMemory alignedMap) smallImage (fun _ => 0) allFree 0x1000 = some (0, p₁) ∧
    pmmInit 3 (bootMemory alignedMap) smallImage (fun _ => BitVec.allOnes 32) allFree 0x1000 = some (0, p₂) ∧
    SameFrames p₁ p₂ := by
  have hmap : (multibootInfo (bootMemory alignedMap) 0x1000).HasMmap := by decide +kernel
  have hes : mmapEntries (bootMemory alignedMap) (multibootInfo (bootMemory alignedMap) 0x1000).mmapEnd 3
      (multibootInfo (bootMemory alignedMap) 0x1000).mmapAddr = some alignedMap := by decide +kernel
  have htotal : mapFrames alignedMap = 288 := by decide
  refine ⟨_, _, pmmInit_eq hmap hes, pmmInit_eq hmap hes,
    (sameFrames_iff (p := allFree) hmap hes).mpr ?_ _ _ _ _
    (pmmInit_eq hmap hes) (pmmInit_eq hmap hes)⟩
  intro f hge hf
  rw [htotal] at hge hf
  omega

/-- A map of 273 frames; the last sixteen of them are in a hole and in a reserved region. -/
def raggedMap : List MmapEntry := [usable 0x100000 0x3000, ⟨20, 0x110000, 0x1000, 2⟩]

/-- On this map 14 frames are free if the bitmap's memory was clear, and none if it was not. -/
theorem not_sameFrames : ¬ ∀ k m image p addr es, (multibootInfo m addr).HasMmap →
    mmapEntries m (multibootInfo m addr).mmapEnd k (multibootInfo m addr).mmapAddr = some es →
    ∀ ram ram' p₁ p₂, pmmInit k m image ram p addr = some (0, p₁) →
      pmmInit k m image ram' p addr = some (0, p₂) →
      SameFrames p₁ p₂ := by
  intro hall
  have hrun (ram : Bitmap 32) (n : Word)
      (h : (pmmInit 3 (bootMemory raggedMap) smallImage ram allFree 0x1000).map
      (fun r => (r.1, pmmGetFreeFrames r.2)) = some (0, n)) :
      ∃ p, pmmInit 3 (bootMemory raggedMap) smallImage ram allFree 0x1000 = some (0, p) ∧
        pmmGetFreeFrames p = n := by
    obtain ⟨⟨r, p⟩, hinit, hr⟩ := Option.map_eq_some_iff.mp h
    obtain ⟨rfl, rfl⟩ := Prod.mk.inj hr
    exact ⟨p, hinit, rfl⟩
  obtain ⟨p₁, h₁, hn₁⟩ := hrun (fun _ => 0) 14 (by decide +kernel)
  obtain ⟨p₂, h₂, hn₂⟩ := hrun (fun _ => 0xFFFFFFFF) 0 (by decide +kernel)
  have hsame := hall _ _ _ _ _ raggedMap (by decide +kernel) (by decide +kernel) _ _ p₁ p₂ h₁ h₂
  have hcount := hsame.count
  rw [hn₁, hn₂] at hcount
  exact absurd hcount (by decide)

/-! ### The usable frames below 4 GiB -/

/-- Every frame below 4 GiB that lies in a usable region is one of the allocator's. -/
def UsableManaged (es : List MmapEntry) (p : Pmm) : Prop :=
  ∀ e ∈ es, e.type = 1 → ∀ f, f < 2 ^ 20 → frameBytes (frameAddr f) ⊆ regionBytes e → f < p.totalFrames.toNat

/-- The condition: no usable region starts below the last frame's end and reaches 4 GiB. -/
def EndsBelow4G (es : List MmapEntry) : Prop :=
  ∀ e ∈ es, e.type = 1 → e.addr.toNat + 4096 ≤ 2 ^ 32 → e.addr.toNat + e.len.toNat < 2 ^ 32

theorem frame_subset_region (hf : f < 2 ^ 20) : frameBytes (frameAddr f) ⊆ regionBytes e ↔
    e.addr.toNat ≤ f * 4096 ∧ f * 4096 + 4096 ≤ e.addr.toNat + e.len.toNat := by
  rw [frameBytes, toNat_frameAddr hf, regionBytes]
  exact Set.Ico_subset_Ico_iff (by omega)

/-- The body of the search keeps the greater of the two. -/
theorem toNat_raiseHighest (e : MmapEntry) (h : Word) :
    (raiseHighest e h).toNat = max ((e.addr + e.len).setWidth 32 : Word).toNat h.toNat := by
  change (if h < (e.addr + e.len).setWidth 32 then (e.addr + e.len).setWidth 32 else h : Word).toNat = _
  split_ifs with hlt <;> rw [BitVec.lt_def] at hlt <;> omega

/-- The highest address is not below the truncated end of any region. -/
theorem le_highestAddr (he : e ∈ es) :
    ((e.addr + e.len).setWidth 32 : Word).toNat ≤ (highestAddr es).toNat := by
  have hfold (h : Word) (l : List MmapEntry) :
      h.toNat ≤ (l.foldl (fun highest e => raiseHighest e highest) h).toNat ∧
      ∀ e ∈ l, ((e.addr + e.len).setWidth 32 : Word).toNat ≤
        (l.foldl (fun highest e => raiseHighest e highest) h).toNat := by
    induction l generalizing h with
    | nil => exact ⟨le_rfl, fun e he => absurd he List.not_mem_nil⟩
    | cons d l ih =>
      obtain ⟨h1, h2⟩ := ih (raiseHighest d h)
      rw [toNat_raiseHighest] at h1
      refine ⟨(le_max_right _ _).trans h1, fun e he => ?_⟩
      obtain rfl | he := List.mem_cons.mp he
      · exact (le_max_left _ _).trans h1
      · exact h2 e he
  exact (hfold 0 es).2 e he

/-- There are less than `2 ^ 20` frames, so the last one below 4 GiB is never managed. -/
theorem mapFrames_lt (es : List MmapEntry) : mapFrames es < 2 ^ 20 := by
  have := (highestAddr es).isLt
  rw [mapFrames, BitVec.toNat_udiv, show (4096 : Word).toNat = 4096 from rfl]
  omega

/-- The frames of a region that ends below 4 GiB are counted. -/
theorem lt_mapFrames (he : e ∈ es) (hend : e.addr.toNat + e.len.toNat < 2 ^ 32)
    (hf : f * 4096 + 4096 ≤ e.addr.toNat + e.len.toNat) : f < mapFrames es := by
  have hle := le_highestAddr he
  rw [BitVec.toNat_setWidth, BitVec.toNat_add, Nat.mod_eq_of_lt (a := _ + _) (by omega),
    Nat.mod_eq_of_lt hend] at hle
  rw [mapFrames, BitVec.toNat_udiv, show (4096 : Word).toNat = 4096 from rfl]
  omega

/-- **After `pmm_init`, all the usable frames below 4 GiB are managed exactly if no usable region
with a frame there reaches 4 GiB.** -/
theorem usableManaged_iff (hinit : pmmInit k m image ram p addr = some (0, p'))
    (hes : mmapEntries m (multibootInfo m addr).mmapEnd k (multibootInfo m addr).mmapAddr = some es) :
    UsableManaged es p' ↔ EndsBelow4G es := by
  obtain ⟨es', hes', htotal, -⟩ := pmmInit_spec hinit
  obtain rfl := Option.some.inj (hes'.symm.trans hes)
  constructor
  · intro hall e he ht hlo
    by_contra hhi
    -- the last frame below 4 GiB lies in the region
    have hlast := hall e he ht (2 ^ 20 - 1) (by decide) ((frame_subset_region (by decide)).mpr (by omega))
    rw [htotal] at hlast
    have := mapFrames_lt es'
    omega
  · intro hc e he ht f hf hsub
    obtain ⟨h1, h2⟩ := (frame_subset_region hf).mp hsub
    rw [htotal]
    exact lt_mapFrames he (hc e he ht (by omega)) h2

/-- A map with two regions below 4 GiB. -/
theorem aligned_usableManaged : ∃ p,
    pmmInit 3 (bootMemory alignedMap) smallImage (fun _ => 0) allFree 0x1000 = some (0, p) ∧
    UsableManaged alignedMap p := by
  have hes : mmapEntries (bootMemory alignedMap) (multibootInfo (bootMemory alignedMap) 0x1000).mmapEnd 3
      (multibootInfo (bootMemory alignedMap) 0x1000).mmapAddr = some alignedMap := by decide +kernel
  have hinit : pmmInit 3 (bootMemory alignedMap) smallImage (fun _ => 0) allFree 0x1000 =
      some (0, initialized smallImage alignedMap fun _ => 0) := pmmInit_eq (by decide +kernel) hes
  exact ⟨_, hinit, (usableManaged_iff hinit hes).mpr (by unfold EndsBelow4G; decide)⟩

/-- The memory of a machine with 4 GiB. -/
def fullMap : List MmapEntry := [usable 0x100000 0xfff00000]

/-- On this map the highest address is 0, and no frame is managed. -/
theorem not_usableManaged : ¬ ∀ k m image ram p addr p' es, pmmInit k m image ram p addr = some (0, p') →
    mmapEntries m (multibootInfo m addr).mmapEnd k (multibootInfo m addr).mmapAddr = some es →
    (∀ e ∈ es, e.addr.toNat + e.len.toNat < 2 ^ 64) → UsableManaged es p' := by
  intro hall
  have hes : mmapEntries (bootMemory fullMap) (multibootInfo (bootMemory fullMap) 0x1000).mmapEnd 2
      (multibootInfo (bootMemory fullMap) 0x1000).mmapAddr = some fullMap := by decide +kernel
  have hinit : pmmInit 2 (bootMemory fullMap) smallImage (fun _ => 0) allFree 0x1000 =
      some (0, initialized smallImage fullMap fun _ => 0) := pmmInit_eq (by decide +kernel) hes
  have hmanaged :=
    hall _ _ _ _ _ _ _ fullMap hinit hes (by decide) (usable 0x100000 0xfff00000)
    (by simp [fullMap])
    rfl 0x100 (by decide) ((frame_subset_region (by decide)).mpr (by decide))
  rw [initialized_totalFrames] at hmanaged
  exact absurd hmanaged (by decide)

end SpatulaOS.Mm
