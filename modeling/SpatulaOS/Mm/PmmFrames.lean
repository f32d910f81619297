import SpatulaOS.Lib.Runs
import SpatulaOS.Mm.Pmm

/-!
# The frames that are handed out

The frame allocator with its clients, who hold the frames that they got and free some
of them. The frames that are free are those that were free at the start and are not
held (`FrameClients.Inv`), so no frame is handed out twice, none that was reserved at
the start is handed out, and the free count goes down by one with every frame.

How many allocations succeed is another matter. The search sees the whole words of the
bitmap only, and its result is `NULL` for frame 0; the free count counts both.
-/

namespace SpatulaOS.Mm

open ByteMemory WordBitmap Runs SpatulaOS.Core

/-- The address of a frame. -/
def frameAddr (f : ℕ) : Word := BitVec.ofNat 32 (f * 4096)

/-! ### Clients -/

/-- What a client does. -/
inductive FrameOp where
  /-- `pmm_alloc_frame()` -/
  | alloc
  /-- `pmm_free_frame(frame)` -/
  | free (frame : Word)

/-- The allocator, and the addresses of the frames that are outstanding. -/
structure FrameClients where
  /-- The allocator. -/
  pmm : Pmm
  /-- The addresses that were returned and not freed. -/
  outstanding : List Word

/-- One operation. Only an outstanding frame other than `NULL` is freed. An allocation that
marks frame 0 returns `NULL`, and frame 0 is outstanding from then on. -/
def FrameClients.exec (s : FrameClients) : FrameOp → Option FrameClients
  | .alloc =>
    let r := pmmAllocFrame s.pmm
    some ⟨r.2, if r.1 ≠ 0 ∨ (test s.pmm.bitmap 0 = false ∧ test r.2.bitmap 0 = true) then
      r.1 :: s.outstanding else s.outstanding⟩
  | .free frame =>
    if frame ≠ 0 ∧ frame ∈ s.outstanding then
      some ⟨pmmFreeFrame s.pmm frame, s.outstanding.erase frame⟩
    else none

/-- The allocator with its clients, from the state `p` on. -/
def frameMachine (p : Pmm) : Machine FrameClients FrameOp where
  start s := s = ⟨p, []⟩
  step s o s' := s.exec o = some s'

/-! ### The invariant -/

variable {p : Pmm} {s s' : FrameClients} {a : Word} {f g n : ℕ}

theorem toNat_frameAddr (hf : f < 2 ^ 20) : (frameAddr f).toNat = f * 4096 := by
  rw [frameAddr, BitVec.toNat_ofNat]
  omega

theorem frameAddr_inj (hf : f < 2 ^ 20) (hg : g < 2 ^ 20) (h : frameAddr f = frameAddr g) : f = g := by
  have := congrArg BitVec.toNat h
  rw [toNat_frameAddr hf, toNat_frameAddr hg] at this
  omega

theorem frameAddr_eq_zero_iff (hf : f < 2 ^ 20) : frameAddr f = 0 ↔ f = 0 := by
  constructor
  · intro h
    exact frameAddr_inj hf (by decide) h
  · rintro rfl
    rfl

theorem frameAddr_div (hf : f < 2 ^ 20) : (frameAddr f / 4096).toNat = f := by
  rw [BitVec.toNat_udiv, toNat_frameAddr hf]
  exact Nat.mul_div_cancel f (by decide)

/-- The free frames are those that were free in `p` and are not outstanding; the outstanding
frames are distinct and were free in `p`. -/
structure FrameClients.Inv (p : Pmm) (s : FrameClients) : Prop where
  total : s.pmm.totalFrames = p.totalFrames
  /-- An outstanding frame was free at the start. -/
  frame : ∀ a ∈ s.outstanding, ∃ f ∈ p.free, a = frameAddr f
  nodup : s.outstanding.Nodup
  free : ∀ f, f ∈ s.pmm.free ↔ f ∈ p.free ∧ frameAddr f ∉ s.outstanding

theorem FrameClients.Inv.init (p : Pmm) : FrameClients.Inv p ⟨p, []⟩ :=
  ⟨rfl, fun _ h => absurd h List.not_mem_nil, List.nodup_nil, fun f => by simp⟩

/-- An allocation fails and changes nothing, or it hands out a frame that is free. -/
theorem FrameClients.alloc_cases (h : s.exec .alloc = some s') :
    (pmmAllocFrame s.pmm = (0, s.pmm) ∧ s' = s) ∨
    ∃ f ∈ s.pmm.free, f < s.pmm.searched ∧ (∀ g ∈ s.pmm.free, f ≤ g) ∧ (pmmAllocFrame s.pmm).1 = frameAddr f ∧
      s' = ⟨setFrame s.pmm (BitVec.ofNat 32 f), frameAddr f :: s.outstanding⟩ := by
  obtain rfl := Option.some.inj h
  obtain ⟨hr, -⟩ | ⟨f, hf, hlt, hmin, hr⟩ := pmmAllocFrame_spec s.pmm
  · refine .inl ⟨hr, ?_⟩
    rw [hr, if_neg]
    rintro (h | ⟨h0, h1⟩)
    · exact h rfl
    · rw [h0] at h1
      exact Bool.noConfusion h1
  · have hf20 := Pmm.lt_of_mem_free hf
    refine .inr ⟨f, hf, hlt, hmin, by rw [hr]; rfl, ?_⟩
    rw [hr, if_pos]
    · rfl
    obtain rfl | hpos := Nat.eq_zero_or_pos f
    · refine .inr ⟨(Pmm.mem_free.mp hf).2, ?_⟩
      rw [setFrame_bitmap, test_mark (by decide)]
      exact Bool.or_true _
    · exact .inl fun h => hpos.ne' ((frameAddr_eq_zero_iff hf20).mp h)

theorem FrameClients.free_cases (h : s.exec (.free a) = some s') :
    a ≠ 0 ∧ a ∈ s.outstanding ∧ s' = ⟨pmmFreeFrame s.pmm a, s.outstanding.erase a⟩ := by
  rw [exec] at h
  split_ifs at h with ha
  exact ⟨ha.1, ha.2, (Option.some.inj h).symm⟩

/-- Every step keeps the invariant. -/
theorem FrameClients.Inv.step {o : FrameOp} (hi : s.Inv p) (hs : s.exec o = some s') : s'.Inv p := by
  cases o with
  | alloc =>
    obtain ⟨-, rfl⟩ | ⟨f, hf, -, -, -, rfl⟩ := alloc_cases hs
    · exact hi
    obtain ⟨hfp, hfo⟩ := (hi.free f).mp hf
    have hf20 := Pmm.lt_of_mem_free hf
    refine ⟨hi.total, ?_, List.nodup_cons.mpr ⟨hfo, hi.nodup⟩, fun g => ?_⟩
    · intro a ha
      obtain rfl | ha := List.mem_cons.mp ha
      · exact ⟨f, hfp, rfl⟩
      · exact hi.frame a ha
    · rw [setFrame_free, BitVec.toNat_ofNat, Nat.mod_eq_of_lt (by omega), Finset.mem_erase,
        hi.free, List.mem_cons,
        not_or]
      constructor
      · rintro ⟨hne, hg, hgo⟩
        exact ⟨hg, fun h => hne (frameAddr_inj (Pmm.lt_of_mem_free hg) hf20 h), hgo⟩
      · rintro ⟨hg, hne, hgo⟩
        exact ⟨fun h => hne (by rw [h]), hg, hgo⟩
  | free a =>
    obtain ⟨-, ha, rfl⟩ := free_cases hs
    obtain ⟨f, hf, rfl⟩ := hi.frame a ha
    have hf20 := Pmm.lt_of_mem_free hf
    refine ⟨hi.total, fun b hb => hi.frame b (List.mem_of_mem_erase hb), hi.nodup.erase _, fun g => ?_⟩
    have hlt : (frameAddr f / 4096).toNat < s.pmm.totalFrames.toNat := by
      rw [frameAddr_div hf20, hi.total]
      exact (Pmm.mem_free.mp hf).1
    rw [pmmFreeFrame, clearFrame_free hlt, frameAddr_div hf20, Finset.mem_insert, hi.free,
      hi.nodup.mem_erase_iff]
    constructor
    · rintro (rfl | ⟨hg, hgo⟩)
      · exact ⟨hf, fun h => h.1 rfl⟩
      · exact ⟨hg, fun h => hgo h.2⟩
    · rintro ⟨hg, hgo⟩
      by_cases hgf : g = f
      · exact .inl hgf
      · exact .inr ⟨hg, fun h => hgo ⟨fun he => hgf (frameAddr_inj (Pmm.lt_of_mem_free hg) hf20 he), h⟩⟩

theorem FrameClients.inv (hs : Reach (frameMachine p) (fun _ _ => True) s) : s.Inv p := by
  refine hs.invariant (I := fun s => s.Inv p) ?_ ?_
  · rintro s rfl
    exact .init p
  · exact fun s o s' hi _ hst => hi.step hst

/-! ### What is handed out -/

/-- The frames that were free at the start and are outstanding, counted. -/
theorem FrameClients.Inv.card_outstanding (hi : s.Inv p) :
    (p.free.filter fun f => frameAddr f ∈ s.outstanding).card = s.outstanding.length := by
  rw [← List.toFinset_card_of_nodup hi.nodup]
  refine Finset.card_bij (fun f _ => frameAddr f) ?_ ?_ ?_
  · intro f hf
    exact List.mem_toFinset.mpr (Finset.mem_filter.mp hf).2
  · intro f hf g hg h
    exact frameAddr_inj (Pmm.lt_of_mem_free (Finset.mem_filter.mp hf).1)
      (Pmm.lt_of_mem_free (Finset.mem_filter.mp hg).1) h
  · intro a ha
    obtain ⟨f, hf, rfl⟩ := hi.frame a (List.mem_toFinset.mp ha)
    exact ⟨f, Finset.mem_filter.mpr ⟨hf, List.mem_toFinset.mp ha⟩, rfl⟩

/-- The free count is the one at the start, less the outstanding frames. -/
theorem FrameClients.Inv.card_free (hi : s.Inv p) : s.pmm.free.card + s.outstanding.length = p.free.card := by
  have hfree : s.pmm.free = p.free.filter fun f => frameAddr f ∉ s.outstanding := by
    ext f
    rw [Finset.mem_filter, hi.free]
  rw [← hi.card_outstanding, hfree, Nat.add_comm]
  exact Finset.card_filter_add_card_filter_not _

/-- **The bitmap is the one at the start together with the outstanding frames**: no frame is
handed out that is outstanding or was reserved, the outstanding frames are distinct, and the
free count goes down by one with each of them. -/
theorem frames_accounted (hs : Reach (frameMachine p) (fun _ _ => True) s) :
    (∀ f, f < p.totalFrames.toNat →
      (test s.pmm.bitmap f = true ↔ test p.bitmap f = true ∨ frameAddr f ∈ s.outstanding)) ∧
    (∀ a r, pmmAllocFrame s.pmm = (a, r) → a ≠ 0 → a ∉ s.outstanding ∧
      ∃ f, f < p.totalFrames.toNat ∧ a = frameAddr f ∧ test p.bitmap f = false) ∧
    s.outstanding.Nodup ∧ (∀ a ∈ s.outstanding, ∃ f, f < p.totalFrames.toNat ∧ a = frameAddr f) ∧
    (pmmGetFreeFrames s.pmm).toNat + s.outstanding.length = (pmmGetFreeFrames p).toNat := by
  have hi := FrameClients.inv hs
  refine ⟨fun f hf => ?_, fun a r hr ha => ?_, hi.nodup, fun a ha => ?_, ?_⟩
  · have hfree := hi.free f
    rw [Pmm.mem_free, Pmm.mem_free, hi.total] at hfree
    rw [← Bool.not_eq_false, ← Bool.not_eq_false (test p.bitmap f)]
    tauto
  · obtain ⟨h0, -⟩ | ⟨f, hf, -, -, hr'⟩ := pmmAllocFrame_spec s.pmm
    · rw [h0] at hr
      exact absurd (Prod.mk.inj hr).1.symm ha
    · obtain ⟨rfl, -⟩ := Prod.mk.inj (hr'.symm.trans hr)
      obtain ⟨hfp, hfo⟩ := (hi.free f).mp hf
      exact ⟨hfo, f, (Pmm.mem_free.mp hfp).1, rfl, (Pmm.mem_free.mp hfp).2⟩
  · obtain ⟨f, hf, rfl⟩ := hi.frame a ha
    exact ⟨f, (Pmm.mem_free.mp hf).1, rfl⟩
  · rw [toNat_pmmGetFreeFrames, toNat_pmmGetFreeFrames, hi.card_free]

theorem exists_frame_reach {α : Type*} (p : Pmm) (ops : List FrameOp) (f : FrameClients → α) (b : α)
    (h : (Runs.exec FrameClients.exec ⟨p, []⟩ ops).map f = some b) :
    ∃ s, Reach (frameMachine p) (fun _ _ => True) s ∧ f s = b := by
  obtain ⟨s, hs, rfl⟩ := Option.map_eq_some_iff.mp h
  exact ⟨s, Reach.exec (fun _ _ _ h => h) (.start rfl) hs, rfl⟩

/-- An allocator with 64 frames, all of them free. -/
def allFree : Pmm := ⟨fun _ => 0, 64, by decide⟩

/-- 64 frames, of which frame 0 is in use. -/
def lowFrame : Pmm := ⟨fun i => if i = 0 then 1 else 0, 64, allFree.total_le⟩

/-- After three allocations, the first of which marks frame 0, and a free. -/
theorem two_frames_accounted : ∃ s, Reach (frameMachine allFree) (fun _ _ => True) s ∧
    s.outstanding = [0x2000, 0] ∧ s.outstanding.Nodup ∧
    (pmmGetFreeFrames s.pmm).toNat + 2 = (pmmGetFreeFrames allFree).toNat := by
  obtain ⟨s, hs, hout⟩ :=
    exists_frame_reach allFree [.alloc, .alloc, .alloc, .free 0x1000] FrameClients.outstanding
    [0x2000, 0] (by decide +kernel)
  obtain ⟨-, -, hnd, -, hcount⟩ := frames_accounted hs
  exact ⟨s, hs, hout, hnd, by rwa [hout] at hcount⟩

/-- A free frame that the search sees is handed out in some run: the frames before it come
first. -/
theorem exists_alloc (hf : f ∈ p.free) (hlt : f < p.searched) :
    ∃ s, Reach (frameMachine p) (fun _ _ => True) s ∧ (pmmAllocFrame s.pmm).1 = frameAddr f := by
  have hrun (n : ℕ) : ∀ s, Reach (frameMachine p) (fun _ _ => True) s → f ∈ s.pmm.free →
      (s.pmm.free.filter (· < f)).card < n →
      ∃ s, Reach (frameMachine p) (fun _ _ => True) s ∧ (pmmAllocFrame s.pmm).1 = frameAddr f := by
    induction n with
    | zero => exact fun s _ _ hcard => absurd hcard (Nat.not_lt_zero _)
    | succ n ih =>
      intro s hs hfs hcard
      obtain ⟨-, hall⟩ | ⟨g, hg, -, hmin, hr⟩ := pmmAllocFrame_spec s.pmm
      · have hle := hall f hfs
        rw [Pmm.searched, (FrameClients.inv hs).total] at hle
        exact absurd hlt (Nat.not_lt_of_le hle)
      · by_cases hgf : g = f
        · exact ⟨s, hs, by rw [hr, hgf]; rfl⟩
        -- one of the frames before it is taken
        have hg' : g ∈ s.pmm.free.filter (· < f) :=
          Finset.mem_filter.mpr ⟨hg, Nat.lt_of_le_of_ne (hmin f hfs) hgf⟩
        have hfree : (pmmAllocFrame s.pmm).2.free = s.pmm.free.erase g := by
          have hg20 := Pmm.lt_of_mem_free hg
          rw [hr, setFrame_free, BitVec.toNat_ofNat, Nat.mod_eq_of_lt (by omega)]
        refine ih _ (hs.step (o := .alloc) trivial rfl) ?_ ?_
        · change f ∈ (pmmAllocFrame s.pmm).2.free
          rw [hfree]
          exact Finset.mem_erase_of_ne_of_mem (Ne.symm hgf) hfs
        · change ((pmmAllocFrame s.pmm).2.free.filter (· < f)).card < n
          rw [hfree, Finset.filter_erase, Finset.card_erase_of_mem hg']
          have := Finset.card_pos.mpr ⟨g, hg'⟩
          omega
  exact hrun _ ⟨p, []⟩ (.start rfl) hf (Nat.lt_succ_self _)

/-! ### How many frames can be allocated -/

/-- The allocator after `n` allocations. -/
def allocated (p : Pmm) : ℕ → Pmm
  | 0 => p
  | n + 1 => allocated (pmmAllocFrame p).2 n

/-- The allocator hands out what it counts: as many allocations succeed as there are frames
by its own count, the next one returns `NULL`, and `NULL` means that the count is zero. -/
structure Drains (p : Pmm) : Prop where
  hands_out : ∀ n, n < (pmmGetFreeFrames p).toNat → (pmmAllocFrame (allocated p n)).1 ≠ 0
  ends : (pmmAllocFrame (allocated p (pmmGetFreeFrames p).toNat)).1 = 0
  null_iff : (pmmAllocFrame p).1 = 0 ↔ pmmGetFreeFrames p = 0

/-- The condition: frame 0 is not free, and all the free frames lie in whole words of the bitmap. -/
def Pmm.Searchable (p : Pmm) : Prop := ∀ f ∈ p.free, 0 < f ∧ f < p.searched

theorem alloc_ne_zero (h : (pmmAllocFrame p).1 ≠ 0) :
    ∃ f ∈ p.free, 0 < f ∧ f < p.searched ∧ (pmmAllocFrame p).2.free = p.free.erase f ∧
      (pmmAllocFrame p).2.searched = p.searched := by
  obtain ⟨h0, -⟩ | ⟨f, hf, hlt, -, hr⟩ := pmmAllocFrame_spec p
  · rw [h0] at h
    exact absurd rfl h
  · have hf20 := Pmm.lt_of_mem_free hf
    rw [hr] at h ⊢
    refine ⟨f, hf, Nat.pos_of_ne_zero fun h0 => h (by rw [h0]; rfl), hlt, ?_, rfl⟩
    rw [setFrame_free, BitVec.toNat_ofNat, Nat.mod_eq_of_lt (by omega)]

/-- Every allocation that succeeds takes a frame that the search sees. -/
theorem le_card_searched (h : ∀ i, i < n → (pmmAllocFrame (allocated p i)).1 ≠ 0) :
    n ≤ (p.free.filter fun f => 0 < f ∧ f < p.searched).card := by
  induction n generalizing p with
  | zero => exact Nat.zero_le _
  | succ n ih =>
    have hne : (pmmAllocFrame p).1 ≠ 0 := h 0 (Nat.succ_pos n)
    obtain ⟨f, hf, hpos, hlt, hfree, hse⟩ := alloc_ne_zero hne
    have hn := ih (p := (pmmAllocFrame p).2) fun i hi => h (i + 1) (Nat.succ_lt_succ hi)
    rw [hfree, hse, Finset.filter_erase,
      Finset.card_erase_of_mem (Finset.mem_filter.mpr ⟨hf, hpos, hlt⟩)] at hn
    have : 0 < (p.free.filter fun f => 0 < f ∧ f < p.searched).card :=
      Finset.card_pos.mpr ⟨f, Finset.mem_filter.mpr ⟨hf, hpos, hlt⟩⟩
    omega

/-- On a searchable state an allocation fails only if no frame is free. -/
theorem Pmm.Searchable.alloc (hp : p.Searchable) : ((pmmAllocFrame p).1 = 0 ↔ p.free = ∅) ∧
    ((pmmAllocFrame p).1 ≠ 0 → (pmmAllocFrame p).2.Searchable ∧
      (pmmAllocFrame p).2.free.card + 1 = p.free.card) := by
  constructor
  · obtain ⟨h0, hall⟩ | ⟨f, hf, -, -, hr⟩ := pmmAllocFrame_spec p
    · rw [h0]
      refine ⟨fun _ => Finset.eq_empty_of_forall_notMem fun f hf => ?_, fun _ => rfl⟩
      exact absurd (hp f hf).2 (Nat.not_lt_of_le (hall f hf))
    · have hne : p.free ≠ ∅ := Finset.ne_empty_of_mem hf
      rw [hr]
      exact ⟨fun h => absurd ((frameAddr_eq_zero_iff (Pmm.lt_of_mem_free hf)).mp h) (hp f hf).1.ne',
        fun h => absurd h hne⟩
  · intro h
    obtain ⟨f, hf, -, -, hfree, hse⟩ := alloc_ne_zero h
    refine ⟨fun g hg => ?_, ?_⟩
    · rw [hfree] at hg
      rw [hse]
      exact hp g (Finset.mem_of_mem_erase hg)
    · rw [hfree, Finset.card_erase_add_one hf]

/-- On a searchable state the allocations succeed until no frame is free. -/
theorem Pmm.Searchable.allocated (hp : p.Searchable) :
    (∀ i, i < p.free.card → (pmmAllocFrame (Mm.allocated p i)).1 ≠ 0) ∧
      (pmmAllocFrame (Mm.allocated p p.free.card)).1 = 0 := by
  obtain ⟨n, hn⟩ : ∃ n, p.free.card = n := ⟨_, rfl⟩
  rw [hn]
  induction n generalizing p with
  | zero => exact ⟨fun i hi => absurd hi (Nat.not_lt_zero i), hp.alloc.1.mpr (Finset.card_eq_zero.mp hn)⟩
  | succ n ih =>
    have hne : (pmmAllocFrame p).1 ≠ 0 := by
      rw [ne_eq, hp.alloc.1, ← Finset.card_eq_zero, hn]
      exact Nat.succ_ne_zero n
    obtain ⟨hp', hcard⟩ := hp.alloc.2 hne
    obtain ⟨h1, h2⟩ := ih hp' (by omega)
    refine ⟨fun i hi => ?_, h2⟩
    cases i with
    | zero => exact hne
    | succ i => exact h1 i (Nat.lt_of_succ_lt_succ hi)

theorem pmmGetFreeFrames_eq_zero_iff : pmmGetFreeFrames p = 0 ↔ p.free = ∅ := by
  rw [← Finset.card_eq_zero, ← toNat_pmmGetFreeFrames, ← BitVec.toNat_inj]
  rfl

/-- A state hands out what it counts exactly if it is searchable. -/
theorem drains_iff_searchable : Drains p ↔ p.Searchable := by
  constructor
  · rintro ⟨hout, -, -⟩
    have hle := le_card_searched hout
    rw [toNat_pmmGetFreeFrames] at hle
    have hall := Finset.eq_of_subset_of_card_le (Finset.filter_subset _ _) hle
    intro f hf
    rw [← hall] at hf
    exact (Finset.mem_filter.mp hf).2
  · intro hp
    obtain ⟨h1, h2⟩ := hp.allocated
    rw [← toNat_pmmGetFreeFrames] at h1 h2
    exact ⟨h1, h2, hp.alloc.1.trans pmmGetFreeFrames_eq_zero_iff.symm⟩

/-- **The allocator hands out what it counts in every state after `p` exactly if no free frame of
`p` is frame 0 or lies in a partial word of the bitmap.** -/
theorem drains_iff : (∀ s, Reach (frameMachine p) (fun _ _ => True) s → Drains s.pmm) ↔ p.Searchable := by
  constructor
  · intro h
    exact drains_iff_searchable.mp (h ⟨p, []⟩ (.start rfl))
  · intro hp s hs
    have hi := FrameClients.inv hs
    refine drains_iff_searchable.mpr fun f hf => ?_
    have := hp f ((hi.free f).mp hf).1
    rwa [Pmm.searched, hi.total]

/-- An image of two frames at 1 MiB. -/
def smallImage : Image := ⟨0x100000, 0x102000, by decide, by decide⟩

/-- A map with usable memory at address 0: frame 0 is free, and it is what the first allocation
finds. -/
theorem not_drains : ¬ ∀ k m image ram p addr p', pmmInit k m image ram p addr = some (0, p') →
    ∀ s, Reach (frameMachine p') (fun _ _ => True) s → Drains s.pmm := by
  intro hall
  have hrun : (pmmInit 3 (bootMemory [usable 0 0x9f000, usable 0x100000 0x8000]) smallImage
      (fun _ => 0) allFree
      0x1000).map (fun r => (r.1, (pmmAllocFrame r.2).1, pmmGetFreeFrames r.2)) = some (0, 0, 164) := by
    decide +kernel
  obtain ⟨⟨r, p⟩, hinit, hr⟩ := Option.map_eq_some_iff.mp hrun
  obtain ⟨rfl, halloc, hfree⟩ :
      r = 0 ∧ (pmmAllocFrame p).1 = 0 ∧ pmmGetFreeFrames p = 164 := by simpa using hr
  have hd := hall _ _ _ _ _ _ p hinit ⟨p, []⟩ (.start rfl)
  have h0 := hd.null_iff.mp halloc
  rw [hfree] at h0
  exact absurd h0 (by decide)

end SpatulaOS.Mm
