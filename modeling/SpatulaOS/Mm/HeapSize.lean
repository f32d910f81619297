import SpatulaOS.Mm.HeapNull

/-!
# The size of a block that `kmalloc` returns

What `kmalloc` does on any heap, with whatever the memory holds: it has no block for the request
(`GivesUp`), or it returns one. The size in the header of the block is at least what was
requested, unless the block is appended and the link to it is written over its own header
(`KmallocResult.large_iff`).
-/

namespace SpatulaOS.Mm

open ByteMemory

variable {h : Heap} {m : Mem} {n w b c : Word} {r : Word × Heap} {k N : ℕ}

/-- The search for `n` bytes ends, if there is one. -/
def SearchEnds (h : Heap) (n : Word) : Prop := h.heapHead = 0 ∨ ∃ b, EndsAt h n b

/-- The first block for `n` bytes is made. -/
def FitsFirst (h : Heap) (n : Word) : Prop :=
  h.heapEnd + SIZEOF_HEADER + n < KERNEL_HEAP_END ∧ h.heapEnd + SIZEOF_HEADER ≠ 0

/-- A block for `n` bytes is appended. -/
def FitsAppend (h : Heap) (n : Word) : Prop :=
  h.heapEnd ≤ h.heapEnd + SIZEOF_HEADER + n + SIZEOF_WORD ∧
    h.heapEnd + SIZEOF_HEADER + n + SIZEOF_WORD < KERNEL_HEAP_END ∧ h.heapEnd + SIZEOF_HEADER ≠ 0

/-- `kmalloc` has no block for `n` bytes: the request is refused before the search; or it would be
the first one and does not fit; or the block that serves it is at the very end of the address space;
or no block serves it and none is appended. -/
def GivesUp (h : Heap) (n : Word) : Prop :=
  Refused h n ∨ h.heapHead = 0 ∧ ¬ FitsFirst h n ∨
    ∃ b, EndsAt h n b ∧ if ServesAt h.mem n b then b + SIZEOF_HEADER = 0 else ¬ FitsAppend h n

/-- What the link to a new block, written to the last block, leaves of the size in the new header. -/
def linkedSize (h : Heap) (last n : Word) : Word :=
  size (setNext (setSize h.mem h.heapEnd n) last h.heapEnd) h.heapEnd

/-- The link leaves a size of `N` or more. -/
def LinkSpares (h : Heap) (n : Word) (N : ℕ) : Prop :=
  ∀ b, EndsAt h n b → ¬ ServesAt h.mem n b → N ≤ (linkedSize h b n).toNat

/-! ### The size in the header -/

@[simp] theorem size_setSize (m : Mem) (b v : Word) : size (setSize m b v) b = v := Mem.load_store_self _ _ _

@[simp] theorem size_setFree (m : Mem) (b v : Word) : size (setFree m b v) b = size m b :=
  Mem.load_store_of_far _ _ (by bv_omega) (by bv_omega)

@[simp] theorem size_setNext (m : Mem) (b v : Word) : size (setNext m b v) b = size m b :=
  Mem.load_store_of_far _ _ (by bv_omega) (by bv_omega)

@[simp] theorem size_setPrev (m : Mem) (b v : Word) : size (setPrev m b v) b = size m b :=
  Mem.load_store_of_far _ _ (by bv_omega) (by bv_omega)

theorem size_store_tail (hn : n ≤ 0x80000000) (m : Mem) (b v : Word) :
    size (m.store (tail b n) v) b = size m b := by
  unfold tail SIZEOF_HEADER
  exact Mem.load_store_of_far _ _ (by bv_omega) (by bv_omega)

theorem kmallocFirst_fst (hfits : FitsFirst h n) : (kmallocFirst h n).1 = h.heapEnd + SIZEOF_HEADER := by
  rw [kmallocFirst]
  dsimp only
  rw [if_neg (BitVec.not_le.mpr hfits.1)]

theorem kmallocFirst_null (hfits : ¬ FitsFirst h n) : (kmallocFirst h n).1 = 0 := by
  rw [kmallocFirst]
  dsimp only
  split_ifs with hend
  · rfl
  · by_contra hne
    exact hfits ⟨BitVec.not_le.mp hend, hne⟩

theorem size_kmallocFirst (hn : n ≤ 0x80000000) (hfits : FitsFirst h n) :
    size (kmallocFirst h n).2.mem h.heapEnd = n := by
  rw [kmallocFirst]
  dsimp only
  rw [if_neg (BitVec.not_le.mpr hfits.1), size_store_tail hn]
  simp

/-- A block that is taken keeps its size, or is split. -/
theorem le_size_take (hn : n ≤ 0x80000000) (hb : n ≤ size m b) : n ≤ size (take m b n) b := by
  rw [take, size_setFree]
  split_ifs
  · rw [split, size_store_tail hn]
    simp
  · exact hb

theorem append_fst_of_fits (hfits : FitsAppend h n) (c : Word) :
    (append h c n).1 = h.heapEnd + SIZEOF_HEADER := by
  rw [append]
  dsimp only
  rw [if_neg (BitVec.not_lt.mpr hfits.1), if_neg (BitVec.not_le.mpr hfits.2.1)]

theorem append_null_of_not_fits (hfits : ¬ FitsAppend h n) (c : Word) : (append h c n).1 = 0 := by
  rw [append]
  dsimp only
  split_ifs with hlt hend
  · rfl
  · rfl
  · by_contra hne
    exact hfits ⟨BitVec.not_lt.mp hlt, BitVec.not_le.mp hend, hne⟩

/-- The other fields of the header and the guard word leave the size alone. -/
theorem size_append (hn : n ≤ 0x80000000) (hfits : FitsAppend h n) (c : Word) :
    size (append h c n).2.mem h.heapEnd = linkedSize h c n := by
  rw [append]
  dsimp only
  rw [if_neg (BitVec.not_lt.mpr hfits.1), if_neg (BitVec.not_le.mpr hfits.2.1)]
  refine Mem.load_store_congr ?_ _ _
  have hsize :
      size (setPrev
      (setNext (setFree (setSize (setMagic h.mem h.heapEnd HEAP_MAGIC) h.heapEnd n) h.heapEnd 0)
      h.heapEnd 0) h.heapEnd c) h.heapEnd = n := by simp
  have hself : (setSize h.mem h.heapEnd n).load (h.heapEnd + 4) = n := size_setSize _ _ _
  rw [hsize, hself]
  exact (size_store_tail hn _ _ _).trans hsize

/-- When the block is large enough for `N` bytes, if `N` is the request modulo `2 ^ 32`. -/
theorem KmallocResult.large_iff (hn : n ≤ 0x80000000) (hN : N % 2 ^ 32 ≤ n.toNat) (hr : KmallocResult h n r) :
    r.1 = 0 ∨ N ≤ (size r.2.mem (r.1 - SIZEOF_HEADER)).toNat ↔ GivesUp h n ∨ N < 2 ^ 32 ∧
      LinkSpares h n N := by
  have hlt : ∀ x : Word, N ≤ x.toNat → N < 2 ^ 32 := fun x hx => hx.trans_lt x.isLt
  have hle : ∀ x : Word, n ≤ x → N < 2 ^ 32 → N ≤ x.toNat := fun x hx h => by
    rw [Nat.mod_eq_of_lt h] at hN
    exact hN.trans hx
  cases hr with
  | refused hr => exact iff_of_true (.inl rfl) (.inl (.inl hr))
  | first hr hh =>
    have hno : ∀ b, ¬ EndsAt h n b := fun b hb => hb.1.listed.head_ne_zero hh
    by_cases hfits : FitsFirst h n
    · rw [kmallocFirst_fst hfits, BitVec.add_sub_cancel, size_kmallocFirst hn hfits]
      constructor
      · exact fun h => .inr ⟨hlt n (h.resolve_left hfits.2), fun b hb => absurd hb (hno b)⟩
      · rintro ((hr' | ⟨-, hf⟩ | ⟨b, hb, -⟩) | ⟨hN', -⟩)
        · exact absurd hr' hr
        · exact absurd hfits hf
        · exact absurd hb (hno b)
        · exact .inr (hle n (BitVec.le_refl n) hN')
    · exact iff_of_true (.inl (kmallocFirst_null hfits)) (.inl (.inr (.inl ⟨hh, hfits⟩)))
  | @fit b hr hb hserves =>
    by_cases hnull : b + SIZEOF_HEADER = 0
    · refine iff_of_true (.inl hnull) (.inl (.inr (.inr ⟨b, hb, ?_⟩)))
      rwa [if_pos hserves]
    · dsimp only
      rw [BitVec.add_sub_cancel]
      constructor
      · refine fun h => .inr ⟨hlt _ (h.resolve_left hnull), fun c hc hno => ?_⟩
        exact absurd (hb.unique hc ▸ hserves) hno
      · rintro ((hr' | ⟨hh, -⟩ | ⟨c, hc, hif⟩) | ⟨hN', -⟩)
        · exact absurd hr' hr
        · exact absurd hh hb.1.listed.head_ne_zero
        · rw [← hb.unique hc, if_pos hserves] at hif
          exact .inl hif
        · exact .inr (hle _ (le_size_take hn hserves.2) hN')
  | @last b hr hb hno =>
    by_cases hfits : FitsAppend h n
    · rw [append_fst_of_fits hfits, BitVec.add_sub_cancel, size_append hn hfits]
      constructor
      · intro h
        have hsize := h.resolve_left hfits.2.2
        exact .inr ⟨hlt _ hsize, fun c hc _ => hb.unique hc ▸ hsize⟩
      · rintro ((hr' | ⟨hh, -⟩ | ⟨c, hc, hif⟩) | ⟨-, hspares⟩)
        · exact absurd hr' hr
        · exact absurd hh hb.1.listed.head_ne_zero
        · rw [← hb.unique hc, if_neg hno] at hif
          exact absurd hfits hif
        · exact .inr (hspares b hb hno)
    · refine iff_of_true (.inl (append_null_of_not_fits hfits b)) (.inl (.inr (.inr ⟨b, hb, ?_⟩)))
      rwa [if_neg hno]

/-- `kmalloc` does something if the request is refused or the search ends. -/
theorem exists_kmallocResult (h : Heap) (n : Word) :
    (∃ r, KmallocResult h n r) ↔ Refused h n ∨ SearchEnds h n := by
  constructor
  · rintro ⟨r, hr⟩
    cases hr with
    | refused hr => exact .inl hr
    | first _ hh => exact .inr (.inl hh)
    | fit _ hb _ => exact .inr (.inr ⟨_, hb⟩)
    | last _ hb _ => exact .inr (.inr ⟨_, hb⟩)
  · intro hends
    by_cases hr : Refused h n
    · exact ⟨_, .refused hr⟩
    obtain hh | ⟨b, hb⟩ := hends.resolve_left hr
    · exact ⟨_, .first hr hh⟩
    · by_cases hserves : ServesAt h.mem n b
      · exact ⟨_, .fit hr hb hserves⟩
      · exact ⟨_, .last hr hb hserves⟩

/-- When `kmalloc` returns, and what it returns is large enough for `N` bytes. -/
theorem exists_large_iff (hn : n ≤ 0x80000000) (hN : N % 2 ^ 32 ≤ n.toNat) :
    (∃ r, KmallocResult h n r ∧ (r.1 = 0 ∨ N ≤ (size r.2.mem (r.1 - SIZEOF_HEADER)).toNat)) ↔
      GivesUp h n ∨ N < 2 ^ 32 ∧ SearchEnds h n ∧ LinkSpares h n N := by
  constructor
  · rintro ⟨r, hr, hlarge⟩
    obtain hgives | ⟨hlt, hspares⟩ := (hr.large_iff hn hN).mp hlarge
    · exact .inl hgives
    · exact ((exists_kmallocResult h n).mp ⟨r, hr⟩).imp .inl fun hends => ⟨hlt, hends, hspares⟩
  · intro hcond
    have hreturns : Refused h n ∨ SearchEnds h n := by
      obtain (hr | ⟨hh, -⟩ | ⟨b, hb, -⟩) | ⟨-, hends, -⟩ := hcond
      · exact .inl hr
      · exact .inr (.inl hh)
      · exact .inr (.inr ⟨b, hb⟩)
      · exact .inr hends
    obtain ⟨r, hr⟩ := (exists_kmallocResult h n).mpr hreturns
    exact ⟨r, hr, (hr.large_iff hn hN).mpr (hcond.imp_right fun h => ⟨h.1, h.2.2⟩)⟩

/-! ### A well-formed heap -/

variable {A : Arena}

theorem Models.linkSpares (hm : Models heapLo h A) (hA : A.Ok) (hN : N ≤ n.toNat) : LinkSpares h n N := by
  intro b hb _
  obtain ⟨pre, x, post, hbs, rfl⟩ := hb.1.listed.exists_block hm.rep
  have hx : x ∈ A.blocks := hbs ▸ List.mem_append_right _ List.mem_cons_self
  have hlt : x.addr + 32 ≤ 2 ^ 32 := by
    have hspace := (hA.inSpace x hx).2
    have hsize := (hA.block x hx).size_ge
    unfold Block.stop at hspace
    omega
  have hend : h.heapEnd.toNat = A.brk := by
    rw [hm.heapEnd, toNat_ofNat_of_lt hA.brk_lt_space]
  have haddr : (BitVec.ofNat 32 x.addr).toNat = x.addr := toNat_ofNat_of_lt (by omega)
  have hapart : x.addr + 28 ≤ A.brk ∨ A.brk ≤ x.addr := by
    obtain hbelow | habove := Nat.lt_or_ge x.addr A.brk
    · have hstop := hA.below hx hbelow
      have hsize := (hA.block x hx).size_ge
      unfold Block.stop at hstop
      omega
    · exact .inr habove
  have hsize : linkedSize h (BitVec.ofNat 32 x.addr) n = n := by
    have hbrk := hA.brk_lt
    have hbounds := heap_bounds
    unfold linkedSize
    refine Eq.trans (Mem.load_store_of_far _ _ ?_ ?_) (size_setSize _ _ _)
    · bv_omega
    · bv_omega
  rwa [hsize]

theorem Models.searchEnds {w : Word} (hm : Models heapLo h A) (hA : A.Ok) (h0 : w ≠ 0) (h1 : ¬ align w < w) :
    Refused h (align w) ∨ SearchEnds h (align w) := by
  obtain ⟨r, hr⟩ := Option.isSome_iff_exists.mp (kmalloc_isSome hm hA w (Nat.lt_succ_self _))
  exact (exists_kmallocResult h (align w)).mp ⟨r, kmalloc_result h0 h1 hr⟩

end SpatulaOS.Mm
