import SpatulaOS.Mm.HeapClients

/-!
# `heap_validate` on a correctly used heap

The walk of `heap_validate` with two pointers finds no cycle in a list of distinct
blocks (`cycleLoop_eq`), and its other tests pass as long as all the blocks lie below
`heap_end` (`heapValidate_eq`). They do at the end of every run in which `heap_end`
is never moved back to a block that stays in the list (`validates`).
-/

namespace SpatulaOS.Mm

open ByteMemory Threaded Block Runs SpatulaOS.Video

variable {s s' : Clients} {A A' : Arena} {n p : Word} {k e : ℕ} {x y b : Block} {m : Mem} {h : Heap}
  {bs pre post : List Block}

/-! ### The loops -/

/-- No cycle is found in a list of distinct blocks: the fast pointer, at the front of `l`, is
ahead of the slow one, at the front of `d ++ l`. -/
theorem cycleLoop_eq {d l : List Block} (hl : Thread Block.addr (Link m) e (d ++ l) 0)
    (hp : (d ++ l).Pairwise Apart) (hs : InSpace (d ++ l)) (hk : l.length < k) :
    cycleLoop m k (BitVec.ofNat 32 (first Block.addr (d ++ l) 0)) (BitVec.ofNat 32 (first Block.addr l 0)) =
      some false := by
  induction k generalizing d l e with
  | zero => exact absurd hk (Nat.not_lt_zero _)
  | succ k ih =>
    obtain _ | ⟨x, _ | ⟨y, r⟩⟩ := l
    · rw [cycleLoop, if_neg (by simp)]
    · have hlx := (thread_mid.mp hl).2.1
      rw [cycleLoop, if_neg fun h => h.2 (by rw [first_cons, next_ofNat]; exact hlx.next)]
    · -- the slow pointer moves to the front of `d' ++ r`, the fast one to that of `r`
      obtain ⟨c, d', hd', hcl⟩ : ∃ c d', d' ≠ [] ∧ d ++ x :: y :: r = c :: (d' ++ r) := by
        cases d with
        | nil => exact ⟨x, [y], by simp, rfl⟩
        | cons c d => exact ⟨c, d ++ [x, y], by simp, by simp⟩
      have hlx := (thread_mid.mp hl).2.1
      have hly := (thread_mid.mp hl).2.2.1
      have hx := hs x (by simp)
      have hy := hs y (by simp)
      rw [hcl] at hl hp hs ⊢
      rw [first_cons] at hlx
      unfold stop at hx hy
      have hx0 : BitVec.ofNat 32 x.addr ≠ 0 := by rw [ne_eq, ofNat_eq_zero_iff (by omega)]; omega
      have hy0 : BitVec.ofNat 32 y.addr ≠ 0 := by rw [ne_eq, ofNat_eq_zero_iff (by omega)]; omega
      have hs' : InSpace (d' ++ r) := fun z hz => hs z (List.mem_cons_of_mem _ hz)
      have hslow : next m (BitVec.ofNat 32 c.addr) = BitVec.ofNat 32 (first Block.addr (d' ++ r) 0) := by
        rw [next_ofNat]; exact hl.1.next
      have hfast : next m (BitVec.ofNat 32 x.addr) = BitVec.ofNat 32 y.addr := by
        rw [next_ofNat]; exact hlx.next
      have hfast' : next m (BitVec.ofNat 32 y.addr) = BitVec.ofNat 32 (first Block.addr r 0) := by
        rw [next_ofNat]; exact hly.next
      have hne : BitVec.ofNat 32 (first Block.addr (d' ++ r) 0) ≠ BitVec.ofNat 32 (first Block.addr r 0) := by
        have hsr : InSpace r := fun z hz => hs' z (List.mem_append_right _ hz)
        obtain ⟨c', d₁, rfl⟩ := List.exists_cons_of_ne_nil hd'
        intro he
        have he' := ofNat_inj hs'.first_lt hsr.first_lt he
        rw [List.cons_append, first_cons] at he'
        have hr : first Block.addr r 0 = 0 ∨ ∃ z ∈ r, first Block.addr r 0 = z.addr := first_eq_or_mem
        obtain hr0 | ⟨z, hz, hzr⟩ := hr
        · exact (hs' c' (by simp)).1.ne' (he'.trans hr0)
        · have hc'z := (List.pairwise_cons.mp (List.pairwise_cons.mp hp).2).1 z (by simp [hz])
          exact hc'z.lt.ne (he'.trans hzr)
      rw [first_cons, first_cons, cycleLoop, hslow, hfast, hfast', if_pos ⟨hx0, hy0⟩]
      dsimp only
      rw [if_neg hne]
      exact ih hl.2 (List.pairwise_cons.mp hp).2 hs' (by simp at hk; omega)

/-- The tests pass on blocks that lie between the bounds of the heap. -/
theorem validateLoop_eq {t c : ℕ} (hstart : h.heapStart = BitVec.ofNat 32 t)
    (hend : h.heapEnd = BitVec.ofNat 32 e) (ht : t < 2 ^ 32) (he : e < 2 ^ 32)
    (hl : Thread Block.addr (Link h.mem) c bs 0) (hse : ∀ x ∈ bs, Sealed h.mem x) (hs : InSpace bs)
    (hb : ∀ x ∈ bs, t ≤ x.addr ∧ x.addr < e ∧ x.stop ≤ e) (hk : bs.length < k) :
    validateLoop h k (BitVec.ofNat 32 (first Block.addr bs 0)) = some (.print "Heap structure valid.\n") := by
  induction bs generalizing c k with
  | nil =>
    obtain ⟨k, rfl⟩ := Nat.exists_eq_add_of_lt hk
    rfl
  | cons x bs ih =>
    obtain ⟨k, rfl⟩ : ∃ j, k = j + 1 := ⟨k - 1, by omega⟩
    obtain ⟨hb1, hb2, hb3⟩ := hb x List.mem_cons_self
    obtain ⟨hx0, hx1⟩ := hs x List.mem_cons_self
    have hs' : InSpace bs := fun z hz => hs z (List.mem_cons_of_mem _ hz)
    have hsx := hse x List.mem_cons_self
    unfold stop at hx1
    have hne : BitVec.ofNat 32 x.addr ≠ 0 := by rw [ne_eq, ofNat_eq_zero_iff (by omega)]; omega
    have hmagic : magic h.mem (BitVec.ofNat 32 x.addr) = HEAP_MAGIC := hsx.magic
    have hnext : next h.mem (BitVec.ofNat 32 x.addr) = BitVec.ofNat 32 (first Block.addr bs 0) := by
      rw [next_ofNat]; exact hl.1.next
    have hback : ¬ (BitVec.ofNat 32 (first Block.addr bs 0) ≠ 0 ∧
        prev h.mem (BitVec.ofNat 32 (first Block.addr bs 0)) ≠ BitVec.ofNat 32 x.addr) := by
      rintro ⟨h1, h2⟩
      cases bs with
      | nil => exact h1 rfl
      | cons y r => exact h2 (by rw [first_cons, prev_ofNat]; exact hl.2.1.prev)
    have hrange : ¬ (BitVec.ofNat 32 x.addr < h.heapStart ∨ BitVec.ofNat 32 x.addr ≥ h.heapEnd) := by
      rw [hstart, hend, ge_iff_le, BitVec.le_def, BitVec.lt_def, toNat_ofNat_of_lt ht, toNat_ofNat_of_lt he,
        toNat_ofNat_of_lt (by omega)]
      omega
    have hbound :
        ¬ BitVec.ofNat 32 x.addr + SIZEOF_HEADER + size h.mem
        (BitVec.ofNat 32 x.addr) > h.heapEnd := by
      have hstop :
          BitVec.ofNat 32 x.addr + SIZEOF_HEADER + BitVec.ofNat 32 x.size =
          BitVec.ofNat 32 x.stop := by
        unfold SIZEOF_HEADER stop; bv_omega
      rw [size_ofNat, hsx.size, hstop, hend, gt_iff_lt, BitVec.lt_def, toNat_ofNat_of_lt he,
        toNat_ofNat_of_lt (by unfold stop; omega)]
      omega
    rw [first_cons, validateLoop, if_neg hne, if_neg (by rw [hmagic]; simp), hnext, if_neg hback,
      if_neg hrange, if_neg hbound]
    exact ih hl.2 (fun z hz => hse z (List.mem_cons_of_mem _ hz)) hs'
      (fun z hz => hb z (List.mem_cons_of_mem _ hz)) (by simpa using hk)

/-- `heap_validate` on a well-formed arena all of whose blocks lie below the break. -/
theorem heapValidate_eq (hm : Models heapLo h A) (hA : A.Ok) (hall : ∀ x ∈ A.blocks, x.addr < A.brk)
    (hk : A.blocks.length < k) : heapValidate k h = some (.print "Heap structure valid.\n") := by
  have hb := heap_bounds
  have hcycle := cycleLoop_eq (d := []) hm.rep.holds.links hA.apart hA.inSpace hk
  rw [List.nil_append, ← hm.rep.head] at hcycle
  rw [heapValidate, hcycle]
  dsimp only
  rw [hm.rep.head]
  exact validateLoop_eq hm.heapStart hm.heapEnd (by omega) hA.brk_lt_space hm.rep.holds.links
    hm.rep.holds.sealed hA.inSpace
    (fun x hx => ⟨(hA.block x hx).lo, hall x hx, hA.below hx (hall x hx)⟩) hk

/-! ### Runs that never move `heap_end` back to a block of the list -/

/-- All the blocks lie below the break. -/
def Arena.AllBelow (A : Arena) : Prop := ∀ x ∈ A.blocks, x.addr < A.brk

/-- A request does not wrap round; no merge goes wrong; and the last block is not freed unless
it is the only one, or the only other one is free. -/
def Arena.AllowsValid (A : Arena) : Op → Prop
  | .malloc n => 0 < (align n).toNat → A.NoWrap (align n).toNat
  | .free p => ∀ pre b post, A.blocks = pre ++ b :: post → p = BitVec.ofNat 32 b.payload →
      CoalesceFits heapLo A.brk pre b post ∧ (post = [] → pre = [] ∨ ∃ y, pre = [y] ∧ y.free = true)
  | .write _ _ => True

theorem Arena.AllBelow.allows {o : Op} (hall : A.AllBelow) (ho : A.AllowsValid o) : A.Allows o := by
  cases o with
  | malloc n => exact fun h => ⟨fun _ _ => hall, ho h⟩
  | free p => exact fun pre b post hbs hp _ => (ho pre b post hbs hp).1
  | write a v => trivial

theorem Arena.AllBelow.malloc {n : ℕ} (hall : A.AllBelow) (hA : A.Ok) (h : A.Malloc n x A') :
    A'.AllBelow := by
  intro y hy
  cases h with
  | first => rw [List.mem_singleton.mp hy]; dsimp only; omega
  | @reuse pre z post brk hpre hz =>
    have hzb := hall z (by simp)
    have hzs := hA.below (x := z) (by simp) hzb
    unfold stop at hzs
    dsimp only at hzb hzs ⊢
    simp only [List.mem_append, List.mem_cons] at hy
    obtain hy | rfl | hy | hy := hy
    · exact hall y (by simp [hy])
    · rw [carved_addr]; exact hzb
    · unfold remainder at hy
      split at hy
      · rw [List.mem_singleton.mp hy]; dsimp only; omega
      · exact absurd hy List.not_mem_nil
    · exact hall y (by simp [hy])
  | append =>
    dsimp only
    obtain hy | hy := List.mem_append.mp hy
    · have := hall y hy; dsimp only at this; omega
    · rw [List.mem_singleton.mp hy]; dsimp only; omega

/-- A free that does not leave a free last block behind others does not move the break. -/
theorem Arena.AllBelow.free (hall : A.AllBelow) (hA : A.Ok) (hbs : A.blocks = pre ++ b :: post)
    (hlast : post = [] → pre = [] ∨ ∃ y, pre = [y] ∧ y.free = true) : (A.free pre b post).AllBelow := by
  obtain ⟨pre', x, post', hparts⟩ := exists_mergeParts heapLo A.brk pre b post
  unfold Arena.free
  rw [coalesced_of_parts hparts]
  obtain ⟨l, r, rfl, rfl, hxf, -, hl, hr⟩ := mergeParts_spec hparts
  have hblt := hall b (by simp [hbs])
  have hcoal : ∀ z ∈ pre' ++ x :: post', z.addr < A.brk := by
    intro z hz
    simp only [List.mem_append, List.mem_cons] at hz
    obtain hz | rfl | hz := hz
    · exact hall z (by simp [hbs, hz])
    · obtain ⟨-, hxa, -⟩ | ⟨p, -, hp, hxa⟩ := hl
      · omega
      · have := hp.2.2; omega
    · exact hall z (by simp [hbs, hz])
  obtain rfl | ⟨post₁, w, rfl⟩ := List.eq_nil_or_concat post'
  · -- the merged block is the last one, so it is the only one
    have hr0 : r = [] := by
      obtain ⟨hr0, -⟩ | ⟨y, rfl, hy⟩ := hr
      · exact hr0
      · have := (hA.top (pre' ++ l ++ [b]) y (by simp [hbs]) hy.2.2).1
        rw [hy.1] at this
        exact absurd this (by simp)
    have hpre' : pre' = [] := by
      obtain h0 | ⟨y, hy, hyf⟩ := hlast (by simp [hr0])
      · exact (List.append_eq_nil_iff.mp h0).1
      · obtain ⟨rfl, -, hno⟩ | ⟨p, rfl, -⟩ := hl
        · have hyA : y ∈ A.blocks := by rw [hbs, hy]; simp
          exact absurd ⟨hyf, (hA.block y hyA).lo, hall y hyA⟩ (hno [] y hy)
        · exact (List.append_eq_cons_iff.mp hy).elim (·.1) fun ⟨t, _, ht⟩ => by simp at ht
    intro z hz
    rw [hpre'] at hz
    simp [Arena.settled, hxf] at hz
  · -- the last block is as before, in use
    rw [List.concat_eq_append] at *
    have hw := (hA.top (pre' ++ l ++ b :: (r ++ post₁)) w (by simp [hbs]) (hall w (by simp [hbs]))).1
    have hset : Arena.settled heapLo ⟨pre' ++ x :: (post₁ ++ [w]), A.brk⟩ =
        ⟨pre' ++ x :: (post₁ ++ [w]), A.brk⟩ := by
      unfold Arena.settled
      dsimp only
      rw [show pre' ++ x :: (post₁ ++ [w]) = (pre' ++ x :: post₁) ++ [w] by simp,
        List.getLast?_append_of_ne_nil _ (by simp), List.getLast?_singleton]
      dsimp only
      rw [if_neg (by rw [hw]; simp)]
    rw [hset]
    exact hcoal

/-- Every step that the guard admits keeps all the blocks below the break. -/
theorem Clients.Inv.step_valid {o : Op} (hi : s.Inv A) (hall : A.AllBelow) (ho : A.AllowsValid o)
    (hs : s.exec k o = some s') : ∃ A', s'.Inv A' ∧ A'.AllBelow := by
  have hallow := hall.allows ho
  cases o with
  | malloc n =>
    obtain rfl | ⟨x, A', -, hout, -, hi'⟩ := hi.malloc hallow hs
    · exact ⟨A, hi, hall⟩
    · exact ⟨A', hi', hall.malloc hi.ok hout.malloc⟩
  | free p =>
    obtain ⟨pre, b, post, h, out, hbs, hbf, hpb, hk, rfl⟩ := hi.exec_free hs
    obtain ⟨-, -, -, h', -, hk', hi', -⟩ := hi.free_below hallow hbs hbf hpb (hall b (by simp [hbs]))
    obtain ⟨rfl, -⟩ := Prod.mk.inj (kfree_unique hk (hk' _ (Nat.lt_succ_self _)))
    exact ⟨_, hi', hall.free hi.ok hbs (ho pre b post hbs hpb).2⟩
  | write a v => exact ⟨A, (hi.write hs).2, hall⟩

/-- **No false alarm**: at the end of a run that never moves `heap_end` back to a block of the
list, `heap_validate` ends and reports a valid heap. -/
theorem validates (h : Reach machine (Clients.Guarded Arena.AllowsValid) s) :
    ∃ k₀, ∀ k, k₀ ≤ k → heapValidate k s.heap = some (.print "Heap structure valid.\n") := by
  obtain ⟨A, hi, hall⟩ : ∃ A, s.Inv A ∧ A.AllBelow := by
    refine h.invariant (I := fun s => ∃ A, s.Inv A ∧ A.AllBelow) ?_ ?_
    · rintro s ⟨m, rfl⟩
      exact ⟨Arena.init, inv_start m, fun _ hx => absurd hx List.not_mem_nil⟩
    · rintro s o s' ⟨A, hi, hall⟩ ho ⟨k, hs⟩
      exact hi.step_valid hall (ho A hi.isArena) hs
  exact ⟨A.blocks.length + 1, fun k hk => heapValidate_eq hi.models hi.ok hall hk⟩

/-- The blocks before the last one, when it may be freed. -/
theorem onlyFree_iff : (∃ y : Block, pre = [y] ∧ y.free = true) ↔ pre.length = 1 ∧
    ∀ y ∈ pre, y.free = true := by
  constructor
  · rintro ⟨y, rfl, hy⟩
    exact ⟨rfl, List.forall_mem_singleton.mpr hy⟩
  · rintro ⟨hlen, hall⟩
    obtain ⟨y, rfl⟩ := List.length_eq_one_iff.mp hlen
    exact ⟨y, rfl, hall y (List.mem_singleton_self y)⟩

instance instDecidableOnlyFree (pre : List Block) : Decidable (∃ y : Block, pre = [y] ∧ y.free = true) :=
  decidable_of_iff _ onlyFree_iff.symm

instance instDecidableAllowsValid (A : Arena) (o : Op) : Decidable (A.AllowsValid o) := by
  cases o with
  | malloc n => exact inferInstanceAs (Decidable (0 < (align n).toNat → A.NoWrap (align n).toNat))
  | free p =>
    exact instDecidableSplits A.blocks fun pre b post => p = BitVec.ofNat 32 b.payload →
      CoalesceFits heapLo A.brk pre b post ∧ (post = [] → pre = [] ∨ ∃ y, pre = [y] ∧ y.free = true)
  | write a v => exact .isTrue trivial

theorem merge_validates : ∃ s : Clients, s.live = [(0x400014, 32), (0x400050, 8)] ∧
    ∃ k₀, ∀ k, k₀ ≤ k → heapValidate k s.heap = some (.print "Heap structure valid.\n") := by
  obtain ⟨s, hs, hlive, -⟩ := exists_merge_run (P := Arena.AllowsValid) (fun _ _ h => h) (by decide +kernel)
  exact ⟨s, hlive, validates hs⟩

/-- The freed last block stays in the list, at the `heap_end` that was moved back to it. -/
theorem not_validates : ¬ ∀ s, Reach machine (fun _ _ => True) s →
    ∃ k₀, ∀ k, k₀ ≤ k → heapValidate k s.heap = some (.print "Heap structure valid.\n") := by
  intro h
  obtain ⟨s, hs, hout⟩ := exists_reach (k := 8) (fun _ => 0) [.malloc 8, .malloc 8, .free 0x400030]
    (fun s => heapValidate 8 s.heap) (some (.print "Block outside heap range!\n")) (by decide +kernel)
  obtain ⟨k₀, hv⟩ := h s hs
  have hmax := hv (max k₀ 8) (le_max_left _ _)
  rw [heapValidate_mono hout (le_max_right k₀ 8)] at hmax
  exact absurd hmax (by simp)

end SpatulaOS.Mm
