import Mathlib.Data.List.Induction
import SpatulaOS.Lib.Threaded
import SpatulaOS.Mm.Arena
import SpatulaOS.Mm.Heap

/-!
# The blocks in memory

How the memory of the allocator holds a sequence of blocks: the headers form a
doubly linked list (`Link`) and every block has its magic word, its size, its
free flag and its guard word (`Sealed`). Each update that `kmalloc` and `kfree`
make is then a replacement of a few neighbouring blocks in the sequence
(`Holds.splice`), as long as the bytes it changes stay between the headers of
the blocks around them.
-/

namespace SpatulaOS.Mm

open ByteMemory Threaded Block

/-! ### Fields at numeric addresses -/

section Fields

variable (m : Mem) (a n : ℕ) (v : Word)

@[simp] theorem magic_ofNat : magic m (BitVec.ofNat 32 a) = m.load (BitVec.ofNat 32 a) := rfl

@[simp] theorem size_ofNat : size m (BitVec.ofNat 32 a) = m.load (BitVec.ofNat 32 (a + 4)) := by
  rw [size, BitVec.ofNat_add]; rfl

@[simp] theorem free_ofNat : free m (BitVec.ofNat 32 a) = m.load (BitVec.ofNat 32 (a + 8)) := by
  rw [free, BitVec.ofNat_add]; rfl

@[simp] theorem next_ofNat : next m (BitVec.ofNat 32 a) = m.load (BitVec.ofNat 32 (a + 12)) := by
  rw [next, BitVec.ofNat_add]; rfl

@[simp] theorem prev_ofNat : prev m (BitVec.ofNat 32 a) = m.load (BitVec.ofNat 32 (a + 16)) := by
  rw [prev, BitVec.ofNat_add]; rfl

@[simp] theorem setMagic_ofNat : setMagic m (BitVec.ofNat 32 a) v = m.store (BitVec.ofNat 32 a) v := rfl

@[simp] theorem setSize_ofNat :
    setSize m (BitVec.ofNat 32 a) v = m.store (BitVec.ofNat 32 (a + 4)) v := by
  rw [setSize, BitVec.ofNat_add]; rfl

@[simp] theorem setFree_ofNat :
    setFree m (BitVec.ofNat 32 a) v = m.store (BitVec.ofNat 32 (a + 8)) v := by
  rw [setFree, BitVec.ofNat_add]; rfl

@[simp] theorem setNext_ofNat :
    setNext m (BitVec.ofNat 32 a) v = m.store (BitVec.ofNat 32 (a + 12)) v := by
  rw [setNext, BitVec.ofNat_add]; rfl

@[simp] theorem setPrev_ofNat :
    setPrev m (BitVec.ofNat 32 a) v = m.store (BitVec.ofNat 32 (a + 16)) v := by
  rw [setPrev, BitVec.ofNat_add]; rfl

@[simp] theorem tail_ofNat :
    tail (BitVec.ofNat 32 a) (BitVec.ofNat 32 n) = BitVec.ofNat 32 (a + 20 + n) := by
  rw [tail, BitVec.ofNat_add, BitVec.ofNat_add]; rfl

end Fields

theorem ofNat_eq_zero_iff {n : ℕ} (hn : n < 2 ^ 32) : BitVec.ofNat 32 n = 0 ↔ n = 0 := by
  constructor
  · intro h; bv_omega
  · rintro rfl; rfl

theorem ofNat_inj {a b : ℕ} (ha : a < 2 ^ 32) (hb : b < 2 ^ 32)
    (h : BitVec.ofNat 32 a = BitVec.ofNat 32 b) : a = b := by bv_omega

theorem toNat_ofNat_of_lt {n : ℕ} (hn : n < 2 ^ 32) : (BitVec.ofNat 32 n).toNat = n := by
  rw [BitVec.toNat_ofNat]; exact Nat.mod_eq_of_lt hn

/-! ### A sequence of blocks in memory -/

/-- The link words of the block `x`, between `p` and `n`. -/
structure Link (m : Mem) (p : ℕ) (x : Block) (n : ℕ) : Prop where
  next : m.load (BitVec.ofNat 32 (x.addr + 12)) = BitVec.ofNat 32 n
  prev : m.load (BitVec.ofNat 32 (x.addr + 16)) = BitVec.ofNat 32 p

/-- The other words of the block `x`. -/
structure Sealed (m : Mem) (x : Block) : Prop where
  magic : m.load (BitVec.ofNat 32 x.addr) = HEAP_MAGIC
  size : m.load (BitVec.ofNat 32 (x.addr + 4)) = BitVec.ofNat 32 x.size
  free : m.load (BitVec.ofNat 32 (x.addr + 8)) ≠ 0 ↔ x.free = true
  guard : m.load (BitVec.ofNat 32 x.stop) = HEAP_MAGIC

/-- The memory holds the blocks `bs`. -/
structure Holds (m : Mem) (bs : List Block) : Prop where
  /-- They form a doubly linked list. -/
  links : Thread Block.addr (Link m) 0 bs 0
  /-- Their other words are intact. -/
  sealed : ∀ x ∈ bs, Sealed m x

/-- The blocks lie in the address space, with their guard words, and none is at `NULL`. -/
def InSpace (bs : List Block) : Prop := ∀ x ∈ bs, 0 < x.addr ∧ x.stop + 4 ≤ 2 ^ 32

/-- The allocator's state holds the blocks `bs`: they are the list from `heap_head`. -/
structure Rep (h : Heap) (bs : List Block) : Prop where
  head : h.heapHead = BitVec.ofNat 32 (first Block.addr bs 0)
  holds : Holds h.mem bs

instance (m : Mem) (p : ℕ) (x : Block) (n : ℕ) : Decidable (Link m p x n) :=
  decidable_of_iff (_ ∧ _) ⟨fun h => ⟨h.1, h.2⟩, fun h => ⟨h.1, h.2⟩⟩

instance (m : Mem) (x : Block) : Decidable (Sealed m x) :=
  decidable_of_iff (_ ∧ _ ∧ _ ∧ _) ⟨fun h => ⟨h.1, h.2.1, h.2.2.1, h.2.2.2⟩, fun h => ⟨h.1, h.2, h.3, h.4⟩⟩

instance (m : Mem) (bs : List Block) : Decidable (Holds m bs) :=
  decidable_of_iff (_ ∧ _) ⟨fun h => ⟨h.1, h.2⟩, fun h => ⟨h.1, h.2⟩⟩

instance (bs : List Block) : Decidable (InSpace bs) := by unfold InSpace; infer_instance

instance (h : Heap) (bs : List Block) : Decidable (Rep h bs) :=
  decidable_of_iff (_ ∧ _) ⟨fun h => ⟨h.1, h.2⟩, fun h => ⟨h.1, h.2⟩⟩

variable {m m' : Mem} {x y b : Block} {bs pre post : List Block} {p n c d : ℕ} {R : Set ℕ}

theorem InSpace.first_lt (h : InSpace bs) : first Block.addr bs 0 < 2 ^ 32 := by
  cases bs with
  | nil => decide
  | cons x bs => have := (h x List.mem_cons_self).2; unfold stop at this; simp only [first_cons]; omega

theorem Link.keeps (h : Link m p x n) (hk : Keeps R m m') (hx : x.addr + 20 ≤ 2 ^ 32)
    (hR : ∀ k, x.addr + 12 ≤ k → k < x.addr + 20 → k ∉ R) : Link m' p x n where
  next := (hk.load (by omega) fun k h1 h2 => hR k (by omega) (by omega)).trans h.next
  prev := (hk.load (by omega) fun k h1 h2 => hR k (by omega) (by omega)).trans h.prev

/-- The other words of a block survive a change elsewhere. -/
theorem Sealed.keeps (h : Sealed m x) (hk : Keeps R m m') (hx : x.stop + 4 ≤ 2 ^ 32)
    (hR : ∀ k, x.addr ≤ k → k < x.addr + 12 → k ∉ R)
    (hg : ∀ k, x.stop ≤ k → k < x.stop + 4 → k ∉ R) : Sealed m' x := by
  unfold stop at hx hg
  have h0 := hk.load (a := x.addr) (by omega) fun k h1 h2 => hR k (by omega) (by omega)
  have h4 := hk.load (a := x.addr + 4) (by omega) fun k h1 h2 => hR k (by omega) (by omega)
  have h8 := hk.load (a := x.addr + 8) (by omega) fun k h1 h2 => hR k (by omega) (by omega)
  have hg := hk.load (a := x.stop) hx hg
  exact ⟨h0.trans h.magic, h4.trans h.size, by rw [h8]; exact h.free, hg.trans h.guard⟩

/-- Where the header after a block of the list is, or the end of the address space. -/
def frontier (post : List Block) : ℕ := first Block.addr post (2 ^ 32)

@[simp] theorem frontier_nil : frontier [] = 2 ^ 32 := rfl

@[simp] theorem frontier_cons : frontier (x :: post) = x.addr := rfl

/-- A block ends before the frontier of what follows it. -/
theorem stop_le_frontier (hx : ∀ z ∈ post, x.Apart z) (hs : x.stop + 4 ≤ 2 ^ 32) :
    x.stop ≤ frontier post := by
  cases post with
  | nil => rw [frontier_nil]; omega
  | cons z post => exact (hx z List.mem_cons_self).le

/-- The bytes that may change when blocks between the header at `c` and the header at
`d` are replaced: those after the magic word at `c` up to `d`, and the `prev` link at `d`. -/
def between (c d : ℕ) : Set ℕ := Set.Ico (c + 4) d ∪ Set.Ico (d + 16) (d + 20)

theorem Ico_subset_between {a : ℕ} (h1 : c + 4 ≤ a) (h2 : a + 4 ≤ d) :
    Set.Ico a (a + 4) ⊆ between c d := fun k hk => by
  simp only [between, Set.mem_union, Set.mem_Ico] at hk ⊢; omega

/-- Replacement in the middle. The blocks `x :: mid` become `x' :: mid'`, which start
at the same address; the memory changes only between their header and the next one. -/
theorem Holds.splice {x' : Block} (mid mid' : List Block) (h : Holds m (pre ++ (x :: mid ++ post)))
    (hp : (pre ++ (x :: mid ++ post)).Pairwise Apart) (hs : InSpace (pre ++ (x :: mid ++ post)))
    (hx : x'.addr = x.addr) (hk : Keeps (between x.addr (frontier post)) m m')
    (hlinks : Thread Block.addr (Link m') (last Block.addr 0 pre) (x' :: mid') (first Block.addr post 0))
    (hseal : ∀ y ∈ x' :: mid', Sealed m' y)
    (hprev : ∀ z r, post = z :: r → m'.load (BitVec.ofNat 32 (z.addr + 16)) =
      BitVec.ofNat 32 (last Block.addr 0 (x' :: mid'))) :
    Holds m' (pre ++ (x' :: mid' ++ post)) := by
  have hsx := (hs x (by simp)).2
  obtain ⟨hl, hse⟩ := h
  rw [thread_append, thread_append] at hl
  obtain ⟨hlpre, -, hlpost⟩ := hl
  rw [List.pairwise_append, List.pairwise_append] at hp
  obtain ⟨-, ⟨-, hpost, hxpost⟩, hcross⟩ := hp
  have hxd := stop_le_frontier (fun z hz => hxpost x List.mem_cons_self z hz) hsx
  -- the blocks before keep all their words
  have hbefore : ∀ w ∈ pre, ∀ k, k < w.stop + 4 → k ∉ between x.addr (frontier post) := by
    intro w hw k h2
    have hwx := hcross w hw x (by simp)
    unfold Apart at hwx
    unfold stop at hxd
    simp only [between, Set.mem_union, Set.mem_Ico]
    omega
  -- the blocks after keep all but the first one's `prev` link
  have hafter : ∀ k, frontier post ≤ k → ¬ (frontier post + 16 ≤ k ∧ k < frontier post + 20) →
      k ∉ between x.addr (frontier post) := by
    intro k h1 h2
    simp only [between, Set.mem_union, Set.mem_Ico]
    omega
  have hge : ∀ w ∈ post, w.addr = frontier post ∨ frontier post + 20 ≤ w.addr := by
    intro w hw
    cases post with
    | nil => exact absurd hw List.not_mem_nil
    | cons z post =>
      rcases List.mem_cons.mp hw with rfl | hw
      · exact .inl rfl
      · have := ((List.pairwise_cons.mp hpost).1 w hw).le
        unfold stop at this
        rw [frontier_cons]
        omega
  have hsealed : ∀ w ∈ post, Sealed m' w := by
    intro w hw
    have hw' := hge w hw
    refine (hse w (by simp [hw])).keeps hk (hs w (by simp [hw])).2
      (fun k h1 h2 => hafter k (by omega) (by omega)) (fun k h1 h2 => hafter k ?_ ?_)
    all_goals unfold stop at h1; omega
  constructor
  · rw [thread_append, thread_append]
    refine ⟨?_, hlinks, ?_⟩
    · have : first Block.addr (x' :: mid' ++ post) 0 = first Block.addr (x :: mid ++ post) 0 := hx
      rw [this]
      refine hlpre.imp fun w hw p n hwl => hwl.keeps hk ?_ fun k _ h2 => hbefore w hw k ?_
      · have := (hs w (by simp [hw])).2; unfold stop at this; omega
      · unfold stop; omega
    · cases post with
      | nil => trivial
      | cons z post =>
        obtain ⟨hlz, hlrest⟩ := hlpost
        have hsz := (hs z (by simp)).2
        rw [frontier_cons] at *
        refine ⟨⟨?_, hprev z post rfl⟩, ?_⟩
        · rw [← hlz.next]
          unfold stop at hsz
          exact hk.load (by omega) fun k h1 h2 => hafter k (by omega) (by omega)
        · refine hlrest.imp fun w hw p n hwl => hwl.keeps hk ?_ fun k h1 _ => hafter k ?_ ?_
          · have := (hs w (by simp [hw])).2; unfold stop at this; omega
          all_goals
            have := ((List.pairwise_cons.mp hpost).1 w hw).le
            unfold stop at this
            omega
  · intro w hw
    rcases List.mem_append.mp hw with hw | hw
    · refine (hse w (by simp [hw])).keeps hk (hs w (by simp [hw])).2
        (fun k _ h2 => hbefore w hw k ?_) (fun k _ h2 => hbefore w hw k h2)
      unfold stop; omega
    · rcases List.mem_append.mp hw with hw | hw
      · exact hseal w hw
      · exact hsealed w hw

/-- What the sequence says of a block in the middle. -/
theorem Holds.mid (h : Holds m (pre ++ x :: post)) :
    Link m (last Block.addr 0 pre) x (first Block.addr post 0) ∧ Sealed m x :=
  ⟨(thread_mid.mp h.links).2.1, h.sealed x (by simp)⟩

/-- The block after a place knows the block before it. -/
theorem Holds.prev_eq {z : Block} {r : List Block} (h : Holds m (pre ++ x :: z :: r)) :
    m.load (BitVec.ofNat 32 (z.addr + 16)) = BitVec.ofNat 32 x.addr :=
  (thread_mid.mp h.links).2.2.1.prev

/-! ### The blocks around a change -/

/-- The payload of `w` is the same in `m'` as in `m`. -/
def KeepsPayload (m m' : Mem) (w : Block) : Prop :=
  ∀ a : Word, w.payload ≤ a.toNat → a.toNat < w.stop → m' a = m a

/-- The payload of `w` and its header up to the `prev` link are the same in `m'` as in `m`. -/
def KeepsBlock (m m' : Mem) (w : Block) : Prop :=
  ∀ a : Word, w.addr ≤ a.toNat ∧ a.toNat < w.addr + 16 ∨ w.payload ≤ a.toNat ∧ a.toNat < w.stop →
    m' a = m a

theorem KeepsBlock.payload (h : KeepsBlock m m' x) : KeepsPayload m m' x :=
  fun a h1 h2 => h a (.inr ⟨h1, h2⟩)

theorem KeepsBlock.refl (m : Mem) (x : Block) : KeepsBlock m m x := fun _ _ => rfl

theorem KeepsBlock.trans {m'' : Mem} (h : KeepsBlock m m' x) (h' : KeepsBlock m' m'' x) :
    KeepsBlock m m'' x := fun a ha => (h' a ha).trans (h a ha)

/-- The blocks before the header at `x` and those behind the next header are not disturbed. -/
theorem keepsBlock_of_between (mid : List Block) (hk : Keeps (between x.addr (frontier post)) m m')
    (hp : (pre ++ (x :: mid ++ post)).Pairwise Apart) (hs : InSpace (pre ++ (x :: mid ++ post)))
    (hy : y ∈ pre ∨ y ∈ post) : KeepsBlock m m' y := by
  rw [List.pairwise_append, List.pairwise_append] at hp
  obtain ⟨-, ⟨-, hpost, hxpost⟩, hcross⟩ := hp
  have hxd := stop_le_frontier (fun z hz => hxpost x List.mem_cons_self z hz) (hs x (by simp)).2
  refine fun a ha => hk a ?_
  simp only [between, Set.mem_union, Set.mem_Ico]
  unfold payload stop at ha
  unfold stop at hxd
  obtain hy | hy := hy
  · have := (hcross y hy x (by simp)).le
    unfold stop at this
    omega
  · have hge : y.addr = frontier post ∨ frontier post + 20 ≤ y.addr := by
      cases post with
      | nil => exact absurd hy List.not_mem_nil
      | cons z post =>
        obtain rfl | hy := List.mem_cons.mp hy
        · exact .inl rfl
        · have := ((List.pairwise_cons.mp hpost).1 y hy).le
          unfold stop at this
          rw [frontier_cons]
          omega
    omega

theorem Holds.storeByte {a : Word} {v : Byte} (h : Holds m bs) (hp : bs.Pairwise Apart) (hs : InSpace bs)
    (hx : x ∈ bs) (h1 : x.payload ≤ a.toNat) (h2 : a.toNat < x.stop) : Holds (m.storeByte a v) bs := by
  have hk := keeps_storeByte m a v
  unfold payload at h1
  -- the byte is neither in a header nor in a guard word
  have hout : ∀ y ∈ bs, ∀ k, (y.addr ≤ k ∧ k < y.addr + 20) ∨ (y.stop ≤ k ∧ k < y.stop + 4) →
      k ∉ ({a.toNat} : Set ℕ) := by
    intro y hy k hk hka
    rw [Set.mem_singleton_iff] at hka
    obtain hlt | heq | hlt := lt_trichotomy y.addr x.addr
    · have := apart_of_lt hp hy hx hlt
      unfold Apart stop at *
      omega
    · rw [eq_of_addr_eq hp hy hx heq] at hk
      omega
    · have := (apart_of_lt hp hx hy hlt).le
      unfold stop at *
      omega
  have hb : ∀ y ∈ bs, y.addr + 20 ≤ 2 ^ 32 := fun y hy => by
    have := (hs y hy).2
    unfold stop at this
    omega
  constructor
  · exact h.links.imp fun y hy p n hl => hl.keeps hk (hb y hy) fun k h1 h2 => hout y hy k (by omega)
  · exact fun y hy => (h.sealed y hy).keeps hk (hs y hy).2 (fun k h1 h2 => hout y hy k (by omega))
      fun k h1 h2 => hout y hy k (by omega)

/-! ### Marking a block free or in use -/

/-- The free flag of a block does not matter for where it is. -/
theorem pairwise_flag {a sx : ℕ} {f f' : Bool} (hp : (pre ++ ⟨a, sx, f⟩ :: post).Pairwise Apart) :
    (pre ++ ⟨a, sx, f'⟩ :: post).Pairwise Apart := by
  rw [List.pairwise_append, List.pairwise_cons] at hp ⊢
  obtain ⟨hpre, ⟨hx, hpost⟩, hcross⟩ := hp
  refine ⟨hpre, ⟨hx, hpost⟩, fun y hy z hz => ?_⟩
  obtain rfl | hz := List.mem_cons.mp hz
  · exact hcross y hy ⟨a, sx, f⟩ List.mem_cons_self
  · exact hcross y hy z (List.mem_cons_of_mem _ hz)

theorem Holds.setFree {a sz : ℕ} {f : Bool} (f' : Bool) {v : Word} (h : Holds m (pre ++ ⟨a, sz, f⟩ :: post))
    (hp : (pre ++ ⟨a, sz, f⟩ :: post).Pairwise Apart) (hs : InSpace (pre ++ ⟨a, sz, f⟩ :: post))
    (hf : v ≠ 0 ↔ f' = true) :
    Keeps (between a (frontier post)) m (setFree m (BitVec.ofNat 32 a) v) ∧
      Holds (setFree m (BitVec.ofNat 32 a) v) (pre ++ ⟨a, sz, f'⟩ :: post) := by
  rw [setFree_ofNat]
  have hsb := (hs ⟨a, sz, f⟩ (by simp)).2
  have hbd := stop_le_frontier (List.pairwise_cons.mp (List.pairwise_append.mp hp).2.1).1 hsb
  obtain ⟨hlb, hseal⟩ := h.mid
  dsimp only [stop] at hsb hbd
  have hk0 := keeps_store m (a := a + 8) v (by omega)
  have hk : Keeps (between a (frontier post)) m (m.store (BitVec.ofNat 32 (a + 8)) v) :=
    hk0.mono (Ico_subset_between (by omega) (by omega))
  have hrest {k : ℕ} (hk : k + 4 ≤ 2 ^ 32) (hne : a + 12 ≤ k ∨ k + 4 ≤ a + 8) :
      (m.store (BitVec.ofNat 32 (a + 8)) v).load (BitVec.ofNat 32 k) = m.load (BitVec.ofNat 32 k) :=
    Mem.load_store_of_apart _ _ (by omega) hk (by omega)
  refine ⟨hk, Holds.splice [] [] h hp hs rfl hk ?_ ?_ ?_⟩
  · refine ⟨⟨?_, ?_⟩, trivial⟩ <;> dsimp only <;> rw [hrest (by omega) (by omega)]
    · exact hlb.next
    · exact hlb.prev
  · intro y hy
    rw [List.mem_singleton.mp hy]
    refine ⟨?_, ?_, by simpa using hf, ?_⟩ <;> dsimp only [stop] <;>
      rw [hrest (by omega) (by omega)]
    · exact hseal.magic
    · exact hseal.size
    · exact hseal.guard
  · rintro z r rfl
    have hsz := (hs z (by simp)).2
    unfold stop at hsz
    rw [frontier_cons] at hbd
    exact (hrest (by omega) (by omega)).trans h.prev_eq

/-! ### The link back -/

/-- The memory after `if (next) next->prev = r` for the block at `nx`. -/
def linkBack (m : Mem) (nx r : ℕ) : Mem :=
  if nx = 0 then m else m.store (BitVec.ofNat 32 (nx + 16)) (BitVec.ofNat 32 r)

theorem linkBack_eq {nx r : ℕ} (hn : nx < 2 ^ 32) :
    (if BitVec.ofNat 32 nx ≠ 0 then setPrev m (BitVec.ofNat 32 nx) (BitVec.ofNat 32 r) else m) =
      linkBack m nx r := by
  rw [linkBack, setPrev_ofNat]
  simp only [ne_eq, ofNat_eq_zero_iff hn, ite_not]

theorem load_linkBack {k nx r : ℕ} (hk : k + 4 ≤ 2 ^ 32)
    (h : nx = 0 ∨ nx + 20 ≤ 2 ^ 32 ∧ (k + 4 ≤ nx + 16 ∨ nx + 20 ≤ k)) :
    (linkBack m nx r).load (BitVec.ofNat 32 k) = m.load (BitVec.ofNat 32 k) := by
  unfold linkBack
  split
  · rfl
  · exact Mem.load_store_of_apart _ _ (by omega) hk (by omega)

theorem load_linkBack_self {nx r : ℕ} (h : nx ≠ 0) :
    (linkBack m nx r).load (BitVec.ofNat 32 (nx + 16)) = BitVec.ofNat 32 r := by
  rw [linkBack, if_neg h, Mem.load_store_self]

/-- Where the next header is, if there is one, and where the frontier is. -/
theorem first_or_frontier {e : ℕ} (hp : ∀ z ∈ post, e ≤ z.addr) (hs : InSpace post) :
    first Block.addr post 0 = 0 ∧ frontier post = 2 ^ 32 ∨ frontier post = first Block.addr post 0 ∧
      0 < first Block.addr post 0 ∧ e ≤ first Block.addr post 0 ∧
      first Block.addr post 0 + 24 ≤ 2 ^ 32 := by
  cases post with
  | nil => exact .inl ⟨rfl, rfl⟩
  | cons z post =>
    have h1 := hs z List.mem_cons_self
    have h2 := hp z List.mem_cons_self
    unfold stop at h1
    rw [first_cons, frontier_cons]
    omega

/-- The link back stays in the bytes that may change. -/
theorem keeps_linkBack {a r : ℕ} (h : first Block.addr post 0 = 0 ∨
      frontier post = first Block.addr post 0 ∧ first Block.addr post 0 + 24 ≤ 2 ^ 32) :
    Keeps (between a (frontier post)) m (linkBack m (first Block.addr post 0) r) := by
  unfold linkBack
  split
  · exact Keeps.refl _ _
  · refine (keeps_store m _ (by omega)).mono fun k hk => ?_
    simp only [between, Set.mem_union, Set.mem_Ico] at hk ⊢
    omega

/-! ### Merging two neighbours -/

/-- The memory after the block at `a` has grown to `s` bytes and is followed by the
block at `nx`. -/
def joinMem (m : Mem) (a s nx : ℕ) : Mem :=
  linkBack (((m.store (BitVec.ofNat 32 (a + 4)) (BitVec.ofNat 32 s)).store
    (BitVec.ofNat 32 (a + 12)) (BitVec.ofNat 32 nx)).store
    (BitVec.ofNat 32 (a + 20 + s)) HEAP_MAGIC) nx a

theorem merged_size (sx sy : ℕ) : BitVec.ofNat 32 sx + (SIZEOF_HEADER + BitVec.ofNat 32 sy + SIZEOF_WORD) =
    BitVec.ofNat 32 (sx + 24 + sy) := by
  unfold SIZEOF_HEADER SIZEOF_WORD; bv_omega

section Merge

variable {a c sx sy : ℕ} (hsx : m.load (BitVec.ofNat 32 (a + 4)) = BitVec.ofNat 32 sx)
  (hsy : m.load (BitVec.ofNat 32 (c + 4)) = BitVec.ofNat 32 sy)
  (hny : m.load (BitVec.ofNat 32 (c + 12)) = BitVec.ofNat 32 n)
  (hac : a + 20 + sx ≤ c) (hc : c + 20 + sy ≤ 2 ^ 32) (hn : n < 2 ^ 32)
  (hstop : a + 20 + (sx + 24 + sy) + 4 ≤ 2 ^ 32)

include hsx hsy hny hac hc hn hstop

theorem mergeNext_eq (hnx : m.load (BitVec.ofNat 32 (a + 12)) = BitVec.ofNat 32 c) :
    mergeNext m (BitVec.ofNat 32 a) = joinMem m a (sx + 24 + sy) n := by
  unfold mergeNext joinMem
  simp (disch := omega) only [next_ofNat, size_ofNat, setSize_ofNat, setNext_ofNat, hsx, hnx, hsy,
    merged_size, Mem.load_store_of_apart, hny, Mem.load_store_self, tail_ofNat, linkBack_eq hn]

/-- The merge into the previous block, when the guard word that it writes does not fall
on the link words that it reads afterwards. -/
theorem mergePrev_eq (hpy : m.load (BitVec.ofNat 32 (c + 16)) = BitVec.ofNat 32 a)
    (hclear : a + 20 + (sx + 24 + sy) + 4 ≤ c + 12 ∨ c + 20 ≤ a + 20 + (sx + 24 + sy)) :
    mergePrev m (BitVec.ofNat 32 c) = joinMem m a (sx + 24 + sy) n := by
  unfold mergePrev joinMem
  simp (disch := omega) only [prev_ofNat, next_ofNat, size_ofNat, setSize_ofNat, setNext_ofNat, hsx,
    hpy, hsy, merged_size, Mem.load_store_of_apart, hny, Mem.load_store_self, tail_ofNat,
    linkBack_eq hn]
  rw [Mem.store_comm _ HEAP_MAGIC (BitVec.ofNat 32 n) (by omega) (by omega) (by omega)]

end Merge

/-- A guard word for which there is room changes nothing outside the merged block. -/
theorem keeps_guard {a e : ℕ} (hz : ∀ z r, post = z :: r → m.load (BitVec.ofNat 32 z.addr) = HEAP_MAGIC)
    (hroom : GuardRoom e post) (hae : a + 4 ≤ e) (he : e + 4 ≤ 2 ^ 32) :
    Keeps (between a (frontier post)) m (m.store (BitVec.ofNat 32 e) HEAP_MAGIC) := by
  cases post with
  | nil => exact (keeps_store m _ he).mono (Ico_subset_between hae (by rw [frontier_nil]; omega))
  | cons z r =>
    rcases hroom with rfl | hroom
    · rw [← hz z r rfl, Mem.store_load_self]
      exact Keeps.refl _ _
    · exact (keeps_store m _ he).mono (Ico_subset_between hae (by rw [frontier_cons]; omega))

theorem GuardRoom.le {e : ℕ} (h : GuardRoom e post) (hs : InSpace post) :
    e + 4 ≤ 2 ^ 32 ∧ e ≤ frontier post := by
  cases post with
  | nil => simp only [GuardRoom, frontier_nil] at h ⊢; omega
  | cons z post =>
    have := (hs z List.mem_cons_self).2
    simp only [GuardRoom, frontier_cons, stop] at h this ⊢
    omega

/-- Merging `y` into `x`: the list loses `y`, and `x` covers both. -/
theorem Holds.join (h : Holds m (pre ++ x :: y :: post)) (hp : (pre ++ x :: y :: post).Pairwise Apart)
    (hs : InSpace (pre ++ x :: y :: post)) (hroom : GuardRoom (x.join y).stop post) :
    Keeps (between x.addr (frontier post)) m
        (joinMem m x.addr (x.join y).size (first Block.addr post 0)) ∧
      Holds (joinMem m x.addr (x.join y).size (first Block.addr post 0)) (pre ++ x.join y :: post) := by
  obtain ⟨a, sx, fx⟩ := x
  obtain ⟨c, sy, fy⟩ := y
  have hpx := (List.pairwise_cons.mp (List.pairwise_append.mp hp).2.1)
  have hle := (hpx.1 _ List.mem_cons_self).le
  have hpy := (List.pairwise_cons.mp hpx.2).1
  have hsy := (hs ⟨c, sy, fy⟩ (by simp)).2
  have hspost : InSpace post := fun z hz => hs z (by simp [hz])
  obtain ⟨hlx, hsealx⟩ := h.mid
  have hfirst := first_or_frontier (fun z hz => (hpy z hz).le) hspost
  obtain ⟨he, hroomle⟩ := hroom.le hspost
  dsimp only [join, stop] at hroom hle hsy hfirst he hroomle
  dsimp only [joinMem, join]
  -- the four stores, one after the other
  have hk1 := keeps_store m (a := a + 4) (BitVec.ofNat 32 (sx + 24 + sy)) (by omega)
  generalize hm1 : m.store (BitVec.ofNat 32 (a + 4)) (BitVec.ofNat 32 (sx + 24 + sy)) = m1 at hk1 ⊢
  have hk2 := keeps_store m1 (a := a + 12) (BitVec.ofNat 32 (first Block.addr post 0)) (by omega)
  generalize hm2 : m1.store (BitVec.ofNat 32 (a + 12)) (BitVec.ofNat 32 (first Block.addr post 0)) = m2
    at hk2 ⊢
  have hz2 : ∀ z r, post = z :: r → m2.load (BitVec.ofNat 32 z.addr) = HEAP_MAGIC := by
    rintro z r rfl
    rw [first_cons] at hfirst
    have := (hspost z (by simp)).1
    rw [← hm2, ← hm1, Mem.load_store_of_apart _ _ (by omega) (by omega) (by omega),
      Mem.load_store_of_apart _ _ (by omega) (by omega) (by omega)]
    exact (h.sealed z (by simp)).magic
  have hk3 := keeps_guard (a := a) hz2 hroom (by omega) he
  generalize hm3 : m2.store (BitVec.ofNat 32 (a + 20 + (sx + 24 + sy))) HEAP_MAGIC = m3 at hk3 ⊢
  have hk : Keeps (between a (frontier post)) m (linkBack m3 (first Block.addr post 0) a) :=
    (((hk1.mono (Ico_subset_between (by omega) (by omega))).trans_same
      (hk2.mono (Ico_subset_between (by omega) (by omega)))).trans_same hk3).trans_same
      (keeps_linkBack (by omega))
  -- the words of the merged block
  have hw {k : ℕ} (h1 : a ≤ k) (h2 : k + 4 ≤ a + 20) :
      (linkBack m3 (first Block.addr post 0) a).load (BitVec.ofNat 32 k) =
        m2.load (BitVec.ofNat 32 k) := by
    rw [load_linkBack (by omega) (by omega), ← hm3]
    exact Mem.load_store_of_apart _ _ (by omega) (by omega) (by omega)
  have hw' {k : ℕ} (h1 : a ≤ k) (h2 : k + 4 ≤ a + 20) (h3 : k = a ∨ k = a + 8 ∨ k = a + 16) :
      (linkBack m3 (first Block.addr post 0) a).load (BitVec.ofNat 32 k) =
        m.load (BitVec.ofNat 32 k) := by
    rw [hw h1 h2, ← hm2, ← hm1, Mem.load_store_of_apart _ _ (by omega) (by omega) (by omega),
      Mem.load_store_of_apart _ _ (by omega) (by omega) (by omega)]
  refine ⟨hk, Holds.splice [⟨c, sy, fy⟩] [] h hp hs rfl hk ?_ ?_ ?_⟩
  · refine ⟨⟨?_, ?_⟩, trivial⟩ <;> dsimp only
    · rw [hw (by omega) (by omega), ← hm2, Mem.load_store_self, first_nil]
    · rw [hw' (by omega) (by omega) (by omega)]; exact hlx.prev
  · intro w hwm
    rw [List.mem_singleton.mp hwm]
    refine ⟨?_, ?_, ?_, ?_⟩ <;> dsimp only [stop]
    · rw [hw' (by omega) (by omega) (by omega)]; exact hsealx.magic
    · rw [hw (by omega) (by omega), ← hm2, ← hm1,
        Mem.load_store_of_apart _ _ (by omega) (by omega) (by omega), Mem.load_store_self]
    · rw [hw' (by omega) (by omega) (by omega)]; exact hsealx.free
    · rw [load_linkBack (by omega) (by omega), ← hm3, Mem.load_store_self]
  · rintro z r rfl
    have := (hspost z (by simp)).1
    exact load_linkBack_self (by rw [first_cons]; omega)

/-! ### Splitting a block -/

/-- The memory after the block of `sx` bytes at `a`, followed by the block at `nx`, is
split behind its first `n` bytes. -/
def splitMem (m : Mem) (a n sx nx : ℕ) : Mem :=
  (((linkBack ((((((m.store (BitVec.ofNat 32 (a + 20 + n)) HEAP_MAGIC).store
    (BitVec.ofNat 32 (a + 20 + n + 4)) (BitVec.ofNat 32 (sx - n - 24))).store
    (BitVec.ofNat 32 (a + 20 + n + 8)) 1).store
    (BitVec.ofNat 32 (a + 20 + n + 12)) (BitVec.ofNat 32 nx)).store
    (BitVec.ofNat 32 (a + 20 + n + 16)) (BitVec.ofNat 32 a)).store
    (BitVec.ofNat 32 (a + 20 + n + 20 + (sx - n - 24))) HEAP_MAGIC) nx (a + 20 + n)).store
    (BitVec.ofNat 32 (a + 4)) (BitVec.ofNat 32 n)).store
    (BitVec.ofNat 32 (a + 12)) (BitVec.ofNat 32 (a + 20 + n))).store
    (BitVec.ofNat 32 (a + 20 + n)) HEAP_MAGIC

theorem remainder_size {sx n : ℕ} (h : n + 32 ≤ sx) (hs : sx < 2 ^ 32) :
    BitVec.ofNat 32 sx - BitVec.ofNat 32 n - SIZEOF_HEADER - SIZEOF_WORD =
      BitVec.ofNat 32 (sx - n - 24) := by
  unfold SIZEOF_HEADER SIZEOF_WORD; bv_omega

/-- The split of a block with room for another one. -/
theorem split_eq {a sx nx : ℕ} (hsx : m.load (BitVec.ofNat 32 (a + 4)) = BitVec.ofNat 32 sx)
    (hnx : m.load (BitVec.ofNat 32 (a + 12)) = BitVec.ofNat 32 nx) (hn : n + 32 ≤ sx)
    (hs : a + 20 + sx + 4 ≤ 2 ^ 32) (hnx' : nx < 2 ^ 32) :
    split m (BitVec.ofNat 32 a) (BitVec.ofNat 32 n) = splitMem m a n sx nx := by
  unfold split splitMem
  simp (disch := omega) only [tail_ofNat, setMagic_ofNat, size_ofNat, setSize_ofNat, next_ofNat,
    setFree_ofNat, setNext_ofNat, setPrev_ofNat, Mem.load_store_of_apart, Mem.load_store_self, hsx,
    hnx, remainder_size]
  rw [← linkBack_eq hnx', setPrev_ofNat]

/-- Splitting a free block: it keeps its first `n` bytes and a free block follows. -/
theorem Holds.split {a sx : ℕ} {f : Bool} (h : Holds m (pre ++ ⟨a, sx, f⟩ :: post))
    (hp : (pre ++ ⟨a, sx, f⟩ :: post).Pairwise Apart) (hs : InSpace (pre ++ ⟨a, sx, f⟩ :: post))
    (hn : n + 32 ≤ sx) :
    Keeps (between a (frontier post)) m (split m (BitVec.ofNat 32 a) (BitVec.ofNat 32 n)) ∧
      Holds (split m (BitVec.ofNat 32 a) (BitVec.ofNat 32 n))
        (pre ++ ⟨a, n, f⟩ :: ⟨a + 20 + n, sx - n - 24, true⟩ :: post) := by
  have hpx := (List.pairwise_cons.mp (List.pairwise_append.mp hp).2.1).1
  have hsx := (hs ⟨a, sx, f⟩ (by simp)).2
  have hspost : InSpace post := fun z hz => hs z (by simp [hz])
  have hfirst := first_or_frontier (fun z hz => (hpx z hz).le) hspost
  obtain ⟨hl, hseal⟩ := h.mid
  dsimp only [stop] at hsx hfirst
  rw [split_eq hseal.size hl.next hn (by omega) (by omega)]
  have hst {m' : Mem} (hm' : Keeps (between a (frontier post)) m m') {k : ℕ} (v : Word)
      (h1 : a + 4 ≤ k) (h2 : k + 4 ≤ a + 20 + sx) :
      Keeps (between a (frontier post)) m (m'.store (BitVec.ofNat 32 k) v) :=
    hm'.store v (by omega) (Ico_subset_between h1 (by omega))
  have hk : Keeps (between a (frontier post)) m (splitMem m a n sx (first Block.addr post 0)) := by
    unfold splitMem
    iterate 3 refine hst ?_ _ (by omega) (by omega)
    refine Keeps.trans_same ?_ (keeps_linkBack (by omega))
    iterate 6 refine hst ?_ _ (by omega) (by omega)
    exact Keeps.refl _ _
  have hmagic := hseal.magic
  have hfree := hseal.free
  have hprev := hl.prev
  dsimp only at hmagic hfree hprev
  refine ⟨hk, Holds.splice [] [⟨a + 20 + n, sx - n - 24, true⟩] h hp hs rfl hk
    ?_ ?_ ?_⟩
  · refine ⟨⟨?_, ?_⟩, ⟨?_, ?_⟩, trivial⟩ <;>
      simp (disch := omega) only [splitMem, first_nil, first_cons, load_linkBack,
        Mem.load_store_of_apart, Mem.load_store_self, hprev]
  · intro w hw
    rcases List.mem_cons.mp hw with rfl | hw
    · refine ⟨?_, ?_, ?_, ?_⟩ <;>
        simp (disch := omega) only [splitMem, stop, load_linkBack, Mem.load_store_of_apart,
          Mem.load_store_self, hmagic, hfree]
    · rw [List.mem_singleton.mp hw]
      refine ⟨?_, ?_, ?_, ?_⟩ <;>
        simp (disch := omega) only [splitMem, stop, load_linkBack, Mem.load_store_of_apart,
          Mem.load_store_self]
      decide
  · rintro z r rfl
    rw [first_cons] at hfirst
    have := (hspost z (by simp)).1
    simp (disch := omega) only [splitMem, first_cons, Mem.load_store_of_apart]
    exact load_linkBack_self (by omega)

/-! ### The headers of the list -/

/-- The headers that are reachable from `heap_head`. -/
inductive Listed (h : Heap) : Word → Prop
  /-- The first block. -/
  | head : h.heapHead ≠ 0 → Listed h h.heapHead
  /-- The block after a listed one. -/
  | next {block : Word} : Listed h block → next h.mem block ≠ 0 → Listed h (next h.mem block)

/-- A listed header is that of a block of the sequence. -/
theorem Listed.exists_block {h : Heap} {a : Word} (ha : Listed h a) (hr : Rep h bs) :
    ∃ pre x post, bs = pre ++ x :: post ∧ a = BitVec.ofNat 32 x.addr := by
  induction ha with
  | head h0 =>
    cases bs with
    | nil => exact absurd hr.head h0
    | cons x post => exact ⟨[], x, post, rfl, hr.head⟩
  | @next a _ hne ih =>
    obtain ⟨pre, x, post, rfl, rfl⟩ := ih
    rw [next_ofNat, hr.holds.mid.1.next] at hne ⊢
    cases post with
    | nil => exact absurd rfl hne
    | cons y post => exact ⟨pre ++ [x], y, post, by simp, rfl⟩

/-- The walk along the links of `pre` ends at the header behind them. -/
theorem listed_of_thread {h : Heap} (hhead : h.heapHead = BitVec.ofNat 32 (first Block.addr (pre ++ [x]) 0))
    (hl : Thread Block.addr (Link h.mem) p pre x.addr) (hs : InSpace (pre ++ [x])) :
    Listed h (BitVec.ofNat 32 x.addr) := by
  have hne : ∀ y ∈ pre ++ [x], BitVec.ofNat 32 y.addr ≠ 0 := by
    intro y hy
    have := hs y hy
    unfold stop at this
    rw [ne_eq, ofNat_eq_zero_iff (by omega)]
    omega
  induction pre using List.reverseRecOn generalizing x with
  | nil =>
    rw [List.nil_append, first_cons] at hhead
    rw [← hhead]
    exact .head (by rw [hhead]; exact hne x (by simp))
  | append_singleton pre y ih =>
    have hhead' : h.heapHead = BitVec.ofNat 32 (first Block.addr (pre ++ [y]) 0) := by
      rw [hhead, first_append]
      obtain _ | ⟨z, pre⟩ := pre <;> rfl
    obtain ⟨hl, hy⟩ := thread_append.mp hl
    have hn : next h.mem (BitVec.ofNat 32 y.addr) = BitVec.ofNat 32 x.addr := by
      rw [next_ofNat]; exact hy.1.next
    rw [← hn]
    exact .next (ih hhead' hl (fun z hz => hs z (List.mem_append_left _ hz))
      fun z hz => hne z (List.mem_append_left _ hz)) (by rw [hn]; exact hne x (by simp))

theorem Rep.listed {h : Heap} (hr : Rep h bs) (hs : InSpace bs) (hbs : bs = pre ++ x :: post) :
    Listed h (BitVec.ofNat 32 x.addr) := by
  subst hbs
  have hhead : h.heapHead = BitVec.ofNat 32 (first Block.addr (pre ++ [x]) 0) := by
    rw [hr.head, first_append, first_append]
    rfl
  refine listed_of_thread hhead (thread_mid.mp hr.holds.links).1 fun z hz => hs z ?_
  rw [List.mem_append, List.mem_singleton] at hz
  rw [List.mem_append, List.mem_cons]
  tauto

/-! ### The allocator's state -/

/-- The allocator's state represents the arena `A`, in a heap that starts at `s`. -/
structure Models (s : ℕ) (h : Heap) (A : Arena) : Prop where
  rep : Rep h A.blocks
  heapStart : h.heapStart = BitVec.ofNat 32 s
  heapEnd : h.heapEnd = BitVec.ofNat 32 A.brk

instance (s : ℕ) (h : Heap) (A : Arena) : Decidable (Models s h A) :=
  decidable_of_iff (_ ∧ _ ∧ _) ⟨fun h => ⟨h.1, h.2.1, h.2.2⟩, fun h => ⟨h.1, h.2, h.3⟩⟩

/-- The blocks of a well-formed arena lie in the address space. -/
theorem Arena.Ok.inSpace {A : Arena} (hA : A.Ok) : InSpace A.blocks := by
  intro x hx
  have hb := heap_bounds
  have h1 := (hA.block x hx).lo
  have h2 := (hA.block x hx).hi
  omega

theorem Rep.head_eq_zero {h : Heap} {bs : List Block} (hr : Rep h bs) (hs : InSpace bs) :
    h.heapHead = 0 ↔ bs = [] := by
  rw [hr.head, ofNat_eq_zero_iff hs.first_lt]
  cases bs with
  | nil => simp
  | cons x bs =>
    have := (hs x List.mem_cons_self).1
    simp only [first_cons, reduceCtorEq, iff_false]
    omega

/-- A state represents one arena. -/
theorem Models.unique {s : ℕ} {h : Heap} {A A' : Arena} (hm : Models s h A) (hm' : Models s h A')
    (hs : InSpace A.blocks) (hs' : InSpace A'.blocks) (he : A.brk < 2 ^ 32) (he' : A'.brk < 2 ^ 32) :
    A = A' := by
  obtain ⟨⟨hh, hb⟩, -, hend⟩ := hm
  obtain ⟨⟨hh', hb'⟩, -, hend'⟩ := hm'
  have hlt : ∀ x : Block, 0 < x.addr ∧ x.stop + 4 ≤ 2 ^ 32 → x.addr < 2 ^ 32 ∧ x.size < 2 ^ 32 := by
    intro x hx
    unfold stop at hx
    omega
  refine Arena.ext ?_ (ofNat_inj he he' (hend.symm.trans hend'))
  refine Thread.unique (P := fun x => (0 < x.addr ∧ x.stop + 4 ≤ 2 ^ 32) ∧ Sealed h.mem x)
    (B := fun n => n < 2 ^ 32) (by decide) (fun x hx => (hlt x hx.1).1) (fun x hx => hx.1.1.ne')
    ?_ hb.links hb'.links (fun x hx => ⟨hs x hx, hb.sealed x hx⟩) (fun x hx => ⟨hs' x hx, hb'.sealed x hx⟩)
    (ofNat_inj hs.first_lt hs'.first_lt (hh.symm.trans hh'))
  rintro x y p n p' n' ⟨hx, hsx⟩ ⟨hy, hsy⟩ hn hn' hxy hlx hly
  refine ⟨Block.ext hxy ?_ ?_, ofNat_inj hn hn' ?_⟩
  · exact ofNat_inj (hlt x hx).2 (hlt y hy).2 (by rw [← hsx.size, ← hsy.size, hxy])
  · rw [Bool.eq_iff_iff, ← hsx.free, ← hsy.free, hxy]
  · rw [← hlx.next, ← hly.next, hxy]

end SpatulaOS.Mm
