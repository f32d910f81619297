import Mathlib.Algebra.GroupWithZero.Nat
import Mathlib.Data.List.Basic
import Mathlib.Data.List.Pairwise
import Mathlib.Data.Nat.Basic
import Mathlib.Order.Basic
import Mathlib.Tactic.Common

/-!
# The heap as a sequence of blocks

What the allocator of `mm/heap.c` does, without its memory: an arena is the
sequence of blocks in list order with the break, the address at which the next
block is appended (`heap_end`). Addresses and sizes are natural numbers, so
nothing wraps round.

A block has 20 bytes of header before its payload and a guard word at its end,
`stop`. The guard word of a block either coincides with the magic word of the
next header or has room of its own (`Apart`).

`Arena.Malloc` is what `kmalloc` does when it succeeds and `Arena.free` what
`kfree` does when it accepts its argument. They keep `Arena.Ok` on the conditions
`AppendClear` and `CoalesceFits`, which say that a step does not go wrong.
-/

namespace SpatulaOS.Mm

/-- `KERNEL_HEAP_START`, as a number. -/
abbrev heapLo : ℕ := 0x400000

/-- `KERNEL_HEAP_END`, as a number. -/
abbrev heapHi : ℕ := 0x800000

theorem heap_bounds : heapLo = 4194304 ∧ heapHi = 8388608 := ⟨rfl, rfl⟩

/-! ### Blocks -/

/-- A block: where its header is, how large its payload is, and whether it is free. -/
@[ext]
structure Block where
  /-- The address of the header. -/
  addr : ℕ
  /-- The size of the payload. -/
  size : ℕ
  /-- Whether the block is free. -/
  free : Bool
  deriving DecidableEq

namespace Block

/-- Where the payload starts. -/
def payload (x : Block) : ℕ := x.addr + 20

/-- Where the payload stops and the guard word is. -/
def stop (x : Block) : ℕ := x.addr + 20 + x.size

/-- The block can serve a request of `n` bytes. -/
def Serves (n : ℕ) (x : Block) : Prop := x.free = true ∧ n ≤ x.size

instance (n : ℕ) (x : Block) : Decidable (x.Serves n) := by unfold Serves; infer_instance

/-- The block that serves a request of `n` bytes, cut from `x`. -/
def carved (x : Block) (n : ℕ) : Block :=
  if n + 32 ≤ x.size then ⟨x.addr, n, false⟩ else ⟨x.addr, x.size, false⟩

/-- The free block that remains of `x`, if any. -/
def remainder (x : Block) (n : ℕ) : List Block :=
  if n + 32 ≤ x.size then [⟨x.addr + 20 + n, x.size - n - 24, true⟩] else []

/-- The block, marked free. -/
def released (x : Block) : Block := ⟨x.addr, x.size, true⟩

/-- `x` with `y` merged into it: a header and a guard word are added to the two sizes. -/
def join (x y : Block) : Block := ⟨x.addr, x.size + 24 + y.size, x.free⟩

/-- The range test that `kfree` makes of a neighbour, with the heap's bounds `s` and `e`. -/
def Merges (s e : ℕ) (x : Block) : Prop := x.free = true ∧ s ≤ x.addr ∧ x.addr < e

instance (s e : ℕ) (x : Block) : Decidable (x.Merges s e) := by unfold Merges; infer_instance

/-- The guard word of `x` coincides with the header `y` or ends before it. -/
def Apart (x y : Block) : Prop := x.stop = y.addr ∨ x.stop + 4 ≤ y.addr

@[simp] theorem released_addr (x : Block) : x.released.addr = x.addr := rfl
@[simp] theorem released_size (x : Block) : x.released.size = x.size := rfl
@[simp] theorem released_free (x : Block) : x.released.free = true := rfl
@[simp] theorem released_stop (x : Block) : x.released.stop = x.stop := rfl
@[simp] theorem join_addr (x y : Block) : (x.join y).addr = x.addr := rfl
@[simp] theorem join_size (x y : Block) : (x.join y).size = x.size + 24 + y.size := rfl
@[simp] theorem join_free (x y : Block) : (x.join y).free = x.free := rfl

theorem join_stop (x y : Block) : (x.join y).stop = x.stop + 24 + y.size := by
  simp only [stop, join]; omega

@[simp] theorem carved_addr (x : Block) (n : ℕ) : (x.carved n).addr = x.addr := by
  unfold carved; split <;> rfl

@[simp] theorem carved_free (x : Block) (n : ℕ) : (x.carved n).free = false := by
  unfold carved; split <;> rfl

theorem le_carved_size {x : Block} {n : ℕ} (h : x.Serves n) : n ≤ (x.carved n).size := by
  unfold carved; split
  · exact Nat.le_refl n
  · exact h.2

theorem Apart.le {x y : Block} (h : x.Apart y) : x.stop ≤ y.addr := by
  unfold Apart at h; omega

theorem Apart.lt {x y : Block} (h : x.Apart y) : x.addr < y.addr := by
  have := h.le; unfold stop at this; omega

theorem Apart.trans {x y z : Block} (h : x.Apart y) (h' : y.Apart z) : x.Apart z := by
  have := h.le; have := h'.le; unfold Apart stop at *; omega

theorem Apart.congr {x y x' y' : Block} (h : x.Apart y) (hx : x'.stop = x.stop)
    (hy : y'.addr = y.addr) : x'.Apart y' := by unfold Apart at *; omega

end Block

open Block

/-- There is room for a guard word at `e` in front of the blocks `post`: it ends before
the next header or coincides with its magic word. -/
def GuardRoom (e : ℕ) (post : List Block) : Prop :=
  match post with
  | [] => e + 4 ≤ 2 ^ 32
  | z :: _ => e = z.addr ∨ e + 4 ≤ z.addr

/-- Merge `b` with the block after it, if that passes the test: the block and what
follows it. -/
def absorbNext (s e : ℕ) (b : Block) (post : List Block) : Block × List Block :=
  match post with
  | [] => (b, [])
  | y :: post' => if y.Merges s e then (b.join y, post') else (b, y :: post')

/-- Merge `b` into the block before it, if that passes the test: what precedes the
block and the block. -/
def absorbPrev (s e : ℕ) (pre : List Block) (b : Block) : List Block × Block :=
  match pre.getLast? with
  | none => (pre, b)
  | some p => if p.Merges s e then (pre.dropLast, p.join b) else (pre, b)

/-- The two merges of a free of `b`: what precedes the resulting block, the block, and
what follows it. -/
def mergeParts (s e : ℕ) (pre : List Block) (b : Block) (post : List Block) :
    List Block × Block × List Block :=
  let next := absorbNext s e b.released post
  let prev := absorbPrev s e pre next.1
  (prev.1, prev.2, next.2)

theorem exists_mergeParts (s e : ℕ) (pre : List Block) (b : Block) (post : List Block) :
    ∃ pre' x post', mergeParts s e pre b post = (pre', x, post') := ⟨_, _, _, rfl⟩

/-- The blocks after `b` is freed. -/
def coalesced (s e : ℕ) (pre : List Block) (b : Block) (post : List Block) : List Block :=
  let parts := mergeParts s e pre b post
  parts.1 ++ parts.2.1 :: parts.2.2

/-- No merge of a `kfree` goes wrong: every merged block has room for its guard
word in front of the block that follows, and the guard word that is written when
`b` is merged into the previous block does not fall on the link words of `b`, which
are read afterwards. -/
def CoalesceFits (s e : ℕ) (pre : List Block) (b : Block) (post : List Block) : Prop :=
  (∀ y post', post = y :: post' → y.Merges s e → GuardRoom (b.join y).stop post') ∧
  ∀ pre' p, pre = pre' ++ [p] → p.Merges s e →
    GuardRoom (p.join (absorbNext s e b.released post).1).stop (absorbNext s e b.released post).2 ∧
    ((p.join (absorbNext s e b.released post).1).stop + 4 ≤ b.addr + 12 ∨
      b.addr + 20 ≤ (p.join (absorbNext s e b.released post).1).stop)

/-- The merges of a block with its neighbours, if it has any. -/
theorem coalesceFits_iff {s e : ℕ} {pre : List Block} {b : Block} {post : List Block} :
    CoalesceFits s e pre b post ↔
    (∀ y ∈ post.head?, y.Merges s e → GuardRoom (b.join y).stop post.tail) ∧
      ∀ p ∈ pre.getLast?, p.Merges s e →
        GuardRoom (p.join (absorbNext s e b.released post).1).stop (absorbNext s e b.released post).2 ∧
          ((p.join (absorbNext s e b.released post).1).stop + 4 ≤ b.addr + 12 ∨
            b.addr + 20 ≤ (p.join (absorbNext s e b.released post).1).stop) := by
  unfold CoalesceFits
  refine and_congr ?_ ?_
  · cases post <;> simp
  · simp only [Option.mem_def, List.getLast?_eq_some_iff]
    exact ⟨fun h p ⟨pre', hp⟩ => h pre' p hp, fun h pre' p hp => h p ⟨pre', hp⟩⟩

instance instDecidableGuardRoom (e : ℕ) : (post : List Block) → Decidable (GuardRoom e post)
  | [] => inferInstanceAs (Decidable (e + 4 ≤ 2 ^ 32))
  | z :: _ => inferInstanceAs (Decidable (e = z.addr ∨ e + 4 ≤ z.addr))

instance instDecidableCoalesceFits (s e : ℕ) (pre : List Block) (b : Block) (post : List Block) :
    Decidable (CoalesceFits s e pre b post) :=
  decidable_of_iff _ coalesceFits_iff.symm

@[simp] theorem absorbPrev_nil (s e : ℕ) (b : Block) : absorbPrev s e [] b = ([], b) := rfl

@[simp] theorem absorbPrev_append_singleton (s e : ℕ) (pre : List Block) (p b : Block) :
    absorbPrev s e (pre ++ [p]) b = if p.Merges s e then (pre, p.join b) else (pre ++ [p], b) := by
  simp [absorbPrev]

@[simp] theorem absorbNext_addr (s e : ℕ) (b : Block) (post : List Block) :
    (absorbNext s e b post).1.addr = b.addr := by
  cases post with
  | nil => rfl
  | cons y post => rw [absorbNext]; split <;> rfl

theorem mem_of_mem_absorbNext {s e : ℕ} {b w : Block} {post : List Block}
    (h : w ∈ (absorbNext s e b post).2) : w ∈ post := by
  cases post with
  | nil => exact h
  | cons y post =>
    rw [absorbNext] at h
    split at h
    · exact List.mem_cons_of_mem _ h
    · exact h

theorem mem_of_mem_absorbPrev {s e : ℕ} {pre : List Block} {b w : Block}
    (h : w ∈ (absorbPrev s e pre b).1) : w ∈ pre := by
  obtain rfl | ⟨pre, p, rfl⟩ := List.eq_nil_or_concat pre
  · exact h
  · rw [List.concat_eq_append, absorbPrev_append_singleton] at h
    rw [List.concat_eq_append]
    split at h
    · exact List.mem_append_left _ h
    · exact h

theorem coalesced_of_parts {s e : ℕ} {pre post pre' post' : List Block} {b x : Block}
    (h : mergeParts s e pre b post = (pre', x, post')) :
    coalesced s e pre b post = pre' ++ x :: post' := by rw [coalesced, h]

/-- The bytes that the blocks `l` add to a block they are merged with. -/
def absorbed (l : List Block) : ℕ := (l.map (·.size + 24)).sum

@[simp] theorem absorbed_nil : absorbed [] = 0 := rfl

@[simp] theorem absorbed_singleton (x : Block) : absorbed [x] = x.size + 24 := by simp [absorbed]

/-- The merge with the next block takes that block or nothing. -/
theorem absorbNext_eq (s e : ℕ) (b : Block) (post : List Block) :
    ∃ r c post', absorbNext s e b post = (c, post') ∧ post = r ++ post' ∧ c.addr = b.addr ∧
      c.free = b.free ∧ c.size = b.size + absorbed r ∧
      (r = [] ∧ (∀ y post₁, post = y :: post₁ → ¬ y.Merges s e) ∨ ∃ y, r = [y] ∧ y.Merges s e) := by
  obtain _ | ⟨y, post⟩ := post
  · exact ⟨[], b, [], rfl, rfl, rfl, rfl, rfl, .inl ⟨rfl, fun _ _ h => absurd h (by simp)⟩⟩
  by_cases hy : y.Merges s e
  · refine ⟨[y], b.join y, post, if_pos hy, rfl, rfl, rfl, ?_, .inr ⟨y, rfl, hy⟩⟩
    rw [join_size, absorbed_singleton]
    omega
  · refine ⟨[], b, y :: post, if_neg hy, rfl, rfl, rfl, rfl, .inl ⟨rfl, fun y' post₁ h => ?_⟩⟩
    obtain ⟨rfl, -⟩ := List.cons.inj h
    exact hy

/-- The merge into the previous block takes that block or nothing. -/
theorem absorbPrev_eq (s e : ℕ) (pre : List Block) (b : Block) :
    ∃ pre' l c, absorbPrev s e pre b = (pre', c) ∧ pre = pre' ++ l ∧ (b.free = true → c.free = true) ∧
      c.size = absorbed l + b.size ∧
      (l = [] ∧ c.addr = b.addr ∧ (∀ pre₁ p, pre = pre₁ ++ [p] → ¬ p.Merges s e) ∨
        ∃ p, l = [p] ∧ p.Merges s e ∧ c.addr = p.addr) := by
  obtain rfl | ⟨pre, p, rfl⟩ := List.eq_nil_or_concat pre
  · exact ⟨[], [], b, rfl, rfl, id, (Nat.zero_add _).symm,
      .inl ⟨rfl, rfl, fun _ _ h => absurd h (by simp)⟩⟩
  rw [List.concat_eq_append, absorbPrev_append_singleton]
  by_cases hp : p.Merges s e
  · refine ⟨pre, [p], p.join b, if_pos hp, rfl, fun _ => hp.1, ?_, .inr ⟨p, rfl, hp, rfl⟩⟩
    rw [join_size, absorbed_singleton]
  · refine ⟨pre ++ [p], [], b, if_neg hp, (List.append_nil _).symm, id, (Nat.zero_add _).symm,
      .inl ⟨rfl, rfl, fun pre₁ p' h => ?_⟩⟩
    obtain ⟨-, h⟩ := List.append_inj' h rfl
    rwa [← List.singleton_inj.mp h]

/-- What a free does to the sequence: `b` and at most one free neighbour on either
side are replaced by one free block `x` that covers them. -/
theorem mergeParts_spec {s e : ℕ} {pre post pre' post' : List Block} {b x : Block}
    (h : mergeParts s e pre b post = (pre', x, post')) :
    ∃ l r, pre = pre' ++ l ∧ post = r ++ post' ∧ x.free = true ∧
      x.size = absorbed l + b.size + absorbed r ∧
      (l = [] ∧ x.addr = b.addr ∧ (∀ pre₁ p, pre = pre₁ ++ [p] → ¬ p.Merges s e) ∨
        ∃ p, l = [p] ∧ p.Merges s e ∧ x.addr = p.addr) ∧
      (r = [] ∧ (∀ y post₁, post = y :: post₁ → ¬ y.Merges s e) ∨ ∃ y, r = [y] ∧ y.Merges s e) := by
  obtain ⟨r, c, post₂, hnext, hpost, hca, hcf, hcs, hr⟩ := absorbNext_eq s e b.released post
  obtain ⟨pre₂, l, y, hprev, hpre, hxf, hxs, hl⟩ := absorbPrev_eq s e pre c
  obtain ⟨rfl, rfl, rfl⟩ : pre₂ = pre' ∧ y = x ∧ post₂ = post' := by
    simpa [mergeParts, hnext, hprev] using h
  refine ⟨l, r, hpre, hpost, hxf hcf, ?_, ?_, hr⟩
  · rw [hxs, hcs, released_size, Nat.add_assoc]
  · rwa [hca] at hl

/-- The room that the merges need is there for the block that they give. -/
theorem guardRoom_of_fits {s e : ℕ} {pre post pre' post' : List Block} {b x : Block}
    (hparts : mergeParts s e pre b post = (pre', x, post')) (hc : CoalesceFits s e pre b post)
    (hp : (pre ++ b :: post).Pairwise Apart) (hb : b.stop + 4 ≤ 2 ^ 32) : GuardRoom x.stop post' := by
  obtain ⟨hc1, hc2⟩ := hc
  obtain ⟨c, post₂, hnext⟩ : ∃ c post₂, absorbNext s e b.released post = (c, post₂) := ⟨_, _, rfl⟩
  rw [mergeParts, hnext] at hparts
  rw [hnext] at hc2
  -- the block after the first merge has room
  have hroom : GuardRoom c.stop post₂ := by
    obtain _ | ⟨y, post⟩ := post
    · obtain ⟨rfl, rfl⟩ := Prod.mk.inj hnext
      exact hb
    by_cases hy : y.Merges s e
    · obtain ⟨rfl, rfl⟩ := Prod.mk.inj (hnext.symm.trans (if_pos hy))
      exact hc1 y post₂ rfl hy
    · obtain ⟨rfl, rfl⟩ := Prod.mk.inj (hnext.symm.trans (if_neg hy))
      exact (List.pairwise_cons.mp (List.pairwise_append.mp hp).2.1).1 y List.mem_cons_self
  obtain rfl | ⟨pre, p, rfl⟩ := List.eq_nil_or_concat pre
  · obtain ⟨-, rfl, rfl⟩ : [] = pre' ∧ c = x ∧ post₂ = post' := by simpa using hparts
    exact hroom
  rw [List.concat_eq_append, absorbPrev_append_singleton] at hparts
  by_cases hpm : p.Merges s e
  · obtain ⟨-, rfl, rfl⟩ : pre = pre' ∧ p.join c = x ∧ post₂ = post' := by simpa [hpm] using hparts
    exact (hc2 pre p List.concat_eq_append hpm).1
  · obtain ⟨-, rfl, rfl⟩ : pre ++ [p] = pre' ∧ c = x ∧ post₂ = post' := by simpa [hpm] using hparts
    exact hroom

/-! ### Arenas -/

/-- The blocks in list order, and the break. -/
@[ext]
structure Arena where
  /-- The blocks. -/
  blocks : List Block
  /-- Where the next block is appended. -/
  brk : ℕ

/-- A block lies in the heap with its guard word, and is aligned. -/
structure Block.Ok (x : Block) : Prop where
  lo : heapLo ≤ x.addr
  hi : x.stop + 4 ≤ heapHi
  size_ge : 8 ≤ x.size
  size_dvd : 8 ∣ x.size
  addr_dvd : 4 ∣ x.addr

/-- What holds of an arena as long as no step goes wrong. The break is above
all the blocks, or it is the address of one of them after a `kfree` has moved it
back. -/
structure Arena.Ok (A : Arena) : Prop where
  /-- The blocks are in order and do not overlap. -/
  apart : A.blocks.Pairwise Apart
  /-- Every block lies in the heap. -/
  block : ∀ x ∈ A.blocks, x.Ok
  /-- The break lies in the heap. -/
  brk_ge : heapLo ≤ A.brk
  brk_lt : A.brk < heapHi
  brk_dvd : 4 ∣ A.brk
  /-- The break is above all the blocks or at one of them. -/
  brk_at : (∀ x ∈ A.blocks, x.addr < A.brk) ∨ ∃ x ∈ A.blocks, x.addr = A.brk
  /-- A last block below the break is in use and ends below it; only the first block
  of all may lack room for its guard word there. -/
  top : ∀ pre x, A.blocks = pre ++ [x] → x.addr < A.brk →
    x.free = false ∧ x.stop ≤ A.brk ∧ (pre ≠ [] → x.stop + 4 ≤ A.brk)
  /-- An empty arena is in its initial state. -/
  empty : A.blocks = [] → A.brk = heapLo

/-- The arena after `heap_init`. -/
def Arena.init : Arena := ⟨[], heapLo⟩

theorem Arena.init_ok : Arena.init.Ok where
  apart := List.Pairwise.nil
  block := fun _ hx => absurd hx List.not_mem_nil
  brk_ge := Nat.le_refl _
  brk_lt := by decide
  brk_dvd := by decide
  brk_at := .inl fun _ hx => absurd hx List.not_mem_nil
  top := fun pre x h => by simp [Arena.init] at h
  empty := fun _ => rfl

/-- Two blocks of the list are one, or one of them lies behind the other. -/
theorem eq_or_apart {l : List Block} (h : l.Pairwise Apart) {x y : Block} (hx : x ∈ l) (hy : y ∈ l) :
    x = y ∨ x.Apart y ∨ y.Apart x := by
  by_cases hxy : x = y
  · exact .inl hxy
  · have : Std.Symm fun x y : Block => x.Apart y ∨ y.Apart x := ⟨fun _ _ => Or.symm⟩
    have hpair : l.Pairwise fun x y => x.Apart y ∨ y.Apart x := h.imp .inl
    exact .inr (hpair.forall hx hy hxy)

/-- Blocks of which one starts before the other are apart. -/
theorem apart_of_lt {l : List Block} (h : l.Pairwise Apart) {x y : Block} (hx : x ∈ l) (hy : y ∈ l)
    (hlt : x.addr < y.addr) : x.Apart y := by
  obtain rfl | hxy | hyx := eq_or_apart h hx hy
  · exact absurd hlt (lt_irrefl _)
  · exact hxy
  · exact absurd hyx.lt hlt.asymm

theorem eq_of_addr_eq {l : List Block} (h : l.Pairwise Apart) {x y : Block} (hx : x ∈ l) (hy : y ∈ l)
    (he : x.addr = y.addr) : x = y := by
  obtain hxy | hxy | hyx := eq_or_apart h hx hy
  · exact hxy
  · exact absurd he hxy.lt.ne
  · exact absurd he hyx.lt.ne'

theorem addr_le_last {pre : List Block} {x y : Block} (h : (pre ++ [x]).Pairwise Apart)
    (hy : y ∈ pre ++ [x]) : y.addr ≤ x.addr := by
  rcases List.mem_append.mp hy with hy | hy
  · exact ((List.pairwise_append.mp h).2.2 y hy x List.mem_cons_self).lt.le
  · rw [List.mem_singleton.mp hy]

theorem Arena.Ok.below {A : Arena} (hA : A.Ok) {x : Block} (hx : x ∈ A.blocks) (hlt : x.addr < A.brk) :
    x.stop ≤ A.brk := by
  rcases hA.brk_at with h | ⟨z, hz, hzb⟩
  · rcases List.eq_nil_or_concat A.blocks with h0 | ⟨pre, y, h0⟩
    · rw [h0] at hx; exact absurd hx List.not_mem_nil
    rw [List.concat_eq_append] at h0
    have hy := (hA.top pre y h0 (h y (by simp [h0]))).2.1
    rw [h0] at hx
    rcases List.mem_append.mp hx with hx | hx
    · have hap := hA.apart
      rw [h0] at hap
      have := ((List.pairwise_append.mp hap).2.2 x hx y List.mem_cons_self).le
      unfold stop at *; omega
    · rw [List.mem_singleton.mp hx]; exact hy
  · rw [← hzb] at hlt ⊢
    exact (apart_of_lt hA.apart hx hz hlt).le

/-! ### Allocation -/

/-- A successful `kmalloc` of `n` bytes, rounded up, hands out a block. -/
inductive Arena.Malloc (n : ℕ) : Arena → Block → Arena → Prop
  /-- The first allocation. -/
  | first {brk : ℕ} (hroom : brk + 24 + n ≤ heapHi) :
      Malloc n ⟨[], brk⟩ ⟨brk, n, false⟩ ⟨[⟨brk, n, false⟩], brk + 20 + n⟩
  /-- The first free block that is large enough serves the request. -/
  | reuse {pre : List Block} {x : Block} {post : List Block} {brk : ℕ}
      (hpre : ∀ y ∈ pre, ¬ y.Serves n) (hx : x.Serves n) :
      Malloc n ⟨pre ++ x :: post, brk⟩ (x.carved n)
        ⟨pre ++ x.carved n :: (x.remainder n ++ post), brk⟩
  /-- A block is appended at the break. -/
  | append {bs : List Block} {brk : ℕ} (hne : bs ≠ []) (hbs : ∀ y ∈ bs, ¬ y.Serves n)
      (hroom : brk + 24 + n < heapHi) :
      Malloc n ⟨bs, brk⟩ ⟨brk, n, false⟩ ⟨bs ++ [⟨brk, n, false⟩], brk + 24 + n⟩

/-- A block is not appended over a block of the list: if the request is appended, all
the blocks lie below the break. -/
def Arena.AppendClear (A : Arena) (n : ℕ) : Prop :=
  (∀ x ∈ A.blocks, ¬ x.Serves n) → A.brk + 24 + n < heapHi → ∀ x ∈ A.blocks, x.addr < A.brk

/-- The request does not wrap round: when less room than a header and a guard word
is left above the break, the request is not one of those for which the new break
is computed modulo `2 ^ 32` to lie between the old one and the end of the heap. -/
def Arena.NoWrap (A : Arena) (n : ℕ) : Prop :=
  A.blocks ≠ [] → heapHi < A.brk + 24 → 2 ^ 32 ≤ n + 24 → 2 ^ 32 + heapHi ≤ A.brk + 24 + n

theorem pairwise_carve {pre : List Block} {x : Block} {post : List Block} {n : ℕ}
    (h : (pre ++ x :: post).Pairwise Apart) :
    (pre ++ x.carved n :: (x.remainder n ++ post)).Pairwise Apart := by
  rw [List.pairwise_append, List.pairwise_cons] at h
  obtain ⟨hpre, ⟨hx, hpost⟩, hcross⟩ := h
  have hadj : ∀ z ∈ pre, z.Apart (x.carved n) := fun z hz =>
    (hcross z hz x List.mem_cons_self).congr rfl (by simp)
  by_cases hs : n + 32 ≤ x.size
  · have hc : (x.carved n).stop = x.addr + 20 + n := by simp [carved, hs, stop]
    have hr : x.remainder n = [⟨x.addr + 20 + n, x.size - n - 24, true⟩] := by simp [remainder, hs]
    -- the guard word of the cut block coincides with the remainder's magic word
    have hcr : (x.carved n).Apart ⟨x.addr + 20 + n, x.size - n - 24, true⟩ := .inl hc
    have hrp : ∀ z ∈ post, Apart ⟨x.addr + 20 + n, x.size - n - 24, true⟩ z := fun z hz => by
      have := hx z hz; unfold Apart stop at *; dsimp only; omega
    rw [hr, List.pairwise_append, List.pairwise_cons, List.cons_append, List.nil_append,
      List.pairwise_cons]
    refine ⟨hpre, ⟨?_, hrp, hpost⟩, ?_⟩
    · intro z hz
      rcases List.mem_cons.mp hz with rfl | hz
      · exact hcr
      · exact hcr.trans (hrp z hz)
    · intro z hz w hw
      rcases List.mem_cons.mp hw with rfl | hw
      · exact hadj z hz
      · refine (hadj z hz).trans ?_
        rcases List.mem_cons.mp hw with rfl | hw
        · exact hcr
        · exact hcr.trans (hrp w hw)
  · have hc : (x.carved n).stop = x.stop := by simp [carved, hs, stop]
    have hr : x.remainder n = [] := by simp [remainder, hs]
    rw [hr, List.nil_append, List.pairwise_append, List.pairwise_cons]
    have hxc : ∀ z ∈ post, (x.carved n).Apart z := fun z hz => (hx z hz).congr hc rfl
    refine ⟨hpre, ⟨hxc, hpost⟩, ?_⟩
    intro z hz w hw
    rcases List.mem_cons.mp hw with rfl | hw
    · exact hadj z hz
    · exact hcross z hz w (List.mem_cons_of_mem _ hw)

/-- The pieces of a cut block lie in the heap. -/
theorem Block.Ok.carve {x : Block} {n : ℕ} (h : x.Ok) (hn : 8 ≤ n) (hd : 8 ∣ n) :
    ∀ z ∈ x.carved n :: x.remainder n, z.Ok := by
  obtain ⟨h1, h2, h3, h4, h5⟩ := h
  intro z hz
  unfold carved remainder at hz
  unfold stop at h2
  split at hz
  · rcases List.mem_cons.mp hz with rfl | hz
    · constructor <;> simp only [stop] <;> omega
    · rw [List.mem_singleton.mp hz]
      constructor <;> simp only [stop] <;> omega
  · rw [List.mem_singleton.mp hz]
    constructor <;> simp only [stop] <;> omega

section AllocOk

variable {pre post bs : List Block} {x : Block} {brk n : ℕ}

theorem Arena.Ok.first (hA : Arena.Ok ⟨[], brk⟩) (hn : 8 ≤ n) (hd : 8 ∣ n) (hroom : brk + 24 + n ≤ heapHi) :
    Arena.Ok ⟨[⟨brk, n, false⟩], brk + 20 + n⟩ := by
  have hbrk := hA.empty rfl
  dsimp only at hbrk
  subst hbrk
  have := heap_bounds
  constructor
  · exact List.pairwise_singleton _ _
  · intro y hy
    rw [List.mem_singleton.mp hy]
    constructor <;> simp only [stop] <;> omega
  · dsimp only; omega
  · dsimp only; omega
  · dsimp only; omega
  · left; intro y hy; rw [List.mem_singleton.mp hy]; dsimp only; omega
  · intro pre y hy _
    obtain ⟨rfl, rfl⟩ : pre = [] ∧ y = ⟨heapLo, n, false⟩ := by
      rcases pre with _ | ⟨z, pre⟩ <;> simp_all
    exact ⟨rfl, Nat.le_refl _, fun h => absurd rfl h⟩
  · simp

/-- A free block that serves a request keeps the arena well formed. -/
theorem Arena.Ok.reuse (hA : Arena.Ok ⟨pre ++ x :: post, brk⟩) (hn : 8 ≤ n) (hd : 8 ∣ n) (hx : x.Serves n) :
    Arena.Ok ⟨pre ++ x.carved n :: (x.remainder n ++ post), brk⟩ := by
  have hmem : ∀ z ∈ pre ++ x.carved n :: (x.remainder n ++ post),
      z ∈ x.carved n :: x.remainder n ∨ z ∈ pre ++ x :: post := by
    intro z hz; simp only [List.mem_append, List.mem_cons] at hz ⊢; tauto
  have hge : ∀ z ∈ x.carved n :: x.remainder n, x.addr ≤ z.addr := by
    intro z hz
    unfold carved remainder at hz
    split at hz <;> simp only [List.mem_cons, List.not_mem_nil, or_false] at hz
    · rcases hz with rfl | rfl <;> dsimp only <;> omega
    · rw [hz]
  have := heap_bounds
  constructor
  · exact pairwise_carve hA.apart
  · intro z hz
    rcases hmem z hz with hz | hz
    · exact (hA.block x (by simp)).carve hn hd z hz
    · exact hA.block z hz
  · exact hA.brk_ge
  · exact hA.brk_lt
  · exact hA.brk_dvd
  · rcases hA.brk_at with h | ⟨z, hz, hzb⟩
    · -- a free block below the break is not the last, so the remainder is below it too
      left
      intro z hz
      rcases hmem z hz with hz | hz
      · have hxb := hA.below (x := x) (by simp) (h x (by simp))
        unfold carved remainder at hz
        have := h x (by simp)
        dsimp only at *
        split at hz <;> simp only [List.mem_cons, List.not_mem_nil, or_false] at hz
        · rcases hz with rfl | rfl <;> unfold stop at hxb <;> dsimp only <;> omega
        · rw [hz]; exact this
      · exact h z hz
    · right
      dsimp only at hz hzb
      rcases List.mem_append.mp hz with hz | hz
      · exact ⟨z, List.mem_append_left _ hz, hzb⟩
      · rcases List.mem_cons.mp hz with rfl | hz
        · exact ⟨z.carved n, by simp, by simpa using hzb⟩
        · exact ⟨z, by simp [hz], hzb⟩
  · intro pre' y hy hlt
    dsimp only at hy hlt
    rcases List.eq_nil_or_concat post with rfl | ⟨post, z, rfl⟩
    · -- the block that serves the request is last, so it is not below the break
      have hxlt : x.addr < brk := by
        refine lt_of_le_of_lt (hge y ?_) hlt
        have : y ∈ pre' ++ [y] := by simp
        rw [← hy, List.append_nil] at this
        rcases List.mem_append.mp this with h | h
        · have hlast : ∀ w ∈ pre, w.addr < x.addr := fun w hw =>
            ((List.pairwise_append.mp hA.apart).2.2 w hw x List.mem_cons_self).lt
          have := addr_le_last (hy ▸ pairwise_carve hA.apart) (y := x.carved n)
            (by rw [← hy]; simp)
          have := hlast y h
          simp at *; omega
        · exact h
      have := (hA.top pre x rfl hxlt).1
      rw [hx.1] at this
      exact absurd this (by simp)
    · rw [List.concat_eq_append] at *
      have hy' : (pre ++ x.carved n :: (x.remainder n ++ post)) ++ [z] = pre' ++ [y] := by
        rw [← hy]; simp
      obtain ⟨h1, h2⟩ := List.append_inj' hy' rfl
      obtain rfl := List.singleton_inj.mp h2
      have := hA.top (pre ++ x :: post) z (by simp) hlt
      exact ⟨this.1, this.2.1, fun _ => this.2.2 (by simp)⟩
  · intro h; simp at h

/-- A block that is appended above all the others keeps the arena well formed. -/
theorem Arena.Ok.append (hA : Arena.Ok ⟨bs, brk⟩) (hn : 8 ≤ n) (hd : 8 ∣ n) (hroom : brk + 24 + n < heapHi)
    (hall : ∀ y ∈ bs, y.addr < brk) : Arena.Ok ⟨bs ++ [⟨brk, n, false⟩], brk + 24 + n⟩ := by
  have hge := hA.brk_ge
  have hdvd := hA.brk_dvd
  dsimp only at hge hdvd
  have := heap_bounds
  constructor
  · rw [List.pairwise_append]
    refine ⟨hA.apart, List.pairwise_singleton _ _, fun y hy z hz => ?_⟩
    rw [List.mem_singleton.mp hz]
    have h1 := hA.below hy (hall y hy)
    have h2 := hA.block y hy
    have := h2.addr_dvd
    have := h2.size_dvd
    unfold Apart stop at *; dsimp only at *; omega
  · intro y hy
    rcases List.mem_append.mp hy with hy | hy
    · exact hA.block y hy
    · rw [List.mem_singleton.mp hy]
      constructor <;> simp only [stop] <;> omega
  · dsimp only; omega
  · exact hroom
  · dsimp only; omega
  · left
    intro y hy
    rcases List.mem_append.mp hy with hy | hy
    · have := hall y hy; dsimp only; omega
    · rw [List.mem_singleton.mp hy]; dsimp only; omega
  · intro pre y hy _
    obtain ⟨-, h2⟩ := List.append_inj' hy rfl
    obtain rfl := List.singleton_inj.mp h2
    refine ⟨rfl, ?_, fun _ => ?_⟩ <;> simp only [stop] <;> omega
  · intro h; simp at h

end AllocOk

/-- Allocation keeps the arena well formed. -/
theorem Arena.Ok.malloc {A A' : Arena} {n : ℕ} {x : Block} (hA : A.Ok) (hn : 8 ≤ n) (hd : 8 ∣ n)
    (hc : A.AppendClear n) (h : A.Malloc n x A') : A'.Ok := by
  cases h with
  | first hroom => exact hA.first hn hd hroom
  | reuse _ hx => exact hA.reuse hn hd hx
  | append _ hbs hroom => exact hA.append hn hd hroom (hc hbs hroom)

section Malloc

variable {A A' : Arena} {n : ℕ} {x y : Block}

theorem Arena.Malloc.mem (h : A.Malloc n x A') : x ∈ A'.blocks := by
  cases h <;> simp

theorem Arena.Malloc.free_eq (h : A.Malloc n x A') : x.free = false := by
  cases h with
  | first => rfl
  | reuse => exact carved_free _ _
  | append => rfl

theorem Arena.Malloc.le_size (h : A.Malloc n x A') : n ≤ x.size := by
  cases h with
  | first => exact Nat.le_refl n
  | reuse _ hx => exact le_carved_size hx
  | append => exact Nat.le_refl n

theorem Arena.Malloc.mem_of_mem (h : A.Malloc n x A') (hy : y ∈ A.blocks) (hf : y.free = false) :
    y ∈ A'.blocks := by
  cases h with
  | first => exact absurd hy List.not_mem_nil
  | reuse _ hx =>
    simp only [List.mem_append, List.mem_cons] at hy ⊢
    obtain hy | rfl | hy := hy
    · exact .inl hy
    · exact absurd (hx.1.symm.trans hf) (by simp)
    · exact .inr (.inr (.inr hy))
  | append => exact List.mem_append_left _ hy

/-- The block that is handed out was not in use. -/
theorem Arena.Malloc.ne (h : A.Malloc n x A') (hA : A.blocks.Pairwise Apart) (hc : A.AppendClear n)
    (hy : y ∈ A.blocks) (hf : y.free = false) : y.addr ≠ x.addr := by
  intro he
  cases h with
  | first => exact absurd hy List.not_mem_nil
  | reuse _ hx =>
    rw [carved_addr] at he
    rw [eq_of_addr_eq hA hy (by simp) he, hx.1] at hf
    exact absurd hf (by simp)
  | append _ hbs hroom => exact absurd he (hc hbs hroom y hy).ne

theorem Arena.Malloc.eq_or_mem (h : A.Malloc n x A') (hy : y ∈ A'.blocks) (hf : y.free = false) :
    y = x ∨ y ∈ A.blocks := by
  cases h with
  | first => exact .inl (List.mem_singleton.mp hy)
  | @reuse pre z post brk _ hx =>
    simp only [List.mem_append, List.mem_cons] at hy ⊢
    obtain hy | rfl | hy | hy := hy
    · exact .inr (.inl hy)
    · exact .inl rfl
    · unfold remainder at hy
      split at hy
      · rw [List.mem_singleton.mp hy] at hf; exact absurd hf (by simp)
      · exact absurd hy List.not_mem_nil
    · exact .inr (.inr (.inr hy))
  | append =>
    obtain hy | hy := List.mem_append.mp hy
    · exact .inr hy
    · exact .inl (List.mem_singleton.mp hy)

end Malloc

/-! ### Freeing -/

/-- The end of a `kfree`: an arena of one free block is reset, and a free last block
moves the break back to it. -/
def Arena.settled (s : ℕ) (A : Arena) : Arena :=
  match A.blocks.getLast? with
  | none => A
  | some x => if x.free = true then if A.blocks.length = 1 then ⟨[], s⟩ else ⟨A.blocks, x.addr⟩ else A

/-- An accepted `kfree` of the block `b`. -/
def Arena.free (A : Arena) (pre : List Block) (b : Block) (post : List Block) : Arena :=
  Arena.settled heapLo ⟨coalesced heapLo A.brk pre b post, A.brk⟩

/-- The end of a `kfree` leaves the blocks as they are or resets the arena. -/
theorem settled_blocks (s : ℕ) (A : Arena) :
    (A.settled s).blocks = A.blocks ∨ A.blocks.length = 1 ∧ (A.settled s).blocks = [] := by
  unfold Arena.settled
  split
  · exact .inl rfl
  · split_ifs with _ hlen
    · exact .inr ⟨hlen, rfl⟩
    · exact .inl rfl
    · exact .inl rfl

theorem mem_settled {s : ℕ} {A : Arena} {y : Block} (hy : y ∈ A.blocks) (hf : y.free = false) :
    y ∈ (A.settled s).blocks := by
  unfold Arena.settled
  split
  · exact hy
  · rename_i x hx
    split_ifs with hxf hlen
    · -- the only block is free
      obtain ⟨z, hz⟩ := List.length_eq_one_iff.mp hlen
      rw [hz, List.getLast?_singleton] at hx
      rw [hz] at hy
      rw [List.mem_singleton.mp hy, Option.some.inj hx, hxf] at hf
      exact absurd hf (by simp)
    · exact hy
    · exact hy

theorem mem_of_mem_settled {s : ℕ} {A : Arena} {y : Block} (hy : y ∈ (A.settled s).blocks) :
    y ∈ A.blocks := by
  obtain h | ⟨-, h⟩ := settled_blocks s A
  · rwa [h] at hy
  · rw [h] at hy
    exact absurd hy List.not_mem_nil

theorem mem_mergeParts {s e : ℕ} {pre post pre' post' : List Block} {b x y : Block}
    (hparts : mergeParts s e pre b post = (pre', x, post')) (hy : y ∈ pre ∨ y ∈ post)
    (hf : y.free = false) : y ∈ pre' ∨ y ∈ post' := by
  obtain ⟨l, r, rfl, rfl, -, -, hl, hr⟩ := mergeParts_spec hparts
  obtain hy | hy := hy
  · obtain hy | hy := List.mem_append.mp hy
    · exact .inl hy
    · obtain ⟨rfl, -⟩ | ⟨p, rfl, hpm, -⟩ := hl
      · exact absurd hy List.not_mem_nil
      · rw [List.mem_singleton.mp hy, hpm.1] at hf
        exact absurd hf (by simp)
  · obtain hy | hy := List.mem_append.mp hy
    · obtain ⟨rfl, -⟩ | ⟨p, rfl, hpm⟩ := hr
      · exact absurd hy List.not_mem_nil
      · rw [List.mem_singleton.mp hy, hpm.1] at hf
        exact absurd hf (by simp)
    · exact .inr hy

theorem mem_of_mem_mergeParts {s e : ℕ} {pre post pre' post' : List Block} {b x y : Block}
    (hparts : mergeParts s e pre b post = (pre', x, post')) (hy : y ∈ pre' ∨ y ∈ post') :
    y ∈ pre ∨ y ∈ post := by
  obtain ⟨l, r, rfl, rfl, -⟩ := mergeParts_spec hparts
  exact hy.imp (List.mem_append_left _) (List.mem_append_right _)

/-- A block with room for its guard word is apart from all that follows. -/
theorem apart_of_guardRoom {x : Block} {post : List Block} (h : GuardRoom x.stop post)
    (hp : post.Pairwise Apart) : ∀ z ∈ post, x.Apart z := by
  intro z hz
  cases post with
  | nil => exact absurd hz List.not_mem_nil
  | cons y post =>
    rcases List.mem_cons.mp hz with rfl | hz
    · exact h
    · exact Apart.trans (y := y) h ((List.pairwise_cons.mp hp).1 z hz)

/-- A free in which no merge goes wrong keeps the blocks apart. -/
theorem pairwise_coalesced {s e : ℕ} {pre : List Block} {b : Block} {post : List Block}
    (hc : CoalesceFits s e pre b post) (h : (pre ++ b :: post).Pairwise Apart)
    (hb : b.stop + 4 ≤ 2 ^ 32) : (coalesced s e pre b post).Pairwise Apart := by
  obtain ⟨pre', x, post', heq⟩ := exists_mergeParts s e pre b post
  obtain ⟨l, r, rfl, rfl, -, -, hl, -⟩ := mergeParts_spec heq
  have hroom := guardRoom_of_fits heq hc h hb
  rw [coalesced_of_parts heq]
  rw [List.append_assoc, List.pairwise_append, List.pairwise_append, List.pairwise_cons,
    List.pairwise_append] at h
  obtain ⟨hpre, ⟨-, ⟨-, -, hpost, -⟩, -⟩, hcross⟩ := h
  rw [List.pairwise_append, List.pairwise_cons]
  have hx := apart_of_guardRoom hroom hpost
  have hadj : ∀ w ∈ pre', w.Apart x := by
    intro w hw
    rcases hl with ⟨rfl, hxa, -⟩ | ⟨p, rfl, -, hxa⟩
    · exact (hcross w hw b (by simp)).congr rfl hxa
    · exact (hcross w hw p (by simp)).congr rfl hxa
  refine ⟨hpre, ⟨hx, hpost⟩, fun w hw z hz => ?_⟩
  rcases List.mem_cons.mp hz with rfl | hz
  · exact hadj w hw
  · exact (hadj w hw).trans (hx z hz)

theorem Arena.Ok.merged {A : Arena} (hA : A.Ok) {pre' l r post' : List Block} {b x : Block}
    (h : A.blocks = pre' ++ l ++ b :: (r ++ post')) (hb : b.addr < A.brk)
    (hl : (l = [] ∧ x.addr = b.addr) ∨ ∃ p, l = [p] ∧ p.Merges heapLo A.brk ∧ x.addr = p.addr)
    (hr : r = [] ∨ ∃ y, r = [y] ∧ y.Merges heapLo A.brk)
    (hsize : x.size = absorbed l + b.size + absorbed r)
    (hroom : GuardRoom x.stop post') : x.Ok := by
  have hbounds := heap_bounds
  have hap := hA.apart
  rw [h] at hap
  have hbok := hA.block b (by rw [h]; simp)
  have hlo : heapLo ≤ x.addr ∧ 4 ∣ x.addr := by
    rcases hl with ⟨-, hxa⟩ | ⟨p, rfl, -, hxa⟩
    · rw [hxa]; exact ⟨hbok.lo, hbok.addr_dvd⟩
    · have := hA.block p (by rw [h]; simp)
      rw [hxa]; exact ⟨this.lo, this.addr_dvd⟩
  have hdvd : 8 ∣ x.size ∧ 8 ≤ x.size := by
    have h1 := hbok.size_dvd
    have h2 := hbok.size_ge
    have hl' : 8 ∣ absorbed l := by
      rcases hl with ⟨rfl, -⟩ | ⟨p, rfl, -, -⟩
      · simp
      · have := (hA.block p (by rw [h]; simp)).size_dvd
        rw [absorbed_singleton]; omega
    have hr' : 8 ∣ absorbed r := by
      rcases hr with rfl | ⟨y, rfl, -⟩
      · simp
      · have := (hA.block y (by rw [h]; simp)).size_dvd
        rw [absorbed_singleton]; omega
    omega
  refine ⟨hlo.1, ?_, hdvd.2, hdvd.1, hlo.2⟩
  cases post' with
  | cons z post' =>
    have := (hA.block z (by rw [h]; simp)).hi
    simp only [GuardRoom] at hroom
    unfold stop at *; omega
  | nil =>
    rcases hr with rfl | ⟨y, rfl, hy⟩
    · -- `b` is the last block
      rcases hl with ⟨rfl, hxa⟩ | ⟨p, rfl, -, hxa⟩
      · have := hbok.hi
        simp at hsize
        unfold stop at *; omega
      · have htop := (hA.top (pre' ++ [p]) b (by simpa using h) hb).2.2 (by simp)
        have hpb := ((List.pairwise_append.mp hap).2.2 p (by simp) b (by simp)).le
        have h1 := hA.brk_lt
        have h2 := hA.brk_dvd
        simp at hsize
        unfold stop at *; omega
    · -- a free last block is not below the break
      have := (hA.top (pre' ++ l ++ [b]) y (by simp [h]) hy.2.2).1
      rw [hy.1] at this
      exact absurd this (by simp)

/-- A break above all the blocks or at one of them stays so: a block at the break is neither
`b` nor a merged neighbour. -/
theorem Arena.Ok.brk_at_merged {A : Arena} (hA : A.Ok) {pre' l r post' : List Block} {b x : Block}
    (h : A.blocks = pre' ++ l ++ b :: (r ++ post')) (hb : b.addr < A.brk)
    (hl : (l = [] ∧ x.addr = b.addr) ∨ ∃ p, l = [p] ∧ p.Merges heapLo A.brk ∧ x.addr = p.addr)
    (hr : r = [] ∨ ∃ y, r = [y] ∧ y.Merges heapLo A.brk) :
    (∀ y ∈ pre' ++ x :: post', y.addr < A.brk) ∨ ∃ y ∈ pre' ++ x :: post', y.addr = A.brk := by
  have hxlt : x.addr < A.brk := by
    rcases hl with ⟨-, hxa⟩ | ⟨p, -, hp, hxa⟩
    · omega
    · have := hp.2.2; omega
  rcases hA.brk_at with hall | ⟨z, hz, hzb⟩
  · left
    intro y hy
    rcases List.mem_append.mp hy with hy | hy
    · exact hall y (by rw [h]; simp [hy])
    · rcases List.mem_cons.mp hy with rfl | hy
      · exact hxlt
      · exact hall y (by rw [h]; simp [hy])
  · right
    refine ⟨z, ?_, hzb⟩
    rw [h] at hz
    simp only [List.mem_append, List.mem_cons] at hz ⊢
    rcases hz with (hz | hz) | rfl | hz | hz
    · exact .inl hz
    · rcases hl with ⟨rfl, -⟩ | ⟨p, rfl, hp, -⟩
      · exact absurd hz List.not_mem_nil
      · rw [List.mem_singleton.mp hz] at hzb
        exact absurd hp.2.2 (by omega)
    · omega
    · rcases hr with rfl | ⟨y, rfl, hy⟩
      · exact absurd hz List.not_mem_nil
      · rw [List.mem_singleton.mp hz] at hzb
        exact absurd hy.2.2 (by omega)
    · exact .inr (.inr hz)

/-- The end of a `kfree` gives a well-formed arena: only a last block in use has to lie below
the break. -/
theorem settled_ok {bs : List Block} {e : ℕ} (hne : bs ≠ []) (hpair : bs.Pairwise Apart)
    (hok : ∀ y ∈ bs, y.Ok)
    (he : heapLo ≤ e ∧ e < heapHi ∧ 4 ∣ e) (hat : (∀ y ∈ bs, y.addr < e) ∨ ∃ y ∈ bs, y.addr = e)
    (htop : ∀ pre y, bs = pre ++ [y] → y.addr < e → y.free = false →
      y.stop ≤ e ∧ (pre ≠ [] → y.stop + 4 ≤ e)) : (Arena.settled heapLo ⟨bs, e⟩).Ok := by
  have hbounds := heap_bounds
  obtain ⟨he1, he2, he3⟩ := he
  obtain h0 | ⟨init, y, rfl⟩ := List.eq_nil_or_concat bs
  · exact absurd h0 hne
  rw [List.concat_eq_append] at *
  have hset : Arena.settled heapLo ⟨init ++ [y], e⟩ = if y.free = true then
      if (init ++ [y]).length = 1 then ⟨[], heapLo⟩ else ⟨init ++ [y], y.addr⟩ else ⟨init ++ [y], e⟩ := by
    simp [Arena.settled]
  rw [hset]
  by_cases hy : y.free = true
  · rw [if_pos hy]
    by_cases hlen : (init ++ [y]).length = 1
    · rw [if_pos hlen]; exact Arena.init_ok
    · rw [if_neg hlen]
      have hyok := hok y (by simp)
      refine ⟨hpair, hok, hyok.lo, ?_, hyok.addr_dvd, .inr ⟨y, by simp, rfl⟩, ?_, by simp⟩
      · have := hyok.hi; unfold stop at this; dsimp only; omega
      · intro pre z hz hzlt
        obtain ⟨-, h2⟩ := List.append_inj' hz rfl
        obtain rfl := List.singleton_inj.mp h2
        exact absurd hzlt (lt_irrefl _)
  · rw [if_neg hy]
    refine ⟨hpair, hok, he1, he2, he3, hat, ?_, by simp⟩
    intro pre z hz hzlt
    have hzf : z.free = false := by
      obtain ⟨-, h2⟩ := List.append_inj' hz rfl
      rw [← List.singleton_inj.mp h2]
      exact Bool.not_eq_true _ ▸ hy
    exact ⟨hzf, htop pre z hz hzlt hzf⟩

/-- Freeing keeps the arena well formed, if no merge goes wrong. -/
theorem Arena.Ok.free {A : Arena} (hA : A.Ok) {pre post : List Block} {b : Block}
    (h : A.blocks = pre ++ b :: post) (hlt : b.addr < A.brk)
    (hc : CoalesceFits heapLo A.brk pre b post) : (A.free pre b post).Ok := by
  have hbounds := heap_bounds
  have hbok := hA.block b (by rw [h]; simp)
  have hap := hA.apart
  rw [h] at hap
  have hb : b.stop + 4 ≤ 2 ^ 32 := by have := hbok.hi; omega
  have hpair := pairwise_coalesced hc hap hb
  obtain ⟨pre', x, post', heq⟩ := exists_mergeParts heapLo A.brk pre b post
  obtain ⟨l, r, rfl, rfl, hxf, hsize, hl, hr⟩ := mergeParts_spec heq
  replace hl := hl.imp_left fun h => And.intro h.1 h.2.1
  replace hr := hr.imp_left And.left
  have hxok : x.Ok := hA.merged h hlt hl hr hsize (guardRoom_of_fits heq hc hap hb)
  have hok : ∀ y ∈ pre' ++ x :: post', y.Ok := by
    intro y hy
    rcases List.mem_append.mp hy with hy | hy
    · exact hA.block y (by rw [h]; simp [hy])
    · rcases List.mem_cons.mp hy with rfl | hy
      · exact hxok
      · exact hA.block y (by rw [h]; simp [hy])
  rw [coalesced_of_parts heq] at hpair
  rw [Arena.free, coalesced_of_parts heq]
  refine settled_ok (by simp) hpair hok ⟨hA.brk_ge, hA.brk_lt, hA.brk_dvd⟩ (hA.brk_at_merged h hlt hl hr) ?_
  intro pre₁ z hz hzlt hzf
  -- the last block is in use, so it is a block that follows the merged one
  rcases List.eq_nil_or_concat post' with rfl | ⟨post₁, w, rfl⟩
  · obtain ⟨-, h3⟩ := List.append_inj' hz rfl
    rw [← List.singleton_inj.mp h3, hxf] at hzf
    exact absurd hzf (by simp)
  · rw [List.concat_eq_append] at *
    have hw : (pre' ++ x :: post₁) ++ [w] = pre₁ ++ [z] := by rw [← hz]; simp
    obtain ⟨-, h3⟩ := List.append_inj' hw rfl
    obtain rfl := List.singleton_inj.mp h3
    have := hA.top (pre' ++ l ++ b :: (r ++ post₁)) w (by rw [h]; simp) hzlt
    exact ⟨this.2.1, fun _ => this.2.2 (by simp)⟩

end SpatulaOS.Mm
