import SpatulaOS.Lib.Floyd
import SpatulaOS.Mm.Heap

/-!
# `heap_validate` on any memory

What `heap_validate` does when the headers hold anything at all. Its first loop is the race
of two pointers of `Lib.Floyd` (`cycleLoop_eq_race`), so it ends, and it reports a cycle
exactly when the `next` links from `heap_head` never come to `NULL` (`cycleLoop_spec`).
Otherwise the second loop runs, on a finite list, and its report is that of `heap_validate`
(`heapValidate_terminates`). What it has tested when it reports a valid heap is `Valid`
(`valid_of_heapValidate`).

It does not compare one block with another, and the end of a block is an address that wraps
round, so blocks may overlap, and one whose end wraps may reach past `heap_end`
(`heapValidate_accepts`).
-/

namespace SpatulaOS.Mm

open ByteMemory Floyd SpatulaOS.Video

variable {h : Heap} {m : Mem} {k : ℕ} {c : Word} {bs : List Word} {r : VgaCall}

/-- What `heap_validate` prints when its tests pass. -/
def validMessage : VgaCall := .print "Heap structure valid.\n"

/-- What `heap_validate` prints when it finds a cycle. -/
def cycleMessage : VgaCall := .print "Heap cycle detected!\n"

/-! ### The first loop -/

theorem cycleLoop_eq_race (m : Mem) (k : ℕ) (slow fast : Word) :
    cycleLoop m k slow fast = race (next m) 0 k slow fast := by
  induction k generalizing slow fast with
  | zero => rfl
  | succ k ih =>
    rw [cycleLoop, race]
    dsimp only
    rw [ih]

/-! ### The second loop -/

/-- The loop over the blocks ends on a finite list. -/
theorem validateLoop_some (hc : Chain (next h.mem) 0 c bs) (hk : bs.length < k) :
    ∃ r, validateLoop h k c = some r := by
  induction hc generalizing k with
  | nil =>
    obtain ⟨k, rfl⟩ := Nat.exists_eq_add_of_lt hk
    exact ⟨validMessage, rfl⟩
  | cons hx _ ih =>
    obtain ⟨k, rfl⟩ : ∃ j, k = j + 1 := ⟨k - 1, by omega⟩
    rw [validateLoop, if_neg hx]
    split_ifs
    · exact ⟨_, rfl⟩
    · exact ⟨_, rfl⟩
    · exact ⟨_, rfl⟩
    · exact ⟨_, rfl⟩
    · exact ih (by simpa using hk)

theorem validateLoop_ne_cycle (hr : validateLoop h k c = some r) : r ≠ cycleMessage := by
  induction k generalizing c with
  | zero => cases hr
  | succ k ih =>
    rw [validateLoop] at hr
    split_ifs at hr
    · exact Option.some.inj hr ▸ by decide
    · exact Option.some.inj hr ▸ by decide
    · exact Option.some.inj hr ▸ by decide
    · exact Option.some.inj hr ▸ by decide
    · exact Option.some.inj hr ▸ by decide
    · exact ih hr

/-! ### Both -/

/-- The first loop ends. It finds no cycle exactly when the list is finite. -/
theorem cycleLoop_spec (h : Heap) :
    ∃ b k₀, (∀ k, k₀ ≤ k → cycleLoop h.mem k h.heapHead h.heapHead = some b) ∧
      (b = true ↔ ∀ i, (next h.mem)^[i] h.heapHead ≠ 0) ∧
      (b = false → ∃ bs, Chain (next h.mem) 0 h.heapHead bs) := by
  obtain ⟨b, k₀, hrace, hiff⟩ := race_spec (next h.mem) 0 h.heapHead
  refine ⟨b, k₀, fun k hk => (cycleLoop_eq_race _ _ _ _).trans (hrace k hk), hiff, fun hb => ?_⟩
  have hnull : ¬ ∀ i, (next h.mem)^[i] h.heapHead ≠ 0 := fun hall => by
    rw [hb] at hiff
    exact absurd (hiff.mpr hall) (by decide)
  obtain ⟨i, hi⟩ := not_forall_not.mp hnull
  exact Chain.of_iterate hi

/-- **`heap_validate` ends on every memory**, and it reports a cycle exactly when the chain of
`next` links never comes to `NULL`: then its first loop has found one. Otherwise the loop over the
blocks runs on a finite list, and what that loop reports is reported. -/
theorem heapValidate_terminates (h : Heap) :
    ∃ b r k₀, (∀ k, k₀ ≤ k → cycleLoop h.mem k h.heapHead h.heapHead = some b ∧ heapValidate k h = some r) ∧
      (b = true ↔ ∀ i, (next h.mem)^[i] h.heapHead ≠ 0) ∧
      (r = cycleMessage ↔ ∀ i, (next h.mem)^[i] h.heapHead ≠ 0) ∧
      (b = false → ∃ bs, Chain (next h.mem) 0 h.heapHead bs ∧ ∀ k, k₀ ≤ k →
        validateLoop h k h.heapHead = some r) := by
  obtain ⟨b, k₀, hcycle, hiff, hchain⟩ := cycleLoop_spec h
  cases b with
  | true =>
    refine ⟨true, cycleMessage, k₀, fun k hk => ⟨hcycle k hk, ?_⟩, hiff, iff_of_true rfl (hiff.mp rfl),
      fun hb => absurd hb (by decide)⟩
    rw [heapValidate, hcycle k hk]
    rfl
  | false =>
    obtain ⟨bs, hbs⟩ := hchain rfl
    obtain ⟨r, hr⟩ := validateLoop_some hbs (Nat.lt_succ_self _)
    have hloop (k : ℕ) (hk : max k₀ (bs.length + 1) ≤ k) : validateLoop h k h.heapHead = some r :=
      validateLoop_mono hr (le_of_max_le_right hk)
    have hnull : ¬ ∀ i, (next h.mem)^[i] h.heapHead ≠ 0 := fun hall => absurd (hiff.mpr hall) (by decide)
    refine ⟨false, r, max k₀ (bs.length + 1), fun k hk => ⟨hcycle k (le_of_max_le_left hk), ?_⟩, hiff,
      iff_of_false (validateLoop_ne_cycle hr) hnull, fun _ => ⟨bs, hbs, hloop⟩⟩
    rw [heapValidate, hcycle k (le_of_max_le_left hk)]
    exact hloop k hk

/-! ### What has been tested -/

/-- The end of a block, computed without wrapping round. -/
def endOf (m : Mem) (b : Word) : ℕ := b.toNat + 20 + (size m b).toNat

/-- The tests of one block. -/
structure ValidBlock (h : Heap) (b : Word) : Prop where
  magic : magic h.mem b = HEAP_MAGIC
  linked : next h.mem b ≠ 0 → prev h.mem (next h.mem b) = b
  start : h.heapStart ≤ b
  lt : b < h.heapEnd
  /-- The block ends at `heap_end` at the latest, if its end is an address at all. -/
  stop : endOf h.mem b < 2 ^ 32 → endOf h.mem b ≤ h.heapEnd.toNat

/-- What `heap_validate` makes sure of: a finite list of distinct blocks, each of which passes
the tests. -/
structure Valid (h : Heap) (bs : List Word) : Prop where
  chain : Chain (next h.mem) 0 h.heapHead bs
  nodup : bs.Nodup
  block : ∀ b ∈ bs, ValidBlock h b

theorem validBlock_of_validateLoop (hc : Chain (next h.mem) 0 c bs)
    (hv : validateLoop h k c = some validMessage) : ∀ b ∈ bs, ValidBlock h b := by
  induction hc generalizing k with
  | nil => exact fun b hb => absurd hb List.not_mem_nil
  | @cons x bs hx _ ih =>
    cases k with
    | zero => exact absurd hv nofun
    | succ k =>
      rw [validateLoop, if_neg hx] at hv
      split_ifs at hv with h1 h2 h3 h4
      · exact absurd hv (by simp [validMessage])
      · exact absurd hv (by simp [validMessage])
      · exact absurd hv (by simp [validMessage])
      · exact absurd hv (by simp [validMessage])
      · rw [not_or] at h3
        have hblock : ValidBlock h x := by
          refine ⟨not_not.mp h1, fun hne => not_not.mp fun h => h2 ⟨hne, h⟩, ?_, ?_, fun hlt => ?_⟩
          · exact BitVec.not_lt.mp h3.1
          · exact BitVec.not_le.mp h3.2
          · rw [SIZEOF_HEADER] at h4
            unfold endOf at hlt ⊢
            bv_omega
        intro b hb
        obtain rfl | hb := List.mem_cons.mp hb
        · exact hblock
        · exact ih hv b hb

/-- **A heap that is reported valid is `Valid`.** -/
theorem valid_of_heapValidate (hv : heapValidate k h = some validMessage) : ∃ bs, Valid h bs := by
  obtain ⟨b, k₀, hcycle, -, hchain⟩ := cycleLoop_spec h
  rw [heapValidate] at hv
  cases hc : cycleLoop h.mem k h.heapHead h.heapHead with
  | none => rw [hc] at hv; exact absurd hv nofun
  | some b' =>
    rw [hc] at hv
    obtain rfl : b' = b := Option.some.inj
      ((cycleLoop_mono hc (le_max_left k k₀)).symm.trans (hcycle _ (le_max_right k k₀)))
    cases b' with
    | true => exact absurd hv (by simp [validMessage])
    | false =>
      obtain ⟨bs, hbs⟩ := hchain rfl
      exact ⟨bs, hbs, hbs.nodup, validBlock_of_validateLoop hbs hv⟩

/-- The memory with a header at `b`. -/
def header (m : Mem) (b size next prev : Word) : Mem :=
  setPrev (setNext (setFree (setSize (setMagic m b HEAP_MAGIC) b size) b 0) b next) b prev

/-- The first of these two blocks covers the header of the second. -/
def overlapping : Heap :=
  { mem := header (header (fun _ => 0) 0x400000 40 0x400014 0) 0x400014 8 0 0x400000
    heapStart := 0x400000, heapEnd := 0x400040, heapHead := 0x400000 }

/-- The end of the only block wraps round to the address `16`. -/
def wrapping : Heap :=
  { mem := header (fun _ => 0) 0x400000 0xFFBFFFFC 0 0
    heapStart := 0x400000, heapEnd := 0x400040, heapHead := 0x400000 }

theorem overlapping_valid : ∃ bs, Valid overlapping bs :=
  valid_of_heapValidate (k := 3) (by decide +kernel)

/-- Blocks that overlap, and a block that reaches past `heap_end`, are reported valid. -/
theorem heapValidate_accepts :
    (∃ bs, Chain (next overlapping.mem) 0 overlapping.heapHead bs ∧
      heapValidate 3 overlapping = some validMessage ∧
      ¬ bs.Pairwise fun b c => endOf overlapping.mem b ≤ c.toNat ∨ endOf overlapping.mem c ≤ b.toNat) ∧
    ∃ bs, Chain (next wrapping.mem) 0 wrapping.heapHead bs ∧
      heapValidate 3 wrapping = some validMessage ∧
      ¬ ∀ b ∈ bs, endOf wrapping.mem b ≤ wrapping.heapEnd.toNat := by
  constructor
  · have h1 : next overlapping.mem 0x400000 = 0x400014 := by decide +kernel
    have h2 : next overlapping.mem 0x400014 = 0 := by decide +kernel
    have hchain : Chain (next overlapping.mem) 0 overlapping.heapHead [0x400000, 0x400014] :=
      .cons (by decide) (h1 ▸ .cons (by decide) (h2 ▸ .nil))
    exact ⟨_, hchain, by decide +kernel, by decide +kernel⟩
  · have h1 : next wrapping.mem 0x400000 = 0 := by decide +kernel
    have hchain : Chain (next wrapping.mem) 0 wrapping.heapHead [0x400000] :=
      .cons (by decide) (h1 ▸ .nil)
    have hend : wrapping.heapEnd.toNat < endOf wrapping.mem 0x400000 := by decide +kernel
    exact ⟨_, hchain, by decide +kernel,
      fun hall => absurd (hall _ (List.mem_singleton_self _)) (Nat.not_le.mpr hend)⟩

end SpatulaOS.Mm
