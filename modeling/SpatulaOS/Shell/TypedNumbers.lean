import SpatulaOS.Mm.HeapSize
import SpatulaOS.Shell.LastAlloc
import SpatulaOS.Video.Cursor

/-!
# Numbers in command lines

What a number that was typed means to `alloc` and `free`. `free` reads an address as `alloc` prints it
(`atoiHex_reads`). `alloc` reads its number modulo `2 ^ 32`, and its test `size <= 0` finds only some of the
numbers that are too large: from `2 ^ 32` on, many come to be small ones, and it then reports a block that
is too small (`allocSound_iff`).
-/

namespace SpatulaOS.Shell

open ByteMemory Numeral SpatulaOS.Core SpatulaOS.Fs SpatulaOS.Mm SpatulaOS.Video

variable {s s' : HeapSession} {argv : List (List Byte)} {ds : List ℕ} {k : ℕ} {p w : Word}

/-! ### Addresses -/

theorem printHex_text (v : Word) : (VgaOp.printHex v).text = hexText v := by
  have hchars : (0 : Byte) ∉ hexChars := by decide
  refine List.takeWhile_eq_self_iff.mpr fun c hc => decide_eq_true ?_
  rintro rfl
  exact (mem_hexText hc).elim hchars (by decide)

theorem cmdAlloc_prints (h : cmdAlloc k s argv = some s') (hp : p ∈ addresses s'.printed) :
    s'.lastAlloc = p ∧ p ≠ 0 := by
  cases cmdAlloc_effect h with
  | message hout _ =>
    dsimp only at hp
    rw [hout] at hp
    exact absurd hp List.not_mem_nil
  | failed _ _ _ hout =>
    dsimp only at hp
    rw [hout] at hp
    exact absurd hp List.not_mem_nil
  | alloc _ _ _ h0 =>
    obtain rfl := List.mem_singleton.mp hp
    exact ⟨rfl, h0⟩

/-- `free` reads the address that is printed for a block. -/
theorem cmdFree_hexText (j : ℕ) (t : HeapSession) (name : List Byte) (hp : p ≠ 0) :
    cmdFree j t [name, (VgaOp.printHex p).text] = (kfree j t.heap p).map fun r =>
      { t with
        heap := r.1
        printed := r.2 ++ [.print "Freed: ", .printHex p, .print "\n"] } := by
  have harg : [name, (VgaOp.printHex p).text][1]? = some (hexText p) := congrArg some (printHex_text p)
  rw [cmdFree, harg]
  dsimp only
  rw [atoiHex_hexText, if_neg hp]

/-- **`atoi_hex` reads what `vga_print_hex` prints**, and any row of hexadecimal digits, in either
case and behind a prefix if there is one, as its value modulo `2 ^ 32`. An address that `alloc` has
printed, typed behind `free` at any time, is what `kfree` is called with. -/
theorem atoiHex_reads :
    (∀ v, atoiHex (VgaOp.printHex v).text = v) ∧
    (∀ pre digits rest, (IsHexPrefix pre ∨ pre = [] ∧ ∀ q, IsHexPrefix q → ¬ q <+: digits ++ rest) →
      (∀ c ∈ digits, (hexDigit c).isSome) → (∀ c ∈ rest.head?, hexDigit c = none) →
      atoiHex (pre ++ (digits ++ rest)) = BitVec.ofNat 32 (value 16 (digits.filterMap hexDigit))) ∧
    ∀ k s argv s' p, cmdAlloc k s argv = some s' → p ∈ addresses s'.printed → s'.lastAlloc = p ∧
      ∀ j t name, cmdFree j t [name, (VgaOp.printHex p).text] = (kfree j t.heap p).map fun r =>
        { t with
          heap := r.1
          printed := r.2 ++ [.print "Freed: ", .printHex p, .print "\n"] } := by
  refine ⟨fun v => ?_, fun pre digits rest hpre hdigits hrest => atoiHex_digits hpre hdigits hrest,
    fun k s argv s' p h hp => ?_⟩
  · rw [printHex_text, atoiHex_hexText]
  · obtain ⟨hlast, h0⟩ := cmdAlloc_prints h hp
    exact ⟨hlast, fun j t name => cmdFree_hexText j t name h0⟩

/-- A numeral in mixed case, with a prefix and with something behind it. -/
theorem atoiHex_reads_mixed : atoiHex (text "0XdEAd0001beEFzz") = 0x0001BEEF :=
  atoiHex_reads.2.1 (text "0X") (text "dEAd0001beEF") (text "zz") (.inl (.inr (by decide)))
    (by decide) (by decide)

/-! ### Sizes -/

/-- `alloc` is sound for a request of `N` bytes: it prints an error and leaves `last_alloc` as it is, or
`last_alloc` points to a block of at least `N` bytes. -/
def AllocSound (s : HeapSession) (argv : List (List Byte)) (N : ℕ) : Prop :=
  ∃ k s', cmdAlloc k s argv = some s' ∧
    ((s'.printed = [.print "Invalid size\n"] ∨ s'.printed = [.print "Allocation failed\n"]) ∧
        s'.lastAlloc = s.lastAlloc ∨
      s'.printed = [.print "Allocated at: ", .printHex s'.lastAlloc, .print "\n"] ∧ s'.lastAlloc ≠ 0 ∧
        N ≤ (size s'.heap.mem (s'.lastAlloc - SIZEOF_HEADER)).toNat)

/-- The numeral can be trusted: modulo `2 ^ 32` it is zero or at least `2 ^ 31`, so that it is
refused; or there is no block for it; or it is below `2 ^ 32`, the search for a block ends, and a
link that is written to the last block leaves the size of the new one. -/
def TrustedSize (h : Heap) (N : ℕ) : Prop :=
  let n := align (BitVec.ofNat 32 N)
  N % 2 ^ 32 = 0 ∨ 2 ^ 31 ≤ N % 2 ^ 32 ∨ GivesUp h n ∨ N < 2 ^ 32 ∧ SearchEnds h n ∧ LinkSpares h n N

theorem toInt_nonpos_iff (w : Word) : w.toInt ≤ 0 ↔ w.toNat = 0 ∨ 2 ^ 31 ≤ w.toNat := by
  have := w.isLt
  rw [BitVec.toInt_eq_toNat_cond]
  split_ifs <;> omega

theorem align_of_size (h0 : w.toNat ≠ 0) (hlt : w.toNat < 2 ^ 31) :
    w ≠ 0 ∧ ¬ align w < w ∧ align w ≤ 0x80000000 ∧ w.toNat ≤ (align w).toNat := by
  have halign := toNat_align w
  refine ⟨fun h => h0 (by rw [h]; rfl), ?_, ?_, by omega⟩
  · rw [BitVec.lt_def]
    omega
  · rw [BitVec.le_def]
    show _ ≤ 2 ^ 31
    omega

/-- In a well-formed heap the search ends and headers do not overlap, so only the size of the number
counts. -/
theorem trustedSize_iff {h : Heap} {A : Arena} (hm : Models heapLo h A) (hA : A.Ok) (N : ℕ) :
    TrustedSize h N ↔ N % 2 ^ 32 = 0 ∨ 2 ^ 31 ≤ N % 2 ^ 32 ∨
      GivesUp h (align (BitVec.ofNat 32 N)) ∨ N < 2 ^ 32 := by
  unfold TrustedSize
  dsimp only
  by_cases hzero : N % 2 ^ 32 = 0
  · exact iff_of_true (.inl hzero) (.inl hzero)
  by_cases hlarge : 2 ^ 31 ≤ N % 2 ^ 32
  · exact iff_of_true (.inr (.inl hlarge)) (.inr (.inl hlarge))
  rw [or_iff_right hzero, or_iff_right hlarge, or_iff_right hzero, or_iff_right hlarge]
  constructor
  · exact Or.imp_right And.left
  · rintro (hgives | hlt)
    · exact .inl hgives
    · have hw : (BitVec.ofNat 32 N).toNat = N := toNat_ofNat_of_lt hlt
      rw [Nat.mod_eq_of_lt hlt] at hzero hlarge
      rw [← hw] at hzero hlarge
      obtain ⟨h0, h1, -, hle⟩ := align_of_size hzero (not_le.mp hlarge)
      obtain hr | hends := hm.searchEnds hA h0 h1
      · exact .inl (.inl hr)
      · exact .inr ⟨hlt, hends, hm.linkSpares hA (hw.symm.le.trans hle)⟩

theorem allocSound_iff_kmalloc {N : ℕ} (hargv : argv[1]?.map atoi = some w) (hpos : ¬ w.toInt ≤ 0) :
    AllocSound s argv N ↔
      ∃ k r, kmalloc k s.heap w = some r ∧ (r.1 = 0 ∨ N ≤ (size r.2.mem (r.1 - SIZEOF_HEADER)).toNat) := by
  obtain ⟨arg, harg, rfl⟩ := Option.map_eq_some_iff.mp hargv
  refine exists_congr fun k => ?_
  rw [cmdAlloc, harg]
  dsimp only
  rw [if_neg hpos]
  constructor
  · rintro ⟨s', h, hs'⟩
    obtain ⟨r, hr, rfl⟩ := Option.map_eq_some_iff.mp h
    refine ⟨r, hr, ?_⟩
    split_ifs at hs' with h0
    · exact .inl h0
    · obtain ⟨hout | hout, -⟩ | ⟨-, -, hsize⟩ := hs'
      · exact absurd hout (by simp)
      · exact absurd hout (by simp)
      · exact .inr hsize
  · rintro ⟨r, hr, hsize⟩
    refine ⟨_, Option.map_eq_some_iff.mpr ⟨r, hr, rfl⟩, ?_⟩
    split_ifs with h0
    · exact .inl ⟨.inr rfl, rfl⟩
    · exact .inr ⟨rfl, h0, hsize.resolve_left h0⟩

/-- **`alloc` is sound exactly** for the numerals that can be trusted. -/
theorem allocSound_iff (s : HeapSession) (hds : ∀ d ∈ ds, d < 10)
    (hargv : argv[1]? = some (ds.map digitChar)) :
    AllocSound s argv (value 10 ds) ↔ TrustedSize s.heap (value 10 ds) := by
  have hsize : argv[1]?.map atoi = some (BitVec.ofNat 32 (value 10 ds)) := by
    rw [hargv, Option.map_some, atoi_digits hds]
  unfold TrustedSize
  generalize value 10 ds = N at hsize ⊢
  have hw : (BitVec.ofNat 32 N).toNat = N % 2 ^ 32 := BitVec.toNat_ofNat N 32
  have hint := toInt_nonpos_iff (BitVec.ofNat 32 N)
  rw [hw] at hint
  generalize BitVec.ofNat 32 N = w at hsize hw hint ⊢
  dsimp only
  by_cases hpos : w.toInt ≤ 0
  · have hcond : AllocSound s argv N := by
      obtain ⟨arg, harg, rfl⟩ := Option.map_eq_some_iff.mp hsize
      refine ⟨0, { s with printed := [.print "Invalid size\n"] }, ?_, .inl ⟨.inl rfl, rfl⟩⟩
      rw [cmdAlloc, harg]
      exact if_pos hpos
    exact iff_of_true hcond (or_assoc.mp (.inl (hint.mp hpos)))
  · rw [← or_assoc, ← hint, or_iff_right hpos, allocSound_iff_kmalloc hsize hpos]
    have hbounds := not_or.mp fun h => hpos (hint.mpr h)
    rw [← hw] at hbounds
    obtain ⟨h0, h1, hn, hle⟩ := align_of_size hbounds.1 (not_le.mp hbounds.2)
    rw [← exists_large_iff hn (hw ▸ hle)]
    constructor
    · rintro ⟨k, r, hr, hlarge⟩
      exact ⟨r, kmalloc_result h0 h1 hr, hlarge⟩
    · rintro ⟨r, hr, hlarge⟩
      obtain ⟨k, hk⟩ := hr.kmalloc h0 h1
      exact ⟨k, r, hk, hlarge⟩

/-- After the boot, 64 bytes are reported as they are. -/
theorem allocSound_64 :
    ∃ u, bootStorage = some u ∧ AllocSound (shellInit u) [text "alloc", text "64"] 64 := by
  obtain ⟨u, hu⟩ : ∃ u, bootStorage = some u := Option.isSome_iff_exists.mp (by decide +kernel)
  obtain ⟨A, hstored⟩ := Stored.boot ⟨_, _, rfl⟩ hu
  obtain ⟨live, hinv, -⟩ := hstored.inUse
  refine ⟨u, hu, (@allocSound_iff _ [6, 4] (shellInit u) (by decide) (by decide)).mpr ?_⟩
  exact (trustedSize_iff hinv.models hinv.ok _).mpr (.inr (.inr (.inr (by decide))))

/-- After the boot, `2 ^ 32 + 1` bytes are given a block of eight. -/
theorem not_allocSound : ¬ ∀ s argv ds, (∀ d ∈ ds, d < 10) → argv[1]? = some (ds.map digitChar) →
    AllocSound s argv (value 10 ds) := by
  intro hall
  have hboot : (bootStorage.bind fun u => (kmalloc 8 u.heap 1).map fun r =>
      (r.1, size r.2.mem (r.1 - SIZEOF_HEADER))) = some (0x400310, 8) := by decide +kernel
  obtain ⟨u, -, hu⟩ := Option.bind_eq_some_iff.mp hboot
  obtain ⟨r, hr, hpair⟩ := Option.map_eq_some_iff.mp hu
  obtain ⟨hp, hsize⟩ := Prod.mk.inj hpair
  have hsound :=
    hall (shellInit u) [text "alloc", text "4294967297"] [4, 2, 9, 4, 9, 6, 7, 2, 9, 7]
    (by decide) (by decide)
  obtain ⟨k, r', hr', hlarge⟩ := (allocSound_iff_kmalloc (w := 1) (by decide) (by decide)).mp hsound
  rw [kmalloc_unique hr' hr, hsize, hp] at hlarge
  exact absurd hlarge (by decide)

end SpatulaOS.Shell
