import SpatulaOS.Shell.TypedNumbers

/-!
# `memdump`

`cmd_memdump` of `shell/shell.c`. It prints rows of sixteen bytes, each with the address of its first byte.
`vga_print_hex` always prints eight digits behind a prefix, so the zero that is printed before a small
byte comes before the prefix. Such a token reads back as zero; the dump reads back as what is
in the memory as long as no byte is from 1 to 15 (`cmdMemdump_reads_iff`).
-/

namespace SpatulaOS.Shell

open ByteMemory Tokens SpatulaOS.Core SpatulaOS.Fs SpatulaOS.Video

/-- What `cmd_memdump` prints for a byte. -/
def byteText (val : Byte) : List Byte := (if val < 16 then text "0" else []) ++ hexText (val.setWidth 32)

/-- The body of the loop of `cmd_memdump`. -/
def memdumpStep (m : ℕ → Mem) (addr : Word) (i : ℕ) : List Byte :=
  let row := if i % 16 = 0 then text "\n" ++ hexText (addr + BitVec.ofNat 32 i) ++ text ": " else []
  let val := m i (addr + BitVec.ofNat 32 i)
  row ++ byteText val ++ text " "

/-- `cmd_memdump`: what it prints, where `m i` is the memory when byte `i` is read. The screen that it prints
to is in the memory too. -/
def cmdMemdump (m : ℕ → Mem) (argv : List (List Byte)) : List Byte :=
  match argv[1]?, argv[2]? with
  | some arg1, some arg2 =>
    let addr := atoiHex arg1
    let bytes := atoi arg2
    if bytes.toInt ≤ 0 then text "Invalid byte count\n"
    else (List.range bytes.toNat).flatMap (memdumpStep m addr) ++ text "\n"
  | _, _ => text "Usage: memdump <addr> <bytes>\n"

/-- The tokens of a row, behind its address. -/
def rowTokens (row : List Byte) : List (List Byte) := tokens SPACE (row.drop 12)

/-- The dump reads back as the `n` bytes from `addr` on: it has a row for every sixteen of them,
which begins with the address of its first byte, and `atoi_hex` reads their tokens, each with a
space behind it, as the bytes. -/
structure DumpReads (out : List Byte) (addr : Word) (n : ℕ) (byte : ℕ → Byte) : Prop where
  lines : out = (tokens charNewline out).flatMap (charNewline :: ·) ++ [charNewline]
  length : (tokens charNewline out).length = (n + 15) / 16
  address : ∀ r row, (tokens charNewline out)[r]? = some row →
    hexText (addr + BitVec.ofNat 32 (16 * r)) ++ text ": " <+: row
  count : ∀ r row, (tokens charNewline out)[r]? = some row → (rowTokens row).length = min 16 (n - 16 * r)
  terminated : ∀ row ∈ tokens charNewline out, row.drop 12 = (rowTokens row).flatMap (· ++ [SPACE])
  values : ((tokens charNewline out).flatMap rowTokens).map atoiHex = (List.range n).map fun i =>
      (byte i).setWidth 32

variable {m : ℕ → Mem} {addr : Word} {argv : List (List Byte)} {arg1 arg2 : List Byte} {val : Byte} {c : Byte}
  {q d n r : ℕ}

/-! ### Tokens -/

theorem mem_byteText (hc : c ∈ byteText val) : c ∈ hexChars ∨ c = 0x78 := by
  obtain hc | hc := List.mem_append.mp hc
  · split_ifs at hc
    · exact .inl (List.mem_singleton.mp hc ▸ by decide)
    · cases hc
  · exact mem_hexText hc

/-- A token reads back as its byte if and only if the byte is zero or has no zero printed before it. -/
theorem atoiHex_byteText (val : Byte) : atoiHex (byteText val) = val.setWidth 32 ↔ val = 0 ∨ 16 ≤ val := by
  unfold byteText
  split_ifs with hval
  · have hzero : atoiHex (text "0" ++ hexText (val.setWidth 32)) = 0 := rfl
    rw [hzero, or_iff_left (BitVec.not_le.mpr hval)]
    constructor
    · intro h
      have hlt := val.isLt
      have hnat := congrArg BitVec.toNat h
      rw [BitVec.toNat_setWidth, Nat.mod_eq_of_lt (by omega)] at hnat
      exact BitVec.eq_of_toNat_eq hnat.symm
    · rintro rfl
      rfl
  · rw [List.nil_append, atoiHex_hexText]
    exact iff_of_true rfl (.inr (BitVec.not_lt.mp hval))

theorem notMem_byteText (hx : c ∉ hexChars) (hc : c ≠ 0x78) : c ∉ byteText val :=
  fun h => (mem_byteText h).elim hx hc

theorem byteText_ne_nil (val : Byte) : byteText val ≠ [] :=
  List.append_ne_nil_of_right_ne_nil _ (List.cons_ne_nil _ _)

/-! ### Rows -/

theorem range_mul (q c : ℕ) :
    List.range (q * c) = (List.range q).flatMap fun r => (List.range c).map (r * c + ·) := by
  induction q with
  | zero => rw [Nat.zero_mul, List.range_zero, List.flatMap_nil]
  | succ q ih =>
    rw [Nat.succ_mul, List.range_add, ih, List.range_succ, List.flatMap_append, List.flatMap_singleton]

/-- The tokens of row `r`, if it has `d` of them. -/
def dumpTokens (m : ℕ → Mem) (addr : Word) (r d : ℕ) : List (List Byte) :=
  ((List.range d).map (r * 16 + ·)).map fun i => byteText (m i (addr + BitVec.ofNat 32 i))

/-- The row. -/
def dumpRow (m : ℕ → Mem) (addr : Word) (r d : ℕ) : List Byte :=
  hexText (addr + BitVec.ofNat 32 (16 * r)) ++ text ": " ++ (dumpTokens m addr r d).flatMap (· ++ [SPACE])

/-- The rows of a dump of `q * 16 + d` bytes. -/
def dumpRows (m : ℕ → Mem) (addr : Word) (q d : ℕ) : List (List Byte) :=
  (List.range q).map (dumpRow m addr · 16) ++ [dumpRow m addr q d]

theorem memdumpStep_row (m : ℕ → Mem) (addr : Word) (r : ℕ) (h0 : 0 < d) (hd : d ≤ 16) :
    ((List.range d).map (r * 16 + ·)).flatMap (memdumpStep m addr) = charNewline :: dumpRow m addr r d := by
  obtain ⟨d, rfl⟩ := Nat.exists_eq_succ_of_ne_zero h0.ne'
  have hfirst :
      memdumpStep m addr (r * 16) = charNewline ::
      (hexText (addr + BitVec.ofNat 32 (16 * r)) ++ text ": " ++
      (byteText (m (r * 16) (addr + BitVec.ofNat 32 (r * 16))) ++ [SPACE])) := by
    rw [memdumpStep, if_pos (Nat.mul_mod_left r 16), Nat.mul_comm 16 r, List.append_assoc, List.append_assoc]
    rfl
  have hstep : ∀ j ∈ List.range d, memdumpStep m addr (r * 16 + (j + 1)) =
      byteText (m (r * 16 + (j + 1)) (addr + BitVec.ofNat 32 (r * 16 + (j + 1)))) ++ [SPACE] := by
    intro j hj
    have hlt := List.mem_range.mp hj
    rw [memdumpStep, if_neg (by omega), List.nil_append]
    rfl
  rw [dumpRow, dumpTokens, List.range_succ_eq_map, List.map_cons, List.flatMap_cons, Nat.add_zero, hfirst,
    List.map_cons, List.flatMap_cons, List.map_map, List.map_map, List.flatMap_map, List.flatMap_map,
    List.cons_append, List.append_assoc]
  congr 3
  exact List.flatMap_congr hstep

/-- What the loop prints are the rows, each behind a newline. -/
theorem memdump_rows (m : ℕ → Mem) (addr : Word) (q : ℕ) (h0 : 0 < d) (hd : d ≤ 16) :
    (List.range (q * 16 + d)).flatMap (memdumpStep m addr) =
      (dumpRows m addr q d).flatMap (charNewline :: ·) := by
  rw [dumpRows, List.range_add, range_mul, List.flatMap_append, List.flatMap_append, List.flatMap_singleton,
    memdumpStep_row m addr q h0 hd, List.flatMap_assoc, List.flatMap_map]
  congr 1
  exact List.flatMap_congr fun r _ => memdumpStep_row m addr r (by decide) le_rfl

theorem length_dumpRows (m : ℕ → Mem) (addr : Word) (q d : ℕ) : (dumpRows m addr q d).length = q + 1 := by
  rw [dumpRows, List.length_append, List.length_map, List.length_range]
  rfl

/-- Each row has sixteen tokens, and the last one the others. -/
theorem getElem?_dumpRows {row : List Byte} (hd : d ≤ 16) (h : (dumpRows m addr q d)[r]? = some row) :
    row = dumpRow m addr r (min 16 (q * 16 + d - 16 * r)) := by
  obtain ⟨hr, -⟩ := List.getElem?_eq_some_iff.mp h
  rw [length_dumpRows] at hr
  have hlen : ((List.range q).map (dumpRow m addr · 16)).length = q := by
    rw [List.length_map, List.length_range]
  obtain hlt | rfl := Nat.lt_or_eq_of_le (Nat.le_of_lt_succ hr)
  · rw [dumpRows, List.getElem?_append_left (hlen.symm ▸ hlt), List.getElem?_map,
      List.getElem?_range hlt] at h
    rw [min_eq_left (by omega)]
    exact (Option.some.inj h).symm
  · rw [dumpRows, List.getElem?_append_right hlen.le, hlen, Nat.sub_self] at h
    rw [show min 16 (r * 16 + d - 16 * r) = d by omega]
    exact (Option.some.inj h).symm

theorem mem_dumpRows {row : List Byte} (hd : d ≤ 16) (h : row ∈ dumpRows m addr q d) :
    ∃ r d, row = dumpRow m addr r d := by
  obtain ⟨r, hr⟩ := List.mem_iff_getElem?.mp h
  exact ⟨_, _, getElem?_dumpRows hd hr⟩

theorem notMem_dumpRow (m : ℕ → Mem) (addr : Word) (r d : ℕ) : charNewline ∉ dumpRow m addr r d := by
  have hhex {v : Word} (h : charNewline ∈ hexText v) : False := by
    have hx : charNewline ∉ hexChars := by decide
    exact (mem_hexText h).elim hx (by decide)
  rw [dumpRow, List.mem_append, List.mem_append, List.mem_flatMap]
  rintro ((h | h) | ⟨w, hw, h⟩)
  · exact hhex h
  · exact absurd h (by decide)
  · obtain ⟨i, -, rfl⟩ := List.mem_map.mp hw
    obtain h | h := List.mem_append.mp h
    · exact notMem_byteText (by decide) (by decide) h
    · exact absurd h (by decide)

theorem length_dumpTokens (m : ℕ → Mem) (addr : Word) (r d : ℕ) : (dumpTokens m addr r d).length = d := by
  rw [dumpTokens, List.length_map, List.length_map, List.length_range]

theorem drop_dumpRow (m : ℕ → Mem) (addr : Word) (r d : ℕ) :
    (dumpRow m addr r d).drop 12 = (dumpTokens m addr r d).flatMap (· ++ [SPACE]) :=
  List.drop_left' rfl

theorem rowTokens_dumpRow (m : ℕ → Mem) (addr : Word) (r d : ℕ) :
    rowTokens (dumpRow m addr r d) = dumpTokens m addr r d := by
  rw [rowTokens, drop_dumpRow]
  refine tokens_flatMap (fun w hw => ?_) fun w hw => ?_
  · obtain ⟨i, -, rfl⟩ := List.mem_map.mp hw
    exact byteText_ne_nil _
  · obtain ⟨i, -, rfl⟩ := List.mem_map.mp hw
    exact notMem_byteText (by decide) (by decide)

/-- The rows of what the loop and the last newline print. -/
theorem tokens_dump (m : ℕ → Mem) (addr : Word) (q : ℕ) (hd : d ≤ 16) :
    tokens charNewline ((dumpRows m addr q d).flatMap (charNewline :: ·) ++ [charNewline]) =
      dumpRows m addr q d := by
  have hshift (rows : List (List Byte)) : rows.flatMap (charNewline :: ·) ++ [charNewline] =
      charNewline :: rows.flatMap (· ++ [charNewline]) := by
    induction rows with
    | nil => rfl
    | cons row rows ih =>
      rw [List.flatMap_cons, List.flatMap_cons, List.append_assoc, ih, List.cons_append, List.append_assoc]
      rfl
  rw [hshift, tokens_cons]
  refine tokens_flatMap (fun row hrow => ?_) fun row hrow => ?_
  · obtain ⟨r, d, rfl⟩ := mem_dumpRows hd hrow
    exact List.append_ne_nil_of_left_ne_nil (List.cons_ne_nil _ _) _
  · obtain ⟨r, d, rfl⟩ := mem_dumpRows hd hrow
    exact notMem_dumpRow m addr r d

theorem flatMap_rowTokens (m : ℕ → Mem) (addr : Word) (q d : ℕ) : (dumpRows m addr q d).flatMap rowTokens =
    (List.range (q * 16 + d)).map fun i => byteText (m i (addr + BitVec.ofNat 32 i)) := by
  rw [dumpRows, List.flatMap_append, List.flatMap_map, List.flatMap_singleton, List.range_add,
    range_mul, List.map_append,
    List.map_flatMap, rowTokens_dumpRow]
  congr 1
  exact List.flatMap_congr fun r _ => rowTokens_dumpRow m addr r 16

/-- **The dump reads back as what is in the memory if and only if** no byte is from 1 to 15. -/
theorem cmdMemdump_reads_iff (m : ℕ → Mem) (h1 : argv[1]? = some arg1) (h2 : argv[2]? = some arg2)
    (hpos : 0 < (atoi arg2).toInt) :
    DumpReads (cmdMemdump m argv) (atoiHex arg1) (atoi arg2).toNat
      (fun i => m i (atoiHex arg1 + BitVec.ofNat 32 i)) ↔
      ∀ i < (atoi arg2).toNat,
        m i (atoiHex arg1 + BitVec.ofNat 32 i) = 0 ∨ 16 ≤ m i (atoiHex arg1 + BitVec.ofNat 32 i) := by
  have hout : cmdMemdump m argv =
      (List.range (atoi arg2).toNat).flatMap (memdumpStep m (atoiHex arg1)) ++ [charNewline] := by
    rw [cmdMemdump, h1, h2]
    exact if_neg (not_le.mpr hpos)
  have hn : (atoi arg2).toNat ≠ 0 := by
    have := mt (toInt_nonpos_iff (atoi arg2)).mpr (not_le.mpr hpos)
    exact (not_or.mp this).1
  rw [hout]
  generalize atoiHex arg1 = addr, (atoi arg2).toNat = n at hn ⊢
  obtain ⟨q, d, h0, hd, rfl⟩ : ∃ q d, 0 < d ∧ d ≤ 16 ∧ n = q * 16 + d :=
    ⟨(n - 1) / 16, (n - 1) % 16 + 1, by omega, by omega, by omega⟩
  have hvalues (rows : List (List Byte)) (hrows : rows = dumpRows m addr q d) :
      (rows.flatMap rowTokens).map atoiHex =
        ((List.range (q * 16 + d)).map fun i => (m i (addr + BitVec.ofNat 32 i)).setWidth 32) ↔
      ∀ i < q * 16 + d, m i (addr + BitVec.ofNat 32 i) = 0 ∨ 16 ≤ m i (addr + BitVec.ofNat 32 i) := by
    rw [hrows, flatMap_rowTokens, List.map_map, List.map_inj_left]
    refine forall_congr' fun i => ?_
    rw [List.mem_range]
    exact imp_congr_right fun _ => atoiHex_byteText _
  rw [memdump_rows m addr q h0 hd]
  have htok := tokens_dump m addr q hd
  constructor
  · intro h
    exact (hvalues _ htok).mp h.values
  · intro h
    refine ⟨?_, ?_, fun r row hrow => ?_, fun r row hrow => ?_, fun row hrow => ?_, (hvalues _ htok).mpr h⟩
    · rw [htok]
    · rw [htok, length_dumpRows]
      omega
    · rw [htok] at hrow
      rw [getElem?_dumpRows hd hrow]
      exact List.prefix_append _ _
    · rw [htok] at hrow
      rw [getElem?_dumpRows hd hrow, rowTokens_dumpRow, length_dumpTokens]
    · rw [htok] at hrow
      obtain ⟨r, d, rfl⟩ := mem_dumpRows hd hrow
      rw [rowTokens_dumpRow, drop_dumpRow]

/-- A row of sixteen bytes from 0xF0 on, and a second row with a zero. -/
theorem cmdMemdump_reads_rows :
    DumpReads (cmdMemdump (fun _ a => a.setWidth 8) [text "memdump", text "0x10F0", text "17"]) 0x10F0 17
      (fun i => (0x10F0 + BitVec.ofNat 32 i : Word).setWidth 8) :=
  (@cmdMemdump_reads_iff [text "memdump", text "0x10F0", text "17"] _ _ (fun _ a => a.setWidth 8) rfl rfl
    (by decide)).mpr (by decide +kernel)

/-- A byte 0x0A is printed as "00x0000000A". -/
theorem not_cmdMemdump_reads : ¬ ∀ (m : ℕ → Mem) argv arg1 arg2, argv[1]? = some arg1 → argv[2]? = some arg2 →
    0 < (atoi arg2).toInt → DumpReads (cmdMemdump m argv) (atoiHex arg1) (atoi arg2).toNat
      (fun i => m i (atoiHex arg1 + BitVec.ofNat 32 i)) := by
  intro hall
  have hreads := hall (fun _ _ => 0x0A) [text "memdump", text "0x00100000", text "1"] _ _ rfl rfl (by decide)
  exact absurd hreads.values (by decide +kernel)

end SpatulaOS.Shell
