import Mathlib.Data.List.GetD
import SpatulaOS.Lib.Memory
import SpatulaOS.Lib.Tokens

/-!
# The words of a command line

`parse_arguments` of `shell/shell.c`. It takes a line apart in place: the spaces behind the words
become terminators, and `argv` gets the positions of the words. For a terminated line it gives the
first eight words (`parseArguments_eq`).

A scan of the buffer looks at most at `fuel` characters; one that finds no end has no result.
-/

namespace SpatulaOS.Shell

open ByteMemory Tokens

/-- `MAX_ARGS`. -/
abbrev MAX_ARGS : ℕ := 8

/-- `' '`. -/
abbrev SPACE : Byte := 0x20

/-- The characters of a buffer, and what is behind it. -/
abbrev Buffer := ℕ → Byte

/-- The loops of the form `while (p(*input)) input++;`. -/
def scanWhile (p : Byte → Bool) (buf : Buffer) : ℕ → ℕ → Option ℕ
  | 0, _ => none
  | fuel + 1, input => if p (buf input) then scanWhile p buf fuel (input + 1) else some input

/-- The string at `input`. -/
def cstr (buf : Buffer) : ℕ → ℕ → List Byte
  | 0, _ => []
  | fuel + 1, input => if buf input = 0 then [] else buf input :: cstr buf fuel (input + 1)

/-- `strcpy`, of the characters before the terminator. -/
def strcpy (dest : Buffer) (src : List Byte) : Buffer :=
  fun i => if i ≤ src.length then src.getD i 0 else dest i

/-- The loop of `parse_arguments` with room for `turns` more arguments. -/
def parseLoop (fuel : ℕ) : ℕ → Buffer → List ℕ → ℕ → Option (List ℕ × Buffer)
  | 0, buf, argv, _ => some (argv, buf)
  | turns + 1, buf, argv, input =>
    if buf input = 0 then some (argv, buf)
    else
      (scanWhile (fun c => c = SPACE) buf fuel input).bind fun input =>
        if buf input = 0 then some (argv, buf)
        else
          let argv := argv ++ [input]
          (scanWhile (fun c => c ≠ 0 ∧ c ≠ SPACE) buf fuel input).bind fun input =>
            if buf input ≠ 0 then parseLoop fuel turns (Function.update buf input 0) argv (input + 1)
            else parseLoop fuel turns buf argv input

/-- `parse_arguments`: `argv`, and the buffer. -/
def parseArguments (fuel : ℕ) (buf : Buffer) : Option (List ℕ × Buffer) := parseLoop fuel MAX_ARGS buf [] 0

variable {buf buf' : Buffer} {i k n fuel : ℕ} {s a b line : List Byte} {p : Byte → Bool} {argv : List ℕ}

/-! ### Strings in a buffer -/

/-- The string at `i` is `s`. -/
structure StringAt (buf : Buffer) (i : ℕ) (s : List Byte) : Prop where
  ne_zero : 0 ∉ s
  eq : ∀ j, j ≤ s.length → buf (i + j) = s.getD j 0

theorem stringAt_strcpy (dest : Buffer) (hs : 0 ∉ s) : StringAt (strcpy dest s) 0 s := by
  refine ⟨hs, fun j hj => ?_⟩
  rw [Nat.zero_add]
  exact if_pos hj

theorem StringAt.congr (h : StringAt buf i s) (heq : ∀ j, i ≤ j → j ≤ i + s.length → buf' j = buf j) :
    StringAt buf' i s := by
  refine ⟨h.ne_zero, fun j hj => ?_⟩
  rw [heq _ (Nat.le_add_right i j) (Nat.add_le_add_left hj i)]
  exact h.eq j hj

theorem StringAt.append (h : StringAt buf i (a ++ b)) : StringAt buf (i + a.length) b := by
  refine ⟨fun h0 => h.ne_zero (List.mem_append_right a h0), fun j hj => ?_⟩
  rw [Nat.add_assoc, h.eq _ (by rw [List.length_append]; omega),
    List.getD_append_right _ _ _ _ (Nat.le_add_right _ _),
    Nat.add_sub_cancel_left]

theorem StringAt.nil (h : StringAt buf i []) : buf i = 0 := h.eq 0 le_rfl

theorem StringAt.head {c : Byte} (h : StringAt buf i (c :: s)) : buf i = c := h.eq 0 (Nat.zero_le _)

theorem StringAt.tail {c : Byte} (h : StringAt buf i (c :: s)) : StringAt buf (i + 1) s :=
  StringAt.append (a := [c]) h

theorem StringAt.head_ne {c : Byte} (h : StringAt buf i (c :: s)) : c ≠ 0 := fun h0 =>
  h.ne_zero (h0 ▸ List.mem_cons_self)

theorem StringAt.eq_nil_iff (h : StringAt buf i s) : buf i = 0 ↔ s = [] := by
  cases s with
  | nil => exact ⟨fun _ => rfl, fun _ => h.nil⟩
  | cons c s => exact ⟨fun h0 => absurd (h.head.symm.trans h0) h.head_ne, nofun⟩

theorem StringAt.cstr (h : StringAt buf i s) (hf : s.length ≤ fuel) : cstr buf fuel i = s := by
  induction s generalizing i fuel with
  | nil =>
    cases fuel with
    | zero => rfl
    | succ fuel => exact if_pos h.nil
  | cons c s ih =>
    cases fuel with
    | zero => exact absurd hf (Nat.not_succ_le_zero _)
    | succ fuel =>
      rw [Shell.cstr, if_neg (by rw [h.head]; exact h.head_ne), h.head, ih h.tail (Nat.le_of_succ_le_succ hf)]

theorem map_cstr {words : List (List Byte)} (h : List.Forall₂ (StringAt buf) argv words)
    (hf : ∀ w ∈ words, w.length ≤ fuel) : argv.map (cstr buf fuel) = words := by
  induction h with
  | nil => rfl
  | cons hw _ ih =>
    rw [List.map_cons, hw.cstr (hf _ List.mem_cons_self), ih fun w hw => hf w (List.mem_cons_of_mem _ hw)]

/-- A scan stops behind the characters it is to skip, at the terminator at the latest. -/
theorem StringAt.scanWhile (h : StringAt buf i (a ++ b)) (ha : ∀ c ∈ a, p c = true)
    (hb : ∀ c ∈ b.head?, p c = false)
    (h0 : p 0 = false) (hf : a.length < fuel) : scanWhile p buf fuel i = some (i + a.length) := by
  induction a generalizing i fuel with
  | nil =>
    obtain ⟨fuel, rfl⟩ : ∃ n, fuel = n + 1 := ⟨fuel - 1, by omega⟩
    have hp : p (buf i) = false := by
      cases b with
      | nil => rw [h.nil, h0]
      | cons c b => rw [h.head, hb c rfl]
    rw [Shell.scanWhile, hp]
    rfl
  | cons c a ih =>
    rw [List.length_cons] at hf ⊢
    obtain ⟨fuel, rfl⟩ : ∃ n, fuel = n + 1 := ⟨fuel - 1, by omega⟩
    have hc : p (buf i) = true := by
      rw [h.head]
      exact ha c List.mem_cons_self
    rw [Shell.scanWhile, if_pos hc, ih h.tail (fun d hd => ha d (List.mem_cons_of_mem c hd)) (by omega)]
    congr 1
    omega

/-! ### The loop -/

/-- One word: the loop skips the spaces before it, notes where it begins and terminates it. -/
theorem parseLoop_word (argv : List ℕ) {seps w rest : List Byte} (h : StringAt buf i (seps ++ (w ++ rest)))
    (hseps : ∀ c ∈ seps, c = SPACE) (hw : w ≠ []) (hspace : SPACE ∉ w) (hrest : ∀ c ∈ rest.head?, c = SPACE)
    (hf : (seps ++ (w ++ rest)).length < fuel) : ∃ buf₁ i₁ rest₁,
    parseLoop fuel (k + 1) buf argv i = parseLoop fuel k buf₁ (argv ++ [i + seps.length]) i₁ ∧
      StringAt buf₁ i₁ rest₁ ∧ i₁ + rest₁.length = i + seps.length + w.length + rest.length ∧
      tokens SPACE rest₁ = tokens SPACE rest ∧
      i + seps.length + w.length ≤ i₁ ∧ (∀ j, j < i + seps.length + w.length → buf₁ j = buf j) ∧
      (∀ j, buf j = 0 → buf₁ j = 0) ∧ StringAt buf₁ (i + seps.length) w := by
  rw [List.length_append, List.length_append] at hf
  have hword := h.append
  have hbehind := hword.append
  have hskip : scanWhile (fun c => c = SPACE) buf fuel i = some (i + seps.length) := by
    refine h.scanWhile (fun c hc => decide_eq_true (hseps c hc)) (fun c hc => ?_) (by decide) (by omega)
    obtain ⟨d, w', rfl⟩ := List.exists_cons_of_ne_nil hw
    obtain rfl := Option.some_inj.mp hc
    exact decide_eq_false fun hd => hspace (hd ▸ List.mem_cons_self)
  have hscan : scanWhile (fun c => c ≠ 0 ∧ c ≠ SPACE) buf fuel (i + seps.length) =
      some (i + seps.length + w.length) := by
    refine hword.scanWhile (fun c hc => decide_eq_true ⟨fun h0 => ?_, fun hd => hspace (hd ▸ hc)⟩)
      (fun c hc => ?_)
      (by decide) (by omega)
    · exact hword.ne_zero (h0 ▸ List.mem_append_left rest hc)
    · exact decide_eq_false fun hd => hd.2 (hrest c hc)
  have hhead : buf (i + seps.length) ≠ 0 :=
    mt hword.eq_nil_iff.mp fun hnil => hw (List.append_eq_nil_iff.mp hnil).1
  have hfirst : buf i ≠ 0 := mt h.eq_nil_iff.mp fun hnil => by
    rw [List.append_eq_nil_iff, List.append_eq_nil_iff] at hnil
    exact hw hnil.2.1
  have hrun : parseLoop fuel (k + 1) buf argv i = if buf (i + seps.length + w.length) ≠ 0
      then parseLoop fuel k (Function.update buf (i + seps.length + w.length) 0) (argv ++ [i + seps.length])
        (i + seps.length + w.length + 1)
      else parseLoop fuel k buf (argv ++ [i + seps.length]) (i + seps.length + w.length) := by
    rw [parseLoop, if_neg hfirst, hskip, Option.bind_some, if_neg hhead]
    dsimp only
    rw [hscan, Option.bind_some]
  -- the characters of the word, with a terminator behind them
  have hstr {buf₁ : Buffer} (hsame : ∀ j, j < i + seps.length + w.length → buf₁ j = buf j)
      (h0 : buf₁ (i + seps.length + w.length) = 0) : StringAt buf₁ (i + seps.length) w := by
    refine ⟨fun h0 => hword.ne_zero (List.mem_append_left rest h0), fun j hj => ?_⟩
    obtain hlt | rfl := Nat.lt_or_eq_of_le hj
    · rw [hsame _ (by omega), hword.eq j (by rw [List.length_append]; omega), List.getD_append _ _ _ _ hlt]
    · rw [h0, List.getD_eq_default _ _ le_rfl]
  rw [hrun]
  cases rest with
  | nil =>
    rw [if_neg (not_not.mpr hbehind.nil)]
    exact ⟨buf, _, [], rfl, hbehind, rfl, rfl, le_rfl, fun _ _ => rfl, fun _ h0 => h0,
      hstr (fun _ _ => rfl) hbehind.nil⟩
  | cons c rest =>
    have hsame : ∀ j, j ≠ i + seps.length + w.length →
        Function.update buf (i + seps.length + w.length) 0 j = buf j :=
          fun j hj => Function.update_of_ne hj _ _
    rw [if_pos (by rw [hbehind.head]; exact hbehind.head_ne), hrest c rfl, tokens_cons]
    refine ⟨_, _, rest, rfl, hbehind.tail.congr fun j hj _ =>
      hsame j (by omega), by rw [List.length_cons]; omega, rfl,
      Nat.le_succ _, fun j hj => hsame j (by omega), fun j h0 => ?_,
      hstr (fun j hj => hsame j (by omega)) (Function.update_self _ _ _)⟩
    by_cases hj : j = i + seps.length + w.length
    · rw [hj, Function.update_self]
    · rw [hsame j hj, h0]

/-- The string at `i` is `s`, and it ends at `stop` at the latest. -/
def EndsBy (buf : Buffer) (stop i : ℕ) (s : List Byte) : Prop := StringAt buf i s ∧ i + s.length ≤ stop

/-- The loop from `i` on gives the next words. It changes nothing before `i`, and no terminator. -/
theorem parseLoop_eq (argv : List ℕ) (h : StringAt buf i s) (hf : s.length < fuel) : ∃ new buf',
    parseLoop fuel k buf argv i = some (argv ++ new, buf') ∧ (∀ j, j < i → buf' j = buf j) ∧
      (∀ j, buf j = 0 → buf' j = 0) ∧
      List.Forall₂ (EndsBy buf' (i + s.length)) new ((tokens SPACE s).take k) := by
  induction k generalizing buf argv i s with
  | zero => exact ⟨[], buf, by rw [List.append_nil]; rfl, fun _ _ => rfl, fun _ h0 => h0, .nil⟩
  | succ k ih =>
    have hend (hs : tokens SPACE s = [])
        (hl : parseLoop fuel (k + 1) buf argv i = some (argv, buf)) : ∃ new buf',
        parseLoop fuel (k + 1) buf argv i = some (argv ++ new, buf') ∧ (∀ j, j < i → buf' j = buf j) ∧
          (∀ j, buf j = 0 → buf' j = 0) ∧
          List.Forall₂ (EndsBy buf' (i + s.length)) new ((tokens SPACE s).take (k + 1)) :=
      ⟨[], buf, by rw [List.append_nil, hl], fun _ _ => rfl, fun _ h0 => h0, by rw [hs]; exact .nil⟩
    by_cases hs : s = []
    · refine hend (by rw [hs, tokens_nil]) ?_
      rw [parseLoop, if_pos (h.eq_nil_iff.mpr hs)]
    obtain ⟨htok, hall⟩ | ⟨seps, w, rest, rfl, hseps, hw, hspace, hrest, htok⟩ := tokens_cases SPACE s
    -- only spaces are left
    · refine hend htok ?_
      have h' : StringAt buf i (s ++ []) := by rwa [List.append_nil]
      rw [parseLoop, if_neg (mt h.eq_nil_iff.mp hs),
        h'.scanWhile (fun c hc => decide_eq_true (hall c hc)) (fun c hc => nomatch hc)
          (by decide) hf, Option.bind_some,
        if_pos h'.append.nil]
    · obtain ⟨buf₁, i₁, rest₁, hrun, h₁, hlen, htok₁, hle, hsame₁, hzero₁, hword⟩ :=
        parseLoop_word (k := k) argv h hseps hw hspace hrest hf
      rw [List.length_append, List.length_append] at hf
      obtain ⟨new, buf', hloop, hsame, hzero, hnew⟩ := ih (argv ++ [i + seps.length]) h₁ (by omega)
      have hstop : i₁ + rest₁.length = i + (seps ++ (w ++ rest)).length := by
        rw [hlen, List.length_append, List.length_append]
        omega
      refine ⟨(i + seps.length) :: new, buf', ?_, fun j hj => ?_, fun j h0 => hzero j (hzero₁ j h0), ?_⟩
      · rw [hrun, hloop, List.append_assoc]
        rfl
      · rw [hsame j (by omega), hsame₁ j (by omega)]
      · rw [htok, List.take_succ_cons, ← htok₁, ← hstop]
        refine .cons ⟨hword.congr fun j _ hj => ?_, by omega⟩ hnew
        obtain hlt | rfl := Nat.lt_or_eq_of_le hj
        · exact hsame j (by omega)
        · have h0 : buf₁ (i + seps.length + w.length) = 0 := by
            rw [hword.eq _ le_rfl, List.getD_eq_default _ _ le_rfl]
          rw [h0, hzero _ h0]

/-- `argv` has the positions of the first words of a terminated line, which end inside it. -/
theorem parseArguments_ends (h : StringAt buf 0 line) (hf : line.length < fuel) : ∃ argv buf',
    parseArguments fuel buf = some (argv, buf') ∧
      List.Forall₂ (EndsBy buf' line.length) argv ((tokens SPACE line).take MAX_ARGS) := by
  obtain ⟨argv, buf', hloop, -, -, hwords⟩ := parseLoop_eq (k := MAX_ARGS) [] h hf
  rw [Nat.zero_add] at hwords
  exact ⟨argv, buf', hloop, hwords⟩

/-- `parse_arguments` gives the first words of a terminated line. -/
theorem parseArguments_eq (h : StringAt buf 0 line) (hf : line.length < fuel) : ∃ argv buf',
    parseArguments fuel buf = some (argv, buf') ∧
      argv.map (cstr buf' fuel) = (tokens SPACE line).take MAX_ARGS := by
  obtain ⟨argv, buf', hparse, hwords⟩ := parseArguments_ends h hf
  refine ⟨argv, buf', hparse, map_cstr (hwords.imp fun _ _ hw => hw.1) fun w hw => ?_⟩
  exact (length_le_of_mem_tokens (List.mem_of_mem_take hw)).trans hf.le

/-! ### The words of the joined words -/

/-- The words joined by single spaces are parsed to the same words. -/
theorem parseArguments_joined {words : List (List Byte)} (hwords : words = (tokens SPACE line).take MAX_ARGS)
    (h : StringAt buf 0 ([SPACE].intercalate words)) (hf : ([SPACE].intercalate words).length < fuel) :
    ∃ argv buf', parseArguments fuel buf = some (argv, buf') ∧ argv.map (cstr buf' fuel) = words := by
  obtain ⟨argv, buf', hparse, heq⟩ := parseArguments_eq h hf
  refine ⟨argv, buf', hparse, heq.trans ?_⟩
  have hmem : ∀ w ∈ words, w ∈ tokens SPACE line := fun w hw => List.mem_of_mem_take (hwords ▸ hw)
  rw [tokens_intercalate (fun w hw => ne_nil_of_mem_tokens (hmem w hw)) fun w hw =>
    notMem_of_mem_tokens (hmem w hw),
    hwords, List.take_take, min_self]

/-- **`parse_arguments`** ends on every terminated line, and `argv` has the first eight words: none is
empty, each ends inside the line, and the words joined by single spaces are parsed to the same words. -/
theorem parseArguments_words (h : StringAt buf 0 line) (hf : line.length < fuel) : ∃ argv buf',
    parseArguments fuel buf = some (argv, buf') ∧
      argv.length = min MAX_ARGS (tokens SPACE line).length ∧
      argv.map (cstr buf' fuel) = (tokens SPACE line).take MAX_ARGS ∧
      (∀ p ∈ argv, ∃ w, w ≠ [] ∧ StringAt buf' p w ∧ p + w.length ≤ line.length) ∧
      ∀ buf₁ fuel₁, StringAt buf₁ 0 ([SPACE].intercalate (argv.map (cstr buf' fuel))) →
        ([SPACE].intercalate (argv.map (cstr buf' fuel))).length < fuel₁ → ∃ argv₁ buf₁',
          parseArguments fuel₁ buf₁ = some (argv₁, buf₁') ∧
            argv₁.map (cstr buf₁' fuel₁) = argv.map (cstr buf' fuel) := by
  obtain ⟨argv, buf', hparse, hends⟩ := parseArguments_ends h hf
  obtain ⟨argv', buf'', hparse', hwords⟩ := parseArguments_eq h hf
  obtain ⟨rfl, rfl⟩ := Prod.mk.inj (Option.some.inj (hparse'.symm.trans hparse))
  refine ⟨argv', buf'', hparse, ?_, hwords, fun p hp => ?_, fun buf₁ fuel₁ h₁ hf₁ =>
    parseArguments_joined hwords h₁ hf₁⟩
  · rw [hends.length_eq, List.length_take]
  · obtain ⟨i, hi, rfl⟩ := List.mem_iff_getElem.mp hp
    have hi' : i < ((tokens SPACE line).take MAX_ARGS).length := hends.length_eq ▸ hi
    have hw : EndsBy buf'' line.length argv'[i] ((tokens SPACE line).take MAX_ARGS)[i] := hends.get hi hi'
    exact ⟨_, ne_nil_of_mem_tokens (List.mem_of_mem_take (List.getElem_mem hi')), hw⟩

/-- Ten words, with more than one space between two of them. -/
theorem parseArguments_words_ten : ∃ argv buf',
    parseArguments 32
      (strcpy (fun _ => 0x41) [0x61, 0x20, 0x20, 0x62, 0x20, 0x63, 0x20, 0x64, 0x20,
      0x65, 0x20, 0x66,
      0x20, 0x67, 0x20, 0x68, 0x20, 0x69, 0x20, 0x6A]) = some (argv, buf') ∧ argv.length = 8 := by
  obtain ⟨argv, buf', hparse, hlen, -⟩ := parseArguments_words
    (stringAt_strcpy (fun _ =>
      0x41) (s := [0x61, 0x20, 0x20, 0x62, 0x20, 0x63, 0x20, 0x64, 0x20, 0x65, 0x20, 0x66,
      0x20, 0x67, 0x20, 0x68, 0x20, 0x69, 0x20, 0x6A]) (by decide)) (show _ < 32 by decide)
  exact ⟨argv, buf', hparse, hlen⟩

end SpatulaOS.Shell
