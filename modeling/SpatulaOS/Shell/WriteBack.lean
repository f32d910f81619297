import SpatulaOS.Fs.Refinement
import SpatulaOS.Shell.Bounds

/-!
# Writing a file and reading it back

`cmd_write` writes the words that `parse_arguments` gave it from the beginning of the file on, with
spaces between them. Two things are not in the file as they were typed: the words behind the
eighth argument are lost, and the file is not cut off behind the new text. So `rd` prints what
was typed exactly if the old contents happen to complete it (`write_rd_iff`).

The writes are followed on the reference of the descriptors: each lays a string over the file behind
the one before (`writeArgs_lays`).
-/

namespace SpatulaOS.Shell

open ByteMemory Tokens SpatulaOS.Fs

variable {s s₀ u : FsState} {t : Files Word} {a answer : Word} {fd : ℤ} {off i : ℕ}
  {str path line : List Byte}
  {args words : List (List Byte)} {answers : ℕ → Word} {se se' : Session} {printed : Printed}

/-! ### Joined words -/

/-- The words, with single spaces between them. -/
abbrev joined (words : List (List Byte)) : List Byte := [SPACE].intercalate words

theorem joined_singleton (w : List Byte) : joined [w] = w := List.intercalate_singleton

theorem joined_cons_cons (w v : List Byte) (words : List (List Byte)) :
    joined (w :: v :: words) = w ++ ([SPACE] ++ joined (v :: words)) := by
  rw [joined, List.intercalate_cons_cons, List.append_assoc]

theorem joined_append {us vs : List (List Byte)} (hu : us ≠ []) (hv : vs ≠ []) :
    joined (us ++ vs) = joined us ++ SPACE :: joined vs := by
  induction us with
  | nil => exact absurd rfl hu
  | cons w us ih =>
    cases us with
    | nil =>
      obtain ⟨v, vs, rfl⟩ := List.exists_cons_of_ne_nil hv
      rw [List.singleton_append, joined_cons_cons, joined_singleton]
      rfl
    | cons w' us =>
      rw [List.cons_append, List.cons_append, joined_cons_cons, joined_cons_cons, ← List.cons_append,
        ih (List.cons_ne_nil _ _), List.append_assoc, List.append_assoc]

/-- The words with a space behind each have one character more. -/
theorem length_joined (h : words ≠ []) : (joined words).length + 1 = joinedSize words := by
  induction words with
  | nil => exact absurd rfl h
  | cons w words ih =>
    cases words with
    | nil =>
      rw [joined_singleton]
      rfl
    | cons v words =>
      have ih := ih (List.cons_ne_nil _ _)
      rw [joined_cons_cons, joinedSize_cons, List.length_append, List.length_append, List.length_singleton]
      omega

theorem mem_joined {c : Byte} (h : c ∈ joined words) : c = SPACE ∨ ∃ w ∈ words, c ∈ w := by
  induction words with
  | nil => cases h
  | cons w words ih =>
    cases words with
    | nil =>
      rw [joined_singleton] at h
      exact .inr ⟨w, List.mem_cons_self, h⟩
    | cons v words =>
      rw [joined_cons_cons, List.mem_append, List.mem_append] at h
      obtain h | h | h := h
      · exact .inr ⟨w, List.mem_cons_self, h⟩
      · exact .inl (List.mem_singleton.mp h)
      · exact (ih h).imp_right fun ⟨x, hx, hc⟩ => ⟨x, List.mem_cons_of_mem _ hx, hc⟩

/-! ### Writes -/

/-- `kmalloc` succeeds if the write comes to it: it answers with a fresh buffer. -/
def FreshWrite (s : FsState) (fd : ℤ) (size answer : Word) : Prop :=
  let desc := s.fdTable fd.toNat
  Grows s desc.node desc.offset size → FreshBuffer s answer (desc.offset + size)

/-- `kmalloc` succeeds in the loop of `cmd_write`. -/
def FreshWrites (s : FsState) (fd : ℤ) : List (List Byte) → (ℕ → Word) → Prop
  | [], _ => True
  | [arg], answers => FreshWrite s fd (BitVec.ofNat 32 arg.length) (answers 0)
  | arg :: args, answers => FreshWrite s fd (BitVec.ofNat 32 arg.length) (answers 0) ∧
    ∀ s₁, writeString s fd arg (answers 0) = .ok s₁ → FreshWrite s₁ fd 1 (answers 1) ∧
      ∀ s₂, writeString s₁ fd [SPACE] (answers 1) = .ok s₂ → FreshWrites s₂ fd args fun k => answers (k + 2)

/-- The reference with bytes laid over a file through a descriptor. -/
def lay (t : Files Word) (fd : ℤ) (a : Word) (off : ℕ) (bytes : List Byte) : Files Word where
  contents := Function.update t.contents a (overlay (t.contents a) off bytes)
  fds := Function.update t.fds fd.toNat (some (a, off + bytes.length))

theorem lay_lay (hoff : off ≤ (t.contents a).length) (b c : List Byte) :
    lay (lay t fd a off b) fd a (off + b.length) c = lay t fd a off (b ++ c) := by
  unfold lay
  dsimp only
  rw [Function.update_self, Function.update_idem, Function.update_idem, overlay_overlay hoff,
    List.length_append,
    Nat.add_assoc]

theorem desc_eq_some {p : Word × ℕ} :
    t.desc fd = some p ↔ (0 ≤ fd ∧ fd < MAX_FDS) ∧ t.fds fd.toNat = some p := by
  unfold Files.desc
  split_ifs with h
  · exact ⟨fun hp => ⟨h, hp⟩, fun hp => hp.2⟩
  · exact ⟨nofun, fun hp => absurd hp.1 h⟩

theorem desc_lay (hdesc : t.desc fd = some (a, off)) (b : List Byte) :
    (lay t fd a off b).desc fd = some (a, off + b.length) := by
  rw [desc_eq_some] at hdesc ⊢
  exact ⟨hdesc.1, Function.update_self _ _ _⟩

theorem map_getD (str : List Byte) : ((List.range str.length).map fun i => str.getD i 0) = str := by
  refine List.ext_getElem (by rw [List.length_map, List.length_range]) fun i h₁ h₂ => ?_
  rw [List.getElem_map, List.getElem_range, List.getD_eq_getElem _ _ h₂]

/-- A string is written: it is laid over the file. -/
theorem writeString_lays (h : Refines s₀ s t) (hdesc : t.desc fd = some (a, off))
    (hdir : (nameSpace s₀).isDir a = false) (hoff : off ≤ (t.contents a).length)
    (hlt : off + str.length < 2 ^ 31)
    (hfresh : FreshWrite s fd (BitVec.ofNat 32 str.length) answer) :
    ∃ s', writeString s fd str answer = .ok s' ∧ Refines s₀ s' (lay t fd a off str) := by
  have hsize : (BitVec.ofNat 32 str.length).toNat = str.length := by
    rw [BitVec.toNat_ofNat, Nat.mod_eq_of_lt (by omega)]
  have hok : Allowed s (.sysWrite fd (fun i => str.getD i 0) (BitVec.ofNat 32 str.length) answer) := by
    intro hfd
    have heq := Option.some.inj ((h.represents.desc hfd).symm.trans hdesc)
    obtain ⟨hnode, hoffset⟩ := Prod.mk.inj heq
    have hlen := h.represents.length _ (h.wf.live_desc hfd)
    rw [hnode] at hlen
    rw [FreshWrite, hnode] at hfresh
    dsimp only
    rw [hoffset, hnode, hsize, ← hlen]
    exact fun _ => ⟨hoff, hlt, hfresh⟩
  obtain ⟨s', hm⟩ : ∃ s', Matches s₀ s t _ s' := write_matches h.wf h.represents h.tree hok
  have href : refCall (nameSpace s₀) t
      (.sysWrite fd (fun i => str.getD i 0) (BitVec.ofNat 32 str.length) answer) =
      (⟨str.length, []⟩, lay t fd a off str) := by
    rw [refCall, hdesc]
    dsimp only
    rw [hdir, if_neg Bool.false_ne_true, hsize, map_getD]
    rfl
  obtain ⟨hresult, hwf, hrep⟩ := hm
  rw [href] at hresult hrep
  obtain ⟨r, hw, heq⟩ := map_eq_ok hresult
  refine ⟨s', ?_, hwf, hrep, h.tree.trans (sysCall_sameTree hresult)⟩
  rw [writeString, hw, ← (Prod.mk.inj heq).2]
  rfl

/-- The loop of `cmd_write` lays the joined arguments over the file. -/
theorem writeArgs_lays (h : Refines s₀ s t) (hdesc : t.desc fd = some (a, off))
    (hdir : (nameSpace s₀).isDir a = false) (hoff : off ≤ (t.contents a).length)
    (hlt : off + (joined args).length < 2 ^ 31) (hargs : args ≠ []) (hfresh : FreshWrites s fd args answers) :
    ∃ s', writeArgs s fd args answers = .ok s' ∧ Refines s₀ s' (lay t fd a off (joined args)) := by
  induction args generalizing s t off answers with
  | nil => exact absurd rfl hargs
  | cons arg args ih =>
    cases args with
    | nil =>
      rw [joined_singleton] at hlt ⊢
      exact writeString_lays h hdesc hdir hoff hlt hfresh
    | cons arg' args =>
      rw [joined_cons_cons, List.length_append, List.length_append, List.length_singleton] at hlt
      obtain ⟨hfresh₁, hfresh⟩ := hfresh
      have hlen {b : List Byte} {o : ℕ} {t : Files Word} (ho : o ≤ (t.contents a).length) :
          o + b.length ≤ ((lay t fd a o b).contents a).length := by
        unfold lay
        dsimp only
        rw [Function.update_self, length_overlay ho]
        exact le_max_right _ _
      obtain ⟨s₁, hw₁, h₁⟩ := writeString_lays h hdesc hdir hoff (by omega) hfresh₁
      obtain ⟨hfresh₂, hfresh⟩ := hfresh s₁ hw₁
      have hoff₁ := hlen (b := arg) hoff
      have hdesc₁ := desc_lay hdesc arg
      have hlt₁ : off + arg.length + [SPACE].length < 2 ^ 31 := by
        rw [List.length_singleton]
        omega
      obtain ⟨s₂, hw₂, h₂⟩ := writeString_lays h₁ hdesc₁ hdir hoff₁ hlt₁ hfresh₂
      have hoff₂ := hlen (b := [SPACE]) hoff₁
      obtain ⟨s₃, hw₃, h₃⟩ := ih h₂ (desc_lay hdesc₁ [SPACE]) hoff₂ (by rw [List.length_singleton]; omega)
        (List.cons_ne_nil _ _) (hfresh s₂ hw₂)
      refine ⟨s₃, ?_, ?_⟩
      · rw [writeArgs, hw₁, Except.bind, hw₂, Except.bind, hw₃]
        exact List.cons_ne_nil _ _
      · rw [joined_cons_cons, ← lay_lay hoff, ← lay_lay hoff₁]
        exact h₃

/-! ### The commands -/

/-- A file that is open at its beginning. -/
structure Opened (s₀ u : FsState) (t : Files Word) (fd : ℤ) (a : Word) : Prop where
  nonneg : ¬ fd < 0
  seek : (sysSeek u fd 0).2 = u
  refines : Refines s₀ u t
  desc : t.desc fd = some (a, 0)
  contents : t.contents = (files s₀).contents

/-- A lookup that returns has found a node in use or nothing. -/
theorem live_of_vfsLookup (h : Wf s) (hl : vfsLookup s path = .ok a) (h0 : a ≠ 0) : s.Live a := by
  have hfit : PathFits s path := by
    by_contra hfit
    obtain ⟨t, ht⟩ := vfsLookup_overrun.mpr hfit
    cases hl.symm.trans ht
  obtain ⟨b, hb, hlive⟩ := h.vfsLookup hfit
  obtain rfl := Except.ok.inj (hl.symm.trans hb)
  exact hlive h0

/-- `sys_open` fails, or the file is open at its beginning. -/
theorem sysOpen_opened (h : Wf s) (hl : vfsLookup s path = .ok a) (h0 : a ≠ 0) :
    ((∀ i, i < MAX_FDS → (s.fdTable i).used = true) ∧ sysOpen s path = .ok (-1, s)) ∨
      ∃ fd u t, sysOpen s path = .ok (fd, u) ∧ Opened s u t fd a := by
  obtain ⟨hnone, ho⟩ | ⟨-, i, hi, -, -, ho⟩ := sysOpen_cases hl
  · exact .inl ⟨hnone.resolve_left h0, ho⟩
  · have hrep := (represents_files s).updateFd i ⟨true, a, 0⟩
    refine .inr ⟨i, _, _, ho, by omega, ?_, ⟨?_, hrep, ⟨rfl, rfl, fun _ => rfl⟩⟩, ?_, rfl⟩
    · have hvalid : validFd { s with fdTable := Function.update s.fdTable i ⟨true, a, 0⟩ } i := by
        refine ⟨by omega, ?_⟩
        dsimp only
        rw [Int.toNat_natCast, Function.update_self]
      rw [sysSeek, if_neg (not_not.mpr hvalid)]
      dsimp only
      rw [Int.toNat_natCast, Function.update_self, Function.update_idem]
    · exact h.updateFd i fun _ => live_of_vfsLookup h hl h0
    · refine desc_eq_some.mpr ⟨⟨by omega, by omega⟩, ?_⟩
      rw [Int.toNat_natCast]
      exact Function.update_self _ _ _

/-- `cmd_write` lays the joined arguments over the beginning of the file, and a descriptor is free
afterwards. -/
theorem cmdWrite_lays {name : List Byte} (h : Wf se.fs) (hl : vfsLookup se.fs path = .ok a) (h0 : a ≠ 0)
    (hfile : (se.fs.nodes a).flags &&& VFS_DIR = 0) (hargs : args ≠ []) (hlt : (joined args).length < 2 ^ 31)
    (hfresh : ∀ fd u, sysOpen se.fs path = .ok (fd, u) → FreshWrites (sysSeek u fd 0).2 fd args answers)
    (hw : cmdWrite se (name :: path :: args) answers = .ok (text "Written.\n", se')) :
    ∃ t, Refines se.fs se'.fs t ∧
      t.contents a = joined args ++ ((files se.fs).contents a).drop (joined args).length ∧
      ∃ i, i < MAX_FDS ∧ (se'.fs.fdTable i).used = false := by
  obtain ⟨arg, args, rfl⟩ := List.exists_cons_of_ne_nil hargs
  rw [cmdWrite] at hw
  obtain ⟨-, ho⟩ | ⟨fd, u, t, ho, hopen⟩ := sysOpen_opened h hl h0
  · rw [ho] at hw
    exact absurd (Prod.mk.inj (Except.ok.inj hw)).1 (by decide)
  · have hfresh := hfresh fd u ho
    have hdir : (nameSpace se.fs).isDir a = false := decide_eq_false (not_not.mpr hfile)
    rw [hopen.seek] at hfresh
    obtain ⟨s', hargs', href⟩ :=
      writeArgs_lays hopen.refines hopen.desc hdir (Nat.zero_le _) (by omega) hargs hfresh
    have hfd := (desc_eq_some.mp hopen.desc).1
    rw [ho, ofFs, Except.mapError, Except.bind] at hw
    dsimp only at hw
    rw [if_neg hopen.nonneg, hopen.seek, hargs', ofFs, Except.mapError, Except.bind] at hw
    obtain ⟨-, rfl⟩ := Prod.mk.inj (Except.ok.inj hw)
    obtain ⟨s'', hclose⟩ : ∃ s'', Matches se.fs s' _ (.sysClose fd) s'' :=
      close_matches href.wf href.represents
    obtain ⟨hresult, hwf, hrep⟩ := hclose
    obtain ⟨-, rfl⟩ := Prod.mk.inj (Except.ok.inj hresult)
    refine ⟨_, ⟨hwf, hrep, href.tree.trans (sysCall_sameTree hresult)⟩, ?_, fd.toNat, by omega, ?_⟩
    · rw [refCall, if_pos hfd]
      unfold lay
      dsimp only
      rw [Function.update_self, hopen.contents, overlay, List.take_zero, List.nil_append, Nat.zero_add]
    · unfold sysClose
      rw [if_pos ⟨by omega, hfd.2⟩]
      dsimp only
      rw [Function.update_self]

theorem contents_eq (h : Represents s t) (ha : s.Live a) : t.contents a = (files s).contents a := by
  have hfiles := represents_files s
  refine List.ext_getElem ((h.length a ha).trans (hfiles.length a ha).symm) fun i h₁ h₂ => ?_
  rw [← h.holds a ha i h₁, ← hfiles.holds a ha i h₂]

/-- `cmd_rd` prints the file up to 255 characters or the first terminator. -/
theorem cmdRd_prints (name : List Byte) (h : Wf se.fs) (hrep : Represents se.fs t)
    (hl : vfsLookup se.fs path = .ok a)
    (h0 : a ≠ 0) (hfree : ∃ i, i < MAX_FDS ∧ (se.fs.fdTable i).used = false) : ∃ se',
    cmdRd se [name, path] = .ok (((t.contents a).take 255).takeWhile (· ≠ 0) ++ text "\n", se') := by
  obtain ⟨i, hi, hunused⟩ := hfree
  obtain ⟨hfull, -⟩ | ⟨fd, u, v, ho, hopen⟩ := sysOpen_opened h hl h0
  · rw [hfull i hi] at hunused
    cases hunused
  · obtain ⟨hwf, hrepu, -⟩ := hopen.refines
    have hfd : validFd u fd := by
      by_contra hfd
      cases (hrepu.desc_none hfd).symm.trans hopen.desc
    obtain ⟨hnode, hoff⟩ := Prod.mk.inj (Option.some.inj ((hrepu.desc hfd).symm.trans hopen.desc))
    have hoff' : (u.fdTable fd.toNat).offset = 0 := BitVec.eq_of_toNat_eq hoff
    have hcontents : v.contents a = t.contents a := by
      rw [hopen.contents, contents_eq hrep (live_of_vfsLookup h hl h0)]
    obtain ⟨bytes, hbytes⟩ : ∃ bytes, bytes = (t.contents a).take 255 := ⟨_, rfl⟩
    have hread :=
      (read_valid hwf hrepu hfd hnode hoff' (by decide : _ + (255 : Word).toNat < _)
      (hbytes.trans (hcontents ▸ rfl))).1
    -- nothing is printed of an empty file either way
    have hprint :
        (if (bytes.length : ℤ) > 0 then bytes.takeWhile (· ≠ 0) else []) =
        bytes.takeWhile (· ≠ 0) := by
      cases bytes with
      | nil => rfl
      | cons c bytes => exact if_pos (Int.natCast_pos.mpr (Nat.succ_pos _))
    unfold cmdRd
    simp only [List.getElem?_cons_succ, List.getElem?_cons_zero, ho, ofFs, Except.mapError,
      Except.bind, hopen.seek,
      hread, if_neg hopen.nonneg, hprint]
    rw [hbytes]
    exact ⟨_, rfl⟩

/-! ### Reading back -/

/-- A following `rd` prints the words, joined by single spaces, and ends the line. -/
def ReadsBack (se : Session) (path : List Byte) (words : List (List Byte)) : Prop :=
  ∀ printed localBuffer answers, ∃ se',
    executeCommand printed localBuffer se (text "rd " ++ path) answers = .ok (joined words ++ text "\n", se')

/-- The old contents complete what is written. If all words have room in `argv`, there is nothing
behind the new text, or a terminator. Otherwise the old contents go on with the words that have
none. -/
def Completes (old : List Byte) (words : List (List Byte)) : Prop :=
  if words.length ≤ MAX_ARGS - 2 then ∀ c ∈ old[(joined words).length]?, c = 0
  else
    let n := (joined (words.take (MAX_ARGS - 2))).length
    ((old.drop n).take (255 - n)).takeWhile (· ≠ 0) = SPACE :: joined (words.drop (MAX_ARGS - 2))

instance (old : List Byte) (words : List (List Byte)) : Decidable (Completes old words) := by
  unfold Completes
  infer_instance

/-- A text without terminators is printed whole, and then what is behind it. -/
theorem takeWhile_text {new rest : List Byte} (h0 : 0 ∉ new) (hlen : new.length ≤ 255) :
    ((new ++ rest).take 255).takeWhile (· ≠ 0) = new ++ (rest.take (255 - new.length)).takeWhile (· ≠ 0) := by
  rw [List.take_append, List.take_of_length_le hlen, List.takeWhile_append_of_pos]
  intro c hc
  exact decide_eq_true fun hc0 => h0 (hc0 ▸ hc)

/-- The joined words, up to those that have no room. -/
theorem joined_take_drop {n : ℕ} (hn : 0 < n) (hlong : n < words.length) :
    joined words = joined (words.take n) ++ SPACE :: joined (words.drop n) := by
  have htake : words.take n ≠ [] := fun h => by
    rw [List.take_eq_nil_iff] at h
    obtain h | rfl := h
    · omega
    · exact Nat.not_lt_zero n hlong
  have hdrop : words.drop n ≠ [] := fun h => by
    rw [List.drop_eq_nil_iff] at h
    omega
  rw [← joined_append htake hdrop, List.take_append_drop]

/-- The old contents complete the text if what is printed is the joined words. -/
theorem completes_iff (hlen : (joined words).length < 255) (h0 : 0 ∉ joined words) (old : List Byte) :
    ((joined (words.take (MAX_ARGS - 2)) ++
      old.drop (joined (words.take (MAX_ARGS - 2))).length).take 255).takeWhile
      (· ≠ 0) = joined words ↔ Completes old words := by
  unfold Completes
  split_ifs with hshort
  · rw [List.take_of_length_le hshort, takeWhile_text h0 hlen.le, List.append_right_eq_self]
    obtain ⟨k, hk⟩ : ∃ k, 255 - (joined words).length = k + 1 := ⟨254 - (joined words).length, by omega⟩
    rw [hk, ← List.head?_drop]
    cases old.drop (joined words).length with
    | nil => exact ⟨fun _ => nofun, fun _ => rfl⟩
    | cons c rest =>
      rw [List.take_succ_cons, List.takeWhile_cons]
      simp
  · have hjoin :
        joined words = joined (words.take (MAX_ARGS - 2)) ++ SPACE ::
        joined (words.drop (MAX_ARGS - 2)) :=
      joined_take_drop (by decide) (Nat.lt_of_not_le hshort)
    have h0' : 0 ∉ joined (words.take (MAX_ARGS - 2)) := fun h => h0 (hjoin ▸ List.mem_append_left _ h)
    have hlen' := congrArg List.length hjoin
    rw [List.length_append] at hlen'
    rw [takeWhile_text h0' (by omega), hjoin, List.append_cancel_left_eq]

/-- The joined words of a line are shorter than it. -/
theorem length_joined_lt (hlen : line.length ≤ 255) (htok : tokens SPACE line = text "write" :: path :: words)
    (hwords : words ≠ []) : (joined words).length + path.length + 7 ≤ 255 := by
  have hsum := sum_tokens_le SPACE line
  have hjoined := length_joined hwords
  rw [joinedSize] at hjoined
  rw [htok, List.map_cons, List.map_cons, List.sum_cons, List.sum_cons] at hsum
  have hwrite : (text "write").length = 5 := rfl
  omega

theorem executeCommand_write {localBuffer : Buffer} (hline : 0 ∉ line) (hlen : line.length ≤ 255)
    (htok : tokens SPACE line = text "write" :: path :: words) :
    executeCommand printed localBuffer se line answers =
      cmdWrite se (text "write" :: path :: words.take (MAX_ARGS - 2)) answers := by
  have hcommand : commandOf (text "write") = some .write := by decide
  rw [executeCommand_eq localBuffer hline hlen, htok]
  change dispatch printed se (text "write" :: path :: words.take (MAX_ARGS - 2)) answers = _
  rw [dispatch, hcommand]
  rfl

/-- The line of the following `rd`; the path is a word. -/
theorem executeCommand_rd (printed : Printed) (localBuffer : Buffer) (se : Session) (answers : ℕ → Word)
    (hpath : path ∈ tokens SPACE line) (hline : 0 ∉ line) (hlen : path.length + 3 ≤ 255) :
    executeCommand printed localBuffer se (text "rd " ++ path) answers = cmdRd se [text "rd", path] := by
  have hnul : 0 ∉ text "rd " ++ path := fun h => by
    obtain h | h := List.mem_append.mp h
    · exact absurd h (by decide)
    · exact hline (mem_of_mem_tokens hpath h)
  have htok : tokens SPACE (text "rd " ++ path) = [text "rd", path] := by
    change tokens SPACE (text "rd" ++ SPACE :: path) = _
    rw [tokens_append_cons, tokens_of_notMem (notMem_of_mem_tokens hpath) (ne_nil_of_mem_tokens hpath),
      tokens_of_notMem (by decide) (by decide)]
    rfl
  have hcommand : commandOf (text "rd") = some .rd := by decide
  have hthree : (text "rd ").length = 3 := rfl
  rw [executeCommand_eq localBuffer hnul (by rw [List.length_append]; omega), htok]
  change dispatch printed se [text "rd", path] answers = _
  rw [dispatch, hcommand]
  rfl

/-- **What was typed is read back exactly if the old contents complete it.** -/
theorem write_rd_iff {localBuffer : Buffer} (h : Wf se.fs) (hline : 0 ∉ line) (hlen : line.length ≤ 255)
    (htok : tokens SPACE line = text "write" :: path :: words) (hwords : words ≠ [])
    (hl : vfsLookup se.fs path = .ok a) (h0 : a ≠ 0) (hfile : (se.fs.nodes a).flags &&& VFS_DIR = 0)
    (hfresh : ∀ fd u, sysOpen se.fs path = .ok (fd, u) →
      FreshWrites (sysSeek u fd 0).2 fd (words.take (MAX_ARGS - 2)) answers)
    (hw : executeCommand printed localBuffer se line answers = .ok (text "Written.\n", se')) :
    ReadsBack se' path words ↔ Completes ((files se.fs).contents a) words := by
  have hshort := length_joined_lt hlen htok hwords
  have hmem {w : List Byte} (hw : w ∈ path :: words) : w ∈ tokens SPACE line :=
    htok ▸ List.mem_cons_of_mem _ hw
  have hnul : 0 ∉ joined words := by
    intro hc
    obtain hc | ⟨w, hw, hc⟩ := mem_joined hc
    · cases hc
    · exact hline (mem_of_mem_tokens (hmem (List.mem_cons_of_mem _ hw)) hc)
  have hargs : words.take (MAX_ARGS - 2) ≠ [] := fun hnil => by
    rw [List.take_eq_nil_iff] at hnil
    exact hwords (hnil.resolve_left (by decide))
  have hlt : (joined (words.take (MAX_ARGS - 2))).length ≤ (joined words).length := by
    by_cases hroom : words.length ≤ MAX_ARGS - 2
    · rw [List.take_of_length_le hroom]
    · have hjoin := congrArg List.length (joined_take_drop (by decide) (Nat.lt_of_not_le hroom))
      rw [List.length_append] at hjoin
      omega
  rw [executeCommand_write hline hlen htok] at hw
  obtain ⟨t, href, hcontents, hfree⟩ := cmdWrite_lays h hl h0 hfile hargs (by omega) hfresh hw
  have hl' : vfsLookup se'.fs path = .ok a := href.tree.vfsLookup.trans hl
  obtain ⟨se'', hrd⟩ := cmdRd_prints (text "rd") href.wf href.represents hl' h0 hfree
  have hrd' (printed : Printed) (localBuffer : Buffer) (answers : ℕ → Word) :=
    executeCommand_rd printed localBuffer se' answers (hmem List.mem_cons_self) hline (by omega)
  rw [← completes_iff (by omega) hnul, ← hcontents]
  constructor
  · intro hback
    obtain ⟨_, hprint⟩ := hback printed localBuffer answers
    rw [hrd', hrd] at hprint
    exact List.append_cancel_right (Prod.mk.inj (Except.ok.inj hprint)).1
  · intro hprint printed localBuffer answers
    rw [hrd', hrd, hprint]
    exact ⟨se'', rfl⟩

/-! ### A sample -/

/-- The root with an empty file "f". -/
def fileSession : Session := ⟨sampleFile, 0x400018⟩

theorem nodes_seek_open (ho : sysOpen s path = .ok (fd, u)) : (sysSeek u fd 0).2.nodes = s.nodes := by
  have hseek : (sysSeek u fd 0).2.nodes = u.nodes := by
    unfold sysSeek
    split_ifs <;> rfl
  rw [hseek]
  obtain ⟨-, rfl⟩ | ⟨-, -, -, -, -, -, -, rfl⟩ := sysOpen_ok ho
  · rfl
  · rfl

/-- `kmalloc` succeeds when "ab" is written to the empty file. -/
theorem freshWrites_sampleFile (ho : sysOpen sampleFile (text "/f") = .ok (fd, u)) :
    FreshWrites (sysSeek u fd 0).2 fd [text "ab"] fun _ => 0x400300 := by
  have hdesc : (sysOpen sampleFile (text "/f")).map (fun r => (sysSeek r.2 r.1 0).2.fdTable r.1.toNat) =
      .ok ⟨true, 0x400100, 0⟩ := by decide +kernel
  rw [ho] at hdesc
  have hdesc : (sysSeek u fd 0).2.fdTable fd.toNat = ⟨true, 0x400100, 0⟩ := Except.ok.inj hdesc
  have hnodes := nodes_seek_open ho
  show FreshWrite _ _ _ _
  unfold FreshWrite
  rw [hdesc]
  refine fun _ => ⟨by decide, by decide, fun b _ => .inr ?_⟩
  obtain ⟨hdata, hcap⟩ := sampleFile_blank b
  rw [hnodes, hdata, hcap]
  exact Nat.zero_le _

/-- A line is executed. -/
def execute (se : Session) (line : List Byte) : Outcome :=
  executeCommand (fun _ _ => []) (fun _ => 0) se line fun _ => 0x400300

/-- The session in which "ab" was written to the file. -/
def abSession : Session :=
  match execute fileSession (text "write /f ab") with
  | .ok r => r.2
  | .error _ => fileSession

theorem execute_ab : execute fileSession (text "write /f ab") = .ok (text "Written.\n", abSession) := by
  have hout : (execute fileSession (text "write /f ab")).map Prod.fst = .ok (text "Written.\n") := by
    decide +kernel
  obtain ⟨⟨out, se⟩, hw, rfl⟩ := map_eq_ok hout
  rw [abSession, hw]

theorem vfsLookup_fileSession : vfsLookup fileSession.fs (text "/f") = .ok 0x400100 := by decide +kernel

/-- "ab" is written to the empty file and read back. -/
theorem readsBack_ab : ReadsBack abSession (text "/f") [text "ab"] := by
  have htok : tokens SPACE (text "write /f ab") = [text "write", text "/f", text "ab"] := by decide
  refine (write_rd_iff wf_sampleFile (by decide) (by decide) htok (by decide)
    vfsLookup_fileSession (by decide)
    (by decide +kernel) (fun fd u ho => freshWrites_sampleFile ho) execute_ab).mpr ?_
  have hold : (files fileSession.fs).contents 0x400100 = [] := by decide +kernel
  rw [hold]
  decide

theorem wf_abSession : Wf abSession.fs := by
  have htok : tokens SPACE (text "write /f ab") = [text "write", text "/f", text "ab"] := by decide
  have hw := (executeCommand_write (by decide) (by decide) htok).symm.trans execute_ab
  obtain ⟨t, href, -⟩ := cmdWrite_lays wf_sampleFile vfsLookup_fileSession (by decide)
    (by decide +kernel) (by decide) (by decide) (fun fd u ho => freshWrites_sampleFile ho) hw
  exact href.wf

theorem freshWrites_abSession (ho : sysOpen abSession.fs (text "/f") = .ok (fd, u)) :
    FreshWrites (sysSeek u fd 0).2 fd [text "x"] fun _ => 0x400300 := by
  have hdesc : (sysOpen abSession.fs (text "/f")).map (fun r => (sysSeek r.2 r.1 0).2.fdTable r.1.toNat) =
      .ok ⟨true, 0x400100, 0⟩ := by decide +kernel
  have hroom : ¬ (0 : Word) + 1 > (abSession.fs.nodes 0x400100).capacity := by decide +kernel
  rw [ho] at hdesc
  have hdesc : (sysSeek u fd 0).2.fdTable fd.toNat = ⟨true, 0x400100, 0⟩ := Except.ok.inj hdesc
  show FreshWrite _ _ _ _
  unfold FreshWrite Grows
  rw [hdesc, nodes_seek_open ho]
  exact fun hg => absurd hg hroom

/-- Over "ab" a single "x" is written: "xb" is read back. -/
theorem not_write_rd : ¬ ∀ printed localBuffer se se' line path words answers a, Wf se.fs → 0 ∉ line →
    line.length ≤ 255 → tokens SPACE line = text "write" :: path :: words → words ≠ [] →
    vfsLookup se.fs path = .ok a → a ≠ 0 → (se.fs.nodes a).flags &&& VFS_DIR = 0 →
    (∀ fd u, sysOpen se.fs path = .ok (fd, u) →
      FreshWrites (sysSeek u fd 0).2 fd (words.take (MAX_ARGS - 2)) answers) →
    executeCommand printed localBuffer se line answers = .ok (text "Written.\n", se') →
      ReadsBack se' path words := by
  intro hall
  have hrun : (execute abSession (text "write /f x")).map
      (fun r => (r.1, (execute r.2 (text "rd /f")).map Prod.fst)) =
      .ok (text "Written.\n", .ok (text "xb\n")) := by decide +kernel
  obtain ⟨⟨out, se'⟩, hw, heq⟩ := map_eq_ok hrun
  obtain ⟨rfl, hrd⟩ := Prod.mk.inj heq
  obtain ⟨se'', hback⟩ :=
    hall _ _ abSession se' (text "write /f x") (text "/f") [text "x"] _ 0x400100 wf_abSession
    (by decide) (by decide) (by decide) (by decide) (by decide +kernel) (by decide) (by decide +kernel)
    (fun fd u ho => freshWrites_abSession ho) hw (fun _ _ => []) (fun _ => 0) fun _ => 0x400300
  have hout : text "xb\n" = joined [text "x"] ++ text "\n" :=
    Except.ok.inj (hrd.symm.trans (congrArg (Except.map Prod.fst) hback))
  exact absurd hout (by decide)

end SpatulaOS.Shell
