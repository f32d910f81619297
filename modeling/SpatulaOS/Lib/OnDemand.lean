import Mathlib.Data.List.Basic
import Mathlib.Data.Nat.Init
import Mathlib.Data.Set.Defs
import Mathlib.Logic.Function.Basic
import Mathlib.Tactic.Cases

/-!
# Memory on demand

A program reads and writes a memory; each of its accesses is to a list of addresses at
once, as an instruction accesses the bytes of a word. Over a memory that is all there it is
`Prog.run`. Over a memory whose addresses become present when they are first accessed, an
access with an address that is not present faults, the fault is handled, and the access is
made again (`Demand.step`).

If a fault makes its address present and changes nothing that is present, and a write
changes what it writes only (`Demand.Lawful`), then a program cannot tell the two apart:
it ends with the result of a run over some complete memory, unless a fault ends it
(`Demand.Lawful.run`).
-/

namespace OnDemand

universe u

variable {A B S E : Type*} {α β : Type u}

/-- A program that ends with a value of `α`. -/
inductive Prog (A B : Type*) (α : Type u)
  /-- The end. -/
  | ret (a : α)
  /-- A read of the addresses `as`. -/
  | read (as : List A) (k : List B → Prog A B α)
  /-- A write of bytes to addresses. -/
  | write (ws : List (A × B)) (k : Prog A B α)

/-- A program, and what comes after it. -/
def Prog.bind : Prog A B α → (α → Prog A B β) → Prog A B β
  | .ret a, f => f a
  | .read as k, f => .read as fun bs => (k bs).bind f
  | .write ws k, f => .write ws (k.bind f)

instance instMonadProg : Monad (Prog A B) where
  pure := .ret
  bind := .bind

section Complete

variable [DecidableEq A]

/-- The memory after a write. -/
def put (m : A → B) (ws : List (A × B)) : A → B := ws.foldl (fun m w => Function.update m w.1 w.2) m

/-- The result of a program, and the memory behind it. -/
def Prog.run : Prog A B α → (A → B) → α × (A → B)
  | .ret a, m => (a, m)
  | .read as k, m => (k (as.map m)).run m
  | .write ws k, m => k.run (put m ws)

/-- All accesses of the program are to addresses in `R`. -/
def Prog.Within (R : Set A) : Prog A B α → (A → B) → Prop
  | .ret _, _ => True
  | .read as k, m => (∀ a ∈ as, a ∈ R) ∧ (k (as.map m)).Within R m
  | .write ws k, m => (∀ w ∈ ws, w.1 ∈ R) ∧ k.Within R (put m ws)

variable {m m' : A → B} {ws : List (A × B)} {a : A} {R : Set A}

/-! ### A complete memory -/

@[simp] theorem run_pure (x : α) (m : A → B) : (pure x : Prog A B α).run m = (x, m) := rfl

@[simp] theorem run_bind (p : Prog A B α) (f : α → Prog A B β) (m : A → B) :
    (p >>= f).run m = (f (p.run m).1).run (p.run m).2 := by
  induction p generalizing m with
  | ret a => rfl
  | read as k ih => exact ih _ m
  | write ws k ih => exact ih _

@[simp] theorem within_bind (p : Prog A B α) (f : α → Prog A B β) (m : A → B) :
    (p >>= f).Within R m ↔ p.Within R m ∧ (f (p.run m).1).Within R (p.run m).2 := by
  induction p generalizing m with
  | ret a => exact (iff_of_eq (true_and _)).symm
  | read as k ih => exact (and_congr_right fun _ => ih _ m).trans and_assoc.symm
  | write ws k ih => exact (and_congr_right fun _ => ih _).trans and_assoc.symm

/-- What a write leaves at an address depends on what was there only. -/
theorem put_apply_congr (h : m a = m' a) : put m ws a = put m' ws a := by
  induction ws generalizing m m' with
  | nil => exact h
  | cons w ws ih =>
    refine ih ?_
    show Function.update m w.1 w.2 a = Function.update m' w.1 w.2 a
    by_cases ha : a = w.1
    · rw [ha, Function.update_self, Function.update_self]
    · rw [Function.update_of_ne ha, Function.update_of_ne ha, h]

theorem put_of_notMem (h : ∀ w ∈ ws, w.1 ≠ a) : put m ws a = m a := by
  induction ws generalizing m with
  | nil => rfl
  | cons w ws ih =>
    obtain ⟨hw, hws⟩ := List.forall_mem_cons.mp h
    exact (ih hws).trans (Function.update_of_ne hw.symm _ _)

end Complete

/-! ### A memory on demand -/

/-- A memory whose addresses become present when they are first accessed. -/
structure Demand (S A B E : Type*) where
  /-- What an address holds, if it is present. -/
  view : S → A → Option B
  /-- The handler of a fault at an address, for a write or for a read. -/
  fault : S → A → Bool → Except E S
  /-- A write to addresses that are present. -/
  put : S → List (A × B) → S

namespace Demand

/-- The first address that is not present. -/
def missing (D : Demand S A B E) (s : S) (as : List A) : Option A := as.find? fun a => (D.view s a).isNone

/-- An access is made if all its addresses are present; otherwise the first one that is not
faults, and the access is still to be made. -/
def step (D : Demand S A B E) : Prog A B α × S → Except E (Prog A B α × S)
  | (.ret a, s) => .ok (.ret a, s)
  | (.read as k, s) =>
    match D.missing s as with
    | some a => (D.fault s a false).map fun s => (.read as k, s)
    | none => .ok (k (as.filterMap (D.view s)), s)
  | (.write ws k, s) =>
    match D.missing s (ws.map Prod.fst) with
    | some a => (D.fault s a true).map fun s => (.write ws k, s)
    | none => .ok (k, D.put s ws)

/-- `n` steps. -/
def steps (D : Demand S A B E) : ℕ → Prog A B α × S → Except E (Prog A B α × S)
  | 0, c => .ok c
  | n + 1, c => (D.step c).bind (D.steps n)

/-- The complete memory holds what is present. -/
def Agrees (D : Demand S A B E) (R : Set A) (s : S) (m : A → B) : Prop :=
  ∀ a ∈ R, ∀ v, D.view s a = some v → m a = v

/-- What is present in `s` is present in `s'` and the same. -/
def Extends (D : Demand S A B E) (R : Set A) (s s' : S) : Prop :=
  ∀ a ∈ R, ∀ v, D.view s a = some v → D.view s' a = some v

/-- A fault at an address of `R` makes it present and changes nothing that is, or ends with an
error that satisfies `P`; a write changes what it writes only. Both keep `I`. -/
structure Lawful [DecidableEq A] (D : Demand S A B E) (R : Set A) (I : S → Prop) (P : E → Prop) : Prop where
  fault : ∀ s a w, I s → a ∈ R → D.view s a = none →
    (∃ e, D.fault s a w = .error e ∧ P e) ∨
      ∃ s', D.fault s a w = .ok s' ∧ I s' ∧ D.view s' a ≠ none ∧ D.Extends R s s'
  put : ∀ s ws, I s → (∀ w ∈ ws, w.1 ∈ R ∧ D.view s w.1 ≠ none) → I (D.put s ws) ∧
    ∀ a ∈ R, D.view (D.put s ws) a = (D.view s a).map fun v => OnDemand.put (fun _ => v) ws a

variable {D : Demand S A B E} {R : Set A} {I : S → Prop} {P : E → Prop} {s s' s'' : S} {m : A → B}
  {as : List A}
  {a : A}

theorem Extends.refl (s : S) : D.Extends R s s := fun _ _ _ h => h

theorem Extends.trans (h : D.Extends R s s') (h' : D.Extends R s' s'') : D.Extends R s s'' :=
  fun a ha v hv => h' a ha v (h a ha v hv)

theorem Agrees.of_extends (h : D.Agrees R s' m) (he : D.Extends R s s') : D.Agrees R s m :=
  fun a ha v hv => h a ha v (he a ha v hv)

theorem exists_agrees [Inhabited B] (D : Demand S A B E) (R : Set A) (s : S) : ∃ m, D.Agrees R s m :=
  ⟨fun a => (D.view s a).getD default, fun a _ v hv => by show (D.view s a).getD default = v; rw [hv]; rfl⟩

theorem missing_eq_none_iff : D.missing s as = none ↔ ∀ a ∈ as, D.view s a ≠ none := by
  rw [missing, List.find?_eq_none]
  exact forall₂_congr fun a _ => not_congr Option.isNone_iff_eq_none

theorem of_missing (h : D.missing s as = some a) : a ∈ as ∧ D.view s a = none :=
  ⟨List.mem_of_find?_eq_some h,
    Option.isNone_iff_eq_none.mp (List.find?_some (p := fun a => (D.view s a).isNone) h)⟩

theorem Agrees.filterMap_eq (h : D.Agrees R s m) (hR : ∀ a ∈ as, a ∈ R) (hp : ∀ a ∈ as, D.view s a ≠ none) :
    as.filterMap (D.view s) = as.map m := by
  induction as with
  | nil => rfl
  | cons a as ih =>
    obtain ⟨ha, has⟩ := List.forall_mem_cons.mp hR
    obtain ⟨hpa, hpas⟩ := List.forall_mem_cons.mp hp
    obtain ⟨v, hv⟩ := Option.ne_none_iff_exists'.mp hpa
    rw [List.filterMap_cons_some hv, List.map_cons, h a ha v hv, ih has hpas]

theorem steps_add (D : Demand S A B E) (i j : ℕ) (c : Prog A B α × S) :
    D.steps (i + j) c = (D.steps i c).bind (D.steps j) := by
  induction i generalizing c with
  | zero => rw [Nat.zero_add]; rfl
  | succ i ih =>
    rw [Nat.succ_add, steps, steps]
    cases D.step c with
    | error e => rfl
    | ok c => exact ih c

/-- How the steps for an access end: with an allowed error, or with all its addresses present. -/
theorem Lawful.present [DecidableEq A] (h : D.Lawful R I P) (as : List A) {p : Prog A B α} {w : Bool}
    (hstep : ∀ s a, D.missing s as = some a → D.step (p, s) = (D.fault s a w).map fun s => (p, s))
    (hs : I s) (hR : ∀ a ∈ as, a ∈ R) :
    ∃ n, (∃ e, D.steps n (p, s) = .error e ∧ P e) ∨
      ∃ s', D.steps n (p, s) = .ok (p, s') ∧ I s' ∧ D.missing s' as = none ∧ D.Extends R s s' := by
  -- each fault makes one more of the addresses present
  induction hn : (as.filter fun a => (D.view s a).isNone).length
    using Nat.strong_induction_on generalizing s with
  | _ n ih =>
    cases ha : D.missing s as with
    | none => exact ⟨0, .inr ⟨s, rfl, hs, ha, .refl s⟩⟩
    | some a =>
      obtain ⟨hmem, hnone⟩ := of_missing ha
      obtain ⟨e, he, hP⟩ | ⟨s', hs', hI, hpres, hext⟩ := h.fault s a w hs (hR a hmem) hnone
      · refine ⟨1, .inl ⟨e, ?_, hP⟩⟩
        rw [steps, hstep s a ha, he]
        rfl
      · have hlt : (as.filter fun a => (D.view s' a).isNone).length < n := by
          have hsub : (as.filter fun a => (D.view s' a).isNone) =
              (as.filter fun a => (D.view s a).isNone).filter fun a => (D.view s' a).isNone := by
            rw [List.filter_filter]
            refine List.filter_congr fun b hb => ?_
            cases hv : D.view s b with
            | none => simp
            | some v => simp [hext b (hR b hb) v hv]
          rw [← hn, hsub, List.length_filter_lt_length_iff_exists]
          exact ⟨a, List.mem_filter.mpr ⟨hmem, by rw [hnone]; rfl⟩, mt Option.isNone_iff_eq_none.mp hpres⟩
        obtain ⟨k, hk⟩ := ih _ hlt hI rfl
        refine ⟨k + 1, ?_⟩
        have hrun : D.steps (k + 1) (p, s) = D.steps k (p, s') := by
          rw [steps, hstep s a ha, hs']
          rfl
        rw [hrun]
        obtain he | ⟨s'', hs'', hI'', hm, hext'⟩ := hk
        · exact .inl he
        · exact .inr ⟨s'', hs'', hI'', hm, hext.trans hext'⟩

/-- A program over a memory on demand ends like a run over a complete memory, or with an error
of a fault. -/
theorem Lawful.run [DecidableEq A] [Inhabited B] (h : D.Lawful R I P) (p : Prog A B α) (hs : I s)
    (hp : ∀ m, D.Agrees R s m → p.Within R m) :
    ∃ n, (∃ e, D.steps n (p, s) = .error e ∧ P e) ∨
      ∃ s' m, D.steps n (p, s) = .ok (.ret (p.run m).1, s') ∧ I s' ∧ D.Agrees R s m ∧
        D.Agrees R s' (p.run m).2 := by
  induction p generalizing s with
  | ret a =>
    obtain ⟨m, hm⟩ := D.exists_agrees R s
    exact ⟨0, .inr ⟨s, m, rfl, hs, hm, hm⟩⟩
  | read as k ih =>
    obtain ⟨m₀, hm₀⟩ := D.exists_agrees R s
    have hR := (hp m₀ hm₀).1
    obtain ⟨i, ⟨e, he, hP⟩ | ⟨s₁, hs₁, hI, hm, hext⟩⟩ := h.present as (p := .read as k) (w := false)
      (fun s a ha => by rw [step, ha]) hs hR
    · exact ⟨i, .inl ⟨e, he, hP⟩⟩
    have hpres := missing_eq_none_iff.mp hm
    have hk (m : A → B) (hag : D.Agrees R s₁ m) : (k (as.filterMap (D.view s₁))).Within R m := by
      rw [hag.filterMap_eq hR hpres]
      exact (hp m (hag.of_extends hext)).2
    obtain ⟨j, hj⟩ := ih _ hI hk
    have hrun : D.steps (i + (1 + j)) (.read as k, s) = D.steps j (k (as.filterMap (D.view s₁)), s₁) := by
      rw [steps_add, hs₁, Nat.add_comm 1 j, Except.bind, steps, step, hm]
      rfl
    refine ⟨i + (1 + j), ?_⟩
    rw [hrun]
    obtain he | ⟨s', m, hs', hI', hag, hag'⟩ := hj
    · exact .inl he
    · rw [hag.filterMap_eq hR hpres] at hs' hag'
      exact .inr ⟨s', m, by rw [hag.filterMap_eq hR hpres]; exact hs', hI', hag.of_extends hext, hag'⟩
  | write ws k ih =>
    obtain ⟨m₀, hm₀⟩ := D.exists_agrees R s
    have hR := (hp m₀ hm₀).1
    obtain ⟨i, ⟨e, he, hP⟩ | ⟨s₁, hs₁, hI, hm, hext⟩⟩ :=
      h.present (ws.map Prod.fst) (p := .write ws k) (w := true)
      (fun s a ha => by rw [step, ha]) hs (List.forall_mem_map.mpr hR)
    · exact ⟨i, .inl ⟨e, he, hP⟩⟩
    have hpres := List.forall_mem_map.mp (missing_eq_none_iff.mp hm)
    obtain ⟨hI₁, hview⟩ := h.put s₁ ws hI fun w hw => ⟨hR w hw, hpres w hw⟩
    -- the complete memory before the write holds what is present, and elsewhere what it holds behind it
    classical
    have hback (m : A → B) (hag : D.Agrees R (D.put s₁ ws) m) :
        ∃ m', D.Agrees R s₁ m' ∧ OnDemand.put m' ws = m := by
      refine ⟨fun a => if a ∈ R then (D.view s₁ a).getD (m a) else m a, fun a ha v hv => ?_,
        funext fun a => ?_⟩
      · dsimp only
        rw [if_pos ha, hv]
        rfl
      · by_cases ha : a ∈ R
        · cases hv : D.view s₁ a with
          | none =>
            rw [put_of_notMem, if_pos ha, hv]
            · rfl
            · rintro w hw rfl
              exact hpres w hw hv
          | some v =>
            rw [hag a ha _ (by rw [hview a ha, hv]; rfl)]
            exact put_apply_congr (by rw [if_pos ha, hv]; rfl)
        · rw [put_of_notMem, if_neg ha]
          rintro w hw rfl
          exact ha (hR w hw)
    have hk (m : A → B) (hag : D.Agrees R (D.put s₁ ws) m) : k.Within R m := by
      obtain ⟨m', hag', rfl⟩ := hback m hag
      exact (hp m' (hag'.of_extends hext)).2
    obtain ⟨j, hj⟩ := ih hI₁ hk
    have hrun : D.steps (i + (1 + j)) (.write ws k, s) = D.steps j (k, D.put s₁ ws) := by
      rw [steps_add, hs₁, Nat.add_comm 1 j, Except.bind, steps, step, hm]
      rfl
    refine ⟨i + (1 + j), ?_⟩
    rw [hrun]
    obtain he | ⟨s', m, hs', hI', hag, hag'⟩ := hj
    · exact .inl he
    · obtain ⟨m', hm', rfl⟩ := hback m hag
      exact .inr ⟨s', m', hs', hI', hm'.of_extends hext, hag'⟩

end Demand

end OnDemand
