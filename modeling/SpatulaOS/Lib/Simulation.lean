import Mathlib.Logic.Basic

/-!
# Simulation of calls

A machine whose calls may fail, `f : S → O → Except E (R × S)`, against a reference whose
calls never do, `g : T → O → R × T`. If every allowed call on related states succeeds with the
result of the reference and leads to related states (`Simulates`), then every sequence of
calls, each of them allowed when it is made, gives the results of the reference
(`Simulates.run`), and what a single call satisfies in related states every call of the sequence
satisfies (`Simulates.always`).
-/

namespace Simulation

variable {S T O R E : Type*} {f : S → O → Except E (R × S)} {g : T → O → R × T} {ok : S → O → Prop}
  {P : O → Prop}
  {Q : S → O → R → S → Prop} {Rel : S → T → Prop} {s s' : S} {t : T} {o : O} {os : List O}

/-- A sequence of calls: their results, and the state behind them. -/
def run (f : S → O → Except E (R × S)) : S → List O → Except E (List R × S)
  | s, [] => .ok ([], s)
  | s, o :: os => (f s o).bind fun r => (run f r.2 os).map fun rs => (r.1 :: rs.1, rs.2)

/-- A sequence of calls of the reference. -/
def runRef (g : T → O → R × T) : T → List O → List R × T
  | t, [] => ([], t)
  | t, o :: os =>
    let r := g t o
    let rs := runRef g r.2 os
    (r.1 :: rs.1, rs.2)

/-- Every call of the sequence is allowed when it is made. -/
def Guarded (f : S → O → Except E (R × S)) (ok : S → O → Prop) : S → List O → Prop
  | _, [] => True
  | s, o :: os => ok s o ∧ ∀ r s', f s o = .ok (r, s') → Guarded f ok s' os

/-- Every call of the sequence that returns satisfies `Q`. -/
def Always (f : S → O → Except E (R × S)) (Q : S → O → R → S → Prop) : S → List O → Prop
  | _, [] => True
  | s, o :: os => ∀ r s', f s o = .ok (r, s') → Q s o r s' ∧ Always f Q s' os

/-- The reference does what the machine does. -/
def Simulates (f : S → O → Except E (R × S)) (g : T → O → R × T) (ok : S → O → Prop)
    (Rel : S → T → Prop) : Prop :=
  ∀ s t o, Rel s t → ok s o → ∃ s', f s o = .ok ((g t o).1, s') ∧ Rel s' (g t o).2

/-- A guard on the calls alone holds of the whole sequence. -/
theorem Guarded.and (h : Guarded f ok s os) (hP : ∀ o ∈ os, P o) :
    Guarded f (fun s o => ok s o ∧ P o) s os := by
  induction os generalizing s with
  | nil => trivial
  | cons o os ih =>
    obtain ⟨ho, hos⟩ := List.forall_mem_cons.mp hP
    exact ⟨⟨h.1, ho⟩, fun r s' hf => ih (h.2 r s' hf) hos⟩

/-- The sequence gives the results of the reference. -/
theorem Simulates.run (h : Simulates f g ok Rel) (hrel : Rel s t) (hg : Guarded f ok s os) :
    ∃ s', run f s os = .ok ((runRef g t os).1, s') ∧ Rel s' (runRef g t os).2 := by
  induction os generalizing s t with
  | nil => exact ⟨s, rfl, hrel⟩
  | cons o os ih =>
    obtain ⟨s', hf, hrel'⟩ := h s t o hrel hg.1
    obtain ⟨s'', hrun, hrel''⟩ := ih hrel' (hg.2 _ s' hf)
    refine ⟨s'', ?_, hrel''⟩
    rw [Simulation.run, hf, Except.bind, hrun]
    rfl

/-- What every call satisfies in related states every call of the sequence satisfies. -/
theorem Simulates.always (h : Simulates f g ok Rel)
    (hQ : ∀ s t o r s', Rel s t → ok s o → f s o = .ok (r, s') → Q s o r s') (hrel : Rel s t)
    (hg : Guarded f ok s os) : Always f Q s os := by
  induction os generalizing s t with
  | nil => trivial
  | cons o os ih =>
    intro r s' hf
    obtain ⟨s'', hf', hrel'⟩ := h s t o hrel hg.1
    obtain ⟨-, rfl⟩ := Prod.mk.inj (Except.ok.inj (hf'.symm.trans hf))
    exact ⟨hQ s t o r s'' hrel hg.1 hf, ih hrel' (hg.2 r s'' hf)⟩

/-- Every call of a sequence that succeeds succeeds, in a state that an invariant relation leads to. -/
theorem exists_call {I : S → S → Prop} (hrefl : ∀ s, I s s) (htrans : ∀ s s' s'', I s s' → I s' s'' → I s s'')
    (hstep : ∀ s o r s', f s o = .ok (r, s') → I s s') {rs : List R}
    (h : run f s os = .ok (rs, s')) (ho : o ∈ os) :
    ∃ u r u', I s u ∧ f u o = .ok (r, u') := by
  induction os generalizing s rs with
  | nil => exact absurd ho List.not_mem_nil
  | cons p os ih =>
    rw [run] at h
    cases hp : f s p with
    | error e =>
      rw [hp] at h
      cases h
    | ok r =>
      rw [hp, Except.bind] at h
      obtain rfl | ho := List.mem_cons.mp ho
      · exact ⟨s, r.1, r.2, hrefl s, hp⟩
      · cases hr : run f r.2 os with
        | error e =>
          rw [hr] at h
          cases h
        | ok q =>
          rw [hr] at h
          obtain ⟨-, rfl⟩ := Prod.mk.inj (Except.ok.inj h)
          obtain ⟨u, r', u', hu, hf⟩ := ih hr ho
          exact ⟨u, r', u', htrans _ _ _ (hstep _ _ _ _ hp) hu, hf⟩

end Simulation
