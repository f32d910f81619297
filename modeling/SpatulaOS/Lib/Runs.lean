import Mathlib.Data.List.Induction
import Mathlib.Logic.Basic

/-!
# Guarded runs

A machine has start states and labelled steps. `Reach M ok` holds of the states at
the end of a run in which every step was taken in a state and with a label that
satisfy the guard `ok`; with the guard that is always true these are the reachable
states. Invariants are proved by `Reach.invariant`, and `Reach.exec` turns an
execution of the machine into a run.
-/

namespace Runs

variable {State Op : Type*}

/-- A machine. -/
structure Machine (State Op : Type*) where
  /-- The start states. -/
  start : State → Prop
  /-- The steps. -/
  step : State → Op → State → Prop

/-- The states at the end of a run whose steps all satisfy the guard. -/
inductive Reach (M : Machine State Op) (ok : State → Op → Prop) : State → Prop
  /-- The empty run. -/
  | start {s : State} : M.start s → Reach M ok s
  /-- One more step. -/
  | step {s s' : State} {o : Op} : Reach M ok s → ok s o → M.step s o s' → Reach M ok s'

variable {M : Machine State Op} {ok : State → Op → Prop} {I : State → Prop} {s s' : State}

/-- What every guarded step preserves holds at the end of every guarded run. -/
theorem Reach.invariant (h : Reach M ok s) (h0 : ∀ s, M.start s → I s)
    (hstep : ∀ s o s', I s → ok s o → M.step s o s' → I s') : I s := by
  induction h with
  | start hs => exact h0 _ hs
  | step _ hok hs ih => exact hstep _ _ _ ih hok hs

theorem Reach.imp {ok' : State → Op → Prop} (h : Reach M ok s)
    (himp : ∀ s o, Reach M ok s → ok s o → ok' s o) :
    Reach M ok' s := by
  induction h with
  | start hs => exact .start hs
  | step hr hok hs ih => exact ih.step (himp _ _ hr hok) hs

/-- The state after a sequence of operations that all succeed. -/
def exec (f : State → Op → Option State) : State → List Op → Option State
  | s, [] => some s
  | s, o :: os => (f s o).bind fun s' => exec f s' os

theorem exec_append {f : State → Op → Option State} (os os' : List Op) :
    exec f s (os ++ os') = (exec f s os).bind fun t => exec f t os' := by
  induction os generalizing s with
  | nil => rfl
  | cons o os ih =>
    rw [List.cons_append, exec, exec, Option.bind_assoc]
    exact congrArg _ (funext fun t => ih)

/-- Every operation of an execution satisfies the guard, up to the first one that fails. -/
def Along (f : State → Op → Option State) (ok : State → Op → Prop) : State → List Op → Prop
  | _, [] => True
  | s, o :: os => ok s o ∧ ∀ s', f s o = some s' → Along f ok s' os

/-- What every guarded operation preserves holds after a guarded execution. -/
theorem Along.invariant {f : State → Op → Option State} {os : List Op} (h : Along f ok s os) (h0 : I s)
    (hstep : ∀ s o s', I s → ok s o → f s o = some s' → I s') (he : exec f s os = some s') : I s' := by
  induction os generalizing s with
  | nil =>
    obtain rfl := Option.some.inj he
    exact h0
  | cons o os ih =>
    obtain ⟨t, ht, he⟩ := Option.bind_eq_some_iff.mp he
    exact ih (h.2 t ht) (hstep _ _ _ h0 h.1 ht) he

/-- What the first calls of a sequence preserve, one after the other, holds after any of them. -/
theorem prefix_induction {P : List Op → Prop} {os pre : List Op} (h0 : P [])
    (hstep : ∀ pre o, pre ++ [o] <+: os → P pre → P (pre ++ [o])) (hpre : pre <+: os) : P pre := by
  induction pre using List.reverseRecOn with
  | nil => exact h0
  | append_singleton pre o ih => exact hstep pre o hpre (ih ((List.prefix_append _ _).trans hpre))

theorem Reach.exec {f : State → Op → Option State} (hf : ∀ s o s', f s o = some s' → M.step s o s')
    {os : List Op} (h : Reach M (fun _ _ => True) s) (he : exec f s os = some s') :
    Reach M (fun _ _ => True) s' := by
  induction os generalizing s with
  | nil =>
    obtain rfl := Option.some.inj he
    exact h
  | cons o os ih =>
    obtain ⟨t, ht, he⟩ := Option.bind_eq_some_iff.mp he
    exact ih (h.step trivial (hf _ _ _ ht)) he

/-- An execution in which every operation satisfies the guard is a run. -/
theorem Reach.exec_guarded {f : State → Op → Option State} [∀ s o, Decidable (ok s o)]
    (hf : ∀ s o s', f s o = some s' → M.step s o s') {os : List Op} (h : Reach M ok s)
    (he : Runs.exec (fun s o => if ok s o then f s o else none) s os = some s') : Reach M ok s' := by
  induction os generalizing s with
  | nil =>
    obtain rfl := Option.some.inj he
    exact h
  | cons o os ih =>
    obtain ⟨t, ht, he⟩ := Option.bind_eq_some_iff.mp he
    by_cases hok : ok s o
    · exact ih (h.step hok (hf _ _ _ ((if_pos hok).symm.trans ht))) he
    · exact absurd ((if_neg hok).symm.trans ht) nofun

end Runs
