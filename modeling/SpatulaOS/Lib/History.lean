import SpatulaOS.Lib.Runs

/-!
# History variables

A machine with a history variable, `Machine.record`, takes the steps of the machine and
notes after each of them what `next` makes of it. The steps never look at the history: a
run of the recording machine is a run of the machine (`Reach.forget`), and every run of
the machine is recorded (`Reach.exists_record`). So a property of runs that speaks of what
happened before is an invariant of the recording machine.
-/

namespace Runs

variable {State Op H : Type*}

/-- The machine `M` with a history variable, which is `h₀` at the start. -/
def Machine.record (M : Machine State Op) (h₀ : H) (next : State → H → Op → State → H) :
    Machine (State × H) Op where
  start t := M.start t.1 ∧ t.2 = h₀
  step t o t' := M.step t.1 o t'.1 ∧ t'.2 = next t.1 t.2 o t'.1

variable {M : Machine State Op} {ok : State → Op → Prop} {h₀ : H}
  {next : State → H → Op → State → H} {s : State}
  {t : State × H}

/-- A recorded run is a run. -/
theorem Reach.forget (h : Reach (M.record h₀ next) (fun t o => ok t.1 o) t) : Reach M ok t.1 := by
  induction h with
  | start hs => exact .start hs.1
  | step _ hok hs ih => exact ih.step hok hs.1

/-- Every run is recorded. -/
theorem Reach.exists_record (h : Reach M ok s) :
    ∃ a, Reach (M.record h₀ next) (fun t o => ok t.1 o) (s, a) := by
  induction h with
  | start hs => exact ⟨h₀, .start ⟨hs, rfl⟩⟩
  | @step s s' o _ hok hs ih =>
    obtain ⟨a, ih⟩ := ih
    exact ⟨next s a o s', ih.step hok ⟨hs, rfl⟩⟩

/-- An execution with its history. -/
def recordExec (f : State → Op → Option State) (next : State → H → Op → State → H) (t : State × H) (o : Op) :
    Option (State × H) :=
  (f t.1 o).map fun s' => (s', next t.1 t.2 o s')

/-- An execution with its history is a step of the recording machine. -/
theorem recordExec_step {f : State → Op → Option State} (hf : ∀ s o s', f s o = some s' → M.step s o s')
    {t' : State × H} {o : Op} (h : recordExec f next t o = some t') : (M.record h₀ next).step t o t' := by
  obtain ⟨s', hs', rfl⟩ := Option.map_eq_some_iff.mp h
  exact ⟨hf _ _ _ hs', rfl⟩

end Runs
