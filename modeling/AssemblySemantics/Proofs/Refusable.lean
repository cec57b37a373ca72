import Mathlib.Control.Lawful
import Mathlib.Tactic.Common

/-!
# Refusable computations on a state

Passes and the steps of a session work on a state and may be refused half-way. What has
changed until then stays, so that it is told for each computation how it ends and in which
state.
-/

namespace AssemblySemantics

variable {ε σ α β : Type} {p : ExceptT ε (StateM σ) α} {f : α → ExceptT ε (StateM σ) β}
  {x : α} {y : β} {e : ε} {s s' s'' : σ}

/-- After a computation that succeeds, the next one starts from its result and its state. -/
theorem run_bind_of_ok (h : p.run s = (.ok x, s')) :
  (p >>= f).run s = (f x).run s'
  := by
  change (p >>= f).run.run s = _
  have h : p.run.run s = (.ok x, s') := h
  rw [ExceptT.run_bind, StateT.run_bind, h]
  rfl

/-- After a computation that is refused, there is no next one. -/
theorem run_bind_of_error (h : p.run s = (.error e, s')) :
  (p >>= f).run s = (.error e, s')
  := by
  change (p >>= f).run.run s = _
  have h : p.run.run s = (.error e, s') := h
  rw [ExceptT.run_bind, StateT.run_bind, h]
  rfl

/-- Two computations in a row have succeeded only if both have. -/
theorem exists_run_of_run_bind (h : (p >>= f).run s = (.ok y, s'')) :
  ∃ x s', p.run s = (.ok x, s') ∧ (f x).run s' = (.ok y, s'')
  := by
  rcases hp : p.run s with ⟨e | x, s'⟩
  · rw [run_bind_of_error hp] at h
    cases h
  · rw [run_bind_of_ok hp] at h
    exact ⟨x, s', rfl, h⟩

end AssemblySemantics
