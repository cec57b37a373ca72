import AssemblySemantics.Proofs.Solver.Bound

/-!
# Caps of the solver

Under a smaller cap the solver runs the first of the rounds that it runs under a larger one.
Values grow from round to round, so that a larger cap gives more for every state; a solver that
has converged gives the same under every larger cap; and one that the cap has stopped has run
as many rounds as the cap allows, of which each has changed something.
-/

namespace AssemblySemantics

namespace Model

variable {m : Model} {basis : Basis} {config config' : SolverConfig} {v : Table State Region}
  {s : State} {k n : Nat} {w : Working}

/-! ### More sweeps -/

/-- Values grow with the number of sweeps. -/
theorem value_subset_iterate_sweep (hk : k ≤ n) (v : Table State Region) (s : State) :
  m.value ((m.sweep basis)^[k] v) s ⊆ m.value ((m.sweep basis)^[n] v) s
  := by
  induction n, hk using Nat.le_induction with
  | base => apply Region.Subset.refl
  | succ n _ ih =>
    rw [Function.iterate_succ_apply']
    apply Region.Subset.trans ih (value_subset_sweep s)

/-- More fuel does not matter once a sweep has changed nothing. -/
theorem settle_add_of_converged (fuel extra done : Nat)
    (hconv : (m.settle basis fuel done v).converged = true) :
  m.settle basis (fuel + extra) done v = m.settle basis fuel done v
  := by
  induction fuel generalizing done v with
  | zero => cases hconv
  | succ fuel ih =>
    rw [Nat.add_right_comm]
    rw [settle] at hconv ⊢
    rw [settle]
    split
    · rfl
    · rename_i hv
      rw [if_neg hv] at hconv
      apply ih (done + 1) hconv

/-- Under a larger cap every state has at least the value that it has under a smaller one. -/
theorem value_solution_subset (hbasis : config.basis = config'.basis)
    (hcap : config.cap.rounds ≤ config'.cap.rounds) (s : State) :
  m.value (m.solution config).values s ⊆ m.value (m.solution config').values s
  := by
  rw [solution, solution, values_settle, values_settle, hbasis]
  apply value_subset_iterate_sweep hcap

/-- A solver that has converged gives the same under every larger cap. -/
theorem solution_eq_of_converged (hbasis : config.basis = config'.basis)
    (hcap : config.cap.rounds ≤ config'.cap.rounds)
    (hconv : (m.solution config).converged = true) :
  m.solution config' = m.solution config
  := by
  obtain ⟨extra, hextra⟩ := Nat.exists_eq_add_of_le hcap
  rw [solution, solution, ← hbasis, hextra]
  apply settle_add_of_converged _ extra 0 hconv

/-! ### The rounds before a point -/

/-- Before a round the values are those after as many sweeps as there were rounds. -/
theorem Between.values_eq (hw : m.Between basis k w) :
  w.values = (m.sweep basis)^[k] m.startValues
  := by
  induction hw with
  | start => rfl
  | next hw hrun ih =>
    obtain ⟨-, hvalues, -⟩ := hw.sound.of_run_round hrun
    rw [hvalues, ih, Function.iterate_succ_apply']

/-- Every round before a point of the solver has changed something. -/
theorem Between.exists_round (hw : m.Between basis n w) (hk : k < n) :
  ∃ w₁ w₂, m.Between basis k w₁ ∧ (m.round basis).run w₁ = .ok (true, w₂)
  := by
  induction hw with
  | start => cases hk
  | @next n w₁ w₂ hw hrun ih =>
    obtain hlt | rfl := Nat.lt_succ_iff_lt_or_eq.mp hk
    · apply ih hlt
    · exact ⟨w₁, w₂, hw, hrun⟩

/-- A round that says so has changed the value of a state other than the pseudostate. -/
theorem Between.exists_changed {w' : Working} (hw : m.Between basis k w)
    (hrun : (m.round basis).run w = .ok (true, w')) :
  ∃ s ∈ m.properStates, m.value w.values s ≠ m.value w'.values s
  := by
  obtain ⟨hflag, hvalues, -⟩ := hw.sound.of_run_round hrun
  obtain ⟨s, hs, c, hnew, hc⟩ := exists_gain_of_foldl_raise_ne (hflag.mp rfl)
  use s, hs
  intro heq
  rw [hvalues] at heq
  rw [heq] at hnew
  apply hnew hc

/-- A solver that the cap has stopped has run as many rounds as the cap allows, and each of
them has changed something. -/
theorem exists_between_of_not_converged (m : Model) (config : SolverConfig)
    (hconv : (m.solution config).converged = false) :
  (m.solution config).iterations = config.cap.rounds
    ∧ ∃ w, m.Between config.basis config.cap.rounds w ∧ w.values = (m.solution config).values
  := by
  obtain ⟨k, w, changed, w', hw, hrun, hsolve, hlast⟩ := m.exists_last_round config
  rw [m.solve_eq] at hsolve
  rw [Except.ok.inj hsolve] at hconv ⊢
  obtain rfl : changed = true := (Bool.not_eq_false' changed).mp hconv
  rw [← hlast rfl]
  use rfl, w', hw.next hrun

/-! ### Two caps -/

/-- Of two caps the smaller one gives no more for any state. If the solver converges under the
smaller one, it gives the same under the larger one. If it does not, then it has run as many
rounds as the smaller one allows, and each of these has changed the value of some state. -/
theorem solve_of_cap_le (m : Model) (config config' : SolverConfig)
    (hbasis : config.basis = config'.basis) (hcap : config.cap.rounds ≤ config'.cap.rounds) :
  ∃ sol sol', m.solve config = .ok sol ∧ m.solve config' = .ok sol'
    ∧ (∀ s ∈ m.diagram.states, ∃ r r', sol.values.get? s = some r ∧ sol'.values.get? s = some r'
      ∧ r.le r' = .ok true)
    ∧ (sol.converged = true → sol' = sol)
    ∧ (sol.converged = false → sol.iterations = config.cap.rounds
      ∧ (∃ w, m.Between config.basis config.cap.rounds w ∧ w.values = sol.values)
      ∧ ∀ k < config.cap.rounds, ∃ w w', m.Between config.basis k w
        ∧ (m.round config.basis).run w = .ok (true, w')
        ∧ ∃ s ∈ m.properStates, m.value w.values s ≠ m.value w'.values s)
  := by
  use m.solution config, m.solution config', m.solve_eq config, m.solve_eq config'
  constructor
  · intro s hs
    use m.value (m.solution config).values s, m.value (m.solution config').values s,
      get?_solution hs, get?_solution hs
    apply Region.le_eq_ok_true_iff.mpr
    constructor
    · rw [(m.tagged_solution config).assembly_value, (m.tagged_solution config').assembly_value]
    · apply value_solution_subset hbasis hcap
  · constructor
    · apply solution_eq_of_converged hbasis hcap
    · intro hconv
      obtain ⟨hiterations, w, hw, hvalues⟩ := m.exists_between_of_not_converged config hconv
      use hiterations, ⟨w, hw, hvalues⟩
      intro k hk
      obtain ⟨w₁, w₂, hw₁, hrun⟩ := hw.exists_round hk
      exact ⟨w₁, w₂, hw₁, hrun, hw₁.exists_changed hrun⟩

/-- The loop that waits for the light, under a cap of two rounds, which stops the solver, and
under the standard one, under which it converges. -/
theorem solve_of_cap_le_await :
  SolverConfig.basis ⟨⟨2, false, by decide⟩, .stateRegion⟩ = SolverConfig.standard.basis
    ∧ 2 ≤ SolverConfig.standard.cap.rounds
    ∧ ∃ sol sol', (Loop.machine Loop.await).solve ⟨⟨2, false, by decide⟩, .stateRegion⟩ = .ok sol
      ∧ (Loop.machine Loop.await).solve .standard = .ok sol'
      ∧ sol.converged = false ∧ sol.iterations = 2 ∧ sol'.converged = true
      ∧ ∀ s ∈ (Loop.machine Loop.await).diagram.states, ∃ r r', sol.values.get? s = some r
        ∧ sol'.values.get? s = some r' ∧ r.le r' = .ok true
  := by
  use rfl, by decide
  obtain ⟨sol, sol', hsol, hsol', hle, -, hstopped⟩ :=
    (Loop.machine Loop.await).solve_of_cap_le
      ⟨⟨2, false, by decide⟩, .stateRegion⟩ .standard rfl (by decide)
  have hconv : ((Loop.machine Loop.await).solve ⟨⟨2, false, by decide⟩, .stateRegion⟩).map
      Solution.converged = .ok false := by
    decide +kernel
  have hconv' : ((Loop.machine Loop.await).solve .standard).map Solution.converged =
      .ok true := by
    decide +kernel
  have hconv : sol.converged = false := eq_of_map_solve hsol hconv
  exact ⟨sol, sol', hsol, hsol', hconv, (hstopped hconv).1, eq_of_map_solve hsol' hconv', hle⟩

end Model

end AssemblySemantics
