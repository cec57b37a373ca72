import AssemblySemantics.Proofs.Machine.History
import AssemblySemantics.Proofs.Solver.Iteration
import Mathlib.Algebra.Order.BigOperators.Group.List
import Mathlib.Algebra.Order.Ring.Nat

/-!
# How many rounds the solver runs

Values never leave the space of the assembly, and a round that changes them adds a
configuration to the value of some state other than the pseudostate. The configurations that
these states have altogether bound the number of rounds before any point of the solver, so
that the size of the space, once for each of the states, is a cap that it never exceeds by
more than the round that confirms the result.
-/

namespace AssemblySemantics

namespace Model

/-- All values lie in the space of the assembly. -/
def Within (m : Model) (v : Table State Region) : Prop := ∀ s, m.value v s ⊆ m.assembly.space

/-- How many configurations the states other than pseudostates have altogether. -/
def weight (m : Model) (v : Table State Region) : Nat :=
  (m.properStates.map fun s => (m.value v s).size).sum

/-- The working states before the rounds of the solver, with the number of rounds before them,
of which each has changed something. -/
inductive Between (m : Model) (basis : Basis) : Nat → Working → Prop where
  | start : Between m basis 0 ⟨m.startValues, ∅⟩
  | next {k : Nat} {w w' : Working} (hw : Between m basis k w)
      (h : (m.round basis).run w = .ok (true, w')) : Between m basis (k + 1) w'

variable {m : Model} {basis : Basis} {v : Table State Region} {s : State} {k : Nat}
  {w : Working}

/-! ### Values in the space -/

theorem within_startValues (m : Model) :
  m.Within m.startValues
  := by
  intro s c hc
  apply Assembly.mem_space_of_mem_initial (mem_value_startValues.mp hc).2.2

theorem Within.raise (h : m.Within v) (s : State) :
  m.Within (m.raise basis v s)
  := by
  intro s' c hc
  rw [value_raise] at hc
  split at hc
  · obtain hc | hc := Region.mem_union.mp hc
    · apply h s c hc
    · obtain ⟨t, -, hc⟩ := mem_offered.mp hc
      apply Transition.image_subset_space (fun _ _ => h t.source) c hc
  · apply h s' c hc

theorem Within.sweep (h : m.Within v) :
  m.Within (m.sweep basis v)
  := by
  apply List.foldlRecOn (motive := m.Within) _ _ h
  intro v hv s _
  apply hv.raise s

theorem within_solution (m : Model) (config : SolverConfig) :
  m.Within (m.solution config).values
  := solution_induction m.within_startValues fun _ hv s _ => hv.raise s

/-! ### What a sweep gains -/

/-- If raising several states changes something, then one of them gains a configuration. -/
theorem exists_gain_of_foldl_raise_ne {states : List State}
    (h : states.foldl (m.raise basis) v ≠ v) :
  ∃ s ∈ states, ∃ c, c ∉ m.value v s ∧ c ∈ m.value (states.foldl (m.raise basis) v) s
  := by
  induction states with
  | nil => apply (h rfl).elim
  | cons s states ih =>
    -- a state may be offered less after others were raised, so the first one to change is taken
    by_cases hs : m.raise basis v s = v
    · rw [List.foldl_cons, hs] at h ⊢
      obtain ⟨s', hs', hgain⟩ := ih h
      exact ⟨s', List.mem_cons_of_mem s hs', hgain⟩
    · rw [raise_eq_self_iff] at hs
      obtain ⟨c, hc⟩ := not_forall.mp hs
      obtain ⟨hoffered, hnew⟩ := Classical.not_imp.mp hc
      use s, List.mem_cons_self, c, hnew
      rw [List.foldl_cons]
      apply value_subset_foldl_raise
      rw [value_raise, if_pos rfl]
      apply Region.subset_union_right c hoffered

/-- A sweep that changes something increases the weight. -/
theorem weight_lt_weight_sweep (h : m.sweep basis v ≠ v) :
  m.weight v < m.weight (m.sweep basis v)
  := by
  apply List.sum_lt_sum
  · intro s _
    apply Region.size_le_of_subset (value_subset_sweep s)
  · obtain ⟨s, hs, c, hnew, hc⟩ := exists_gain_of_foldl_raise_ne h
    exact ⟨s, hs, Region.size_lt_of_subset (value_subset_sweep s) hc hnew⟩

/-- Values in the space have a weight of at most the size of the space for every state other
than the pseudostate. -/
theorem weight_le (h : m.diagram.WellFormed) (hv : m.Within v) :
  m.weight v ≤ m.assembly.space.size * (m.diagram.states.length - 1)
  := by
  have hle : ∀ n ∈ m.properStates.map fun s => (m.value v s).size, n ≤ m.assembly.space.size := by
    intro n hn
    obtain ⟨s, -, rfl⟩ := List.mem_map.mp hn
    apply Region.size_le_of_subset (hv s)
  have hsum := List.sum_le_card_nsmul _ _ hle
  rw [List.length_map, Nat.nsmul_eq_mul] at hsum
  rw [weight, states_eq_cons h, List.length_cons, Nat.add_sub_cancel, Nat.mul_comm]
  apply hsum

/-! ### Between the rounds -/

/-- What is known of the working state before a round: after `k` rounds that changed
something, the states have at least `k` configurations altogether. -/
structure Sound (m : Model) (k : Nat) (w : Working) : Prop where
  tagged : m.Tagged w.values
  faithful : m.Faithful w.derived
  within : m.Within w.values
  weight : k ≤ m.weight w.values

/-- A round from a sound working state is a sweep. -/
theorem Sound.run_round (hw : m.Sound k w) (basis : Basis) :
  ∃ derived, m.Faithful derived
    ∧ (m.round basis).run w =
      .ok (decide (m.sweep basis w.values ≠ w.values), ⟨m.sweep basis w.values, derived⟩)
  := computes_round hw.tagged w.derived hw.faithful

/-- What is known after a round from a sound working state. -/
theorem Sound.of_run_round {changed : Bool} {w' : Working} (hw : m.Sound k w)
    (h : (m.round basis).run w = .ok (changed, w')) :
  (changed = true ↔ m.sweep basis w.values ≠ w.values)
    ∧ w'.values = m.sweep basis w.values ∧ m.Faithful w'.derived
  := by
  obtain ⟨derived, hd, hrun⟩ := hw.run_round basis
  obtain ⟨rfl, rfl⟩ := Prod.mk.inj (Except.ok.inj (hrun.symm.trans h))
  exact ⟨decide_eq_true_iff, rfl, hd⟩

/-- A round that changes something leads from a sound working state to a sound one. -/
theorem Sound.next {w' : Working} (hw : m.Sound k w)
    (h : (m.round basis).run w = .ok (true, w')) :
  m.Sound (k + 1) w'
  := by
  obtain ⟨hflag, hvalues, hd⟩ := hw.of_run_round h
  have hlt := weight_lt_weight_sweep (hflag.mp rfl)
  rw [← hvalues] at hlt
  constructor
  · rw [hvalues]
    apply hw.tagged.sweep
  · apply hd
  · rw [hvalues]
    apply hw.within.sweep
  · apply hw.weight.trans_lt hlt

/-- Between the rounds the working state is sound. -/
theorem Between.sound (h : m.Between basis k w) :
  m.Sound k w
  := by
  induction h with
  | start =>
    refine ⟨m.tagged_startValues, ?_, m.within_startValues, Nat.zero_le _⟩
    intro s base zones hget
    cases hget
  | next _ h ih => apply ih.next h

theorem Between.le (h : m.diagram.WellFormed) (hw : m.Between basis k w) :
  k ≤ m.assembly.space.size * (m.diagram.states.length - 1)
  := hw.sound.weight.trans (weight_le h hw.sound.within)

theorem run_rounds_succ {changed : Bool} {w' : Working}
    (h : (m.round basis).run w = .ok (changed, w')) (fuel done : Nat) :
  (m.rounds basis (fuel + 1) done).run w =
    if changed then (m.rounds basis fuel (done + 1)).run w' else .ok ((done + 1, true), w')
  := by
  rw [rounds, StateT.run_bind, h]
  cases changed <;> rfl

/-- When at most `fuel + 1` rounds are run, all but the last one change something; the last
one does only if the fuel is used up. -/
theorem Between.run_rounds (hw : m.Between basis k w) (fuel : Nat) :
  ∃ k' w' changed w'', m.Between basis k' w' ∧ (m.round basis).run w' = .ok (changed, w'')
    ∧ (m.rounds basis (fuel + 1) k).run w = .ok ((k' + 1, !changed), w'')
    ∧ (changed = true → k' = k + fuel)
  := by
  induction fuel generalizing k w with
  | zero =>
    obtain ⟨derived, -, hrun⟩ := hw.sound.run_round basis
    refine ⟨k, w, _, _, hw, hrun, ?_, fun _ => rfl⟩
    rw [run_rounds_succ hrun]
    split
    · rename_i hchanged
      rw [hchanged]
      rfl
    · rename_i hchanged
      rw [Bool.eq_false_iff.mpr hchanged]
      rfl
  | succ fuel ih =>
    obtain ⟨derived, -, hrun⟩ := hw.sound.run_round basis
    cases hchanged : decide (m.sweep basis w.values ≠ w.values) with
    | false =>
      rw [hchanged] at hrun
      refine ⟨k, w, false, _, hw, hrun, run_rounds_succ hrun (fuel + 1) k, ?_⟩
      intro h
      cases h
    | true =>
      rw [hchanged] at hrun
      obtain ⟨k', w', changed, w'', hw', hrun', heq, hlast⟩ := ih (hw.next hrun)
      use k', w', changed, w'', hw', hrun'
      constructor
      · rw [run_rounds_succ hrun]
        apply heq
      · intro h
        rw [hlast h]
        omega

/-- A round of the solver removes nothing. If it changes something, then a state other than
the pseudostate gains a configuration of the space. -/
theorem Between.exists_gain (hw : m.Between basis k w) :
  ∃ changed w', (m.round basis).run w = .ok (changed, w')
    ∧ (∀ s, m.value w.values s ⊆ m.value w'.values s)
    ∧ (changed = true → ∃ s ∈ m.properStates, ∃ c ∈ m.assembly.space,
      c ∉ m.value w.values s ∧ c ∈ m.value w'.values s)
    ∧ (changed = false → w'.values = w.values)
  := by
  obtain ⟨derived, -, hrun⟩ := hw.sound.run_round basis
  refine ⟨_, _, hrun, value_subset_sweep, ?_, ?_⟩
  · intro hchanged
    obtain ⟨s, hs, c, hnew, hc⟩ := exists_gain_of_foldl_raise_ne (of_decide_eq_true hchanged)
    exact ⟨s, hs, c, hw.sound.within.sweep s c hc, hnew, hc⟩
  · intro hchanged
    apply not_not.mp (of_decide_eq_false hchanged)

/-- The solver returns the values after its last round, which is the first one that changes
nothing, or the last one that the cap allows. -/
theorem exists_last_round (m : Model) (config : SolverConfig) :
  ∃ k w changed w', m.Between config.basis k w ∧ (m.round config.basis).run w = .ok (changed, w')
    ∧ m.solve config = .ok ⟨w'.values, k + 1, !changed⟩
    ∧ (changed = true → k + 1 = config.cap.rounds)
  := by
  obtain ⟨fuel, hfuel⟩ := Nat.exists_eq_add_one.mpr config.cap.rounds_pos
  have hstart : m.Between config.basis 0 ⟨m.startValues, ∅⟩ := Between.start
  obtain ⟨k, w, changed, w', hw, hrun, hrounds, hlast⟩ := hstart.run_rounds fuel
  use k, w, changed, w', hw, hrun
  constructor
  · rw [solve, hfuel, hrounds]
    rfl
  · intro hchanged
    rw [hlast hchanged, hfuel, Nat.zero_add]

end Model

namespace Machine

/-- Every round of the solver adds a configuration of the space to a state other than the
pseudostate and removes none, except for the one that changes nothing and is the last. With
`u` configurations in the space and `n` states, no more than `u * (n - 1) + 1` rounds are
run, and the solver converges if the cap is above `u * (n - 1)`. -/
theorem iterations_le {m : Machine} (h : m.Reachable) (config : SolverConfig) :
  (∀ k w, m.Between config.basis k w →
    ∃ changed w', (m.round config.basis).run w = .ok (changed, w')
      ∧ (∀ s, m.value w.values s ⊆ m.value w'.values s)
      ∧ (changed = true → ∃ s ∈ m.properStates, ∃ c ∈ m.assembly.space,
        c ∉ m.value w.values s ∧ c ∈ m.value w'.values s)
      ∧ (changed = false → w'.values = w.values))
    ∧ ∃ sol, m.solve config = .ok sol
      ∧ (∃ k w changed w', m.Between config.basis k w
        ∧ (m.round config.basis).run w = .ok (changed, w') ∧ sol = ⟨w'.values, k + 1, !changed⟩)
      ∧ sol.iterations ≤ m.assembly.space.size * (m.diagram.states.length - 1) + 1
      ∧ (m.assembly.space.size * (m.diagram.states.length - 1) < config.cap.rounds →
        sol.converged = true)
  := by
  refine ⟨fun k w hw => hw.exists_gain, ?_⟩
  obtain ⟨k, w, changed, w', hw, hrun, hsolve, hlast⟩ := m.exists_last_round config
  refine ⟨_, hsolve, ⟨k, w, changed, w', hw, hrun, rfl⟩, ?_, ?_⟩
  · apply Nat.succ_le_succ (hw.le h.wellFormed)
  · intro hcap
    cases changed with
    | false => rfl
    | true =>
      -- otherwise all the rounds that the cap allows have changed something
      have hle := (hw.next hrun).le h.wellFormed
      rw [hlast rfl] at hle
      apply (Nat.not_le.mpr hcap hle).elim

/-- The loop that waits for the light: two configurations and three states make five rounds
at most, and the solver converges. The third round is the one that changes nothing, and the
light is on in the second state. -/
theorem iterations_le_await :
  (Loop.machine Loop.await).Reachable
    ∧ ∃ sol, (Loop.machine Loop.await).solve .standard = .ok sol
      ∧ sol.iterations ≤ 5 ∧ sol.converged = true ∧ sol.iterations = 3
      ∧ (sol.values.get? Loop.second).map Region.toList = some [[⟨"light", "on"⟩]]
  := by
  use Loop.reachable_machine _
  obtain ⟨-, sol, hsol, -, hle, hconv⟩ :=
    iterations_le (Loop.reachable_machine Loop.await) .standard
  have hsize : (Loop.machine Loop.await).assembly.space.size = 2 := by decide +kernel
  have hlength : (Loop.machine Loop.await).diagram.states.length = 3 := by decide
  rw [hsize, hlength] at hle hconv
  have hvalues : ((Loop.machine Loop.await).solve .standard).map (fun sol =>
      (sol.iterations, (sol.values.get? Loop.second).map Region.toList)) =
        .ok (3, some [[⟨"light", "on"⟩]]) := by
    decide +kernel
  have hvalues := Model.eq_of_map_solve hsol hvalues
  obtain ⟨hiterations, hon⟩ := Prod.mk.inj hvalues
  exact ⟨sol, hsol, hle, hconv (by decide), hiterations, hon⟩

end Machine

end AssemblySemantics
