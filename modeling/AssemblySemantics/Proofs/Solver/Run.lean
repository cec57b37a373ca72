import AssemblySemantics.Proofs.Contribution.Reactive
import AssemblySemantics.Proofs.Machine.History
import AssemblySemantics.Proofs.Solver.Iteration

/-!
# Runs and the solver

A run starts at the pseudostate in an initial configuration and goes on along transitions,
one configuration at a time. The solution holds every configuration in which a run without
reactive steps ends, once the solver has converged, and over the regions of the sources it
holds no configuration in which no run ends, whether the solver has converged or not.
-/

namespace AssemblySemantics

namespace Transition

/-- A transition that is not reactive leads from a configuration in which its guard holds to
another one by its actions. -/
def Fires (t : Transition) (a : Assembly) (b c : Configuration) : Prop :=
  t.isReactive = false ∧ ∃ held, t.guard.lift a = .ok held ∧ b ∈ held ∧ a.Performs t.actions b c

/-- A reactive transition that is guarded by a placement follows an autonomous move of the
machine into the placement, and leads on by its actions. -/
def Follows (t : Transition) (a : Assembly) (b c : Configuration) : Prop :=
  t.isReactive = true ∧ ∃ p d, t.guard = .basic p ∧ a.component? p.machine = some d
    ∧ ∃ x ∈ d.autonomousMoves, x.target = p.state ∧ b.state? p.machine = some x.source
      ∧ a.Performs t.actions (b.reassign p.machine p.state) c

variable {a : Assembly} {t : Transition} {r : Region} {b c : Configuration} {basis : Basis}

/-- The image under a transition that is not reactive, one configuration at a time. -/
theorem mem_image_iff_fires (ht : t.isReactive = false) :
  c ∈ t.image r a basis ↔ ∃ b ∈ r, t.Fires a b c
  := by
  rw [image, mem_reach]
  constructor
  · rintro ⟨b, hb, hc⟩
    obtain ⟨hr, hg⟩ := (mem_firing_of_not_isReactive ht).mp hb
    exact ⟨b, hr, ht, t.guard.extent a, Proposition.lift_eq a t.guard, hg, hc⟩
  · rintro ⟨b, hr, -, held, hlift, hb, hc⟩
    rw [Proposition.lift_eq] at hlift
    obtain rfl := Except.ok.inj hlift
    exact ⟨b, (mem_firing_of_not_isReactive ht).mpr ⟨hr, hb⟩, hc⟩

/-- What a reactive transition reaches over the region of its source, it reaches by
following a move. -/
theorem exists_follows_of_mem_image (ht : t.isReactive = true)
    (hc : c ∈ t.image r a .stateRegion) :
  ∃ b ∈ r, t.Follows a b c
  := by
  obtain ⟨b', hb', hc⟩ := mem_reach.mp hc
  obtain ⟨p, hguard, hb'⟩ := (mem_firing_of_isReactive ht).mp hb'
  obtain ⟨z, hz, htarget, hb'⟩ := Region.mem_followed.mp hb'
  obtain ⟨b, hb, d, hd, x, hx, hsource, hx', rfl⟩ :=
    Region.enters_of_mem_stepped (r.forall_mem_possibleZones a z hz) hb'
  rw [htarget] at hd hsource hx' hc
  exact ⟨b, hb, ht, p, d, hguard, hd, x, hx, hx', hsource, hc⟩

end Transition

namespace Model

/-- The ends of the runs without reactive steps. -/
inductive GuardedRun (m : Model) : State → Configuration → Prop where
  | start {c : Configuration} (hc : c ∈ m.assembly.initial) : GuardedRun m m.diagram.pseudo c
  | fire {t : Transition} {b c : Configuration} (ht : t ∈ m.diagram.transitions)
      (hb : GuardedRun m t.source b) (h : t.Fires m.assembly b c) : GuardedRun m t.target c

/-- The ends of all runs. -/
inductive Run (m : Model) : State → Configuration → Prop where
  | start {c : Configuration} (hc : c ∈ m.assembly.initial) : Run m m.diagram.pseudo c
  | fire {t : Transition} {b c : Configuration} (ht : t ∈ m.diagram.transitions)
      (hb : Run m t.source b) (h : t.Fires m.assembly b c) : Run m t.target c
  | follow {t : Transition} {b c : Configuration} (ht : t ∈ m.diagram.transitions)
      (hb : Run m t.source b) (h : t.Follows m.assembly b c) : Run m t.target c

variable {m : Model} {config : SolverConfig} {s : State} {c : Configuration}

/-- When the solver has converged, the solution holds what runs without reactive steps
reach. -/
theorem GuardedRun.mem_value (h : m.diagram.WellFormed)
    (hconv : (m.solution config).converged = true) (hrun : m.GuardedRun s c) :
  c ∈ m.value (m.solution config).values s
  := by
  induction hrun with
  | start hc =>
    rw [value_pseudo h]
    apply hc
  | @fire t b c ht _ hfires ih =>
    apply image_subset_value h hconv ht
    apply (Transition.mem_image_iff_fires hfires.1).mpr ⟨b, ih, hfires⟩

/-- Without reactive transitions, the solution holds only what runs reach. -/
theorem guardedRun_of_mem_value (h : m.diagram.WellFormed)
    (hguarded : ∀ t ∈ m.diagram.transitions, t.isReactive = false)
    (hc : c ∈ m.value (m.solution config).values s) :
  m.GuardedRun s c
  := by
  apply mem_solution_induction h _ _ hc
  · intro c hc
    apply GuardedRun.start hc
  · intro t ht r _ hr c hc
    obtain ⟨b, hb, hfires⟩ := (Transition.mem_image_iff_fires (hguarded t ht)).mp hc
    apply GuardedRun.fire ht (hr b hb) hfires

/-- Over the regions of the sources, the solution holds only what runs reach. -/
theorem run_of_mem_value (h : m.diagram.WellFormed) (hbasis : config.basis = .stateRegion)
    (hc : c ∈ m.value (m.solution config).values s) :
  m.Run s c
  := by
  apply mem_solution_induction h _ _ hc
  · intro c hc
    apply Run.start hc
  · intro t ht r _ hr c hc
    cases hreactive : t.isReactive with
    | false =>
      obtain ⟨b, hb, hfires⟩ := (Transition.mem_image_iff_fires hreactive).mp hc
      apply Run.fire ht (hr b hb) hfires
    | true =>
      rw [hbasis] at hc
      obtain ⟨b, hb, hfollows⟩ := Transition.exists_follows_of_mem_image hreactive hc
      apply Run.follow ht (hr b hb) hfollows

end Model

/-! ### What the solver returns -/

namespace Machine

variable {m : Machine}

/-- The solver returns a result. If it has converged, then the region of every state contains
all configurations in which runs without reactive steps end in that state, and is exactly
the set of them when the machine has no reactive transitions. -/
theorem guardedRun_exact (h : m.Reachable) (config : SolverConfig) :
  ∃ sol, m.solve config = .ok sol
    ∧ (sol.converged = true → ∀ s ∈ m.diagram.states, ∃ r, sol.values.get? s = some r
      ∧ (∀ c, m.GuardedRun s c → c ∈ r)
      ∧ ((∀ t ∈ m.diagram.transitions, t.isReactive = false) →
        ∀ c, c ∈ r ↔ m.GuardedRun s c))
  := by
  use m.solution config, m.solve_eq config
  intro hconv s hs
  refine ⟨_, Model.get?_solution hs, ?_, ?_⟩
  · intro c hrun
    apply hrun.mem_value h.wellFormed hconv
  · intro hguarded c
    constructor
    · apply Model.guardedRun_of_mem_value h.wellFormed hguarded
    · intro hrun
      apply hrun.mem_value h.wellFormed hconv

/-- The loop that switches the light: its second state has exactly the configurations in
which runs end. -/
theorem guardedRun_exact_switch :
  (Loop.machine Loop.switch).Reachable
    ∧ ∃ sol, (Loop.machine Loop.switch).solve .standard = .ok sol ∧ sol.converged = true
      ∧ ∃ r, sol.values.get? Loop.second = some r
        ∧ ∀ c, c ∈ r ↔ (Loop.machine Loop.switch).GuardedRun Loop.second c
  := by
  use Loop.reachable_machine _
  obtain ⟨sol, hsol, hexact⟩ := guardedRun_exact (Loop.reachable_machine Loop.switch) .standard
  have hconv : ((Loop.machine Loop.switch).solve .standard).map Solution.converged = .ok true := by
    decide +kernel
  have hconv : sol.converged = true := Model.eq_of_map_solve hsol hconv
  obtain ⟨r, hr, -, hiff⟩ := hexact hconv Loop.second (by decide)
  exact ⟨sol, hsol, hconv, r, hr, hiff (by decide)⟩

/-- Over the regions of the sources, whether the solver has converged or not, every
configuration in the region of a state is one in which a run ends in that state. -/
theorem exists_run_of_mem_solve (h : m.Reachable) (config : SolverConfig)
    (hbasis : config.basis = .stateRegion) :
  ∃ sol, m.solve config = .ok sol
    ∧ ∀ s r, sol.values.get? s = some r → ∀ c ∈ r, m.Run s c
  := by
  use m.solution config, m.solve_eq config
  intro s r hr c hc
  apply Model.run_of_mem_value h.wellFormed hbasis
  rw [Model.value, Table.getD, hr]
  apply hc

/-- The loop that waits for the light: there is a run to the second state with the light
on. -/
theorem exists_run_of_mem_solve_await :
  (Loop.machine Loop.await).Reachable ∧ SolverConfig.standard.basis = .stateRegion
    ∧ (Loop.machine Loop.await).Run Loop.second [⟨"light", "on"⟩]
  := by
  use Loop.reachable_machine _, rfl
  obtain ⟨sol, hsol, hrun⟩ :=
    exists_run_of_mem_solve (Loop.reachable_machine Loop.await) .standard rfl
  have hmem : ((Loop.machine Loop.await).solve .standard).map (fun sol =>
      (sol.values.get? Loop.second).map fun r => r.toList.contains [⟨"light", "on"⟩]) =
        .ok (some true) := by
    decide +kernel
  rw [hsol] at hmem
  obtain ⟨r, hr, hc⟩ := Option.map_eq_some_iff.mp (Except.ok.inj hmem)
  apply hrun Loop.second r hr
  apply Region.mem_toList.mp (List.contains_iff_mem.mp hc)

end Machine

end AssemblySemantics
