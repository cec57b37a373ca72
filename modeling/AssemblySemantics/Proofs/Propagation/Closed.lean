import AssemblySemantics.Proofs.Propagation.Incoming

/-!
# Closure under transitions

The result of a solver that has converged is closed under the transitions of the machine:
from the region of its source a transition contributes a part of the region of its target.
What a machine stores when it is refreshed by such a solver is closed in the same way.
-/

namespace AssemblySemantics

namespace Machine

variable {m : Machine} {t : Transition} {config : SolverConfig}

/-- When the solver has converged, the image of the region of a source is at most the region
of the target. -/
theorem image_le_value (h : m.Reachable) (hconv : (m.solution config).converged = true)
    (ht : t ∈ m.diagram.transitions) :
  (t.image (m.value (m.solution config).values t.source) m.assembly config.basis).le
    (m.value (m.solution config).values t.target) = .ok true
  := by
  have hv := m.tagged_solution config
  apply Region.le_eq_ok_true_iff.mpr
  constructor
  · rw [Transition.assembly_image (hv.assembly_value t.source), hv.assembly_value t.target]
  · apply Model.image_subset_value h.wellFormed hconv ht

/-- The solver returns a result for every machine and under all settings. If it has
converged, then every transition contributes, from the region of its source and the exit
zones of that region, at most the region of its target. A machine can always be refreshed by
the solver, and if the solver has converged, then the region stored for a transition is at
most the region stored for its target. -/
theorem contribution_le_target (h : m.Reachable) :
  (∀ config, ∃ sol, m.solve config = .ok sol
    ∧ (sol.converged = true → ∀ t ∈ m.diagram.transitions,
      ∃ source target zones reached, sol.values.get? t.source = some source
        ∧ sol.values.get? t.target = some target
        ∧ source.exitZones m.assembly = .ok zones
        ∧ t.contribution source zones.toList m.assembly config.basis = .ok reached
        ∧ reached.le target = .ok true))
    ∧ ∃ m' events, m.run (·.refresh .fixedPoint) = (.ok (), m', events)
      ∧ ∀ sol, m.solve m.config = .ok sol → sol.converged = true →
        ∀ t ∈ m.diagram.transitions,
          (m'.cache.edgeRegion (.transition t)).le (m'.cache.stateRegion t.target) = .ok true
  := by
  constructor
  · intro config
    use m.solution config, m.solve_eq config
    intro hconv t ht
    have htag := (m.tagged_solution config).assembly_value t.source
    exact ⟨_, _, _, _, Model.get?_solution (h.wellFormed.source_mem_states ht),
      Model.get?_solution (h.wellFormed.target_mem_states ht), Region.exitZones_of_eq htag,
      Transition.contribution_of_eq htag, image_le_value h hconv ht⟩
  · obtain ⟨events, hrun⟩ := run_refresh_fixedPoint h
    use m.refreshed, events, hrun
    intro sol hsol hconv t ht
    rw [m.solve_eq] at hsol
    obtain rfl := Except.ok.inj hsol
    rw [edgeRegion_refreshed h ht, stateRegion_refreshed h (h.wellFormed.target_mem_states ht)]
    apply image_le_value h hconv ht

end Machine

namespace Loop

/-- The loop that waits for the light, without the way back. -/
def oneWay : Machine := (machine await).edited [.removeEdge (.transition back)]

theorem reachable_oneWay :
  oneWay.Reachable
  := (reachable_machine await).edited _

end Loop

namespace Machine

/-- Without the way back the light is off in the first state, and when it goes on by itself the
second state is entered: this is what the reactive transition contributes, and it lies in the
region of the second state, in the result of the solver and in the cache. -/
theorem contribution_le_target_await :
  Loop.oneWay.Reachable
    ∧ (∃ sol source target zones reached,
      Loop.oneWay.solve .standard = .ok sol ∧ sol.converged = true
        ∧ sol.values.get? Loop.first = some source ∧ sol.values.get? Loop.second = some target
        ∧ source.exitZones Loop.assembly = .ok zones
        ∧ Loop.await.contribution source zones.toList Loop.assembly .stateRegion = .ok reached
        ∧ reached.toList = [[⟨"light", "on"⟩]]
        ∧ reached.le target = .ok true)
    ∧ ∃ m' events, Loop.oneWay.run (·.refresh .fixedPoint) = (.ok (), m', events)
      ∧ (m'.cache.edgeRegion (.transition Loop.await)).toList = [[⟨"light", "on"⟩]]
      ∧ (m'.cache.edgeRegion (.transition Loop.await)).le
        (m'.cache.stateRegion Loop.second) = .ok true
  := by
  use Loop.reachable_oneWay
  obtain ⟨hsolve, m', events, hrun, hstored⟩ := contribution_le_target Loop.reachable_oneWay
  have hconv : (Loop.oneWay.solve .standard).map Solution.converged = .ok true := by
    decide +kernel
  have hawait : Loop.await ∈ Loop.oneWay.diagram.transitions := by
    decide
  obtain ⟨sol, hsol, hclosed⟩ := hsolve .standard
  have hconv : sol.converged = true := Model.eq_of_map_solve hsol hconv
  constructor
  · have hoff : (Loop.oneWay.solve .standard).map (·.values.get? Loop.first) =
        .ok (some Loop.oneWay.assembly.initial) := by
      decide +kernel
    have hon : (Loop.oneWay.assembly.initial.exitZones Loop.oneWay.assembly).bind (fun zones =>
        (Loop.await.contribution Loop.oneWay.assembly.initial zones.toList Loop.oneWay.assembly
          SolverConfig.standard.basis).map Region.toList) = .ok [[⟨"light", "on"⟩]] := by
      decide +kernel
    obtain ⟨source, target, zones, reached, hsource, htarget, hzones, hreached, hle⟩ :=
      hclosed hconv Loop.await hawait
    have hoff : sol.values.get? Loop.first = some _ := Model.eq_of_map_solve hsol hoff
    obtain rfl : source = _ := Option.some.inj (hsource.symm.trans hoff)
    rw [hzones] at hon
    change (Loop.await.contribution _ zones.toList _ _).map Region.toList = _ at hon
    rw [hreached] at hon
    exact ⟨sol, _, target, zones, reached, hsol, hconv, hsource, htarget, hzones, hreached,
      Except.ok.inj hon, hle⟩
  · have hon : ((Loop.oneWay.run (·.refresh .fixedPoint)).2.1.cache.edgeRegion
        (.transition Loop.await)).toList = [[⟨"light", "on"⟩]] := by
      decide +kernel
    rw [hrun] at hon
    exact ⟨m', events, hrun, hon, hstored sol hsol hconv Loop.await hawait⟩

end Machine

end AssemblySemantics
