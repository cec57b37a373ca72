import AssemblySemantics.Proofs.Machine.History
import AssemblySemantics.Proofs.Propagation.Store

/-!
# Regions of states and of the transitions that lead to them

After a machine was refreshed by a solver that has converged, the region of a state contains
the join of the regions of the transitions that lead to it. It may contain more: the solver
keeps what a reactive transition contributed while the region of its source was smaller,
although the exit zones to the placement that guards it may have vanished since. Where no
transition is blocked in this way, the region of the state is the join.
-/

namespace AssemblySemantics

namespace Machine

/-- The join of the stored regions of the transitions that lead to a state. -/
def joinIncoming (m : Machine) (s : State) : Except RegionError Region :=
  (((m.diagram.incoming s).filterMap Edge.transition?).map fun t =>
    m.cache.edgeRegion (.transition t)).foldlM Region.join m.bottom

/-- A reactive transition is blocked when the stored region of its source touches the
placement that guards it, so that no exit zone leads there. -/
def Blocked (m : Machine) (t : Transition) : Prop :=
  t.isReactive = true
    ∧ ∃ p, t.guard = .basic p ∧ (m.cache.stateRegion t.source).Touches p m.assembly

/-- The machine after it was refreshed by the solver. -/
def refreshed (m : Machine) : Machine :=
  { m with cache := m.stored (m.solution m.config).values m.cache }

variable {m : Machine} {s : State} {t : Transition} {c : Configuration}

theorem run_refresh_fixedPoint (h : m.Reachable) :
  ∃ events, m.run (·.refresh .fixedPoint) = (.ok (), m.refreshed, events)
  := run_of_yields (Model.yields_refresh_fixedPoint h.wellFormed m.cache)

/-- A refreshed machine stores the values of the solution. -/
theorem stateRegion_refreshed (h : m.Reachable) (hs : s ∈ m.diagram.states) :
  m.refreshed.cache.stateRegion s = m.value (m.solution m.config).values s
  := by
  obtain rfl | hs := Model.eq_pseudo_or_mem_properStates h.wellFormed hs
  · apply Eq.trans (Model.stateRegion_stored_pseudo h.wellFormed)
    symm
    apply Model.value_pseudo h.wellFormed
  · apply Model.stateRegion_stored hs

/-- A refreshed machine stores the images of the values of the sources. -/
theorem edgeRegion_refreshed (h : m.Reachable) (ht : t ∈ m.diagram.transitions) :
  m.refreshed.cache.edgeRegion (.transition t) =
    t.image (m.value (m.solution m.config).values t.source) m.assembly m.config.basis
  := by
  rw [← stateRegion_refreshed h (h.wellFormed.source_mem_states ht)]
  apply Model.edgeRegion_stored h.wellFormed ht

/-- The join of what is stored for the transitions that lead to a state is the region of what
is stored for any of them. -/
theorem joinIncoming_eq_ok {r : Region} (hr : r.assembly = m.assembly.id)
    (htagged : ∀ t, .transition t ∈ m.diagram.incoming s →
      (m.cache.edgeRegion (.transition t)).assembly = m.assembly.id)
    (hmem : ∀ c, c ∈ r
      ↔ ∃ t, .transition t ∈ m.diagram.incoming s ∧ c ∈ m.cache.edgeRegion (.transition t)) :
  m.joinIncoming s = .ok r
  := by
  rw [joinIncoming]
  apply Eq.trans (Region.foldlM_join_eq_unions _)
  · apply congrArg Except.ok
    apply Region.ext hr.symm
    intro c
    simp only [Region.mem_unions, List.mem_map, Diagram.mem_filterMap_transition?,
      exists_exists_and_eq_and, hmem]
  · intro r hr
    obtain ⟨t, ht, rfl⟩ := List.mem_map.mp hr
    apply htagged t (Diagram.mem_filterMap_transition?.mp ht)

/-- The join of what a refreshed machine stores for the transitions that lead to a state is
what the state is offered. -/
theorem joinIncoming_refreshed (h : m.Reachable) (hs : s ∈ m.diagram.states) :
  m.refreshed.joinIncoming s =
    .ok (m.offered m.config.basis (m.solution m.config).values s)
  := by
  have hedge : ∀ t, .transition t ∈ m.diagram.incoming s →
      m.refreshed.cache.edgeRegion (.transition t) =
        t.image (m.value (m.solution m.config).values t.source) m.assembly m.config.basis := by
    intro t ht
    apply edgeRegion_refreshed h ((h.wellFormed.mem_incoming_iff hs).mp ht).1
  apply joinIncoming_eq_ok rfl
  · intro t ht
    rw [hedge t ht]
    apply Transition.assembly_image ((m.tagged_solution m.config).assembly_value t.source)
  · intro c
    rw [Model.mem_offered]
    apply exists_congr
    intro t
    apply and_congr_right
    intro ht
    rw [hedge t ht]

theorem mem_unreachableStates :
  s ∈ m.unreachableStates ↔ s ∈ m.properStates ∧ ∀ c, c ∉ m.cache.stateRegion s
  := by
  rw [unreachableStates, List.mem_filter, Region.isEmpty_iff]

theorem mem_deadTransitions :
  t ∈ m.deadTransitions
    ↔ t ∈ m.diagram.transitions ∧ ∀ c, c ∉ m.cache.edgeRegion (.transition t)
  := by
  rw [deadTransitions, List.mem_filter, Region.isEmpty_iff]

/-- What a state has beyond the join was contributed by blocked transitions, over a part of
the region of their source. -/
theorem exists_blocked_of_not_mem_offered (h : m.Reachable) (hs : s ∈ m.properStates)
    (hc : c ∈ m.value (m.solution m.config).values s)
    (hn : c ∉ m.offered m.config.basis (m.solution m.config).values s) :
  ∃ t, .transition t ∈ m.diagram.incoming s ∧ m.refreshed.Blocked t
    ∧ ∃ r : Region, r.assembly = m.assembly.id ∧ r ⊆ m.refreshed.cache.stateRegion t.source
      ∧ c ∈ t.image r m.assembly m.config.basis
  := by
  obtain ⟨t, ht, htarget, r, hr, hsub, hc⟩ := Model.contributed_of_mem_value h.wellFormed hs hc
  have hincoming : .transition t ∈ m.diagram.incoming s :=
    (h.wellFormed.mem_incoming_iff (Model.mem_properStates.mp hs).1).mpr ⟨ht, htarget⟩
  have hsource : m.refreshed.cache.stateRegion t.source =
      m.value (m.solution m.config).values t.source :=
    stateRegion_refreshed h (h.wellFormed.source_mem_states ht)
  -- were `c` in the image of all of the source, then the state would still be offered it
  have hblocked : m.refreshed.Blocked t := by
    by_contra hopen
    apply hn
    apply Model.mem_offered.mpr ⟨t, hincoming, _⟩
    apply Transition.image_subset_of_not_blocked _ hsub c hc
    rw [← hsource]
    apply hopen
  refine ⟨t, hincoming, hblocked, r, hr, ?_, hc⟩
  rw [hsource]
  apply hsub

/-- When no transition that leads to a state is blocked, its region is the join. -/
theorem stateRegion_refreshed_eq_offered (h : m.Reachable)
    (hconv : (m.solution m.config).converged = true) (hs : s ∈ m.properStates)
    (hopen : ∀ t, .transition t ∈ m.diagram.incoming s → ¬ m.refreshed.Blocked t) :
  m.refreshed.cache.stateRegion s = m.offered m.config.basis (m.solution m.config).values s
  := by
  rw [stateRegion_refreshed h (Model.mem_properStates.mp hs).1]
  apply Region.ext
  · apply (m.tagged_solution m.config).assembly_value s
  · intro c
    constructor
    · intro hc
      by_contra hn
      obtain ⟨t, ht, hblocked, -⟩ := exists_blocked_of_not_mem_offered h hs hc hn
      apply hopen t ht hblocked
    · apply Model.offered_subset_value hconv hs

/-- A state is offered nothing exactly when all transitions that lead to it are dead. -/
theorem forall_not_mem_offered_iff (h : m.Reachable) (hs : s ∈ m.diagram.states) :
  (∀ c, c ∉ m.offered m.config.basis (m.solution m.config).values s)
    ↔ ∀ t, .transition t ∈ m.diagram.incoming s → t ∈ m.refreshed.deadTransitions
  := by
  constructor
  · intro hempty t ht
    have htransition := ((h.wellFormed.mem_incoming_iff hs).mp ht).1
    apply mem_deadTransitions.mpr
    use htransition
    intro c hc
    rw [edgeRegion_refreshed h htransition] at hc
    apply hempty c (Model.mem_offered.mpr ⟨t, ht, hc⟩)
  · intro hdead c hc
    obtain ⟨t, ht, hc⟩ := Model.mem_offered.mp hc
    obtain ⟨htransition, hempty⟩ := mem_deadTransitions.mp (hdead t ht)
    apply hempty c
    rw [edgeRegion_refreshed h htransition]
    apply hc

/-- A machine can always be refreshed by the solver. If the solver has converged, then the
region of a state other than the pseudostate contains the join over the transitions that
lead to it. Any further configuration was contributed by a transition that is blocked now,
over a part of the region of its source; so that the region is the join when none of these
transitions is blocked. All of them are dead if the state is unreachable, and only then when
none is blocked. -/
theorem joinIncoming_refresh (h : m.Reachable) :
  ∃ m' events, m.run (·.refresh .fixedPoint) = (.ok (), m', events)
    ∧ ∀ sol, m.solve m.config = .ok sol → sol.converged = true → ∀ s ∈ m.properStates,
      ∃ joined, m'.joinIncoming s = .ok joined ∧ joined ⊆ m'.cache.stateRegion s
        ∧ (∀ c ∈ m'.cache.stateRegion s, c ∉ joined →
          ∃ t, .transition t ∈ m.diagram.incoming s ∧ m'.Blocked t
            ∧ ∃ r zones reached, r ⊆ m'.cache.stateRegion t.source
              ∧ r.exitZones m.assembly = .ok zones
              ∧ t.contribution r zones.toList m.assembly m.config.basis = .ok reached
              ∧ c ∈ reached)
        ∧ (s ∈ m'.unreachableStates →
          ∀ t, .transition t ∈ m.diagram.incoming s → t ∈ m'.deadTransitions)
        ∧ ((∀ t, .transition t ∈ m.diagram.incoming s → ¬ m'.Blocked t) →
          m'.cache.stateRegion s = joined
            ∧ (s ∈ m'.unreachableStates
              ↔ ∀ t, .transition t ∈ m.diagram.incoming s → t ∈ m'.deadTransitions))
  := by
  obtain ⟨events, hrun⟩ := run_refresh_fixedPoint h
  use m.refreshed, events, hrun
  intro sol hsol hconv s hs
  rw [m.solve_eq] at hsol
  obtain rfl := Except.ok.inj hsol
  have hstate : s ∈ m.diagram.states := (Model.mem_properStates.mp hs).1
  have hvalue := stateRegion_refreshed h hstate
  have hsub : m.offered m.config.basis (m.solution m.config).values s ⊆
      m.refreshed.cache.stateRegion s := by
    rw [hvalue]
    apply Model.offered_subset_value hconv hs
  refine ⟨_, joinIncoming_refreshed h hstate, hsub, ?_, ?_, ?_⟩
  · intro c hc hn
    rw [hvalue] at hc
    obtain ⟨t, ht, hblocked, r, hr, hrsub, hc⟩ := exists_blocked_of_not_mem_offered h hs hc hn
    exact ⟨t, ht, hblocked, r, _, _, hrsub, Region.exitZones_of_eq hr,
      Transition.contribution_of_eq hr, hc⟩
  · intro hunreachable
    apply (forall_not_mem_offered_iff h hstate).mp
    intro c hc
    apply (mem_unreachableStates.mp hunreachable).2 c (hsub c hc)
  · intro hopen
    have heq := stateRegion_refreshed_eq_offered h hconv hs hopen
    use heq
    rw [mem_unreachableStates, heq, forall_not_mem_offered_iff h hstate]
    apply and_iff_right hs

/-- In the loop that switches the light, the region of the second state is the join. -/
theorem joinIncoming_refresh_switch :
  (Loop.machine Loop.switch).Reachable
    ∧ ∃ m' events, (Loop.machine Loop.switch).run (·.refresh .fixedPoint) = (.ok (), m', events)
      ∧ m'.joinIncoming Loop.second = .ok (m'.cache.stateRegion Loop.second)
  := by
  use Loop.reachable_machine _
  obtain ⟨m', events, hrun, hjoin⟩ := joinIncoming_refresh (Loop.reachable_machine Loop.switch)
  use m', events, hrun
  have hconv : ((Loop.machine Loop.switch).solve (Loop.machine Loop.switch).config).map
      Solution.converged = .ok true := by
    decide +kernel
  rcases hsol : (Loop.machine Loop.switch).solve (Loop.machine Loop.switch).config with e | sol
  · rw [hsol] at hconv
    cases hconv
  · rw [hsol] at hconv
    obtain ⟨joined, hjoined, -, -, -, heq⟩ :=
      hjoin sol hsol (Except.ok.inj hconv) Loop.second (by decide)
    rw [hjoined, (heq _).1]
    rintro t ht ⟨hreactive, -⟩
    have hguarded : ∀ t ∈ ((Loop.machine Loop.switch).diagram.incoming Loop.second).filterMap
        Edge.transition?, t.isReactive = false := by
      decide
    rw [hguarded t (Diagram.mem_filterMap_transition?.mpr ht)] at hreactive
    cases hreactive

/-- In the loop that waits for the light, the second state keeps the light on, although the
transition that leads there is dead once the light may be on in the first state. -/
theorem joinIncoming_ne_await :
  (Loop.machine Loop.await).Reachable
    ∧ ((Loop.machine Loop.await).solve (Loop.machine Loop.await).config).map
      Solution.converged = .ok true
    ∧ Loop.second ∈ (Loop.machine Loop.await).properStates
    ∧ ∃ m' events, (Loop.machine Loop.await).run (·.refresh .fixedPoint) = (.ok (), m', events)
      ∧ m'.joinIncoming Loop.second ≠ .ok (m'.cache.stateRegion Loop.second)
      ∧ Loop.second ∉ m'.unreachableStates
      ∧ ∀ t, .transition t ∈ m'.diagram.incoming Loop.second → t ∈ m'.deadTransitions
  := by
  refine ⟨Loop.reachable_machine _, by decide +kernel, by decide, ?_⟩
  obtain ⟨events, hrun⟩ := run_refresh_fixedPoint (Loop.reachable_machine Loop.await)
  refine ⟨_, events, hrun, ?_⟩
  have hfacts : ∀ m', m' = ((Loop.machine Loop.await).run (·.refresh .fixedPoint)).2.1 →
      m'.joinIncoming Loop.second ≠ .ok (m'.cache.stateRegion Loop.second)
        ∧ Loop.second ∉ m'.unreachableStates
        ∧ ∀ t ∈ (m'.diagram.incoming Loop.second).filterMap Edge.transition?,
          t ∈ m'.deadTransitions := by
    rintro _ rfl
    decide +kernel
  rw [hrun] at hfacts
  obtain ⟨hjoin, hreached, hdead⟩ := hfacts _ rfl
  use hjoin, hreached
  intro t ht
  apply hdead t (Diagram.mem_filterMap_transition?.mpr ht)

end Machine

end AssemblySemantics
