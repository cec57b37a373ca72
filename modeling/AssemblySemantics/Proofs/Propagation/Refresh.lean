import AssemblySemantics.Proofs.Propagation.Forward

/-!
# Refreshing by the solver

Refreshing a machine by the solver overwrites whatever its cache holds for the states and the
transitions before it reads it. What is stored afterwards follows from the solution alone, so
that refreshing again finds everything in place and leaves the cache as it is.
-/

namespace AssemblySemantics

namespace Model

variable {m : Model} {c : Cache} {v : Table State Region} {s s' : State} {t : Transition}
  {r : Region}

/-! ### What has a record after values were stored -/

theorem hasState_stow :
  (m.stow c s r).hasState s' = if s = s' then true else c.hasState s'
  := by
  rw [stow, Cache.hasState, Cache.setStateZones, Cache.setStateRegion, Table.contains,
    Table.set_set, Table.get?_set]
  split <;> rfl

theorem hasState_foldl_stow (f : State → Region) (states : List State) :
  (states.foldl (fun c s => m.stow c s (f s)) c).hasState s =
    if s ∈ states then true else c.hasState s
  := read_foldl_stow (·.hasState s) (fun _ => true) (fun _ _ _ => hasState_stow) f states

theorem states_foldl_fill (transitions : List Transition) :
  (transitions.foldl m.fill c).states = c.states
  := by
  apply read_foldl_eq (·.states)
  intro c t _
  rfl

/-- After values were stored every state has a record. -/
theorem hasState_stored (h : m.diagram.WellFormed) (hs : s ∈ m.diagram.states) :
  (m.stored v c).hasState s = true
  := by
  rw [stored, Cache.hasState, states_foldl_fill]
  apply (hasState_foldl_stow (m.value v) m.properStates).trans
  split
  · rfl
  · rename_i hproper
    obtain rfl | hs := eq_pseudo_or_mem_properStates h hs
    · rw [hasState_stow, if_pos rfl]
    · apply (hproper hs).elim

theorem contains_edges_stored (ht : t ∈ m.diagram.transitions) :
  (m.stored v c).edges.contains (.transition t) = true
  := by
  rw [stored, Table.contains, get?_edges_foldl_fill ht]
  rfl

/-! ### Storing what is stored already -/

theorem stow_eq_self (hs : c.hasState s = true) (hr : c.stateRegion s = r)
    (hz : c.stateZones s = r.zones m.assembly) :
  m.stow c s r = c
  := by
  obtain ⟨record, hrecord⟩ := Option.isSome_iff_exists.mp hs
  have hget : c.states.get? s = some ⟨r, r.zones m.assembly⟩ := by
    rw [← hz, ← hr, Cache.stateRegion, Cache.stateZones, hrecord]
    rfl
  have hregion : c.setStateRegion s r = c := by
    rw [Cache.setStateRegion, hz, Table.set_of_get? hget]
  rw [stow, hregion, Cache.setStateZones, hr, Table.set_of_get? hget]

theorem fill_eq_self (he : c.edges.contains (.transition t) = true)
    (hr : c.edgeRegion (.transition t) = m.reached c (.transition t)) :
  m.fill c t = c
  := by
  obtain ⟨r', hget⟩ := Option.isSome_iff_exists.mp he
  have hr' : r' = m.reached c (.transition t) := by
    rw [← hr, Cache.edgeRegion, Table.getD, hget]
    rfl
  rw [hr'] at hget
  have hfill : m.fill c t = c.setEdgeRegion (.transition t) (m.reached c (.transition t)) := rfl
  rw [hfill, Cache.setEdgeRegion, Table.set_of_get? hget]

/-- Storing the same values again changes nothing. -/
theorem stored_stored (h : m.diagram.WellFormed) (v : Table State Region) (c : Cache) :
  m.stored v (m.stored v c) = m.stored v c
  := by
  have hcomplete := complete_stored h v c
  have hpseudo : m.stow (m.stored v c) m.diagram.pseudo m.assembly.initial = m.stored v c := by
    apply stow_eq_self (hasState_stored h h.pseudo_mem) (stateRegion_stored_pseudo h)
    rw [hcomplete.stateZones _ h.pseudo_mem, stateRegion_stored_pseudo h]
  have hstates : m.properStates.foldl (fun c s => m.stow c s (m.value v s)) (m.stored v c) =
      m.stored v c := by
    apply List.foldlRecOn (motive := fun c' => c' = m.stored v c) _ _ rfl
    rintro _ rfl s hs
    have hstate := (mem_properStates.mp hs).1
    apply stow_eq_self (hasState_stored h hstate) (stateRegion_stored hs)
    rw [hcomplete.stateZones s hstate, stateRegion_stored hs]
  have htransitions : m.diagram.transitions.foldl m.fill (m.stored v c) = m.stored v c := by
    apply List.foldlRecOn (motive := fun c' => c' = m.stored v c) _ _ rfl
    rintro _ rfl t ht
    apply fill_eq_self (contains_edges_stored ht)
    rw [hcomplete.edgeRegion t ht, reached, hcomplete.stateZones _ (h.source_mem_states ht),
      Transition.image]
  rw [stored, hpseudo, hstates, htransitions]

end Model

namespace Machine

variable {m : Machine}

/-- Refreshing a machine by the solver succeeds from any two caches, and leaves the same for
its states and its transitions. The states have the regions that the solver returns, and
refreshing again leaves the machine as it is. -/
theorem refresh_fixedPoint_forgets (h : m.Reachable) (c c' : Cache) :
  ∃ m₁ m₂ events₁ events₂ sol,
    Machine.run { m with cache := c } (·.refresh .fixedPoint) = (.ok (), m₁, events₁)
      ∧ Machine.run { m with cache := c' } (·.refresh .fixedPoint) = (.ok (), m₂, events₂)
      ∧ m.diagram.Agree m₁.cache m₂.cache
      ∧ m.solve m.config = .ok sol
      ∧ (∀ s ∈ m.diagram.states, sol.values.get? s = some (m₁.cache.stateRegion s))
      ∧ ∃ events, m₁.run (·.refresh .fixedPoint) = (.ok (), m₁, events)
  := by
  have hd := h.wellFormed
  obtain ⟨events₁, hrun₁⟩ := run_refresh_fixedPoint (h.cached c)
  obtain ⟨events₂, hrun₂⟩ := run_refresh_fixedPoint (h.cached c')
  have hagain : refreshed (refreshed { m with cache := c }) = refreshed { m with cache := c } := by
    apply congrArg (Machine.mk m.toModel)
    apply Model.stored_stored hd
  obtain ⟨events, hrun⟩ :=
    run_refresh_fixedPoint (m := refreshed { m with cache := c }) (h.of_toModel_eq rfl)
  rw [hagain] at hrun
  refine ⟨_, _, _, _, _, hrun₁, hrun₂, ?_, m.solve_eq m.config, ?_, events, hrun⟩
  · apply (Model.complete_stored hd _ c).agree (Model.complete_stored hd _ c') hd
    intro s hs
    have hvalue := stateRegion_refreshed (h.cached c) hs
    apply hvalue.trans
    symm
    apply stateRegion_refreshed (h.cached c') hs
  · intro s hs
    rw [stateRegion_refreshed (h.cached c) hs, Model.get?_solution hs]

/-- The loop that waits for the light, over a cache that stores a region of another assembly
for the first state, and over the cache that a pass leaves: in the first state the light is off or
on afterwards and in the second one it is on, as the solver has found. -/
theorem refresh_fixedPoint_forgets_await :
  (Loop.machine Loop.await).Reachable
    ∧ ∃ c c' m₁ m₂ events₁ events₂ sol events,
      (c.stateRegion Loop.first).assembly = "street"
        ∧ c' = ((Loop.machine Loop.await).run (·.refresh .oneStep)).2.1.cache
        ∧ Machine.run { Loop.machine Loop.await with cache := c } (·.refresh .fixedPoint) =
          (.ok (), m₁, events₁)
        ∧ Machine.run { Loop.machine Loop.await with cache := c' } (·.refresh .fixedPoint) =
          (.ok (), m₂, events₂)
        ∧ (Loop.machine Loop.await).diagram.Agree m₁.cache m₂.cache
        ∧ (Loop.machine Loop.await).solve .standard = .ok sol
        ∧ sol.values.get? Loop.first = some (m₁.cache.stateRegion Loop.first)
        ∧ (m₁.cache.stateRegion Loop.first).toList = [[⟨"light", "off"⟩], [⟨"light", "on"⟩]]
        ∧ sol.values.get? Loop.second = some (m₁.cache.stateRegion Loop.second)
        ∧ (m₁.cache.stateRegion Loop.second).toList = [[⟨"light", "on"⟩]]
        ∧ m₁.run (·.refresh .fixedPoint) = (.ok (), m₁, events)
  := by
  use Loop.reachable_machine _
  obtain ⟨m₁, m₂, events₁, events₂, sol, hrun₁, hrun₂, hagree, hsol, hstates, events, hagain⟩ :=
    refresh_fixedPoint_forgets (Loop.reachable_machine Loop.await)
      ((Cache.empty "room").setStateRegion Loop.first
        (.ofConfigurations "street" [[⟨"light", "on"⟩]]))
      ((Loop.machine Loop.await).run (·.refresh .oneStep)).2.1.cache
  change (Loop.machine Loop.await).solve .standard = .ok sol at hsol
  have hvalues : ((Loop.machine Loop.await).solve .standard).map (fun sol =>
      ((sol.values.get? Loop.first).map Region.toList,
        (sol.values.get? Loop.second).map Region.toList)) =
          .ok (some [[⟨"light", "off"⟩], [⟨"light", "on"⟩]], some [[⟨"light", "on"⟩]]) := by
    decide +kernel
  have hvalues := Model.eq_of_map_solve hsol hvalues
  obtain ⟨hoff, hon⟩ := Prod.mk.inj hvalues
  have hfirst := hstates Loop.first (by decide)
  have hsecond := hstates Loop.second (by decide)
  rw [hfirst] at hoff
  rw [hsecond] at hon
  refine ⟨_, _, m₁, m₂, events₁, events₂, sol, events, ?_, rfl, hrun₁, hrun₂, hagree, hsol,
    hfirst, Option.some.inj hoff, hsecond, Option.some.inj hon, hagain⟩
  rw [Cache.stateRegion_setStateRegion, if_pos rfl]
  rfl

end Machine

end AssemblySemantics
