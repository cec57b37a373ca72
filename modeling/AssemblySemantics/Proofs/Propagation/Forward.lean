import AssemblySemantics.Proofs.Propagation.Incoming
import AssemblySemantics.Proofs.Propagation.Outcome
import AssemblySemantics.Proofs.Solver.Steady

/-!
# Machines in forward order

A pass that finds no stale source leaves steady regions. When every transition goes from an
earlier state to a later one, no source is stale, whatever the cache holds; the solver then
gives the same regions, so that one pass does all that refreshing by the solver does, and
another pass changes nothing.
-/

namespace AssemblySemantics

namespace Diagram

/-- Two caches store the same for the states and the transitions of a diagram. -/
structure Agree (d : Diagram) (c c' : Cache) : Prop where
  stateRegion : ∀ s ∈ d.states, c.stateRegion s = c'.stateRegion s
  stateZones : ∀ s ∈ d.states, c.stateZones s = c'.stateZones s
  edgeRegion : ∀ t ∈ d.transitions,
    c.edgeRegion (.transition t) = c'.edgeRegion (.transition t)

/-- Caches that agree have the same records of the states. -/
theorem Agree.record {d : Diagram} {c c' : Cache} (h : d.Agree c c') {s : State}
    (hs : s ∈ d.states) :
  c.record s = c'.record s
  := by
  rw [Cache.record, Cache.record, h.stateRegion s hs, h.stateZones s hs]

end Diagram

namespace Model

/-- All that is stored follows from the regions of the states. -/
structure Complete (m : Model) (c : Cache) : Prop where
  stateZones : ∀ s ∈ m.diagram.states, c.stateZones s = (c.stateRegion s).zones m.assembly
  edgeRegion : ∀ t ∈ m.diagram.transitions, c.edgeRegion (.transition t) =
    t.image (c.stateRegion t.source) m.assembly m.config.basis

variable {m : Model} {c c' : Cache} {v : Table State Region}

theorem complete_passed (h : m.diagram.WellFormed) (c : Cache) :
  m.Complete (m.passed c)
  := ⟨fun _ hs => stateZones_passed h c hs, fun _ ht => edgeRegion_passed h c ht⟩

theorem complete_stored (h : m.diagram.WellFormed) (v : Table State Region) (c : Cache) :
  m.Complete (m.stored v c)
  := ⟨fun _ hs => stateZones_stored h hs, fun _ ht => edgeRegion_stored h ht⟩

/-- Complete caches agree as soon as they store the same regions for the states. -/
theorem Complete.agree (hc : m.Complete c) (hc' : m.Complete c') (h : m.diagram.WellFormed)
    (hregion : ∀ s ∈ m.diagram.states, c.stateRegion s = c'.stateRegion s) :
  m.diagram.Agree c c'
  := by
  constructor
  · apply hregion
  · intro s hs
    rw [hc.stateZones s hs, hc'.stateZones s hs, hregion s hs]
  · intro t ht
    rw [hc.edgeRegion t ht, hc'.edgeRegion t ht, hregion _ (h.source_mem_states ht)]

/-- A pass leaves steady regions if for every transition the source comes before the target
or keeps what was stored for it. -/
theorem steady_passed (h : m.diagram.WellFormed)
    (hfresh : ∀ t ∈ m.diagram.transitions, m.diagram.Precedes t.source t.target
      ∨ c.record t.source = (m.passed c).record t.source) :
  m.Steady m.config.basis (m.passed c).stateRegion
  := by
  constructor
  · apply (StateRecord.mk.inj (record_passed_pseudo h)).1
  · intro s hs
    apply assembly_stateRegion_passed h c hs
  · intro s hs b
    have hstate := (mem_properStates.mp hs).1
    obtain ⟨d, hrecord, hd⟩ := record_passed h c hs
    have hjoined : m.joined d s = m.joined (m.passed c) s := by
      apply joined_congr h hstate
      rintro t ht rfl
      rw [hd]
      split
      · rfl
      · rename_i hlate
        apply (hfresh t ht).resolve_left hlate
    rw [(StateRecord.mk.inj hrecord).1, hjoined, mem_joined]
    apply exists_congr
    intro t
    rw [h.mem_incoming_iff hstate, and_assoc]
    apply and_congr_right
    intro ht
    rw [reached_passed h c ht]

/-- When all transitions go from earlier to later states, a pass leaves steady regions,
whatever the cache holds. -/
theorem steady_passed_of_forward (h : m.diagram.WellFormed) (c : Cache)
    (hforward : ∀ t ∈ m.diagram.transitions, m.diagram.Precedes t.source t.target) :
  m.Steady m.config.basis (m.passed c).stateRegion
  := by
  apply steady_passed h
  intro t ht
  left
  apply hforward t ht

/-- When all transitions go from earlier to later states, a pass leaves for every state the
value that the solver gives it, whether it has converged or not. -/
theorem stateRegion_passed_of_forward (h : m.diagram.WellFormed) (c : Cache)
    (hforward : ∀ t ∈ m.diagram.transitions, m.diagram.Precedes t.source t.target)
    {s : State} (hs : s ∈ m.diagram.states) :
  (m.passed c).stateRegion s = m.value (m.solution m.config).values s
  := by
  symm
  apply value_eq_of_forward h (steady_passed_of_forward h c hforward) hs
  intro t ht _
  apply hforward t ht

end Model

namespace Machine

variable {m : Machine}

/-- When all transitions go from earlier to later states, then one pass, from any cache,
leaves exactly what refreshing by the solver leaves, and a second pass changes nothing. -/
theorem refresh_oneStep_agrees (h : m.Reachable)
    (hforward : ∀ t ∈ m.diagram.transitions, m.diagram.Precedes t.source t.target) :
  ∃ m₁ m₂ m₃ events₁ events₂ events₃,
    m.run (·.refresh .oneStep) = (.ok (), m₁, events₁)
      ∧ m.run (·.refresh .fixedPoint) = (.ok (), m₂, events₂)
      ∧ m₁.run (·.refresh .oneStep) = (.ok (), m₃, events₃)
      ∧ m.diagram.Agree m₁.cache m₂.cache ∧ m.diagram.Agree m₃.cache m₁.cache
  := by
  have hd := h.wellFormed
  have hreadable : ∀ c, m.Readable c := fun c t ht => .inl (hforward t ht)
  obtain ⟨events₁, hrun₁⟩ := run_refresh_oneStep hd (hreadable m.cache)
  obtain ⟨events₂, hrun₂⟩ := run_refresh_fixedPoint h
  obtain ⟨events₃, hrun₃⟩ :=
    run_refresh_oneStep (m := { m with cache := m.passed m.cache }) hd (hreadable _)
  refine ⟨_, _, _, _, _, _, hrun₁, hrun₂, hrun₃, ?_, ?_⟩
  · apply (Model.complete_passed hd m.cache).agree (Model.complete_stored hd _ m.cache) hd
    intro s hs
    rw [Model.stateRegion_passed_of_forward hd m.cache hforward hs]
    symm
    apply stateRegion_refreshed h hs
  · apply (Model.complete_passed hd (m.passed m.cache)).agree (Model.complete_passed hd m.cache) hd
    intro s hs
    rw [Model.stateRegion_passed_of_forward hd m.cache hforward hs]
    apply Model.stateRegion_passed_of_forward hd _ hforward hs

/-- All transitions of the detour go from earlier to later states. -/
theorem precedes_ordered :
  ∀ t ∈ Detour.ordered.diagram.transitions, Detour.ordered.diagram.Precedes t.source t.target
  := by decide

/-- The detour with its states in the order in which they are passed, over a cache that
stores a region of another assembly for the hall. -/
theorem refresh_oneStep_agrees_detour :
  ∃ m : Machine, m.Reachable
    ∧ (∀ t ∈ m.diagram.transitions, m.diagram.Precedes t.source t.target)
    ∧ m.toModel = Detour.ordered.toModel
    ∧ m.cache.stateRegion Detour.hall = .ofConfigurations "street" [[⟨"light", "on"⟩]]
    ∧ ∃ m₁ m₂ m₃ events₁ events₂ events₃,
      m.run (·.refresh .oneStep) = (.ok (), m₁, events₁)
        ∧ m.run (·.refresh .fixedPoint) = (.ok (), m₂, events₂)
        ∧ m₁.run (·.refresh .oneStep) = (.ok (), m₃, events₃)
        ∧ m.diagram.Agree m₁.cache m₂.cache ∧ m.diagram.Agree m₃.cache m₁.cache
  := by
  have hreachable := Detour.reachable_ordered.cached
    ((Cache.empty "street").setStateRegion Detour.hall
      (.ofConfigurations "street" [[⟨"light", "on"⟩]]))
  refine ⟨_, hreachable, precedes_ordered, rfl, ?_,
    refresh_oneStep_agrees hreachable precedes_ordered⟩
  rw [Cache.stateRegion_setStateRegion, if_pos rfl]

end Machine

end AssemblySemantics
