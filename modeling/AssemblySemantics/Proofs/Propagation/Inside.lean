import AssemblySemantics.Proofs.Assembly.Growth
import AssemblySemantics.Proofs.Propagation.Coherent
import AssemblySemantics.Proofs.Propagation.Incoming
import AssemblySemantics.Proofs.Solver.Bound

/-!
# Stored regions and the space

The space of an assembly changes when another component is registered in it, while the cache
of a machine over it stays. Refreshing by the solver overwrites everything that is stored. A
pass that reads a region from before the registration, to follow a reactive transition from
there, may pass configurations on that leave the new machine without a place. What is not
`Exposed` to this lies in the space after every pass, and once everything does, it stays so
until the next registration.
-/

namespace AssemblySemantics

namespace Machine

/-! ### Histories -/

/-- A change of a machine or of its assembly, or a pass. -/
inductive Change where
  | edit (x : Edit)
  /-- Another component is registered in the assembly. -/
  | register (d : Component)
  /-- The components of an identity take one more move. -/
  | addMove (uid : Nat) (move : Move)
  | setAssembly (a : Assembly)
  | setConfig (config : SolverConfig)
  | refresh (strategy : Strategy)

/-- Whether a component is registered in the assembly. -/
def Change.isRegistration : Change → Bool
  | .register _ => true
  | _ => false

/-- The machine after a change, which leaves it as it is when it is refused. A pass that is
refused leaves what it has stored. -/
def change (m : Machine) : Change → Machine
  | .edit x => (m.edit x).toOption.getD m
  | .register d => { m with assembly := (m.assembly.register d).toOption.getD m.assembly }
  | .addMove uid move => { m with assembly := m.assembly.addMove uid move }
  | .setAssembly a => m.setAssembly a
  | .setConfig config => m.setConfig config
  | .refresh strategy => (m.run (·.refresh strategy)).2.1

/-- The machine after several changes. -/
def changed (m : Machine) (xs : List Change) : Machine := xs.foldl change m

/-- What is stored for the states and the transitions of a machine lies in the space. -/
structure Inside (m : Machine) : Prop where
  state : ∀ s ∈ m.diagram.states, (m.cache.stateRegion s).le m.assembly.space = .ok true
  edge : ∀ t ∈ m.diagram.transitions,
    (m.cache.edgeRegion (.transition t)).le m.assembly.space = .ok true

/-- The states to which the next pass may hand on what is stored outside the space, provided
that reactive transitions start from the regions of their sources: those to which a reactive
transition leads whose source comes no earlier and has a region outside the space, and those
to which a reactive transition leads on from an earlier one of these. -/
inductive Exposed (m : Machine) : State → Prop where
  | stale {t : Transition} (ht : t ∈ m.diagram.transitions) (hreactive : t.isReactive = true)
      (hbasis : m.config.basis = .stateRegion)
      (hlate : ¬ m.diagram.Precedes t.source t.target)
      (hout : (m.cache.stateRegion t.source).le m.assembly.space = .ok false) :
      Exposed m t.target
  | onward {t : Transition} (ht : t ∈ m.diagram.transitions) (hreactive : t.isReactive = true)
      (hbasis : m.config.basis = .stateRegion)
      (hprecedes : m.diagram.Precedes t.source t.target) (hsource : Exposed m t.source) :
      Exposed m t.target

/-- What holds in every history: the cache belongs to the assembly and has only zones that are
possible, and nothing is stored for what is not there. -/
structure Tidy (m : Machine) : Prop where
  reachable : m.Reachable
  assembly : m.cache.assembly = m.assembly.id
  state : ∀ s, (m.cache.stateRegion s).assembly = m.assembly.id
  edge : ∀ e, (m.cache.edgeRegion e).assembly = m.assembly.id
  zones : ∀ s, ∀ z ∈ m.cache.stateZones s, z ∈ m.assembly.possibleZones
  absent_state : ∀ s, s ∉ m.diagram.states → m.cache.record s = ⟨m.cache.bottom, ∅⟩
  absent_edge : ∀ e, e ∉ m.diagram.edges → m.cache.edgeRegion e = m.cache.bottom

variable {m m' : Machine} {s : State} {t : Transition} {a : Assembly} {events : List Event}

/-- Only reactive transitions expose a state. -/
theorem Exposed.exists_reactive (h : m.Exposed s) :
  ∃ t ∈ m.diagram.transitions, t.target = s ∧ t.isReactive = true
  := by
  cases h with
  | stale ht hreactive => exact ⟨_, ht, rfl, hreactive⟩
  | onward ht hreactive => exact ⟨_, ht, rfl, hreactive⟩

/-! ### What holds in every history -/

theorem tidy_of_empty (h : m.Reachable) (hc : m.cache = .empty m.assembly.id) :
  m.Tidy
  := by
  constructor
  · apply h
  · rw [hc]
    rfl
  · intro s
    rw [hc]
    rfl
  · intro e
    rw [hc]
    rfl
  · intro s z hz
    rw [hc] at hz
    apply (Std.ExtTreeSet.not_mem_empty hz).elim
  · intro s _
    rw [hc]
    rfl
  · intro e _
    rw [hc]
    rfl

theorem Tidy.edit (hm : m.Tidy) {x : Edit} (hx : m.edit x = .ok m') :
  m'.Tidy
  := by
  have hforgets := forgets_edit hx
  have hassembly := assembly_edit hx
  have hc : m'.cache.assembly = m'.assembly.id := by
    rw [hforgets.assembly, hassembly, hm.assembly]
  have hbottom : m'.cache.bottom.assembly = m'.assembly.id := hc
  constructor
  · apply hm.reachable.edit hx
  · apply hc
  · intro s
    obtain ⟨hkept, -⟩ | hlost := hforgets.record s
    · rw [(StateRecord.mk.inj hkept).1, hassembly, hm.state]
    · rw [(StateRecord.mk.inj hlost).1, hbottom]
  · intro e
    obtain ⟨hkept, -⟩ | hlost := hforgets.edge e
    · rw [hkept, hassembly, hm.edge]
    · rw [hlost, hbottom]
  · intro s z hz
    obtain ⟨hkept, -⟩ | hlost := hforgets.record s
    · rw [(StateRecord.mk.inj hkept).2] at hz
      rw [hassembly]
      apply hm.zones s z hz
    · rw [(StateRecord.mk.inj hlost).2] at hz
      apply (Std.ExtTreeSet.not_mem_empty hz).elim
  · intro s hs
    obtain ⟨hkept, hmem⟩ | hlost := hforgets.record s
    · rw [hkept, hforgets.bottom, hm.absent_state s fun hold => hs (hmem hold)]
    · apply hlost
  · intro e he
    obtain ⟨hkept, hmem⟩ | hlost := hforgets.edge e
    · rw [hkept, hforgets.bottom, hm.absent_edge e fun hold => he (hmem hold)]
    · apply hlost

/-- The assembly may grow. -/
theorem Tidy.grow (hm : m.Tidy) (hid : a.id = m.assembly.id)
    (hzones : m.assembly.possibleZones ⊆ a.possibleZones) :
  Tidy { m with assembly := a }
  := by
  constructor
  · apply hm.reachable.grow a
  · apply hm.assembly.trans hid.symm
  · intro s
    apply (hm.state s).trans hid.symm
  · intro e
    apply (hm.edge e).trans hid.symm
  · intro s z hz
    apply hzones (hm.zones s z hz)
  · apply hm.absent_state
  · apply hm.absent_edge

/-- A pass may settle the cache with regions of the assembly. -/
theorem Tidy.settled (hm : m.Tidy) (hmodel : m'.toModel = m.toModel)
    (hsettled : m.Settled m.cache m'.cache) (howns : m.Owns m'.cache) :
  m'.Tidy
  := by
  have hbottom : m'.cache.bottom = m.cache.bottom := congrArg Region.bottom hsettled.assembly
  constructor
  · apply hm.reachable.of_toModel_eq hmodel
  · rw [hsettled.assembly, hm.assembly, hmodel]
  · intro s
    rw [hmodel]
    by_cases hs : s ∈ m.diagram.states
    · apply howns s hs
    · rw [(StateRecord.mk.inj (hsettled.record_kept s hs)).1]
      apply hm.state
  · intro e
    rw [hmodel]
    by_cases he : ∃ t ∈ m.diagram.transitions, e = .transition t
    · obtain ⟨t, ht, rfl⟩ := he
      apply (Transition.mem_contribution (hsettled.edge t ht)).1
    · rw [hsettled.edge_kept e fun t ht heq => he ⟨t, ht, heq⟩]
      apply hm.edge
  · intro s z hz
    rw [hmodel]
    by_cases hs : s ∈ m.diagram.states
    · have hzones := (Region.exitZones_of_eq (howns s hs)).symm.trans (hsettled.zones s hs)
      rw [← Except.ok.inj hzones] at hz
      apply (Region.mem_zones.mp hz).1
    · rw [(StateRecord.mk.inj (hsettled.record_kept s hs)).2] at hz
      apply hm.zones s z hz
  · intro s hs
    rw [hmodel] at hs
    rw [hsettled.record_kept s hs, hbottom, hm.absent_state s hs]
  · intro e he
    rw [hmodel] at he
    rw [hsettled.edge_kept e, hbottom, hm.absent_edge e he]
    rintro t ht rfl
    apply he (Diagram.mem_transitions.mp ht)

theorem Tidy.owns (hm : m.Tidy) :
  m.Owns m.cache
  := fun s _ => hm.state s

/-- In every history a pass succeeds. -/
theorem Tidy.run_refresh_oneStep (hm : m.Tidy) :
  ∃ events, m.run (·.refresh .oneStep) =
    (.ok (), { m with cache := m.passed m.cache }, events)
  := by
  have hd := hm.reachable.wellFormed
  apply Machine.run_refresh_oneStep hd (hm.owns.readable hd)

/-- In every history refreshing succeeds, and keeps the machine tidy. -/
theorem Tidy.exists_run_refresh (hm : m.Tidy) (strategy : Strategy) :
  ∃ m' events, m.run (·.refresh strategy) = (.ok (), m', events) ∧ m'.Tidy
  := by
  have hd := hm.reachable.wellFormed
  cases strategy with
  | oneStep =>
    obtain ⟨events, hrun⟩ := hm.run_refresh_oneStep
    refine ⟨_, events, hrun, hm.settled rfl ?_ ?_⟩
    · apply Model.settled_passed hd
    · apply Model.owns_passed hd
  | fixedPoint =>
    obtain ⟨events, hrun⟩ := run_refresh_fixedPoint hm.reachable
    refine ⟨_, events, hrun, hm.settled rfl ?_ ?_⟩
    · apply Model.settled_stored hd (m.tagged_solution m.config)
    · intro s hs
      apply Model.assembly_stateRegion_stored hd (m.tagged_solution m.config) hs

theorem Tidy.change (hm : m.Tidy) (x : Change) :
  (m.change x).Tidy
  := by
  cases x with
  | edit x =>
    rw [Machine.change]
    rcases hx : m.edit x with _ | m'
    · apply hm
    · apply hm.edit hx
  | register d =>
    rw [Machine.change]
    rcases ha : m.assembly.register d with _ | a
    · apply hm
    · apply hm.grow (Assembly.register_eq_ok ha).1 (Assembly.possibleZones_subset_register ha)
  | addMove uid move =>
    apply hm.grow (by rfl) (Assembly.possibleZones_subset_addMove m.assembly uid move)
  | setAssembly a => apply tidy_of_empty (hm.reachable.setAssembly a) rfl
  | setConfig config =>
    exact ⟨hm.reachable.setConfig config, hm.assembly, hm.state, hm.edge, hm.zones,
      hm.absent_state, hm.absent_edge⟩
  | refresh strategy =>
    obtain ⟨m', events, hrun, hm'⟩ := hm.exists_run_refresh strategy
    rw [Machine.change, hrun]
    apply hm'

theorem Tidy.changed (hm : m.Tidy) (xs : List Change) :
  (m.changed xs).Tidy
  := by
  induction xs generalizing m with
  | nil => apply hm
  | cons x xs ih => apply ih (hm.change x)

/-! ### After a pass -/

/-- After a pass the region of a state that is not exposed lies in the space. -/
theorem stateRegion_passed_subset_space (hm : m.Tidy) (hs : s ∈ m.diagram.states)
    (hfree : ¬ m.Exposed s) :
  (m.passed m.cache).stateRegion s ⊆ m.assembly.space
  := by
  have hd := hm.reachable.wellFormed
  -- along the order of the states: what comes earlier was stored by the same pass
  induction hn : m.diagram.states.idxOf s using Nat.strong_induction_on generalizing s with
  | _ n ih =>
    obtain rfl := hn
    obtain rfl | hproper := Model.eq_pseudo_or_mem_properStates hd hs
    · rw [(StateRecord.mk.inj (Model.record_passed_pseudo hd)).1]
      intro b hb
      apply Assembly.mem_space_of_mem_initial hb
    · obtain ⟨d, hrecord, hbefore⟩ := Model.record_passed hd m.cache hproper
      rw [(StateRecord.mk.inj hrecord).1]
      intro b hb
      obtain ⟨t, hincoming, hreached⟩ := Model.mem_joined.mp hb
      obtain ⟨ht, rfl⟩ := (hd.mem_incoming_iff hs).mp hincoming
      have hsource := hd.source_mem_states ht
      obtain hstored := hbefore t.source
      split at hstored
      · rename_i hprecedes
        rw [Model.reached_congr hstored, Model.reached_passed hd m.cache ht] at hreached
        apply Transition.image_subset_space _ b hreached
        intro hreactive hbasis
        apply ih _ hprecedes hsource _ rfl
        intro hexposed
        apply hfree (.onward ht hreactive hbasis hprecedes hexposed)
      · rename_i hlate
        rw [Model.reached_congr hstored] at hreached
        apply Transition.reach_subset_space _ _ b hreached
        · intro hreactive hbasis
          by_contra hout
          apply hfree
          apply Exposed.stale ht hreactive hbasis hlate
          apply Region.le_eq_ok_iff.mpr ⟨hm.state t.source, ?_⟩
          apply iff_of_false Bool.false_ne_true hout
        · intro z hz
          apply hm.zones t.source z (Std.ExtTreeSet.mem_toList.mp hz)

/-- After a pass the region of a transition lies in the space, unless it follows exit zones from
an exposed state. -/
theorem edgeRegion_passed_subset_space (hm : m.Tidy) (ht : t ∈ m.diagram.transitions)
    (hfree : t.isReactive = true → m.config.basis = .stateRegion → ¬ m.Exposed t.source) :
  (m.passed m.cache).edgeRegion (.transition t) ⊆ m.assembly.space
  := by
  have hd := hm.reachable.wellFormed
  rw [Model.edgeRegion_passed hd m.cache ht]
  apply Transition.image_subset_space
  intro hreactive hbasis
  apply stateRegion_passed_subset_space hm (hd.source_mem_states ht) (hfree hreactive hbasis)

/-- What is stored belongs to the assembly, so that it is compared with the space by
inclusion. -/
theorem Tidy.inside_iff (hm : m.Tidy) :
  m.Inside ↔ (∀ s ∈ m.diagram.states, m.cache.stateRegion s ⊆ m.assembly.space)
    ∧ ∀ t ∈ m.diagram.transitions, m.cache.edgeRegion (.transition t) ⊆ m.assembly.space
  := by
  have hstate : ∀ s, (m.cache.stateRegion s).le m.assembly.space = .ok true
      ↔ m.cache.stateRegion s ⊆ m.assembly.space := by
    intro s
    apply Region.le_eq_ok_true_iff.trans
    apply and_iff_right (hm.state s)
  have hedge : ∀ e, (m.cache.edgeRegion e).le m.assembly.space = .ok true
      ↔ m.cache.edgeRegion e ⊆ m.assembly.space := by
    intro e
    apply Region.le_eq_ok_true_iff.trans
    apply and_iff_right (hm.edge e)
  constructor
  · intro h
    exact ⟨fun s hs => (hstate s).mp (h.state s hs), fun t ht => (hedge _).mp (h.edge t ht)⟩
  · rintro ⟨hstates, hedges⟩
    exact ⟨fun s hs => (hstate s).mpr (hstates s hs), fun t ht => (hedge _).mpr (hedges t ht)⟩

/-- After refreshing by the solver everything lies in the space. -/
theorem Tidy.inside_refreshed (hm : m.Tidy) (hm' : m.refreshed.Tidy) :
  m.refreshed.Inside
  := by
  have hvalue := m.within_solution m.config
  apply hm'.inside_iff.mpr
  constructor
  · intro s hs
    rw [stateRegion_refreshed hm.reachable hs]
    apply hvalue s
  · intro t ht
    rw [edgeRegion_refreshed hm.reachable ht]
    apply Transition.image_subset_space fun _ _ => hvalue t.source

/-! ### Without registrations -/

/-- As long as everything lies in the space, no state is exposed. -/
theorem Inside.not_exposed (h : m.Inside) (hm : m.Tidy) :
  ¬ m.Exposed s
  := by
  intro hs
  induction hs with
  | stale ht _ _ _ hout =>
    rw [h.state _ (hm.reachable.wellFormed.source_mem_states ht)] at hout
    cases hout
  | onward _ _ _ _ _ ih => apply ih

/-- Where nothing is stored, everything lies in the space. -/
theorem Tidy.inside_of_empty (hm : m.Tidy) (hc : m.cache = .empty m.assembly.id) :
  m.Inside
  := by
  apply hm.inside_iff.mpr
  rw [hc]
  constructor
  · intro s _
    apply Region.bottom_subset
  · intro t _
    apply Region.bottom_subset

/-- A change of the diagram stores nothing. -/
theorem Inside.edit (h : m.Inside) (hm : m.Tidy) {x : Edit} (hx : m.edit x = .ok m') :
  m'.Inside
  := by
  have hforgets := forgets_edit hx
  have hassembly := assembly_edit hx
  obtain ⟨hstate, hedge⟩ := hm.inside_iff.mp h
  apply (hm.edit hx).inside_iff.mpr
  rw [hassembly]
  constructor
  · intro s _
    obtain ⟨hkept, -⟩ | hlost := hforgets.record s
    · rw [(StateRecord.mk.inj hkept).1]
      by_cases hs : s ∈ m.diagram.states
      · apply hstate s hs
      · rw [(StateRecord.mk.inj (hm.absent_state s hs)).1]
        apply Region.bottom_subset
    · rw [(StateRecord.mk.inj hlost).1]
      apply Region.bottom_subset
  · intro t _
    obtain ⟨hkept, -⟩ | hlost := hforgets.edge (.transition t)
    · rw [hkept]
      by_cases ht : .transition t ∈ m.diagram.edges
      · apply hedge t (Diagram.mem_transitions.mpr ht)
      · rw [hm.absent_edge _ ht]
        apply Region.bottom_subset
    · rw [hlost]
      apply Region.bottom_subset

/-- No change but a registration stores anything outside the space. -/
theorem Inside.change (h : m.Inside) (hm : m.Tidy) {x : Change}
    (hx : x.isRegistration = false) :
  (m.change x).Inside
  := by
  have hm' := hm.change x
  cases x with
  | edit x =>
    rw [Machine.change]
    rcases hedit : m.edit x with _ | m'
    · apply h
    · apply h.edit hm hedit
  | register d => cases hx
  | addMove uid move =>
    apply hm'.inside_iff.mpr
    simp only [Machine.change, Assembly.space_addMove]
    apply hm.inside_iff.mp h
  | setAssembly a => apply hm'.inside_of_empty rfl
  | setConfig config => exact ⟨h.state, h.edge⟩
  | refresh strategy =>
    cases strategy with
    | oneStep =>
      obtain ⟨events, hrun⟩ := hm.run_refresh_oneStep
      rw [Machine.change, hrun] at hm' ⊢
      apply hm'.inside_iff.mpr
      constructor
      · intro s hs
        apply stateRegion_passed_subset_space hm hs (h.not_exposed hm)
      · intro t ht
        apply edgeRegion_passed_subset_space hm ht fun _ _ => h.not_exposed hm
    | fixedPoint =>
      obtain ⟨events, hrun⟩ := run_refresh_fixedPoint hm.reachable
      rw [Machine.change, hrun] at hm' ⊢
      apply hm.inside_refreshed hm'

theorem Inside.changed (h : m.Inside) (hm : m.Tidy) {xs : List Change}
    (hxs : ∀ x ∈ xs, x.isRegistration = false) :
  (m.changed xs).Inside
  := by
  induction xs generalizing m with
  | nil => apply h
  | cons x xs ih =>
    obtain ⟨hx, hxs⟩ := List.forall_mem_cons.mp hxs
    apply ih (h.change hm hx) (hm.change x) hxs

/-! ### In every history -/

/-- In every history refreshing by the solver succeeds, and then all that is stored lies in the
space, where every configuration places exactly the registered machines. A pass succeeds as
well, and then this holds of all states but the exposed ones and of all transitions but those
that follow exit zones from there. It holds at the start, and once it does, it goes on to hold
until another component is registered. -/
theorem inside_of_changed {name : String} {config : SolverConfig} {uid : Nat} {m₀ : Machine}
    {xs : List Change} (hmake : Machine.make name a config (.pseudo uid) = .ok m₀)
    (hm : m₀.changed xs = m) :
  (∃ m' events, m.run (·.refresh .fixedPoint) = (.ok (), m', events) ∧ m'.Inside)
    ∧ (∃ m' events, m.run (·.refresh .oneStep) = (.ok (), m', events)
      ∧ (∀ s ∈ m'.diagram.states, ¬ m.Exposed s →
        (m'.cache.stateRegion s).le m'.assembly.space = .ok true)
      ∧ ∀ t ∈ m'.diagram.transitions,
        (t.isReactive = true → m.config.basis = .stateRegion → ¬ m.Exposed t.source) →
        (m'.cache.edgeRegion (.transition t)).le m'.assembly.space = .ok true)
    ∧ (∀ b ∈ m.assembly.space,
      (b.map Placement.machine).Perm (m.assembly.components.map Component.id))
    ∧ m₀.Inside
    ∧ (m.Inside → ∀ ys : List Change, (∀ y ∈ ys, y.isRegistration = false) →
      (m.changed ys).Inside)
  := by
  have htidy₀ : m₀.Tidy := by
    apply tidy_of_empty (.make hmake)
    obtain rfl := make_eq_ok hmake
    rfl
  have hinside₀ : m₀.Inside := by
    apply htidy₀.inside_of_empty
    obtain rfl := make_eq_ok hmake
    rfl
  obtain rfl := hm
  have htidy := htidy₀.changed xs
  refine ⟨?_, ?_, fun b hb => Assembly.machines_perm_of_mem_space hb, hinside₀,
    fun h ys hys => h.changed htidy hys⟩
  · obtain ⟨m', events, hrun, hm'⟩ := htidy.exists_run_refresh .fixedPoint
    obtain ⟨events', hrun'⟩ := run_refresh_fixedPoint htidy.reachable
    obtain ⟨-, hrefreshed⟩ := Prod.mk.inj (hrun.symm.trans hrun')
    obtain ⟨rfl, -⟩ := Prod.mk.inj hrefreshed
    exact ⟨_, events, hrun, htidy.inside_refreshed hm'⟩
  · obtain ⟨events, hrun⟩ := htidy.run_refresh_oneStep
    have hd := htidy.reachable.wellFormed
    refine ⟨_, events, hrun, ?_, ?_⟩
    · intro s hs hfree
      apply Region.le_eq_ok_true_iff.mpr
      use Model.owns_passed hd _ s hs
      apply stateRegion_passed_subset_space htidy hs hfree
    · intro t ht hfree
      apply Region.le_eq_ok_true_iff.mpr
      constructor
      · rw [Model.edgeRegion_passed hd _ ht]
        apply Transition.assembly_image
        apply Model.owns_passed hd _ _ (hd.source_mem_states ht)
      · apply edgeRegion_passed_subset_space htidy ht hfree

end Machine

namespace Detour

/-- The detour before it has any states. -/
def bare : Machine :=
  ⟨⟨"detour", Loop.assembly, .standard, .initial (.pseudo 0)⟩, .empty Loop.assembly.id⟩

theorem make_bare :
  Machine.make "detour" Loop.assembly .standard (.pseudo 0) = .ok bare
  := if_neg (by decide)

/-- The hall is added after the state that waits there for the light, and a pass is made. Then a
door is registered in the room. -/
def doored : List Machine.Change :=
  [.edit (.addState awake), .edit (.addState hall), .edit (.addState lit),
    .edit (.addEdge (.transition enter)), .edit (.addEdge (.transition turn)),
    .edit (.addEdge (.transition join)), .edit (.addEdge (.transition await)),
    .refresh .oneStep, .register Loop.door]

end Detour

namespace Machine

/-- After the next pass over the detour the region of the hall lies in the space that has the
door. -/
theorem inside_of_changed_detour :
  Machine.make "detour" Loop.assembly .standard (.pseudo 0) = .ok Detour.bare
    ∧ ∃ m' events,
      (Detour.bare.changed Detour.doored).run (·.refresh .oneStep) = (.ok (), m', events)
      ∧ Detour.hall ∈ m'.diagram.states
      ∧ (m'.cache.stateRegion Detour.hall).le m'.assembly.space = .ok true
  := by
  obtain ⟨-, ⟨m', events, hrun, hstate, -⟩, -⟩ :=
    inside_of_changed (m := Detour.bare.changed Detour.doored) Detour.make_bare rfl
  have hhall : Detour.hall ∈ m'.diagram.states := by
    rw [toModel_of_run hrun]
    decide +kernel
  refine ⟨Detour.make_bare, m', events, hrun, hhall, hstate _ hhall ?_⟩
  intro hexposed
  obtain ⟨t, ht, htarget, hreactive⟩ := hexposed.exists_reactive
  -- none of the transitions to the hall is reactive
  revert t
  decide +kernel

/-- After the next pass over the detour the region of the state that waits for the light has
configurations that leave the door without a place. -/
theorem not_inside_detour :
  Machine.make "detour" Loop.assembly .standard (.pseudo 0) = .ok Detour.bare
    ∧ ∃ m' events,
      (Detour.bare.changed Detour.doored).run (·.refresh .oneStep) = (.ok (), m', events)
      ∧ Detour.awake ∈ m'.diagram.states
      ∧ (m'.cache.stateRegion Detour.awake).le m'.assembly.space = .ok false
  := by
  have hrun : (Detour.bare.changed Detour.doored).run (·.refresh .oneStep) = (.ok (), _, _) :=
    Prod.ext (by decide +kernel) rfl
  refine ⟨Detour.make_bare, _, _, hrun, ?_, ?_⟩ <;> decide +kernel

end Machine

end AssemblySemantics
