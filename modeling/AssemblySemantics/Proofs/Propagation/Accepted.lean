import AssemblySemantics.Proofs.Propagation.Inside

/-!
# Histories in which nothing is refused

Regions of two assemblies cannot be combined, and whatever would combine them is refused. In a
history of a machine this never happens: as long as nothing is written into its cache from
outside, all that the cache holds belongs to the present assembly, whatever the guards and
actions of its transitions name and however its assembly grows or is replaced. Refreshing,
solving, and computing the region of any state or transition then succeed, with regions of the
present assembly.
-/

namespace AssemblySemantics

/-- What is read of an edge is a matter of the stored edges and of the cache's assembly. -/
theorem Cache.edgeRegion_congr {c c' : Cache} (hassembly : c.assembly = c'.assembly)
    (hedges : c.edges = c'.edges) (e : Edge) :
  c.edgeRegion e = c'.edgeRegion e
  := by
  rw [edgeRegion, edgeRegion, hedges, bottom, bottom, hassembly]

namespace Machine

/-- A change of a machine, or a computation of the region of a state, of which the exit zones
are stored. -/
inductive Request where
  | change (x : Change)
  | compute (s : State)

/-- The machine after a request. -/
def serve (m : Machine) : Request → Machine
  | .change x => m.change x
  | .compute s => (m.run (·.computeState s)).2.1

/-- The machine after several requests. -/
def served (m : Machine) (xs : List Request) : Machine := xs.foldl serve m

/-- All regions that are read from the cache, one by one or as a snapshot, belong to the present
assembly. -/
structure Current (m : Machine) : Prop where
  state : ∀ s, (m.cache.stateRegion s).assembly = m.assembly.id
  edge : ∀ e, (m.cache.edgeRegion e).assembly = m.assembly.id
  snapshot : ∀ s r, m.cache.snapshot.get? s = some r → r.assembly = m.assembly.id
  snapshotOf : ∀ states s r, (m.cache.snapshotOf states).get? s = some r →
    r.assembly = m.assembly.id

variable {m : Machine} {s : State} {c : Cache}

/-! ### Computing the region of a state -/

/-- The records of states may be replaced by regions of the assembly with possible zones. -/
theorem Tidy.recorded (hm : m.Tidy) (hassembly : c.assembly = m.cache.assembly)
    (hedges : c.edges = m.cache.edges)
    (hrecord : ∀ s, c.record s = m.cache.record s
      ∨ s ∈ m.diagram.states ∧ (c.stateRegion s).assembly = m.assembly.id
        ∧ ∀ z ∈ c.stateZones s, z ∈ m.assembly.possibleZones) :
  Tidy { m with cache := c }
  := by
  have hedge := Cache.edgeRegion_congr hassembly hedges
  have hbottom : c.bottom = m.cache.bottom := congrArg Region.bottom hassembly
  constructor
  · apply hm.reachable.cached c
  · apply hassembly.trans hm.assembly
  · intro s
    obtain hkept | ⟨-, htag, -⟩ := hrecord s
    · change (c.stateRegion s).assembly = m.assembly.id
      rw [(StateRecord.mk.inj hkept).1, hm.state]
    · apply htag
  · intro e
    change (c.edgeRegion e).assembly = m.assembly.id
    rw [hedge, hm.edge]
  · intro s z hz
    obtain hkept | ⟨-, -, hzones⟩ := hrecord s
    · change z ∈ c.stateZones s at hz
      rw [(StateRecord.mk.inj hkept).2] at hz
      apply hm.zones s z hz
    · apply hzones z hz
  · intro s hs
    obtain hkept | ⟨hmem, -⟩ := hrecord s
    · change c.record s = ⟨c.bottom, ∅⟩
      rw [hkept, hbottom, hm.absent_state s hs]
    · apply (hs hmem).elim
  · intro e he
    change c.edgeRegion e = c.bottom
    rw [hedge, hbottom, hm.absent_edge e he]

/-- The pseudostate may be refreshed. -/
theorem Tidy.refreshedPseudo (hm : m.Tidy) :
  Tidy { m with cache := m.stow m.cache m.diagram.pseudo m.assembly.initial }
  := by
  apply hm.recorded (by rfl) (by rfl)
  intro s
  by_cases hs : m.diagram.pseudo = s
  · obtain rfl := hs
    right
    use hm.reachable.wellFormed.pseudo_mem
    rw [Model.stateRegion_stow, if_pos rfl, Model.stateZones_stow, if_pos rfl]
    use m.assembly.assembly_initial
    intro z hz
    apply (Region.mem_zones.mp hz).1
  · left
    rw [Model.record_stow, if_neg hs]

/-- The exit zones of what is joined for a state may be stored, whether or not the machine has
the state. -/
theorem Tidy.joinedZones (hm : m.Tidy) (s : State) :
  Tidy { m with cache := m.cache.setStateZones s ((m.joined m.cache s).zones m.assembly) }
  := by
  apply hm.recorded (by rfl) (by rfl)
  intro s'
  rw [Cache.record, Cache.stateRegion_setStateZones, Cache.stateZones_setStateZones]
  by_cases hs : s = s'
  · obtain rfl := hs
    rw [if_pos rfl]
    by_cases hmem : s ∈ m.diagram.states
    · right
      use hmem, hm.state s
      intro z hz
      apply (Region.mem_zones.mp hz).1
    · -- nothing leads to the state, so that it has no exit zones, as before
      left
      have hjoined : m.joined m.cache s = m.bottom := by
        rw [Model.joined, Diagram.incoming_of_notMem hmem]
        rfl
      have habsent := hm.absent_state s hmem
      rw [hjoined, Model.bottom, Region.zones_bottom, habsent, (StateRecord.mk.inj habsent).1]
  · left
    rw [if_neg hs, Cache.record]

/-- In every history the region of a state is computed, and is a region of the assembly. -/
theorem Tidy.exists_run_computeState (hm : m.Tidy) (s : State) :
  ∃ r m' events, m.run (·.computeState s) = (.ok r, m', events)
    ∧ r.assembly = m.assembly.id ∧ m'.Tidy
  := by
  cases hp : s.isPseudo with
  | true =>
    have hyields : (m.computeState s).Yields m.cache m.assembly.initial
        (m.stow m.cache m.diagram.pseudo m.assembly.initial) := by
      rw [Model.computeState, if_pos hp]
      apply m.yields_refreshPseudo
    obtain ⟨events, hrun⟩ := run_of_yields (p := (·.computeState s)) hyields
    exact ⟨_, _, events, hrun, m.assembly.assembly_initial, hm.refreshedPseudo⟩
  | false =>
    have hyields : (m.computeState s).Yields m.cache (m.joined m.cache s)
        (m.cache.setStateZones s ((m.joined m.cache s).zones m.assembly)) := by
      have hreads : True → ∀ t, .transition t ∈ m.diagram.incoming s → m.Evaluates m.cache t :=
        fun _ t _ _ => hm.state t.source
      apply (Model.ensures_computeState hp hreads).yields trivial
      rintro r c' ⟨hr, hc', -⟩
      exact ⟨hr, hc'⟩
    obtain ⟨events, hrun⟩ := run_of_yields (p := (·.computeState s)) hyields
    exact ⟨_, _, events, hrun, rfl, hm.joinedZones s⟩

theorem Tidy.serve (hm : m.Tidy) (x : Request) :
  (m.serve x).Tidy
  := by
  cases x with
  | change x => apply hm.change x
  | compute s =>
    obtain ⟨r, m', events, hrun, -, hm'⟩ := hm.exists_run_computeState s
    rw [Machine.serve, hrun]
    apply hm'

theorem Tidy.served (hm : m.Tidy) (xs : List Request) :
  (m.served xs).Tidy
  := by
  induction xs generalizing m with
  | nil => apply hm
  | cons x xs ih => apply ih (hm.serve x)

/-! ### What succeeds -/

theorem Tidy.current (hm : m.Tidy) :
  m.Current
  := by
  constructor
  · apply hm.state
  · apply hm.edge
  · intro s r hr
    rw [Cache.get?_snapshot] at hr
    split at hr
    · rw [← Option.some.inj hr, hm.state]
    · cases hr
  · intro states s r hr
    rw [Cache.get?_snapshotOf] at hr
    split at hr
    · rw [← Option.some.inj hr, hm.state]
    · cases hr

/-- In every history the region of a transition is evaluated, and is a region of the
assembly. -/
theorem Tidy.exists_run_evaluate (hm : m.Tidy) (t : Transition) :
  ∃ r events, m.run (·.evaluate t) = (.ok r, m, events) ∧ r.assembly = m.assembly.id
  := by
  obtain ⟨events, hrun⟩ :=
    run_of_yields (p := (·.evaluate t)) (Model.yields_evaluate (hm.state t.source))
  refine ⟨_, events, hrun, ?_⟩
  apply Transition.assembly_reach (hm.state t.source)

/-- In every history all that is read from the cache belongs to the present assembly, and nothing
that is computed is refused: refreshing by either strategy succeeds and so does solving under
any settings, which gives every state a region of the assembly; the region of any state can be
computed, and that of any transition, and these belong to the assembly as well. -/
theorem accepted_of_served {name : String} {a : Assembly} {config : SolverConfig} {uid : Nat}
    {m₀ : Machine} {xs : List Request}
    (hmake : Machine.make name a config (.pseudo uid) = .ok m₀) (hm : m₀.served xs = m) :
  m.Current
    ∧ (∀ strategy, ∃ m' events, m.run (·.refresh strategy) = (.ok (), m', events) ∧ m'.Current)
    ∧ (∀ config', ∃ sol, m.solve config' = .ok sol
      ∧ (∀ s ∈ m.diagram.states, ∃ r, sol.values.get? s = some r)
      ∧ ∀ s r, sol.values.get? s = some r → r.assembly = m.assembly.id)
    ∧ (∀ s, ∃ r m' events, m.run (·.computeState s) = (.ok r, m', events)
      ∧ r.assembly = m.assembly.id ∧ m'.Current)
    ∧ ∀ t, ∃ r events, m.run (·.evaluate t) = (.ok r, m, events) ∧ r.assembly = m.assembly.id
  := by
  have htidy₀ : m₀.Tidy := by
    apply tidy_of_empty (.make hmake)
    obtain rfl := make_eq_ok hmake
    rfl
  obtain rfl := hm
  have htidy := htidy₀.served xs
  refine ⟨htidy.current, ?_, ?_, ?_, htidy.exists_run_evaluate⟩
  · intro strategy
    obtain ⟨m', events, hrun, hm'⟩ := htidy.exists_run_refresh strategy
    exact ⟨m', events, hrun, hm'.current⟩
  · intro config'
    refine ⟨_, Model.solve_eq _ config', ?_, Model.tagged_solution _ config'⟩
    intro s hs
    exact ⟨_, Model.get?_solution hs⟩
  · intro s
    obtain ⟨r, m', events, hrun, hr, hm'⟩ := htidy.exists_run_computeState s
    exact ⟨r, m', events, hrun, hr, hm'.current⟩

end Machine

namespace Detour

/-- Another assembly over the same light. -/
def street : Assembly := { Loop.assembly with uid := 1, id := "street", id_ne_empty := by decide }

/-- A reactive transition whose guard is no placement and names a machine and a state that there
are not, with an action for the same machine. -/
def stray : Transition :=
  ⟨8, "stray", hall, awake,
    .or (.not (.basic ⟨"radio", "on"⟩)) (.basic ⟨"light", "broken"⟩), false,
    [⟨"radio", "switch"⟩]⟩

/-- After the door was registered, a stray transition and a link are added, two changes are
refused, regions of states are computed, and the machine is refreshed by the solver. Then it is
put over another assembly, and a pass is made. -/
def moved : List Machine.Request :=
  doored.map .change ++
    [.change (.edit (.addEdge (.transition stray))),
      .change (.edit (.addEdge (.link ⟨9, .state hall, .state awake⟩))),
      .change (.edit (.addState hall)), .change (.edit (.removeState (.pseudo 0))),
      .compute awake, .compute (.pseudo 5), .change (.refresh .fixedPoint),
      .change (.setAssembly street), .compute hall, .change (.refresh .oneStep)]

end Detour

namespace Machine

/-- After the history of moves the hall has a configuration over the other assembly, and all
that is computed then belongs to this one. -/
theorem accepted_of_served_moved :
  Machine.make "detour" Loop.assembly .standard (.pseudo 0) = .ok Detour.bare
    ∧ (Detour.bare.served Detour.moved).assembly.id = "street"
    ∧ ((Detour.bare.served Detour.moved).cache.stateRegion Detour.hall).toList =
      [[⟨"light", "off"⟩]]
    ∧ (Detour.bare.served Detour.moved).Current
    ∧ (∃ m' events,
      (Detour.bare.served Detour.moved).run (·.refresh .fixedPoint) = (.ok (), m', events)
        ∧ m'.Current)
    ∧ (∃ r m' events,
      (Detour.bare.served Detour.moved).run (·.computeState Detour.awake) = (.ok r, m', events)
        ∧ r.assembly = (Detour.bare.served Detour.moved).assembly.id)
    ∧ ∃ r events,
      (Detour.bare.served Detour.moved).run (·.evaluate Detour.stray) =
        (.ok r, Detour.bare.served Detour.moved, events)
      ∧ r.assembly = (Detour.bare.served Detour.moved).assembly.id
  := by
  obtain ⟨hcurrent, hrefresh, -, hcompute, hevaluate⟩ :=
    accepted_of_served (m := Detour.bare.served Detour.moved) Detour.make_bare rfl
  obtain ⟨r, m', events, hrun, hr, -⟩ := hcompute Detour.awake
  exact ⟨Detour.make_bare, by decide +kernel, by decide +kernel, hcurrent, hrefresh .fixedPoint,
    ⟨r, m', events, hrun, hr⟩, hevaluate Detour.stray⟩

end Machine

end AssemblySemantics
