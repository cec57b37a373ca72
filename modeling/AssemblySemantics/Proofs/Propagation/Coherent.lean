import AssemblySemantics.Proofs.Machine.Forget
import AssemblySemantics.Proofs.Propagation.Refused

/-!
# Coherent caches

Every pass that succeeds, by whichever strategy, and every storing of given values that
succeeds leave a cache in which all follows from the regions of the states: their exit zones
and the regions of the transitions. The exit zones go on to follow from the regions while
the diagram and the settings change and the regions of states are computed anew.
-/

namespace AssemblySemantics

namespace Model

/-- One cache is what a pass has made of another one: the pseudostate has the initial region,
every state has the exit zones of its region, every transition has what it contributes, and
everything else is as before. -/
structure Settled (m : Model) (c c' : Cache) : Prop where
  assembly : c'.assembly = c.assembly
  pseudo : c'.stateRegion m.diagram.pseudo = m.assembly.initial
  zones : ∀ s ∈ m.diagram.states, (c'.stateRegion s).exitZones m.assembly = .ok (c'.stateZones s)
  edge : ∀ t ∈ m.diagram.transitions, m.regionOver c' t = .ok (c'.edgeRegion (.transition t))
  record_kept : ∀ s, s ∉ m.diagram.states → c'.record s = c.record s
  edge_kept : ∀ e, (∀ t ∈ m.diagram.transitions, e ≠ .transition t) →
    c'.edgeRegion e = c.edgeRegion e

variable {m : Model} {c c' : Cache} {v : Table State Region}

/-! ### After a pass -/

/-- A pass stores nothing for what is not a transition of the diagram. -/
theorem edgeRegion_passed_of_forall_ne {e : Edge}
    (he : ∀ t ∈ m.diagram.transitions, e ≠ .transition t) :
  (m.passed c).edgeRegion e = c.edgeRegion e
  := by
  rw [passed]
  apply (read_foldl_eq (·.edgeRegion e) _).trans
  · apply read_foldl_eq (·.edgeRegion e)
    intro c' s _
    rfl
  · intro c' t ht
    apply (Cache.edgeRegion_setEdgeRegion _ _ _ _).trans
    rw [if_neg (he t ht).symm]

theorem assembly_passed (m : Model) (c : Cache) :
  (m.passed c).assembly = c.assembly
  := by
  rw [passed]
  apply (read_foldl_eq (·.assembly) _).trans
  · apply read_foldl_eq (·.assembly)
    intro c' s _
    rfl
  · intro c' t _
    rfl

theorem settled_passed (h : m.diagram.WellFormed) (c : Cache) :
  m.Settled c (m.passed c)
  := by
  constructor
  · apply m.assembly_passed c
  · apply (StateRecord.mk.inj (record_passed_pseudo h)).1
  · intro s hs
    rw [stateZones_passed h c hs]
    apply Region.exitZones_of_eq (assembly_stateRegion_passed h c hs)
  · intro t ht
    have hsource := h.source_mem_states ht
    rw [edgeRegion_passed h c ht, Transition.image, ← stateZones_passed h c hsource]
    apply Transition.contribution_of_eq (assembly_stateRegion_passed h c hsource)
  · intro s hs
    apply record_passed_of_notMem h c hs
  · intro e he
    apply edgeRegion_passed_of_forall_ne he

/-! ### After values were stored -/

theorem Taken.settled
    (hc : m.Taken v m.properStates m.properStates m.diagram.transitions c c')
    (h : m.diagram.WellFormed) :
  m.Settled c c'
  := by
  constructor
  · apply hc.assembly
  · apply hc.pseudo_region
  · intro s hs
    obtain rfl | hs := eq_pseudo_or_mem_properStates h hs
    · rw [hc.pseudo_region, hc.pseudo_zones]
    · rw [hc.region s hs, hc.zones s hs]
  · apply hc.edge
  · intro s hs
    have hpseudo : s ≠ m.diagram.pseudo := by
      rintro rfl
      apply hs h.pseudo_mem
    have hproper : s ∉ m.properStates := fun hmem => hs (mem_properStates.mp hmem).1
    rw [Cache.record, hc.region_kept s hpseudo hproper, hc.zones_kept s hpseudo hproper]
    rfl
  · apply hc.edge_kept

/-- What storing values has left when it has succeeded. -/
theorem settled_of_run_store (h : m.diagram.WellFormed) {events : List Event}
    {progress : Progress} (hrun : (m.store v).run ⟨c, events⟩ = (.ok (), progress)) :
  m.Settled c progress.cache
  := by
  obtain ⟨result, c', hends, hrun'⟩ := exists_storeEnds h v c
  obtain ⟨events', hrun'⟩ := hrun' events
  obtain ⟨rfl, rfl⟩ := Prod.mk.inj (hrun'.symm.trans hrun)
  cases hends with
  | all _ hc => apply hc.settled h

theorem settled_stored (h : m.diagram.WellFormed) (hv : m.Tagged v) (c : Cache) :
  m.Settled c (m.stored v c)
  := by
  obtain ⟨events', hrun⟩ := yields_store h hv c []
  apply settled_of_run_store h hrun

end Model

namespace Machine

/-- The ways to bring a cache up to date. -/
inductive Update where
  | refresh (strategy : Strategy)
  | store (values : Table State Region)

/-- The pass that brings a cache up to date. -/
def Update.pass : Update → Model → Pass Unit
  | .refresh strategy, m => m.refresh strategy
  | .store values, m => m.store values

/-- The exit zones that are stored for a state are those of its stored region. -/
def Zoned (m : Machine) (s : State) : Prop :=
  (m.cache.stateRegion s).exitZones m.assembly = .ok (m.cache.stateZones s)

instance (m : Machine) (s : State) : Decidable (m.Zoned s) :=
  inferInstanceAs (Decidable
    ((m.cache.stateRegion s).exitZones m.assembly = .ok (m.cache.stateZones s)))

/-- One machine has become another one by changes of its diagram and its settings, and by
computing regions of states, which were then stored. The solver is no step, since it neither
reads nor writes the cache. -/
inductive Upkeep (m : Machine) : Machine → Prop where
  | refl : Upkeep m m
  | edit {m' m'' : Machine} {x : Edit} (h : Upkeep m m') (hx : m'.edit x = .ok m'') :
      Upkeep m m''
  | setConfig {m' : Machine} (h : Upkeep m m') (config : SolverConfig) :
      Upkeep m (m'.setConfig config)
  | compute {m' m'' : Machine} {s : State} {r : Region} {events : List Event}
      (h : Upkeep m m') (hrun : m'.run (·.computeState s) = (.ok r, m'', events)) :
      Upkeep m { m'' with cache := m''.cache.setStateRegion s r }

variable {m m' m'' : Machine} {s s' : State} {r : Region} {u : Update} {events : List Event}

/-- A refused change leaves a machine as it is, so that any list of changes is upkeep. -/
theorem Upkeep.edited (h : m.Upkeep m') (xs : List Edit) :
  m.Upkeep (m'.edited xs)
  := by
  induction xs generalizing m' with
  | nil => apply h
  | cons x xs ih =>
    apply ih
    rcases hx : m'.edit x with _ | m''
    · apply h
    · apply h.edit hx

/-- A pass that succeeds settles the cache. -/
theorem settled_of_run (h : m.Reachable) (hrun : m.run u.pass = (.ok (), m', events)) :
  m.Settled m.cache m'.cache
  := by
  have hd := h.wellFormed
  obtain ⟨progress, hpass, rfl⟩ := exists_progress_of_run hrun
  cases u with
  | refresh strategy =>
    cases strategy with
    | oneStep =>
      rw [((Model.ensures_refresh_oneStep hd m.cache).of_run hpass).1]
      apply Model.settled_passed hd
    | fixedPoint =>
      obtain ⟨events', hrun'⟩ := Model.yields_refresh_fixedPoint hd m.cache []
      obtain ⟨-, rfl⟩ := Prod.mk.inj (hrun'.symm.trans hpass)
      apply Model.settled_stored hd (m.tagged_solution m.config)
  | store values => apply Model.settled_of_run_store hd hpass

/-! ### Between passes -/

/-- Whether the exit zones are those of the region depends on what is stored for the state. -/
theorem zoned_congr (hrecord : m'.cache.record s = m.cache.record s)
    (hassembly : m'.assembly = m.assembly) :
  m'.Zoned s ↔ m.Zoned s
  := by
  obtain ⟨hregion, hzones⟩ := StateRecord.mk.inj hrecord
  rw [Zoned, Zoned, hregion, hzones, hassembly]

theorem zoned_of_record_eq (hrecord : m.cache.record s = ⟨r, r.zones m.assembly⟩)
    (hr : r.assembly = m.assembly.id) :
  m.Zoned s
  := by
  obtain ⟨hregion, hzones⟩ := StateRecord.mk.inj hrecord
  rw [Zoned, hregion, hzones]
  apply Region.exitZones_of_eq hr

/-- What reads as empty has no exit zones. -/
theorem zoned_of_record_eq_bottom (hc : m.cache.assembly = m.assembly.id)
    (hrecord : m.cache.record s = ⟨m.cache.bottom, ∅⟩) :
  m.Zoned s
  := by
  apply zoned_of_record_eq (r := m.cache.bottom)
  · rw [hrecord, Cache.bottom, Region.zones_bottom]
  · apply hc

/-- A state without a record reads as empty. -/
theorem record_of_not_hasState {c : Cache} (hs : c.hasState s = false) :
  c.record s = ⟨c.bottom, ∅⟩
  := by
  have hget : c.states.get? s = none := Option.not_isSome_iff_eq_none.mp (Bool.eq_false_iff.mp hs)
  rw [Cache.record, Cache.stateRegion, Cache.stateZones, hget]
  rfl

/-- Computing the region of a state and storing it renews the state, or refreshes the
pseudostate. -/
theorem cache_of_compute (hrun : m.run (·.computeState s) = (.ok r, m', events))
    (hm'' : m'' = { m' with cache := m'.cache.setStateRegion s r }) :
  m''.toModel = m.toModel ∧ m''.cache.assembly = m.cache.assembly
    ∧ (s.isPseudo = false → m''.cache = m.renew m.cache s)
    ∧ (s.isPseudo = true → m''.cache =
      (m.stow m.cache m.diagram.pseudo m.assembly.initial).setStateRegion s m.assembly.initial)
  := by
  obtain rfl := hm''
  obtain ⟨progress, hpass, rfl⟩ := exists_progress_of_run hrun
  use rfl
  cases hs : s.isPseudo with
  | false =>
    obtain ⟨rfl, hcache, -⟩ :=
      (Model.ensures_computeState hs (False.elim : False → _)).of_run hpass
    have hrenew : progress.cache.setStateRegion s (m.joined m.cache s) = m.renew m.cache s := by
      rw [hcache]
      apply m.setStateRegion_joined
    refine ⟨?_, fun _ => hrenew, ?_⟩
    · apply congrArg Cache.assembly hcache
    · intro htrue
      cases htrue
  | true =>
    rw [Model.computeState, if_pos hs] at hpass
    obtain ⟨events', hrun'⟩ := m.yields_refreshPseudo m.cache []
    obtain ⟨hr, rfl⟩ := Prod.mk.inj (hrun'.symm.trans hpass)
    obtain rfl := Except.ok.inj hr
    refine ⟨rfl, ?_, fun _ => rfl⟩
    intro hfalse
    cases hfalse

/-- Computing the region of a state and storing it leaves the exit zones right where they
were. -/
theorem zoned_of_compute (hrun : m.run (·.computeState s) = (.ok r, m', events))
    (hm'' : m'' = { m' with cache := m'.cache.setStateRegion s r })
    (hs' : s' = m.diagram.pseudo ∨ s'.isPseudo = false) (hz : m.Zoned s') :
  m''.Zoned s'
  := by
  obtain ⟨hmodel, -, hproper, hpseudo⟩ := cache_of_compute hrun hm''
  have hassembly : m''.assembly = m.assembly := congrArg Model.assembly hmodel
  cases hp : s.isPseudo with
  | false =>
    have hrecord : m''.cache.record s' =
        if s = s' then ⟨m.joined m.cache s, (m.joined m.cache s).zones m.assembly⟩
        else m.cache.record s' := by
      rw [hproper hp, Model.renew, Model.record_stow]
    split at hrecord
    · rw [← hassembly] at hrecord
      apply zoned_of_record_eq hrecord
      rw [hassembly]
      rfl
    · apply (zoned_congr hrecord hassembly).mpr hz
  | true =>
    by_cases hpseudo' : s' = m.diagram.pseudo
    · apply zoned_of_record_eq (r := m''.assembly.initial)
      · rw [hpseudo hp, hassembly, hpseudo']
        simp [Cache.record]
      · rfl
    · have hs : s ≠ s' := by
        rintro rfl
        rw [hs'.resolve_left hpseudo'] at hp
        cases hp
      apply (zoned_congr _ hassembly).mpr hz
      rw [hpseudo hp]
      simp [Cache.record, hs, Ne.symm hpseudo']

/-- A change of the diagram leaves the exit zones right where they were. -/
theorem zoned_of_edit {x : Edit} (hc : m.cache.assembly = m.assembly.id)
    (hx : m.edit x = .ok m') (hz : m.Zoned s) :
  m'.Zoned s
  := by
  have hforgets := forgets_edit hx
  have hassembly := assembly_edit hx
  obtain ⟨hkept, -⟩ | hlost := hforgets.record s
  · apply (zoned_congr hkept hassembly).mpr hz
  · apply zoned_of_record_eq_bottom _ hlost
    rw [hforgets.assembly, hc, hassembly]

/-- Between passes the exit zones stay right where they are. -/
theorem Upkeep.zoned (h : m.Upkeep m') (hm : m.Reachable)
    (hc : m.cache.assembly = m.assembly.id) :
  m'.Reachable ∧ m'.cache.assembly = m'.assembly.id ∧ m'.assembly = m.assembly
    ∧ m'.diagram.pseudo = m.diagram.pseudo
    ∧ ∀ s, (s = m.diagram.pseudo ∨ s.isPseudo = false) → m.Zoned s → m'.Zoned s
  := by
  induction h with
  | refl => exact ⟨hm, hc, rfl, rfl, fun _ _ hz => hz⟩
  | edit _ hx ih =>
    obtain ⟨hm', hc', hassembly, hpseudo, hzoned⟩ := ih
    refine ⟨hm'.edit hx, ?_, (assembly_edit hx).trans hassembly,
      (pseudo_edit hx).trans hpseudo, ?_⟩
    · rw [(forgets_edit hx).assembly, hc', assembly_edit hx]
    · intro s hs hz
      apply zoned_of_edit hc' hx (hzoned s hs hz)
  | setConfig _ config ih =>
    obtain ⟨hm', hc', hassembly, hpseudo, hzoned⟩ := ih
    exact ⟨hm'.setConfig config, hc', hassembly, hpseudo, hzoned⟩
  | @compute m₁ m₂ s r _ _ hrun ih =>
    obtain ⟨hm', hc', hassembly, hpseudo, hzoned⟩ := ih
    obtain ⟨hmodel, hcache, -⟩ := cache_of_compute hrun rfl
    refine ⟨hm'.of_toModel_eq hmodel, ?_, ?_, ?_, ?_⟩
    · rw [hcache, hc', hmodel]
    · rw [hmodel, hassembly]
    · rw [hmodel, hpseudo]
    · intro s hs hz
      apply zoned_of_compute hrun rfl _ (hzoned s hs hz)
      rw [hpseudo]
      apply hs

/-- A pass that succeeds, by either strategy or for given values, leaves the initial region for
the pseudostate, for every state the exit zones of its region, and for every transition what it
contributes. Until the assembly changes or something is written into the cache, every state goes
on to have the exit zones of its region, unless it was added after the pass and the cache held
something else for it already. -/
theorem coherent_of_run (h : m.Reachable) (hc : m.cache.assembly = m.assembly.id)
    (hrun : m.run u.pass = (.ok (), m', events)) :
  m'.toModel = m.toModel
    ∧ m'.cache.stateRegion m.diagram.pseudo = m.assembly.initial
    ∧ (∀ s ∈ m.diagram.states,
      (m'.cache.stateRegion s).exitZones m.assembly = .ok (m'.cache.stateZones s))
    ∧ (∀ t ∈ m.diagram.transitions,
      t.contribution (m'.cache.stateRegion t.source) (m'.cache.stateZones t.source).toList
        m.assembly m.config.basis = .ok (m'.cache.edgeRegion (.transition t)))
    ∧ ∀ m'', m'.Upkeep m'' → m''.assembly = m.assembly ∧ ∀ s ∈ m''.diagram.states,
      (s ∈ m.diagram.states ∨ m.cache.hasState s = false
        ∨ (m.cache.stateRegion s).exitZones m.assembly = .ok (m.cache.stateZones s)) →
      (m''.cache.stateRegion s).exitZones m.assembly = .ok (m''.cache.stateZones s)
  := by
  have hsettled := settled_of_run h hrun
  have hmodel := toModel_of_run hrun
  have hassembly : m'.assembly = m.assembly := by rw [hmodel]
  refine ⟨hmodel, hsettled.pseudo, hsettled.zones, hsettled.edge, ?_⟩
  intro m'' hupkeep
  have hm' := h.of_toModel_eq hmodel
  obtain ⟨hm'', -, hassembly', hpseudo, hzoned⟩ :=
    hupkeep.zoned hm' (by rw [hsettled.assembly, hc, hassembly])
  use hassembly'.trans hassembly
  intro s hs hbefore
  have hafter : m'.Zoned s := by
    by_cases hmem : s ∈ m.diagram.states
    · rw [Zoned, hassembly]
      apply hsettled.zones s hmem
    · apply (zoned_congr (hsettled.record_kept s hmem) hassembly).mpr
      obtain hstate | habsent | hzones := hbefore
      · apply (hmem hstate).elim
      · apply zoned_of_record_eq_bottom hc (record_of_not_hasState habsent)
      · apply hzones
  have hkind : s = m'.diagram.pseudo ∨ s.isPseudo = false := by
    rw [← hpseudo]
    cases hp : s.isPseudo with
    | true =>
      left
      apply hm''.wellFormed.eq_pseudo s hs hp
    | false =>
      right
      rfl
  have hlast := hzoned s hkind hafter
  rw [Zoned, hassembly', hassembly] at hlast
  apply hlast

end Machine

namespace Loop

/-- A state that is not in the loop. -/
def third : State := ⟨9, "third", false⟩

/-- The loop that switches the light, with something in the cache for the state that is not in
it. -/
def haunted : Machine :=
  { machine switch with
    cache := (Cache.empty "room").setStateRegion third
      (.ofConfigurations "room" [[⟨"light", "off"⟩]]) }

end Loop

namespace Machine

/-- In the loop that switches the light, one more state is added after a pass. -/
theorem coherent_of_run_switch :
  (Loop.machine Loop.switch).Reachable
    ∧ (Loop.machine Loop.switch).cache.assembly = (Loop.machine Loop.switch).assembly.id
    ∧ ∃ m' events, (Loop.machine Loop.switch).run (Update.refresh .oneStep).pass =
        (.ok (), m', events)
      ∧ Loop.third ∈ (m'.edited [.addState Loop.third]).diagram.states
      ∧ ∀ s ∈ (m'.edited [.addState Loop.third]).diagram.states,
        (m'.edited [.addState Loop.third]).Zoned s
  := by
  have hreachable := Loop.reachable_machine Loop.switch
  have hrun : (Loop.machine Loop.switch).run (Update.refresh .oneStep).pass = (.ok (), _, _) :=
    Prod.ext (by decide +kernel) rfl
  refine ⟨hreachable, rfl, _, _, hrun, by decide +kernel, ?_⟩
  obtain ⟨-, -, -, -, hupkeep⟩ := coherent_of_run hreachable rfl hrun
  obtain ⟨hassembly, hzoned⟩ := hupkeep _ (Upkeep.refl.edited [.addState Loop.third])
  intro s hs
  rw [Zoned, hassembly]
  apply hzoned s hs
  right
  left
  rfl

/-- In the loop with something in the cache for a state that is not in it, a pass does not
touch this. After the state was added, its exit zones are not those of its region. -/
theorem not_zoned_haunted :
  Loop.haunted.Reachable
    ∧ Loop.haunted.cache.assembly = Loop.haunted.assembly.id
    ∧ ∃ m' events, Loop.haunted.run (Update.refresh .oneStep).pass = (.ok (), m', events)
      ∧ m'.Upkeep (m'.edited [.addState Loop.third])
      ∧ Loop.third ∈ (m'.edited [.addState Loop.third]).diagram.states
      ∧ ¬ (m'.edited [.addState Loop.third]).Zoned Loop.third
  := by
  have hrun : Loop.haunted.run (Update.refresh .oneStep).pass = (.ok (), _, _) :=
    Prod.ext (by decide +kernel) rfl
  refine ⟨(Loop.reachable_machine Loop.switch).cached _, rfl, _, _, hrun,
    Upkeep.refl.edited _, ?_, ?_⟩ <;> decide +kernel

end Machine

end AssemblySemantics
