import AssemblySemantics.Proofs.Machine.History
import AssemblySemantics.Proofs.Propagation.Outcome

/-!
# Storing values of other assemblies

Values are stored state by state, each with its exit zones, and the transitions are evaluated
afterwards. A value of another assembly is refused no sooner than it is read: for its exit
zones, if any zone is possible, or else when a transition that is not reactive leaves its
state. What was stored until then stays, the value included.
-/

namespace AssemblySemantics

namespace Pass

variable {α β γ : Type} {p : Pass α} {f : α → Pass β} {g : γ → Pass Unit} {x : α} {y : γ}
  {e : RegionError} {c c' c'' : Cache} {before after listed : List γ}

/-- A pass over a cache is refused and leaves a cache, whatever was reported before. -/
def Refuses (p : Pass α) (c : Cache) (e : RegionError) (c' : Cache) : Prop :=
  ∀ events, ∃ events', p.run ⟨c, events⟩ = (.error e, ⟨c', events'⟩)

theorem Refuses.bind (hp : p.Refuses c e c') :
  (p >>= f).Refuses c e c'
  := by
  intro events
  obtain ⟨events', hrun⟩ := hp events
  exact ⟨events', run_bind_of_error hrun⟩

/-- What was done before a refusal is not undone. -/
theorem Yields.refuses_bind (hp : p.Yields c x c') (hf : (f x).Refuses c' e c'') :
  (p >>= f).Refuses c e c''
  := by
  intro events
  obtain ⟨events', hrun⟩ := hp events
  rw [run_bind_of_ok hrun]
  apply hf events'

theorem Refuses.ofExcept {r : Except RegionError α} (h : r = .error e) (c : Cache) :
  (MonadExcept.ofExcept r : Pass α).Refuses c e c
  := by
  intro events
  use events
  rw [h]
  rfl

/-- A loop is refused when one of its steps is, after those before it. -/
theorem Refuses.forM (hlisted : listed = before ++ y :: after)
    (hbefore : (before.forM g).Yields c () c') (hy : (g y).Refuses c' e c'') :
  (listed.forM g).Refuses c e c''
  := by
  change Refuses (ForM.forM listed g) c e c''
  rw [hlisted, List.forM_append, List.forM_cons]
  apply hbefore.refuses_bind hy.bind

end Pass

namespace Model

/-- The value of a state other than the pseudostate belongs to another assembly. -/
def Foreign (m : Model) (v : Table State Region) (s : State) : Prop :=
  s ∈ m.properStates ∧ (m.value v s).assembly ≠ m.assembly.id

instance (m : Model) (v : Table State Region) (s : State) : Decidable (m.Foreign v s) :=
  inferInstanceAs (Decidable (s ∈ m.properStates ∧ (m.value v s).assembly ≠ m.assembly.id))

/-- How far values have been stored: the pseudostate has the initial region, some states have
their values and some of these the exit zones, some transitions have what is contributed by
their sources as they are, and everything else is as before. -/
structure Taken (m : Model) (v : Table State Region) (regions zoned : List State)
    (transitions : List Transition) (c c' : Cache) : Prop where
  assembly : c'.assembly = c.assembly
  pseudo_region : c'.stateRegion m.diagram.pseudo = m.assembly.initial
  pseudo_zones : m.assembly.initial.exitZones m.assembly = .ok (c'.stateZones m.diagram.pseudo)
  region : ∀ s ∈ regions, c'.stateRegion s = m.value v s
  zones : ∀ s ∈ zoned, (m.value v s).exitZones m.assembly = .ok (c'.stateZones s)
  edge : ∀ t ∈ transitions, m.regionOver c' t = .ok (c'.edgeRegion (.transition t))
  region_kept : ∀ s, s ≠ m.diagram.pseudo → s ∉ regions → c'.stateRegion s = c.stateRegion s
  zones_kept : ∀ s, s ≠ m.diagram.pseudo → s ∉ zoned → c'.stateZones s = c.stateZones s
  edge_kept : ∀ e, (∀ t ∈ transitions, e ≠ .transition t) → c'.edgeRegion e = c.edgeRegion e

/-- No value of another assembly is read when values are stored: neither for its exit zones nor
by a transition that is not reactive. -/
def Unread (m : Model) (v : Table State Region) : Prop :=
  ∀ s, m.Foreign v s → m.assembly.possibleZones = []
    ∧ ∀ t ∈ m.diagram.transitions, t.source = s → t.isReactive = true

/-- How storing values ends, and with which cache. -/
inductive StoreEnds (m : Model) (v : Table State Region) (c : Cache) :
    Except RegionError Unit → Cache → Prop where
  /-- Everything is stored. -/
  | all {c' : Cache} (hv : m.Unread v)
      (hc : m.Taken v m.properStates m.properStates m.diagram.transitions c c') :
      StoreEnds m v c (.ok ()) c'
  /-- Where a zone is possible, the first value of another assembly is refused for its exit
  zones. It is stored itself. -/
  | state {c' : Cache} {before after : List State} {s : State}
      (hsplit : m.properStates = before ++ s :: after) (hbefore : ∀ r ∈ before, ¬ m.Foreign v r)
      (hs : m.Foreign v s) (hz : m.assembly.possibleZones ≠ [])
      (hc : m.Taken v (before ++ [s]) before [] c c') :
      StoreEnds m v c (.error (.mixed m.assembly.id (m.value v s).assembly)) c'
  /-- Where no zone is possible, the first transition is refused that is not reactive and leaves
  a value of another assembly. All values are stored. -/
  | transition {c' : Cache} {before after : List Transition} {t : Transition}
      (hsplit : m.diagram.transitions = before ++ t :: after)
      (hbefore : ∀ t' ∈ before, m.Foreign v t'.source → t'.isReactive = true)
      (ht : t.isReactive = false) (hv : m.Foreign v t.source)
      (hz : m.assembly.possibleZones = [])
      (hc : m.Taken v m.properStates m.properStates before c c') :
      StoreEnds m v c (.error (.mixed (m.value v t.source).assembly m.assembly.id)) c'

variable {m : Model} {v : Table State Region} {c c' c'' : Cache} {r : Region} {s : State}
  {t : Transition} {regions zoned before after : List State} {transitions : List Transition}
  {e : RegionError}

/-! ### Storing for the states -/

/-- After the values of the first states were stored. -/
theorem taken_foldl_stow (h : m.diagram.WellFormed) (hbefore : ∀ s ∈ before, s ∈ m.properStates)
    (hzones : ∀ s ∈ before,
      (m.value v s).exitZones m.assembly = .ok ((m.value v s).zones m.assembly)) (c : Cache) :
  m.Taken v before before [] c
    (before.foldl (fun c s => m.stow c s (m.value v s))
      (m.stow c m.diagram.pseudo m.assembly.initial))
  := by
  have hpseudo : m.diagram.pseudo ∉ before :=
    fun hmem => pseudo_not_mem_properStates h (hbefore _ hmem)
  constructor
  · apply read_foldl_eq (·.assembly)
    intro c s _
    rfl
  · rw [stateRegion_foldl_stow, if_neg hpseudo, stateRegion_stow, if_pos rfl]
  · rw [stateZones_foldl_stow, if_neg hpseudo, stateZones_stow, if_pos rfl]
    apply Region.exitZones_of_eq rfl
  · intro s hs
    rw [stateRegion_foldl_stow, if_pos hs]
  · intro s hs
    rw [stateZones_foldl_stow, if_pos hs]
    apply hzones s hs
  · intro t ht
    cases ht
  · intro s hne hs
    rw [stateRegion_foldl_stow, if_neg hs, stateRegion_stow, if_neg hne.symm]
  · intro s hne hs
    rw [stateZones_foldl_stow, if_neg hs, stateZones_stow, if_neg hne.symm]
  · intro x _
    apply read_foldl_eq (·.edgeRegion x)
    intro c s _
    rfl

/-- Storing the region of one more state, without its exit zones. -/
theorem Taken.setStateRegion (hc : m.Taken v regions zoned [] c c') (hs : s ≠ m.diagram.pseudo) :
  m.Taken v (regions ++ [s]) zoned [] c (c'.setStateRegion s (m.value v s))
  := by
  constructor
  · apply hc.assembly
  · rw [Cache.stateRegion_setStateRegion, if_neg hs, hc.pseudo_region]
  · rw [Cache.stateZones_setStateRegion]
    apply hc.pseudo_zones
  · intro r hr
    rw [Cache.stateRegion_setStateRegion]
    split
    · rename_i heq
      rw [heq]
    · rename_i hne
      apply hc.region
      apply (List.mem_append.mp hr).resolve_right
      intro hmem
      apply hne (List.mem_singleton.mp hmem).symm
  · intro r hr
    rw [Cache.stateZones_setStateRegion]
    apply hc.zones r hr
  · intro t ht
    cases ht
  · intro r hne hr
    obtain ⟨hregions, hr⟩ := not_or.mp (mt List.mem_append.mpr hr)
    rw [Cache.stateRegion_setStateRegion, if_neg]
    · apply hc.region_kept r hne hregions
    · rintro rfl
      apply hr List.mem_cons_self
  · intro r hne hr
    rw [Cache.stateZones_setStateRegion]
    apply hc.zones_kept r hne hr
  · intro x hx
    rw [Cache.edgeRegion_setStateRegion]
    apply hc.edge_kept x hx

/-- A value is stored even if it is refused for its exit zones. -/
theorem refuses_storeState (hr : r.exitZones m.assembly = .error e) (s : State) (c : Cache) :
  (m.storeState s r).Refuses c e (c.setStateRegion s r)
  := by
  rw [storeState]
  apply (Pass.Yields.update _ c).refuses_bind
  apply (Pass.Refuses.ofExcept hr _).bind

/-! ### Storing for the transitions -/

/-- Evaluating transitions leaves the states alone, and stores what the transitions
contribute. -/
theorem exists_yields_forM_evaluate (h : ∀ t ∈ transitions, m.Evaluates c t) :
  ∃ c', Pass.Yields (transitions.forM fun t => do
      let r ← m.evaluate t
      Pass.update (·.setEdgeRegion (.transition t) r)) c () c'
    ∧ c'.assembly = c.assembly ∧ (∀ s, c'.record s = c.record s)
    ∧ (∀ t ∈ transitions, m.regionOver c t = .ok (c'.edgeRegion (.transition t)))
    ∧ ∀ x, (∀ t ∈ transitions, x ≠ .transition t) → c'.edgeRegion x = c.edgeRegion x
  := by
  induction transitions generalizing c with
  | nil =>
    refine ⟨c, Pass.Yields.pure () c, rfl, fun _ => rfl, ?_, fun _ _ => rfl⟩
    intro t ht
    cases ht
  | cons t transitions ih =>
    obtain ⟨r, hr⟩ := evaluates_iff.mp (h t List.mem_cons_self)
    obtain ⟨c', hrun, hassembly, hrecord, hedge, hkept⟩ := ih (c := c.setEdgeRegion (.transition t) r)
      fun t' ht' => h t' (List.mem_cons_of_mem t ht')
    have hstep : Pass.Yields (do
        let r ← m.evaluate t
        Pass.update (·.setEdgeRegion (.transition t) r)) c () (c.setEdgeRegion (.transition t) r) := by
      rw [evaluate]
      apply Pass.Yields.bind
      · apply Pass.Yields.bind (Pass.Yields.report _ c)
        apply Pass.Yields.bind (Pass.Yields.cache c)
        apply Pass.Yields.ofExcept hr
      · apply Pass.Yields.update
    refine ⟨c', hstep.bind hrun, hassembly, hrecord, ?_, ?_⟩
    · intro t' ht'
      obtain rfl | hmem := List.mem_cons.mp ht'
      · by_cases hmem : t' ∈ transitions
        · apply hedge t' hmem
        · rw [hkept, Cache.edgeRegion_setEdgeRegion, if_pos rfl]
          · apply hr
          · intro t'' ht'' heq
            rw [Edge.transition.inj heq] at hmem
            apply hmem ht''
      · apply hedge t' hmem
    · intro x hx
      rw [hkept, Cache.edgeRegion_setEdgeRegion, if_neg]
      · apply (hx t List.mem_cons_self).symm
      · intro t' ht'
        apply hx t' (List.mem_cons_of_mem t ht')

/-- After transitions were evaluated over what was stored for the states. -/
theorem Taken.evaluated (hc : m.Taken v regions zoned [] c c')
    (hassembly : c''.assembly = c'.assembly) (hrecord : ∀ s, c''.record s = c'.record s)
    (hedge : ∀ t ∈ transitions, m.regionOver c' t = .ok (c''.edgeRegion (.transition t)))
    (hkept : ∀ x, (∀ t ∈ transitions, x ≠ .transition t) → c''.edgeRegion x = c'.edgeRegion x) :
  m.Taken v regions zoned transitions c c''
  := by
  have hregion : ∀ s, c''.stateRegion s = c'.stateRegion s :=
    fun s => (StateRecord.mk.inj (hrecord s)).1
  have hzones : ∀ s, c''.stateZones s = c'.stateZones s :=
    fun s => (StateRecord.mk.inj (hrecord s)).2
  constructor
  · rw [hassembly, hc.assembly]
  · rw [hregion, hc.pseudo_region]
  · rw [hzones, hc.pseudo_zones]
  · intro s hs
    rw [hregion, hc.region s hs]
  · intro s hs
    rw [hzones, hc.zones s hs]
  · intro t ht
    rw [regionOver_congr (hrecord t.source), hedge t ht]
  · intro s hne hs
    rw [hregion, hc.region_kept s hne hs]
  · intro s hne hs
    rw [hzones, hc.zones_kept s hne hs]
  · intro x hx
    rw [hkept x hx]
    apply hc.edge_kept
    intro t ht
    cases ht

/-- A value has its exit zones unless it belongs to another assembly and a zone is possible. -/
theorem exitZones_value (hs : s ∈ m.properStates)
    (hv : m.Foreign v s → m.assembly.possibleZones = []) :
  (m.value v s).exitZones m.assembly = .ok ((m.value v s).zones m.assembly)
  := by
  by_cases htag : (m.value v s).assembly = m.assembly.id
  · apply Region.exitZones_of_eq htag
  · apply Region.exitZones_of_nil (hv ⟨hs, htag⟩)

/-- Over stored values a transition is evaluated, unless it is not reactive and leaves a value
of another assembly. -/
theorem Taken.evaluates (hc : m.Taken v m.properStates m.properStates transitions c c')
    (h : m.diagram.WellFormed) (ht : t ∈ m.diagram.transitions)
    (hv : m.Foreign v t.source → m.assembly.possibleZones = [] ∧ t.isReactive = true) :
  m.Evaluates c' t
  := by
  intro hreads
  obtain hsource | hsource := eq_pseudo_or_mem_properStates h (h.source_mem_states ht)
  · rw [hsource, hc.pseudo_region, Assembly.assembly_initial]
  · rw [hc.region _ hsource]
    by_contra htag
    obtain ⟨hz, hreactive⟩ := hv ⟨hsource, htag⟩
    have hzones : c'.stateZones t.source = ∅ := by
      have hstored := hc.zones _ hsource
      rw [Region.exitZones, hz] at hstored
      symm
      apply Except.ok.inj hstored
    obtain hguarded | ⟨-, p, -, z, hmem, -⟩ := hreads
    · rw [hreactive] at hguarded
      cases hguarded
    · rw [hzones] at hmem
      apply Std.ExtTreeSet.not_mem_empty (Std.ExtTreeSet.mem_toList.mp hmem)

/-! ### How storing ends -/

/-- A list has no element with a property, or a first one. -/
theorem forall_not_or_exists_first {α : Type} (P : α → Prop) (listed : List α) :
  (∀ x ∈ listed, ¬ P x) ∨ ∃ before x after, listed = before ++ x :: after ∧ P x
    ∧ ∀ y ∈ before, ¬ P y
  := by
  classical
  rcases hfind : listed.find? (fun x => decide (P x)) with _ | x
  · left
    intro x hx
    apply of_decide_eq_false (Bool.of_not_eq_true (List.find?_eq_none.mp hfind x hx))
  · right
    obtain ⟨hx, before, after, hlisted, hbefore⟩ := List.find?_eq_some_iff_append.mp hfind
    refine ⟨before, x, after, hlisted, of_decide_eq_true hx, ?_⟩
    intro y hy
    apply of_decide_eq_false
    simpa using hbefore y hy

/-- If no value of another assembly is read, then everything is stored. -/
theorem yields_store_of_unread (h : m.diagram.WellFormed) (hv : m.Unread v) (c : Cache) :
  ∃ c', (m.store v).Yields c () c' ∧ m.StoreEnds v c (.ok ()) c'
  := by
  have hzones : ∀ s ∈ m.properStates,
      (m.value v s).exitZones m.assembly = .ok ((m.value v s).zones m.assembly) :=
    fun s hs => exitZones_value hs fun hforeign => (hv s hforeign).1
  have hstates := taken_foldl_stow h (fun _ hs => hs) hzones c
  obtain ⟨c', hrun, hassembly, hrecord, hedge, hkept⟩ :=
    exists_yields_forM_evaluate fun t (ht : t ∈ m.diagram.transitions) => hstates.evaluates h ht
      fun hforeign => ⟨(hv _ hforeign).1, (hv _ hforeign).2 t ht rfl⟩
  refine ⟨c', ?_, .all hv (hstates.evaluated hassembly hrecord hedge hkept)⟩
  rw [store]
  apply Pass.Yields.bind (m.yields_refreshPseudo c)
  apply Pass.Yields.bind (yields_forM_storeState hzones _)
  apply hrun

/-- Where a zone is possible, storing stops at the first value of another assembly. -/
theorem refuses_store_of_state (h : m.diagram.WellFormed)
    (hsplit : m.properStates = before ++ s :: after) (hbefore : ∀ r ∈ before, ¬ m.Foreign v r)
    (hs : m.Foreign v s) (hz : m.assembly.possibleZones ≠ []) (c : Cache) :
  ∃ e c', (m.store v).Refuses c e c' ∧ m.StoreEnds v c (.error e) c'
  := by
  have hmem : ∀ r ∈ before, r ∈ m.properStates := by
    intro r hr
    rw [hsplit]
    apply List.mem_append_left _ hr
  have hzones : ∀ r ∈ before,
      (m.value v r).exitZones m.assembly = .ok ((m.value v r).zones m.assembly) :=
    fun r hr => exitZones_value (hmem r hr) fun hforeign => (hbefore r hr hforeign).elim
  have hpseudo : s ≠ m.diagram.pseudo := by
    rintro rfl
    apply pseudo_not_mem_properStates h hs.1
  have htaken := (taken_foldl_stow h hmem hzones c).setStateRegion hpseudo
  refine ⟨_, _, ?_, .state hsplit hbefore hs hz htaken⟩
  rw [store]
  apply (m.yields_refreshPseudo c).refuses_bind
  apply Pass.Refuses.bind
  apply Pass.Refuses.forM hsplit (yields_forM_storeState hzones _)
  apply refuses_storeState (Region.exitZones_of_ne hs.2 hz)

/-- Where no zone is possible, storing stops at the first transition that is not reactive and
leaves a value of another assembly. -/
theorem refuses_store_of_transition (h : m.diagram.WellFormed) {before after : List Transition}
    (hsplit : m.diagram.transitions = before ++ t :: after)
    (hbefore : ∀ t' ∈ before, m.Foreign v t'.source → t'.isReactive = true)
    (ht : t.isReactive = false) (hv : m.Foreign v t.source) (hz : m.assembly.possibleZones = [])
    (c : Cache) :
  ∃ e c', (m.store v).Refuses c e c' ∧ m.StoreEnds v c (.error e) c'
  := by
  have hzones : ∀ s ∈ m.properStates,
      (m.value v s).exitZones m.assembly = .ok ((m.value v s).zones m.assembly) :=
    fun s hs => exitZones_value hs fun _ => hz
  have hstates := taken_foldl_stow h (fun _ hs => hs) hzones c
  obtain ⟨c', hrun, hassembly, hrecord, hedge, hkept⟩ :=
    exists_yields_forM_evaluate fun t' (ht' : t' ∈ before) => hstates.evaluates h
      (hsplit ▸ List.mem_append_left _ ht') fun hforeign => ⟨hz, hbefore t' ht' hforeign⟩
  have htaken := hstates.evaluated hassembly hrecord hedge hkept
  refine ⟨_, c', ?_, .transition hsplit hbefore ht hv hz htaken⟩
  rw [store]
  apply (m.yields_refreshPseudo c).refuses_bind
  apply (yields_forM_storeState hzones _).refuses_bind
  apply Pass.Refuses.forM hsplit hrun
  apply Pass.Refuses.bind
  rw [evaluate]
  apply (Pass.Yields.report _ c').refuses_bind
  apply (Pass.Yields.cache c').refuses_bind
  apply Pass.Refuses.ofExcept
  rw [regionOver, htaken.region _ hv.1]
  apply Transition.contribution_of_ne ht hv.2

/-- Storing values ends in one of three ways. -/
theorem exists_storeEnds (h : m.diagram.WellFormed) (v : Table State Region) (c : Cache) :
  ∃ result c', m.StoreEnds v c result c'
    ∧ ∀ events, ∃ events', (m.store v).run ⟨c, events⟩ = (result, ⟨c', events'⟩)
  := by
  by_cases hz : m.assembly.possibleZones = []
  · obtain hnone | ⟨before, t, after, hsplit, ⟨ht, hv⟩, hbefore⟩ := forall_not_or_exists_first
      (fun t : Transition => t.isReactive = false ∧ m.Foreign v t.source) m.diagram.transitions
    · have hunread : m.Unread v := by
        rintro s hs
        use hz
        rintro t ht rfl
        apply Bool.of_not_eq_false
        intro hguarded
        apply hnone t ht ⟨hguarded, hs⟩
      obtain ⟨c', hrun, hends⟩ := yields_store_of_unread h hunread c
      exact ⟨_, c', hends, hrun⟩
    · have hreactive : ∀ t' ∈ before, m.Foreign v t'.source → t'.isReactive = true := by
        intro t' ht' hv'
        apply Bool.of_not_eq_false
        intro hguarded
        apply hbefore t' ht' ⟨hguarded, hv'⟩
      obtain ⟨e, c', hrun, hends⟩ := refuses_store_of_transition h hsplit hreactive ht hv hz c
      exact ⟨_, c', hends, hrun⟩
  · obtain hnone | ⟨before, s, after, hsplit, hs, hbefore⟩ :=
      forall_not_or_exists_first (m.Foreign v) m.properStates
    · obtain ⟨c', hrun, hends⟩ :=
        yields_store_of_unread h (fun s hs => (hnone s hs.1 hs).elim) c
      exact ⟨_, c', hends, hrun⟩
    · obtain ⟨e, c', hrun, hends⟩ := refuses_store_of_state h hsplit hbefore hs hz c
      exact ⟨_, c', hends, hrun⟩

/-- Storing values succeeds if and only if no value of another assembly is read. -/
theorem StoreEnds.eq_ok_iff {result : Except RegionError Unit} (h : m.StoreEnds v c result c') :
  result = .ok () ↔ m.Unread v
  := by
  cases h with
  | all hv _ => exact ⟨fun _ => hv, fun _ => rfl⟩
  | state _ _ hs hz _ =>
    apply iff_of_false
    · intro heq
      cases heq
    · intro hv
      apply hz (hv _ hs).1
  | transition hsplit _ ht hs _ _ =>
    apply iff_of_false
    · intro heq
      cases heq
    · intro hv
      have hreactive := (hv _ hs).2 _ (hsplit ▸ List.mem_append_right _ List.mem_cons_self) rfl
      rw [ht] at hreactive
      cases hreactive

end Model

namespace Machine

variable {m m' : Machine}

/-- A pass over a machine succeeds if and only if nothing prevents that what it reads is
evaluated. -/
theorem exists_run_refresh_oneStep_iff (h : m.diagram.WellFormed) :
  (∃ m' events, m.run (·.refresh .oneStep) = (.ok (), m', events)) ↔ m.Passable m.cache
  := by
  constructor
  · rintro ⟨m', events, hrun⟩
    apply (cache_eq_passed_of_run h hrun).2
  · intro hc
    obtain ⟨events, hrun⟩ := run_refresh_oneStep_of_passable h hc
    exact ⟨_, events, hrun⟩

/-- Storing given values succeeds when they belong to the assembly, and in general when no value
of another assembly is read. Otherwise it is refused at the first one that is read, which is
stored by then, like the values before it, and nothing is undone. In every case the next pass
succeeds if and only if nothing that is left in the cache prevents it. -/
theorem store_ends (h : m.Reachable) (v : Table State Region) :
  ∃ result m' events, m.run (·.store v) = (result, m', events) ∧ m'.toModel = m.toModel
    ∧ ((∀ s ∈ m.properStates, (m.value v s).assembly = m.assembly.id) → result = .ok ())
    ∧ (result = .ok () ↔ m.Unread v)
    ∧ m.StoreEnds v m.cache result m'.cache
    ∧ ((∃ m'' events', m'.run (·.refresh .oneStep) = (.ok (), m'', events'))
      ↔ m.Passable m'.cache)
  := by
  obtain ⟨result, c', hends, hrun⟩ := Model.exists_storeEnds h.wellFormed v m.cache
  obtain ⟨events, hrun⟩ := hrun []
  refine ⟨result, { m with cache := c' }, events, ?_, rfl, ?_, hends.eq_ok_iff, hends, ?_⟩
  · rw [run, hrun]
  · intro hv
    apply hends.eq_ok_iff.mpr
    intro s hs
    apply (hs.2 (hv s hs.1)).elim
  · apply exists_run_refresh_oneStep_iff (m := { m with cache := c' }) h.wellFormed

end Machine

namespace Loop

/-- A value of another assembly for the second state. -/
def strange : Table State Region :=
  Table.set ∅ second (.ofConfigurations "street" [[⟨"light", "on"⟩]])

end Loop

namespace Machine

/-- In the loop that switches the light, a value of another assembly is refused. -/
theorem store_ends_switch :
  (Loop.machine Loop.switch).Reachable
    ∧ ∃ result m' events,
      (Loop.machine Loop.switch).run (·.store Loop.strange) = (result, m', events)
      ∧ result ≠ .ok ()
      ∧ (Loop.machine Loop.switch).StoreEnds Loop.strange (Loop.machine Loop.switch).cache result
        m'.cache
  := by
  use Loop.reachable_machine _
  obtain ⟨result, m', events, hrun, -, -, hok, hends, -⟩ :=
    store_ends (Loop.reachable_machine Loop.switch) Loop.strange
  refine ⟨result, m', events, hrun, ?_, hends⟩
  intro heq
  have hforeign : (Loop.machine Loop.switch).Foreign Loop.strange Loop.second := by decide +kernel
  have hzones := (hok.mp heq Loop.second hforeign).1
  revert hzones
  decide +kernel

/-- In the loop that switches the light, a value of another assembly is refused, but kept, and
no pass gets past it, although the cache held nothing of another assembly before. -/
theorem store_kept_switch :
  (Loop.machine Loop.switch).cache = .empty (Loop.machine Loop.switch).assembly.id
    ∧ ((Loop.machine Loop.switch).run (·.store Loop.strange)).1 ≠ .ok ()
    ∧ ((Loop.machine Loop.switch).run (·.store Loop.strange)).2.1.cache.stateRegion Loop.second ≠
      (Loop.machine Loop.switch).cache.stateRegion Loop.second
    ∧ (((Loop.machine Loop.switch).run (·.store Loop.strange)).2.1.run
      (·.refresh .oneStep)).1 ≠ .ok ()
  := by
  refine ⟨rfl, ?_, ?_, ?_⟩ <;> decide +kernel

end Machine

end AssemblySemantics
