import AssemblySemantics.Machine
import AssemblySemantics.Proofs.Refusable
import AssemblySemantics.Proofs.Solver.Iteration
import Mathlib.Data.List.Induction

/-!
# Storing the result of the solver

`Pass.Yields` says what a pass that succeeds makes of a cache. Storing values that are
regions of the assembly succeeds from every cache, whatever it holds: afterwards the states
have the given values with their exit zones, the pseudostate has the initial region, and
every transition has its image of the region that is stored for its source.
-/

namespace AssemblySemantics

namespace Pass

variable {α β : Type} {p : Pass α} {f : α → Pass β} {x : α} {y : β} {c c' c'' : Cache}

/-- A pass succeeds with a result and leads from a cache to a cache, whatever was reported
before. -/
def Yields (p : Pass α) (c : Cache) (x : α) (c' : Cache) : Prop :=
  ∀ events, ∃ events', p.run ⟨c, events⟩ = (.ok x, ⟨c', events'⟩)

theorem Yields.pure (x : α) (c : Cache) :
  (Pure.pure x : Pass α).Yields c x c
  := fun events => ⟨events, rfl⟩

theorem Yields.bind (hp : p.Yields c x c') (hf : (f x).Yields c' y c'') :
  (p >>= f).Yields c y c''
  := by
  intro events
  obtain ⟨events', hrun⟩ := hp events
  rw [run_bind_of_ok hrun]
  apply hf events'

theorem Yields.cache (c : Cache) :
  Pass.cache.Yields c c c
  := fun events => ⟨events, rfl⟩

theorem Yields.update (f : Cache → Cache) (c : Cache) :
  (Pass.update f).Yields c () (f c)
  := fun events => ⟨events, rfl⟩

theorem Yields.report (events : List Event) (c : Cache) :
  (Pass.report events).Yields c () c
  := fun events' => ⟨events' ++ events, rfl⟩

theorem Yields.ofExcept {e : Except RegionError α} (h : e = .ok x) (c : Cache) :
  (MonadExcept.ofExcept e : Pass α).Yields c x c
  := by
  intro events
  use events
  rw [h]
  rfl

/-- A loop leads from cache to cache as its steps do, as long as they keep an invariant. -/
theorem Yields.forM {γ : Type} {f : γ → Pass Unit} {g : Cache → γ → Cache} {P : Cache → Prop}
    {listed : List γ} (hf : ∀ c, P c → ∀ x ∈ listed, (f x).Yields c () (g c x) ∧ P (g c x))
    (h : P c) :
  (listed.forM f).Yields c () (listed.foldl g c)
  := by
  induction listed generalizing c with
  | nil => apply Yields.pure
  | cons x listed ih =>
    obtain ⟨hx, hP⟩ := hf c h x List.mem_cons_self
    change Yields (f x >>= fun _ => listed.forM f) c () _
    apply Yields.bind hx
    apply ih _ hP
    intro c hc y hy
    apply hf c hc y (List.mem_cons_of_mem _ hy)

end Pass

namespace Model

/-- The cache after a region and its exit zones were stored for a state. -/
def stow (m : Model) (c : Cache) (s : State) (r : Region) : Cache :=
  (c.setStateRegion s r).setStateZones s (r.zones m.assembly)

/-- The cache after the region of a transition, over what is stored for its source, was
stored. -/
def fill (m : Model) (c : Cache) (t : Transition) : Cache :=
  c.setEdgeRegion (.transition t)
    (t.reach (c.stateRegion t.source) (c.stateZones t.source).toList m.assembly m.config.basis)

/-- The cache after values were stored. -/
def stored (m : Model) (values : Table State Region) (c : Cache) : Cache :=
  m.diagram.transitions.foldl m.fill
    (m.properStates.foldl (fun c s => m.stow c s (m.value values s))
      (m.stow c m.diagram.pseudo m.assembly.initial))

variable {m : Model} {v : Table State Region} {c : Cache} {r : Region} {s s' : State}
  {t : Transition}

@[simp]
theorem stateRegion_stow :
  (m.stow c s r).stateRegion s' = if s = s' then r else c.stateRegion s'
  := by
  rw [stow, Cache.stateRegion_setStateZones, Cache.stateRegion_setStateRegion]

@[simp]
theorem stateZones_stow :
  (m.stow c s r).stateZones s' = if s = s' then r.zones m.assembly else c.stateZones s'
  := by
  rw [stow, Cache.stateZones_setStateZones, Cache.stateZones_setStateRegion]

/-- What none of several steps changes is read after them as it was before. -/
theorem read_foldl_eq {α γ : Type} (read : Cache → α) {step : Cache → γ → Cache} {listed : List γ}
    (h : ∀ c, ∀ x ∈ listed, read (step c x) = read c) :
  read (listed.foldl step c) = read c
  := by
  induction listed generalizing c with
  | nil => rfl
  | cons x listed ih =>
    rw [List.foldl_cons, ih fun c y hy => h c y (List.mem_cons_of_mem x hy)]
    apply h c x List.mem_cons_self

/-- What is read of a state after regions were stored for several states: what its own region
leads to if it is one of them, and what was read before if it is not. -/
theorem read_foldl_stow {α : Type} (read : Cache → α) (kept : Region → α)
    (h : ∀ c s' r, read (m.stow c s' r) = if s' = s then kept r else read c) (f : State → Region)
    (states : List State) :
  read (states.foldl (fun c s => m.stow c s (f s)) c) =
    if s ∈ states then kept (f s) else read c
  := by
  induction states generalizing c with
  | nil => rfl
  | cons s' states ih =>
    rw [List.foldl_cons, ih, h]
    by_cases hs : s' = s
    · simp [hs]
    · simp [hs, Ne.symm hs]

/-- After regions were stored for several states, these have them. -/
theorem stateRegion_foldl_stow (f : State → Region) (states : List State) :
  (states.foldl (fun c s => m.stow c s (f s)) c).stateRegion s =
    if s ∈ states then f s else c.stateRegion s
  := read_foldl_stow (·.stateRegion s) id (fun _ _ _ => stateRegion_stow) f states

theorem stateZones_foldl_stow (f : State → Region) (states : List State) :
  (states.foldl (fun c s => m.stow c s (f s)) c).stateZones s =
    if s ∈ states then (f s).zones m.assembly else c.stateZones s
  := read_foldl_stow (·.stateZones s) (·.zones m.assembly) (fun _ _ _ => stateZones_stow) f states

/-- Storing the regions of transitions leaves the states alone. -/
theorem stateRegion_foldl_fill (transitions : List Transition) :
  (transitions.foldl m.fill c).stateRegion s = c.stateRegion s
  := by
  apply read_foldl_eq (·.stateRegion s)
  intro c t _
  rfl

theorem stateZones_foldl_fill (transitions : List Transition) :
  (transitions.foldl m.fill c).stateZones s = c.stateZones s
  := by
  apply read_foldl_eq (·.stateZones s)
  intro c t _
  rfl

/-- After the regions of several transitions were stored, each of them has what it reaches from
what is stored for its source. -/
theorem get?_edges_foldl_fill {transitions : List Transition} (ht : t ∈ transitions) :
  (transitions.foldl m.fill c).edges.get? (.transition t) =
    some (t.reach (c.stateRegion t.source) (c.stateZones t.source).toList m.assembly
      m.config.basis)
  := by
  induction transitions using List.reverseRecOn with
  | nil => cases ht
  | append_singleton transitions t' ih =>
    rw [List.foldl_append, List.foldl_cons, List.foldl_nil, fill, Cache.setEdgeRegion,
      Table.get?_set]
    split
    · rename_i heq
      obtain rfl := Edge.transition.inj heq
      rw [stateRegion_foldl_fill, stateZones_foldl_fill]
    · rename_i hne
      apply ih
      obtain ht | ht := List.mem_append.mp ht
      · apply ht
      · rw [List.mem_singleton.mp ht] at hne
        apply (hne rfl).elim

theorem edgeRegion_foldl_fill {transitions : List Transition} (ht : t ∈ transitions) :
  (transitions.foldl m.fill c).edgeRegion (.transition t) =
    t.reach (c.stateRegion t.source) (c.stateZones t.source).toList m.assembly m.config.basis
  := by
  rw [Cache.edgeRegion, Table.getD, get?_edges_foldl_fill ht]
  rfl

/-! ### The cache after values were stored -/

/-- The pseudostate has the initial region, whatever its value. -/
theorem stateRegion_stored_pseudo (h : m.diagram.WellFormed) :
  (m.stored v c).stateRegion m.diagram.pseudo = m.assembly.initial
  := by
  rw [stored, stateRegion_foldl_fill, stateRegion_foldl_stow, stateRegion_stow,
    if_neg (pseudo_not_mem_properStates h), if_pos rfl]

/-- The other states have their values. -/
theorem stateRegion_stored (hs : s ∈ m.properStates) :
  (m.stored v c).stateRegion s = m.value v s
  := by
  rw [stored, stateRegion_foldl_fill, stateRegion_foldl_stow, if_pos hs]

/-- Every state has the exit zones of its region. -/
theorem stateZones_stored (h : m.diagram.WellFormed) (hs : s ∈ m.diagram.states) :
  (m.stored v c).stateZones s = ((m.stored v c).stateRegion s).zones m.assembly
  := by
  obtain rfl | hs := eq_pseudo_or_mem_properStates h hs
  · rw [stateRegion_stored_pseudo h, stored, stateZones_foldl_fill, stateZones_foldl_stow,
      stateZones_stow, if_neg (pseudo_not_mem_properStates h), if_pos rfl]
  · rw [stateRegion_stored hs, stored, stateZones_foldl_fill, stateZones_foldl_stow, if_pos hs]

/-- Values that are regions of the assembly are stored as such. -/
theorem assembly_stateRegion_stored (h : m.diagram.WellFormed) (hv : m.Tagged v)
    (hs : s ∈ m.diagram.states) :
  ((m.stored v c).stateRegion s).assembly = m.assembly.id
  := by
  obtain rfl | hs := eq_pseudo_or_mem_properStates h hs
  · rw [stateRegion_stored_pseudo h, Assembly.assembly_initial]
  · rw [stateRegion_stored hs, hv.assembly_value]

/-- Every transition has its image of the region of its source. -/
theorem edgeRegion_stored (h : m.diagram.WellFormed) (ht : t ∈ m.diagram.transitions) :
  (m.stored v c).edgeRegion (.transition t) =
    t.image ((m.stored v c).stateRegion t.source) m.assembly m.config.basis
  := by
  have hsource := h.source_mem_states ht
  rw [Transition.image, ← stateZones_stored h hsource, stored, edgeRegion_foldl_fill ht,
    stateRegion_foldl_fill, stateZones_foldl_fill]

/-! ### Passes -/

theorem yields_storeState (hr : r.exitZones m.assembly = .ok (r.zones m.assembly)) (s : State)
    (c : Cache) :
  (m.storeState s r).Yields c () (m.stow c s r)
  := by
  rw [storeState]
  apply Pass.Yields.bind (Pass.Yields.update _ c)
  apply Pass.Yields.bind (Pass.Yields.ofExcept hr _)
  apply Pass.Yields.update

theorem yields_refreshPseudo (m : Model) (c : Cache) :
  m.refreshPseudo.Yields c m.assembly.initial (m.stow c m.diagram.pseudo m.assembly.initial)
  := by
  rw [refreshPseudo]
  have hzones := Region.exitZones_of_eq m.assembly.assembly_initial
  apply Pass.Yields.bind (yields_storeState hzones _ c)
  apply Pass.Yields.pure

/-- Evaluating a transition over a stored region of the assembly. -/
theorem yields_evaluate (h : (c.stateRegion t.source).assembly = m.assembly.id) :
  (m.evaluate t).Yields c
    (t.reach (c.stateRegion t.source) (c.stateZones t.source).toList m.assembly m.config.basis) c
  := by
  rw [evaluate]
  apply Pass.Yields.bind (Pass.Yields.report _ c)
  apply Pass.Yields.bind (Pass.Yields.cache c)
  apply Pass.Yields.ofExcept (Transition.contribution_of_eq h)

theorem yields_refreshTransitions
    (h : ∀ t ∈ m.diagram.transitions, (c.stateRegion t.source).assembly = m.assembly.id) :
  m.refreshTransitions.Yields c () (m.diagram.transitions.foldl m.fill c)
  := by
  apply Pass.Yields.forM
    (P := fun c => ∀ t ∈ m.diagram.transitions,
      (c.stateRegion t.source).assembly = m.assembly.id) _ h
  intro c hc t ht
  constructor
  · apply Pass.Yields.bind (yields_evaluate (hc t ht))
    apply Pass.Yields.update
  · apply hc

theorem yields_forM_storeState {states : List State}
    (hv : ∀ s ∈ states,
      (m.value v s).exitZones m.assembly = .ok ((m.value v s).zones m.assembly)) (c : Cache) :
  Pass.Yields (states.forM fun s => m.storeState s (v.getD s m.bottom)) c ()
    (states.foldl (fun c s => m.stow c s (m.value v s)) c)
  := by
  apply Pass.Yields.forM (P := fun _ => True) _ trivial
  intro c _ s hs
  exact ⟨yields_storeState (hv s hs) s c, trivial⟩

/-- Storing values that are regions of the assembly succeeds, whatever the cache holds. -/
theorem yields_store (h : m.diagram.WellFormed) (hv : m.Tagged v) (c : Cache) :
  (m.store v).Yields c () (m.stored v c)
  := by
  rw [store]
  apply Pass.Yields.bind (m.yields_refreshPseudo c)
  have hzones : ∀ s ∈ m.properStates,
      (m.value v s).exitZones m.assembly = .ok ((m.value v s).zones m.assembly) :=
    fun s _ => Region.exitZones_of_eq (hv.assembly_value s)
  apply Pass.Yields.bind (yields_forM_storeState hzones _)
  apply yields_refreshTransitions
  intro t ht
  have hsource : ((m.stored v c).stateRegion t.source).assembly = m.assembly.id :=
    assembly_stateRegion_stored h hv (h.source_mem_states ht)
  rw [stored, stateRegion_foldl_fill] at hsource
  apply hsource

/-- Refreshing by the solver stores the solution, whatever the cache holds. -/
theorem yields_refresh_fixedPoint (h : m.diagram.WellFormed) (c : Cache) :
  (m.refresh .fixedPoint).Yields c () (m.stored (m.solution m.config).values c)
  := by
  rw [refresh]
  apply Pass.Yields.bind (Pass.Yields.report _ c)
  apply Pass.Yields.bind (Pass.Yields.ofExcept (m.solve_eq m.config) c)
  apply Pass.Yields.bind (Pass.Yields.report _ c)
  apply yields_store h (m.tagged_solution m.config)

end Model

namespace Machine

/-- Running a pass replaces the cache and nothing else. -/
theorem exists_progress_of_run {α : Type} {m m' : Machine} {p : Model → Pass α}
    {result : Except RegionError α} {events : List Event} (h : m.run p = (result, m', events)) :
  ∃ progress, (p m.toModel).run ⟨m.cache, []⟩ = (result, progress)
    ∧ m' = { m with cache := progress.cache }
  := by
  rcases hpass : (p m.toModel).run ⟨m.cache, []⟩ with ⟨result', progress⟩
  rw [run, hpass] at h
  cases h
  exact ⟨progress, rfl, rfl⟩

theorem toModel_of_run {α : Type} {m m' : Machine} {p : Model → Pass α}
    {result : Except RegionError α} {events : List Event} (h : m.run p = (result, m', events)) :
  m'.toModel = m.toModel
  := by
  obtain ⟨progress, -, rfl⟩ := exists_progress_of_run h
  rfl

/-- Running a pass that succeeds replaces the cache. -/
theorem run_of_yields {α : Type} {m : Machine} {p : Model → Pass α} {x : α} {c : Cache}
    (h : (p m.toModel).Yields m.cache x c) :
  ∃ events, m.run p = (.ok x, { m with cache := c }, events)
  := by
  obtain ⟨events, hrun⟩ := h []
  use events
  rw [run, hrun]

end Machine

end AssemblySemantics
