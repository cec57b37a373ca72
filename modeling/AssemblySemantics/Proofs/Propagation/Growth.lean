import AssemblySemantics.Proofs.Propagation.Rounds
import AssemblySemantics.Proofs.Solver.Run

/-!
# Passes over a machine that grows

States, links and transitions that are not reactive are added to a machine, with passes in
between, each of which may leave partial values in the cache. What is stored stays between
two bounds: it is at least nothing, and every stored configuration is one in which a run ends,
because the runs of a machine remain when it grows. A pass keeps both bounds. Hence as many
further passes as the solver takes rounds store at least what the solver finds, and, once the
solver has converged, no more than that.
-/

namespace AssemblySemantics

/-- What one cache stores for the states another one stores as well. -/
def Cache.Below (c c' : Cache) : Prop := ∀ s, c.stateRegion s ⊆ c'.stateRegion s

namespace Model

/-- A model has the assembly, the pseudostate and all transitions of another one. -/
structure Extends (m' m : Model) : Prop where
  assembly : m'.assembly = m.assembly
  pseudo : m'.diagram.pseudo = m.diagram.pseudo
  transitions : m.diagram.transitions ⊆ m'.diagram.transitions

/-- The regions that a cache stores belong to the assembly, and a run ends in every
configuration in them. -/
structure Justified (m : Model) (c : Cache) : Prop where
  assembly : ∀ s, (c.stateRegion s).assembly = m.assembly.id
  run : ∀ s, ∀ b ∈ c.stateRegion s, m.GuardedRun s b

variable {m m' : Model} {basis : Basis} {c c' : Cache} {v : Table State Region} {s : State}
  {t : Transition} {b : Configuration} {r : Region}

/-- The runs of a model remain when it is extended. -/
theorem GuardedRun.extend (h : m.GuardedRun s b) (hm : m'.Extends m) :
  m'.GuardedRun s b
  := by
  induction h with
  | start hc =>
    rw [← hm.pseudo]
    apply GuardedRun.start
    rw [hm.assembly]
    apply hc
  | fire ht _ hfires ih =>
    rw [← hm.assembly] at hfires
    apply GuardedRun.fire (hm.transitions ht) ih hfires

/-- Over a cache, a transition that is not reactive reaches the configurations to which it
leads from those that are stored for its source. -/
theorem mem_reached_iff_fires (ht : t.isReactive = false) :
  b ∈ m.reached c (.transition t) ↔ ∃ a ∈ c.stateRegion t.source, t.Fires m.assembly a b
  := by
  -- without exit zones to follow, what is reached is the image of the stored region
  have himage : m.reached c (.transition t) =
      t.image (c.stateRegion t.source) m.assembly m.config.basis := by
    rw [reached, Transition.image, Transition.reach, Transition.reach, Transition.firing,
      Transition.firing, ht, if_neg Bool.false_ne_true, if_neg Bool.false_ne_true]
  rw [himage, Transition.mem_image_iff_fires ht]

/-! ### More is stored after a pass when more was stored before it -/

theorem joined_subset_joined (h : m.diagram.WellFormed) (hg : m.Guarded) (hle : c.Below c')
    (hs : s ∈ m.diagram.states) :
  m.joined c s ⊆ m.joined c' s
  := by
  intro b hb
  obtain ⟨t, ht, hb⟩ := mem_joined.mp hb
  have hguarded := hg t ((h.mem_incoming_iff hs).mp ht).1
  obtain ⟨a, ha, hfires⟩ := (mem_reached_iff_fires hguarded).mp hb
  apply mem_joined.mpr
  use t, ht
  apply (mem_reached_iff_fires hguarded).mpr ⟨a, hle t.source a ha, hfires⟩

theorem below_stow {r' : Region} (hle : c.Below c') (hr : r ⊆ r') (s : State) :
  (m.stow c s r).Below (m.stow c' s r')
  := by
  intro s'
  rw [stateRegion_stow, stateRegion_stow]
  split
  · apply hr
  · apply hle s'

theorem below_foldl_renew (h : m.diagram.WellFormed) (hg : m.Guarded) (states : List State)
    (hstates : ∀ s ∈ states, s ∈ m.diagram.states) (hle : c.Below c') :
  (states.foldl m.renew c).Below (states.foldl m.renew c')
  := by
  induction states generalizing c c' with
  | nil => apply hle
  | cons s states ih =>
    have hjoined := joined_subset_joined h hg hle (hstates s List.mem_cons_self)
    apply ih _ (below_stow hle hjoined s)
    intro s' hs'
    apply hstates s' (List.mem_cons_of_mem s hs')

/-- Without reactive transitions, a pass over a cache that stores more stores more. -/
theorem below_passed (h : m.diagram.WellFormed) (hg : m.Guarded) (hle : c.Below c') :
  (m.passed c).Below (m.passed c')
  := by
  intro s
  rw [passed, passed, stateRegion_foldl_fill, stateRegion_foldl_fill]
  apply below_foldl_renew h hg
  · intro s' hs'
    apply (mem_properStates.mp hs').1
  · apply below_stow hle (Region.Subset.refl _)

theorem below_iterate (h : m.diagram.WellFormed) (hg : m.Guarded) (hle : c.Below c') (k : Nat) :
  (m.passed^[k] c).Below (m.passed^[k] c')
  := by
  induction k generalizing c c' with
  | zero => apply hle
  | succ k ih =>
    rw [Function.iterate_succ_apply, Function.iterate_succ_apply]
    apply ih (below_passed h hg hle)

theorem empty_below (assembly : String) (c : Cache) :
  (Cache.empty assembly).Below c
  := fun _ => Region.bottom_subset

/-! ### Only what runs reach is stored -/

theorem justified_empty (m : Model) :
  m.Justified (.empty m.assembly.id)
  := by
  constructor
  · intro s
    rfl
  · intro s b hb
    apply (Region.not_mem_bottom hb).elim

/-- What is justified in a model remains so when the model is extended. -/
theorem Justified.extend (hc : m.Justified c) (hm : m'.Extends m) :
  m'.Justified c
  := by
  constructor
  · rw [hm.assembly]
    apply hc.assembly
  · intro s b hb
    apply (hc.run s b hb).extend hm

theorem Justified.stow (hc : m.Justified c) (ha : r.assembly = m.assembly.id)
    (hr : ∀ b ∈ r, m.GuardedRun s b) :
  m.Justified (m.stow c s r)
  := by
  constructor
  · intro s'
    rw [stateRegion_stow]
    split
    · apply ha
    · apply hc.assembly s'
  · intro s' b hb
    rw [stateRegion_stow] at hb
    split at hb
    · rename_i heq
      rw [← heq]
      apply hr b hb
    · apply hc.run s' b hb

/-- The join for a state is justified when the cache is. -/
theorem Justified.renew (hc : m.Justified c) (h : m.diagram.WellFormed) (hg : m.Guarded)
    (hs : s ∈ m.diagram.states) :
  m.Justified (m.renew c s)
  := by
  apply hc.stow (Region.assembly_unions _ _)
  intro b hb
  obtain ⟨t, hincoming, hb⟩ := mem_joined.mp hb
  obtain ⟨ht, htarget⟩ := (h.mem_incoming_iff hs).mp hincoming
  obtain ⟨a, ha, hfires⟩ := (mem_reached_iff_fires (hg t ht)).mp hb
  rw [← htarget]
  apply GuardedRun.fire ht (hc.run t.source a ha) hfires

/-- Without reactive transitions, a pass over a justified cache leaves a justified cache. -/
theorem Justified.passed (hc : m.Justified c) (h : m.diagram.WellFormed) (hg : m.Guarded) :
  m.Justified (m.passed c)
  := by
  have hrenewed : m.Justified
      (m.properStates.foldl m.renew (m.stow c m.diagram.pseudo m.assembly.initial)) := by
    apply List.foldlRecOn (motive := m.Justified)
    · apply hc.stow m.assembly.assembly_initial
      intro b hb
      apply GuardedRun.start hb
    · intro c hc s hs
      apply hc.renew h hg (mem_properStates.mp hs).1
  constructor
  · intro s
    rw [Model.passed, stateRegion_foldl_fill]
    apply hrenewed.assembly s
  · intro s b hb
    rw [Model.passed, stateRegion_foldl_fill] at hb
    apply hrenewed.run s b hb

theorem Justified.iterate (hc : m.Justified c) (h : m.diagram.WellFormed) (hg : m.Guarded)
    (k : Nat) :
  m.Justified (m.passed^[k] c)
  := by
  induction k generalizing c with
  | zero => apply hc
  | succ k ih =>
    rw [Function.iterate_succ_apply]
    apply ih (hc.passed h hg)

/-! ### As many passes as rounds -/

/-- The values of the solution are those after as many sweeps as the solver took rounds. -/
theorem exists_iterate_settle (fuel done : Nat) (v : Table State Region) :
  ∃ k, (m.settle basis (fuel + 1) done v).iterations = done + (k + 1)
    ∧ (m.settle basis (fuel + 1) done v).values = (m.sweep basis)^[k + 1] v
  := by
  induction fuel generalizing done v with
  | zero =>
    use 0
    rw [settle]
    split
    · rename_i heq
      exact ⟨rfl, heq.symm⟩
    · exact ⟨rfl, rfl⟩
  | succ fuel ih =>
    rw [settle]
    split
    · rename_i heq
      use 0
      exact ⟨rfl, heq.symm⟩
    · obtain ⟨k, hiterations, hvalues⟩ := ih (done + 1) (m.sweep basis v)
      use k + 1
      rw [hiterations, hvalues]
      constructor
      · omega
      · rfl

/-- As many passes as the solver took rounds, from whatever was stored, store for every state
at least what the solver found. -/
theorem value_subset_iterate (h : m.diagram.WellFormed) (hg : m.Guarded)
    (config : SolverConfig) (c : Cache) (hs : s ∈ m.diagram.states) :
  m.value (m.solution config).values s
    ⊆ (m.passed^[(m.solution config).iterations] c).stateRegion s
  := by
  obtain ⟨fuel, hfuel⟩ := Nat.exists_eq_add_one.mpr config.cap.rounds_pos
  obtain ⟨k, hiterations, hvalues⟩ :
      ∃ k, (m.settle config.basis (fuel + 1) 0 m.startValues).iterations = 0 + (k + 1)
        ∧ (m.settle config.basis (fuel + 1) 0 m.startValues).values =
          (m.sweep config.basis)^[k + 1] m.startValues :=
    exists_iterate_settle fuel 0 m.startValues
  rw [Nat.zero_add] at hiterations
  rw [solution, hfuel, hiterations, hvalues]
  have hmirrors : m.Mirrors (m.passed^[k + 1] (.empty m.assembly.id))
      ((m.sweep config.basis)^[k + 1] m.startValues) s := by
    apply mirrors_iterate h hg (ascending_startValues h) _ k s hs
    intro r hr
    apply mirrors_empty hr
  rw [← (StateRecord.mk.inj hmirrors).1]
  apply below_iterate h hg (empty_below _ c)

/-- From a justified cache, as many passes as the solver took rounds until it converged store
for every state what the solver found. -/
theorem stateRegion_iterate_eq (h : m.diagram.WellFormed) (hg : m.Guarded) (hc : m.Justified c)
    {config : SolverConfig} (hconv : (m.solution config).converged = true)
    (hs : s ∈ m.diagram.states) :
  (m.passed^[(m.solution config).iterations] c).stateRegion s =
    m.value (m.solution config).values s
  := by
  have hpassed := hc.iterate h hg (m.solution config).iterations
  apply Region.ext
  · rw [hpassed.assembly, (m.tagged_solution config).assembly_value]
  · intro b
    constructor
    · intro hb
      apply (hpassed.run s b hb).mem_value h hconv
    · apply value_subset_iterate h hg config c hs

end Model

namespace Machine

/-- Whether a change adds a state, a link or a transition that is not reactive. -/
def Edit.isGuardedAddition : Edit → Bool
  | .addState _ => true
  | .addEdge (.transition t) => !t.isReactive
  | .addEdge (.link _) => true
  | .removeEdge _ | .removeState _ => false

/-- The machines that come about by making one and adding states, links and transitions that
are not reactive, with passes in between. -/
inductive Grown : Machine → Prop where
  | make {name : String} {a : Assembly} {config : SolverConfig} {uid : Nat} {m : Machine}
      (h : Machine.make name a config (.pseudo uid) = .ok m) : Grown m
  | edit {m m' : Machine} {x : Edit} (hm : Grown m) (hx : x.isGuardedAddition = true)
      (h : m.edit x = .ok m') : Grown m'
  | pass {m m' : Machine} {result : Except RegionError Unit} {events : List Event}
      (hm : Grown m) (h : m.run (·.refresh .oneStep) = (result, m', events)) : Grown m'

variable {m m' : Machine} {x : Edit}

/-- An addition extends a machine and leaves its cache alone. No transition that it adds is
reactive. -/
theorem extends_of_edit (hx : x.isGuardedAddition = true) (h : m.edit x = .ok m') :
  m'.cache = m.cache ∧ m'.Extends m.toModel
    ∧ ∀ t ∈ m'.diagram.transitions, t ∈ m.diagram.transitions ∨ t.isReactive = false
  := by
  cases x with
  | addState s =>
    obtain ⟨d, hd, rfl⟩ := addState_eq_ok h
    obtain ⟨-, -, rfl⟩ := Diagram.addState_eq_ok hd
    exact ⟨rfl, ⟨rfl, rfl, fun _ ht => ht⟩, fun _ ht => .inl ht⟩
  | addEdge e =>
    obtain ⟨d, hd, rfl⟩ := addEdge_eq_ok h
    obtain ⟨-, -, rfl⟩ := Diagram.addEdge_ends hd
    refine ⟨rfl, ⟨rfl, rfl, ?_⟩, ?_⟩
    · intro t ht
      apply Diagram.mem_transitions.mpr
      apply List.mem_append_left _ (Diagram.mem_transitions.mp ht)
    · intro t ht
      obtain ht | ht := List.mem_append.mp (Diagram.mem_transitions.mp ht)
      · left
        apply Diagram.mem_transitions.mpr ht
      · right
        rw [← List.mem_singleton.mp ht] at hx
        apply (Bool.not_eq_true' _).mp hx
  | removeEdge e => cases hx
  | removeState s => cases hx

/-! ### Machines that have grown -/

/-- A refused change leaves a machine as it is, so that a list of additions always leads to a
machine that has grown. -/
theorem Grown.edited (h : m.Grown) (xs : List Edit)
    (hxs : ∀ x ∈ xs, x.isGuardedAddition = true) :
  (m.edited xs).Grown
  := by
  induction xs generalizing m with
  | nil => apply h
  | cons x xs ih =>
    apply ih
    · rcases hx : m.edit x with _ | m'
      · apply h
      · apply h.edit (hxs x List.mem_cons_self) hx
    · intro y hy
      apply hxs y (List.mem_cons_of_mem x hy)

theorem Grown.reachable (h : m.Grown) :
  m.Reachable
  := by
  induction h with
  | make h => apply Reachable.make h
  | edit _ _ h ih => apply ih.edit h
  | pass _ h ih => apply ih.of_toModel_eq (toModel_of_run h)

theorem Grown.guarded (h : m.Grown) :
  m.Guarded
  := by
  induction h with
  | make h =>
    rw [make_eq_ok h]
    intro t ht
    cases ht
  | edit _ hx h ih =>
    intro t ht
    obtain ht | ht := (extends_of_edit hx h).2.2 t ht
    · apply ih t ht
    · apply ht
  | pass _ h ih =>
    rw [toModel_of_run h]
    apply ih

/-- Whatever passes have left in the cache of a machine while it grew, a run ends in every
configuration that is stored for a state. -/
theorem Grown.justified (h : m.Grown) :
  m.Justified m.cache
  := by
  induction h with
  | make h =>
    rw [make_eq_ok h]
    apply Model.justified_empty
  | edit _ hx h ih =>
    obtain ⟨hcache, hextends, -⟩ := extends_of_edit hx h
    rw [hcache]
    apply ih.extend hextends
  | @pass m m' _ _ hm h ih =>
    have hd := hm.reachable.wellFormed
    have howns : m.Owns m.cache := fun s _ => ih.assembly s
    obtain ⟨events, hrun⟩ := run_refresh_oneStep hd (howns.readable hd)
    rw [hrun] at h
    obtain ⟨-, h⟩ := Prod.mk.inj h
    obtain ⟨rfl, -⟩ := Prod.mk.inj h
    apply ih.passed hd hm.guarded

/-- The solver returns a result for a machine that has grown, under all settings. If it has
converged, then as many further passes as it took rounds succeed, and store for every state
the region that the solver returns, whatever earlier passes have left in the cache. -/
theorem passes_iterations_eq_solve (h : m.Grown) (config : SolverConfig) :
  ∃ sol, m.solve config = .ok sol
    ∧ (sol.converged = true → ∃ m', m.passes sol.iterations = .ok m'
      ∧ ∀ s ∈ m.diagram.states, sol.values.get? s = some (m'.cache.stateRegion s))
  := by
  have hd := h.reachable.wellFormed
  have howns : m.Owns m.cache := fun s _ => h.justified.assembly s
  use m.solution config, m.solve_eq config
  intro hconv
  refine ⟨_, passes_eq hd howns _, ?_⟩
  intro s hs
  rw [Model.get?_solution hs]
  apply congrArg some
  symm
  apply Model.stateRegion_iterate_eq hd h.guarded h.justified hconv hs

/-- The loop that switches the light, without the way back to its first state. -/
def branch : Machine :=
  Machine.edited ⟨⟨"loop", Loop.assembly, .standard, .initial (.pseudo 0)⟩, .empty "room"⟩
    [.addState Loop.first, .addState Loop.second, .addEdge (.transition Loop.enter),
      .addEdge (.transition Loop.switch)]

/-- The loop whose way back was added after a pass. -/
def grownLoop : Machine :=
  (branch.run (·.refresh .oneStep)).2.1.edited [.addEdge (.transition Loop.back)]

theorem grown_grownLoop :
  grownLoop.Grown
  := by
  have hmake : Machine.make "loop" Loop.assembly .standard (.pseudo 0) = .ok _ :=
    if_neg (by decide)
  have hbranch : branch.Grown := (Grown.make hmake).edited _ (by decide)
  apply (hbranch.pass rfl).edited _ (by decide)

/-- The loop whose way back was added after a pass, which has stored that the light is off in
the first state. It may be on there as well, and further passes store that. -/
theorem passes_iterations_eq_solve_grownLoop :
  grownLoop.Grown
    ∧ (grownLoop.cache.stateRegion Loop.first).toList = [[⟨"light", "off"⟩]]
    ∧ ∃ sol m', grownLoop.solve .standard = .ok sol ∧ sol.converged = true
      ∧ (sol.values.get? Loop.first).map Region.toList =
        some [[⟨"light", "off"⟩], [⟨"light", "on"⟩]]
      ∧ grownLoop.passes sol.iterations = .ok m'
      ∧ ∀ s ∈ grownLoop.diagram.states, sol.values.get? s = some (m'.cache.stateRegion s)
  := by
  refine ⟨grown_grownLoop, by decide +kernel, ?_⟩
  obtain ⟨sol, hsol, hpasses⟩ := passes_iterations_eq_solve grown_grownLoop .standard
  have hresult : (grownLoop.solve .standard).map
      (fun sol => (sol.converged, (sol.values.get? Loop.first).map Region.toList)) =
        .ok (true, some [[⟨"light", "off"⟩], [⟨"light", "on"⟩]]) := by
    decide +kernel
  have hresult := Model.eq_of_map_solve hsol hresult
  obtain ⟨hconv, hfirst⟩ := Prod.mk.inj hresult
  obtain ⟨m', hrun, heq⟩ := hpasses hconv
  exact ⟨sol, m', hsol, hconv, hfirst, hrun, heq⟩

end Machine

end AssemblySemantics
