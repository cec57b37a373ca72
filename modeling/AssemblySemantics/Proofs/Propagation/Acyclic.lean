import AssemblySemantics.Proofs.Propagation.Forward

/-!
# Passes over acyclic diagrams

In an acyclic diagram, passes settle the states rank by rank: after as many passes as there
are states, what is stored depends neither on the cache from which they started nor on their
number, so that another pass changes nothing. What is stored is then steady, in whatever
order the states and the transitions are listed, and the solver approaches it for each order.
-/

namespace AssemblySemantics

namespace Model

/-- Two models have the same assembly, the same states and the same transitions, which may
be listed in different orders. -/
structure Reordered (m' m : Model) : Prop where
  assembly : m'.assembly = m.assembly
  states : m'.diagram.states.Perm m.diagram.states
  transitions : m'.diagram.transitions.Perm m.diagram.transitions

variable {m m' : Model} {basis : Basis} {f : State → Region} {s : State} {c c' : Cache}

/-! ### Settling rank by rank -/

/-- After several passes a state has the join over a cache in which everything is as after
the last of them or the one before. -/
theorem record_iterate_succ (h : m.diagram.WellFormed) (hs : s ∈ m.properStates) (c : Cache)
    (j : Nat) :
  ∃ d : Cache,
    (m.passed^[j + 1] c).record s = ⟨m.joined d s, (m.joined d s).zones m.assembly⟩
      ∧ ∀ r, ∃ k, j ≤ k ∧ d.record r = (m.passed^[k] c).record r
  := by
  rw [Function.iterate_succ_apply']
  obtain ⟨d, hrecord, hd⟩ := record_passed h (m.passed^[j] c) hs
  use d, hrecord
  intro r
  rw [hd]
  split
  · use j + 1, j.le_succ
    rw [Function.iterate_succ_apply']
  · use j, j.le_refl

/-- After more passes than the rank of a state, what is stored for it depends neither on the
cache from which they started nor on their number. -/
theorem record_iterate_eq (h : m.diagram.WellFormed) {rank : State → Nat}
    (hrank : ∀ t ∈ m.diagram.transitions, rank t.source < rank t.target)
    (hs : s ∈ m.diagram.states) {j j' : Nat} (hj : rank s < j) (hj' : rank s < j') :
  (m.passed^[j] c).record s = (m.passed^[j'] c').record s
  := by
  induction hn : rank s using Nat.strong_induction_on generalizing s j j' with
  | _ n ih =>
    obtain rfl := hn
    obtain ⟨i, rfl⟩ := Nat.exists_eq_add_one.mpr (Nat.zero_lt_of_lt hj)
    obtain ⟨i', rfl⟩ := Nat.exists_eq_add_one.mpr (Nat.zero_lt_of_lt hj')
    obtain rfl | hproper := eq_pseudo_or_mem_properStates h hs
    · rw [Function.iterate_succ_apply', Function.iterate_succ_apply', record_passed_pseudo h,
        record_passed_pseudo h]
    · obtain ⟨d, hrecord, hd⟩ := record_iterate_succ h hproper c i
      obtain ⟨d', hrecord', hd'⟩ := record_iterate_succ h hproper c' i'
      have hjoined : m.joined d s = m.joined d' s := by
        apply joined_congr h hs
        rintro t ht rfl
        have hlt := hrank t ht
        obtain ⟨k, hk, hrecord⟩ := hd t.source
        obtain ⟨k', hk', hrecord'⟩ := hd' t.source
        rw [hrecord, hrecord']
        apply ih _ hlt (h.source_mem_states ht) _ _ rfl
        · omega
        · omega
      rw [hrecord, hrecord', hjoined]

/-- After as many passes as an acyclic diagram has states, the caches agree, from whatever
they started. -/
theorem agree_iterate (h : m.diagram.WellFormed) (hacyclic : m.diagram.Acyclic) (c c' : Cache)
    {j j' : Nat} (hj : m.diagram.states.length ≤ j) (hj' : m.diagram.states.length ≤ j') :
  m.diagram.Agree (m.passed^[j] c) (m.passed^[j'] c')
  := by
  obtain ⟨rank, hbound, hrank⟩ := hacyclic.exists_rank h
  obtain ⟨n, hn⟩ := h.exists_length_eq
  have hcomplete : ∀ c k, m.diagram.states.length ≤ k → m.Complete (m.passed^[k] c) := by
    intro c k hk
    obtain ⟨i, rfl⟩ : ∃ i, k = i + 1 := Nat.exists_eq_add_one.mpr (by omega)
    rw [Function.iterate_succ_apply']
    apply complete_passed h
  apply (hcomplete c j hj).agree (hcomplete c' j' hj') h
  intro s hs
  have hrecord : (m.passed^[j] c).record s = (m.passed^[j'] c').record s :=
    record_iterate_eq h hrank hs ((hbound s hs).trans_le hj) ((hbound s hs).trans_le hj')
  apply (StateRecord.mk.inj hrecord).1

/-! ### Other orders -/

theorem Reordered.pseudo (hsame : m'.Reordered m) (h : m.diagram.WellFormed)
    (h' : m'.diagram.WellFormed) :
  m'.diagram.pseudo = m.diagram.pseudo
  := h.eq_pseudo _ (hsame.states.mem_iff.mp h'.pseudo_mem) h'.isPseudo_pseudo

theorem Reordered.acyclic (hsame : m'.Reordered m) (hacyclic : m.diagram.Acyclic) :
  m'.diagram.Acyclic
  := by
  have hstep : ∀ r s, m'.diagram.Step r s → m.diagram.Step r s := by
    rintro r s ⟨t, ht, hsource, htarget⟩
    exact ⟨t, hsame.transitions.mem_iff.mp ht, hsource, htarget⟩
  intro s hpath
  apply hacyclic s (Relation.TransGen.mono hstep _ _ hpath)

/-- Regions are steady in whatever order the states and the transitions are listed. -/
theorem Steady.reordered (hf : m.Steady basis f) (h : m.diagram.WellFormed)
    (h' : m'.diagram.WellFormed) (hsame : m'.Reordered m) :
  m'.Steady basis f
  := by
  constructor
  · rw [hsame.pseudo h h', hsame.assembly]
    apply hf.pseudo
  · intro s hs
    rw [hsame.assembly]
    apply hf.assembly s (hsame.states.mem_iff.mp hs)
  · intro s hs b
    obtain ⟨hstate, hp⟩ := mem_properStates.mp hs
    have hproper := mem_properStates.mpr ⟨hsame.states.mem_iff.mp hstate, hp⟩
    rw [hf.mem_iff s hproper, hsame.assembly]
    apply exists_congr
    intro t
    rw [hsame.transitions.mem_iff]

end Model

namespace Machine

/-- A pass succeeds and changes nothing that is stored for the states and the transitions. -/
def Stable (m : Machine) : Prop :=
  ∃ m' events, m.run (·.refresh .oneStep) = (.ok (), m', events)
    ∧ m.diagram.Agree m'.cache m.cache

variable {m m' : Machine}

/-- Passes over an acyclic diagram come to an end: once there were as many as there are
states, another one changes nothing. -/
theorem exists_stable (h : m.diagram.WellFormed) (hacyclic : m.diagram.Acyclic)
    (howns : m.Owns m.cache) {k : Nat} (hk : m.diagram.states.length ≤ k) :
  ∃ m', m.passes k = .ok m' ∧ m'.toModel = m.toModel ∧ m'.Stable
  := by
  refine ⟨_, passes_eq h howns k, rfl, ?_⟩
  obtain ⟨n, hn⟩ := h.exists_length_eq
  obtain ⟨i, rfl⟩ : ∃ i, k = i + 1 := Nat.exists_eq_add_one.mpr (by omega)
  have hreadable : m.Readable (m.passed^[i + 1] m.cache) := by
    rw [Function.iterate_succ_apply']
    apply (Model.owns_passed h _).readable h
  obtain ⟨events, hrun⟩ :=
    run_refresh_oneStep (m := { m with cache := m.passed^[i + 1] m.cache }) h hreadable
  refine ⟨_, events, hrun, ?_⟩
  rw [← Function.iterate_succ_apply' m.passed]
  apply Model.agree_iterate h hacyclic m.cache m.cache (hk.trans (Nat.le_succ _)) hk

/-- What a stable machine stores for its states is steady. -/
theorem Stable.steady (hstable : m.Stable) (h : m.diagram.WellFormed) :
  m.Steady m.config.basis m.cache.stateRegion
  := by
  obtain ⟨m', events, hrun, hagree⟩ := hstable
  rw [(cache_eq_passed_of_run h hrun).1] at hagree
  apply Model.Steady.congr _ h hagree.stateRegion
  apply Model.steady_passed h
  intro t ht
  right
  symm
  apply hagree.record (h.source_mem_states ht)

/-- When a pass over an acyclic machine changes nothing any more, then the solver, whenever it
converges, gives every clear state what is stored for it, in whatever order the states and
the transitions are listed. -/
theorem solve_eq_of_stable (h : m.Reachable) (hacyclic : m.diagram.Acyclic)
    (hstable : m.Stable) (h' : m'.Reachable) (hsame : m'.Reordered m.toModel)
    {config : SolverConfig} (hbasis : config.basis = m.config.basis) :
  ∃ sol, m'.solve config = .ok sol ∧ (sol.converged = true →
    ∀ s ∈ m.diagram.states, m'.Clear m.cache.stateRegion s →
      sol.values.get? s = some (m.cache.stateRegion s))
  := by
  refine ⟨_, m'.solve_eq config, ?_⟩
  intro hconv s hs hclear
  have hs' := hsame.states.mem_iff.mpr hs
  have hsteady := hstable.steady h.wellFormed
  rw [← hbasis] at hsteady
  rw [Model.get?_solution hs']
  apply congrArg some
  apply Model.value_eq_of_clear h'.wellFormed (hsame.acyclic hacyclic) _ hconv hs' hclear
  apply hsteady.reordered h.wellFormed h'.wellFormed hsame

end Machine

/-- The transitions of the detour go from smaller to larger numbers. -/
theorem Detour.acyclic_shuffled :
  shuffled.diagram.Acyclic
  := by
  apply Diagram.acyclic_of_rank State.uid
  decide

namespace Machine

/-- Passes over the detour, with the lit room after the hall to which it leads, come to an end
after four. -/
theorem exists_stable_shuffled :
  ∃ m, Detour.shuffled.passes 4 = .ok m ∧ m.toModel = Detour.shuffled.toModel
    ∧ m.Reachable ∧ m.diagram.Acyclic ∧ m.Stable
  := by
  have hreachable := Detour.reachable_shuffled
  have hcache : Detour.shuffled.cache = .empty Detour.shuffled.assembly.id := by decide
  have howns : Detour.shuffled.Owns Detour.shuffled.cache := by
    rw [hcache]
    apply Model.owns_empty
  obtain ⟨m, hpasses, hmodel, hstable⟩ :=
    exists_stable (k := 4) hreachable.wellFormed Detour.acyclic_shuffled howns (by decide)
  refine ⟨m, hpasses, hmodel, hreachable.of_toModel_eq hmodel, ?_, hstable⟩
  rw [hmodel]
  apply Detour.acyclic_shuffled

/-- What passes over the detour store in one order is what the solver gives in the other
order, in which the states are passed. -/
theorem solve_eq_of_stable_detour :
  ∃ m : Machine, m.Reachable ∧ m.diagram.Acyclic ∧ m.Stable
    ∧ m.toModel = Detour.shuffled.toModel
    ∧ Detour.ordered.Reachable ∧ Detour.ordered.Reordered m.toModel
    ∧ SolverConfig.standard.basis = m.config.basis
    ∧ ∃ sol, Detour.ordered.solve .standard = .ok sol ∧ sol.converged = true
      ∧ ∀ s ∈ m.diagram.states, Detour.ordered.Clear m.cache.stateRegion s
        ∧ sol.values.get? s = some (m.cache.stateRegion s)
  := by
  obtain ⟨m, -, hmodel, hreachable, hacyclic, hstable⟩ := exists_stable_shuffled
  have hsame : Detour.ordered.Reordered m.toModel := by
    rw [hmodel]
    constructor
    · rfl
    · decide
    · decide
  have hbasis : SolverConfig.standard.basis = m.config.basis := by
    rw [hmodel]
    rfl
  have hclear : ∀ s, Detour.ordered.Clear m.cache.stateRegion s := by
    intro s
    apply Model.clear_of_forward
    intro t ht _
    apply precedes_ordered t ht
  have hconv : (Detour.ordered.solve .standard).map Solution.converged = .ok true := by
    decide +kernel
  obtain ⟨sol, hsol, heq⟩ :=
    solve_eq_of_stable hreachable hacyclic hstable Detour.reachable_ordered hsame hbasis
  have hconv : sol.converged = true := Model.eq_of_map_solve hsol hconv
  refine ⟨m, hreachable, hacyclic, hstable, hmodel, Detour.reachable_ordered, hsame, hbasis,
    sol, hsol, hconv, ?_⟩
  intro s hs
  exact ⟨hclear s, heq hconv s hs (hclear s)⟩

/-- In the other order the solver reaches the hall, and from there the waiting state, before
it reaches the lit room: it gives the waiting state a configuration, although none is stored
for it after passes that came to an end, and although it gives it none in the order in which
the states are passed. -/
theorem solve_ne_stable_detour :
  ∃ m sol sol', Detour.shuffled.passes 4 = .ok m
    ∧ m.Reachable ∧ m.diagram.Acyclic ∧ m.config.basis = .stateRegion ∧ m.Stable
    ∧ m.solve m.config = .ok sol ∧ sol.converged = true
    ∧ sol.values.get? Detour.awake ≠ some (m.cache.stateRegion Detour.awake)
    ∧ Detour.ordered.solve m.config = .ok sol' ∧ sol'.converged = true
    ∧ sol.values.get? Detour.awake ≠ sol'.values.get? Detour.awake
  := by
  obtain ⟨m, hpasses, hmodel, hreachable, hacyclic, hstable⟩ := exists_stable_shuffled
  have hstored : (Detour.shuffled.passes 4).map (·.cache.stateRegion Detour.awake) =
      .ok (.bottom "room") := by
    decide +kernel
  have hsolved : (Detour.shuffled.solve .standard).map
      (fun sol => (sol.converged, sol.values.get? Detour.awake)) =
        .ok (true, some (.ofConfigurations "room" [[⟨"light", "on"⟩]])) := by
    decide +kernel
  have hsolved' : (Detour.ordered.solve .standard).map
      (fun sol => (sol.converged, sol.values.get? Detour.awake)) =
        .ok (true, some (.bottom "room")) := by
    decide +kernel
  rw [hpasses] at hstored
  have hstored : m.cache.stateRegion Detour.awake = .bottom "room" := Except.ok.inj hstored
  rw [Model.solve_eq] at hsolved hsolved'
  obtain ⟨hconv, hvalue⟩ := Prod.mk.inj (Except.ok.inj hsolved)
  obtain ⟨hconv', hvalue'⟩ := Prod.mk.inj (Except.ok.inj hsolved')
  have hne : some (Region.ofConfigurations "room" [[⟨"light", "on"⟩]]) ≠
      some (.bottom "room") := by
    decide
  refine ⟨m, _, _, hpasses, hreachable, hacyclic, ?_, hstable, ?_, hconv, ?_, ?_, hconv', ?_⟩
  · rw [hmodel]
    rfl
  · rw [hmodel]
    apply Model.solve_eq
  · rw [hvalue, hstored]
    apply hne
  · rw [hmodel]
    apply Model.solve_eq
  · rw [hvalue, hvalue']
    apply hne

end Machine

end AssemblySemantics
