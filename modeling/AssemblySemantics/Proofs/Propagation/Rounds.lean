import AssemblySemantics.Proofs.Machine.History
import AssemblySemantics.Proofs.Propagation.Outcome

/-!
# Passes and rounds

Without reactive transitions, the values of the solver ascend: every state is offered what
it has already. Adding to its value what is offered to it is then the same as replacing it,
so that a pass over a cache does what a round of the solver does, and `k` passes from an
empty cache store what the solver returns under a cap of `k` rounds.
-/

namespace AssemblySemantics

namespace Transition

/-- The image under a transition that is not reactive does not depend on the basis. -/
theorem image_basis_eq {t : Transition} (ht : t.isReactive = false) (r : Region) (a : Assembly)
    (basis basis' : Basis) :
  t.image r a basis = t.image r a basis'
  := by
  rw [image, image, reach, reach, firing, firing, ht, if_neg Bool.false_ne_true,
    if_neg Bool.false_ne_true]

end Transition

namespace Model

/-- No transition is reactive. -/
def Guarded (m : Model) : Prop := ∀ t ∈ m.diagram.transitions, t.isReactive = false

/-- A cache stores the value of a state and its exit zones. -/
def Mirrors (m : Model) (c : Cache) (v : Table State Region) (s : State) : Prop :=
  c.record s = ⟨m.value v s, (m.value v s).zones m.assembly⟩

/-- Values from which a pass does what a sweep does: a state is offered at least what it
has. -/
structure Ascending (m : Model) (basis : Basis) (v : Table State Region) : Prop where
  tagged : m.Tagged v
  pseudo : m.value v m.diagram.pseudo = m.assembly.initial
  value_subset : ∀ s ∈ m.properStates, m.value v s ⊆ m.offered basis v s

variable {m : Model} {basis : Basis} {config : SolverConfig} {c : Cache}
  {v : Table State Region} {s : State}

/-! ### Ascending values -/

/-- Without reactive transitions, a state is offered more when a value is raised. -/
theorem offered_subset_offered_raise (h : m.diagram.WellFormed) (hg : m.Guarded)
    (hs : s ∈ m.diagram.states) (s' : State) :
  m.offered basis v s ⊆ m.offered basis (m.raise basis v s') s
  := by
  intro b hb
  obtain ⟨t, ht, htarget, himage⟩ := (mem_offered_iff h hs).mp hb
  apply (mem_offered_iff h hs).mpr
  use t, ht, htarget
  apply Transition.image_mono_of_not_isReactive (hg t ht) (value_subset_raise s' t.source) b himage

theorem ascending_startValues (h : m.diagram.WellFormed) :
  m.Ascending basis m.startValues
  := by
  constructor
  · apply m.tagged_startValues
  · apply value_startValues_pseudo h
  · intro s hs b hb
    rw [value_startValues_of_mem hs] at hb
    apply (Region.not_mem_bottom hb).elim

/-- Without reactive transitions, values ascend as long as they are raised. -/
theorem Ascending.raise (hv : m.Ascending basis v) (h : m.diagram.WellFormed)
    (hg : m.Guarded) (hs : s ∈ m.properStates) :
  m.Ascending basis (m.raise basis v s)
  := by
  constructor
  · apply hv.tagged.raise
  · rw [value_raise, if_neg]
    · apply hv.pseudo
    · rintro rfl
      apply pseudo_not_mem_properStates h hs
  · intro s' hs'
    apply Region.Subset.trans _ (offered_subset_offered_raise h hg (mem_properStates.mp hs').1 s)
    rw [value_raise]
    split
    · rename_i heq
      obtain rfl := heq
      rw [Region.union_eq_right (hv.tagged.assembly_value s) (hv.value_subset s hs)]
      apply Region.Subset.refl
    · apply hv.value_subset s' hs'

theorem Ascending.sweep (hv : m.Ascending basis v) (h : m.diagram.WellFormed)
    (hg : m.Guarded) :
  m.Ascending basis (m.sweep basis v)
  := by
  apply List.foldlRecOn (motive := m.Ascending basis) _ _ hv
  intro v hv s hs
  apply hv.raise h hg hs

/-! ### A pass beside a sweep -/

/-- A cache that stores the values joins for a state what the state is offered. -/
theorem joined_eq_offered (h : m.diagram.WellFormed) (hg : m.Guarded)
    (hs : s ∈ m.diagram.states) (hc : ∀ r ∈ m.diagram.states, m.Mirrors c v r) :
  m.joined c s = m.offered basis v s
  := by
  apply congrArg (Region.unions m.assembly.id)
  apply List.map_congr_left
  intro e he
  cases e with
  | link l => rfl
  | transition t =>
    have ht := ((h.mem_incoming_iff hs).mp he).1
    obtain ⟨hregion, hzones⟩ := StateRecord.mk.inj (hc t.source (h.source_mem_states ht))
    rw [reached, hregion, hzones]
    apply Transition.image_basis_eq (hg t ht)

/-- Renewing a state in the cache does what raising its value does. -/
theorem mirrors_renew (hv : m.Ascending basis v) (h : m.diagram.WellFormed) (hg : m.Guarded)
    (hs : s ∈ m.properStates) (hc : ∀ r ∈ m.diagram.states, m.Mirrors c v r) :
  ∀ r ∈ m.diagram.states, m.Mirrors (m.renew c s) (m.raise basis v s) r
  := by
  intro r hr
  rw [Mirrors, renew, record_stow, value_raise]
  split
  · rw [joined_eq_offered h hg (mem_properStates.mp hs).1 hc,
      Region.union_eq_right (hv.tagged.assembly_value s) (hv.value_subset s hs)]
  · apply hc r hr

theorem mirrors_foldl_renew (h : m.diagram.WellFormed) (hg : m.Guarded) (states : List State)
    (hstates : ∀ s ∈ states, s ∈ m.properStates) (hv : m.Ascending basis v)
    (hc : ∀ r ∈ m.diagram.states, m.Mirrors c v r) :
  ∀ r ∈ m.diagram.states,
    m.Mirrors (states.foldl m.renew c) (states.foldl (m.raise basis) v) r
  := by
  induction states generalizing c v with
  | nil => apply hc
  | cons s states ih =>
    have hs := hstates s List.mem_cons_self
    apply ih _ (hv.raise h hg hs) (mirrors_renew hv h hg hs hc)
    intro s' hs'
    apply hstates s' (List.mem_cons_of_mem s hs')

/-- A pass does what a sweep does; of the pseudostate nothing need be stored before. -/
theorem mirrors_passed (h : m.diagram.WellFormed) (hg : m.Guarded) (hv : m.Ascending basis v)
    (hc : ∀ r ∈ m.properStates, m.Mirrors c v r) :
  ∀ r ∈ m.diagram.states, m.Mirrors (m.passed c) (m.sweep basis v) r
  := by
  have hstow : ∀ r ∈ m.diagram.states,
      m.Mirrors (m.stow c m.diagram.pseudo m.assembly.initial) v r := by
    intro r hr
    rw [Mirrors, record_stow]
    split
    · rename_i heq
      rw [← heq, hv.pseudo]
    · rename_i hne
      apply hc r ((eq_pseudo_or_mem_properStates h hr).resolve_left (Ne.symm hne))
  intro r hr
  rw [Mirrors, passed, record_foldl_fill]
  apply mirrors_foldl_renew h hg m.properStates (fun _ => id) hv hstow r hr

/-- Several passes do what as many sweeps do. -/
theorem mirrors_iterate (h : m.diagram.WellFormed) (hg : m.Guarded) (hv : m.Ascending basis v)
    (hc : ∀ r ∈ m.properStates, m.Mirrors c v r) (k : Nat) :
  ∀ r ∈ m.diagram.states, m.Mirrors (m.passed^[k + 1] c) ((m.sweep basis)^[k + 1] v) r
  := by
  induction k generalizing c v with
  | zero => apply mirrors_passed h hg hv hc
  | succ k ih =>
    rw [Function.iterate_succ_apply, Function.iterate_succ_apply]
    apply ih (hv.sweep h hg)
    intro r hr
    apply mirrors_passed h hg hv hc r (mem_properStates.mp hr).1

/-- An empty cache stores what the solver starts from, except at the pseudostate. -/
theorem mirrors_empty (hs : s ∈ m.properStates) :
  m.Mirrors (.empty m.assembly.id) m.startValues s
  := by
  rw [Mirrors, value_startValues_of_mem hs, bottom, Region.zones_bottom]
  rfl

end Model

namespace Machine

variable {m : Machine}

/-- A machine without reactive transitions stores for every state, after as many passes from
an empty cache as a cap allows rounds, what the solver returns under that cap. -/
theorem passes_eq_solve (h : m.Reachable)
    (hguarded : ∀ t ∈ m.diagram.transitions, t.isReactive = false)
    (hcache : m.cache = .empty m.assembly.id) (config : SolverConfig) :
  ∃ m' sol, m.passes config.cap.rounds = .ok m' ∧ m.solve config = .ok sol
    ∧ ∀ s ∈ m.diagram.states, sol.values.get? s = some (m'.cache.stateRegion s)
  := by
  have hd := h.wellFormed
  have howns : m.Owns m.cache := by
    rw [hcache]
    intro s _
    rfl
  refine ⟨_, _, passes_eq hd howns _, m.solve_eq config, ?_⟩
  intro s hs
  obtain ⟨k, hk⟩ := Nat.exists_eq_add_one.mpr config.cap.rounds_pos
  have hmirrors : m.Mirrors (m.passed^[config.cap.rounds] m.cache)
      (m.solution config).values s := by
    rw [Model.solution, Model.values_settle, hk, hcache]
    apply Model.mirrors_iterate hd hguarded (Model.ascending_startValues hd) _ k s hs
    intro r hr
    apply Model.mirrors_empty hr
  rw [Model.get?_solution hs]
  apply congrArg some
  apply (StateRecord.mk.inj hmirrors).1.symm

/-- The loop that switches the light, under a cap of two rounds, which stops the solver
before it has converged. -/
theorem passes_eq_solve_switch :
  (Loop.machine Loop.switch).Reachable
    ∧ (∀ t ∈ (Loop.machine Loop.switch).diagram.transitions, t.isReactive = false)
    ∧ (Loop.machine Loop.switch).cache = .empty (Loop.machine Loop.switch).assembly.id
    ∧ ∃ m' sol, (Loop.machine Loop.switch).passes 2 = .ok m'
      ∧ (Loop.machine Loop.switch).solve ⟨⟨2, false, by decide⟩, .stateRegion⟩ = .ok sol
      ∧ sol.converged = false
      ∧ ∀ s ∈ (Loop.machine Loop.switch).diagram.states,
        sol.values.get? s = some (m'.cache.stateRegion s)
  := by
  have hreachable := Loop.reachable_machine Loop.switch
  have hguarded : ∀ t ∈ (Loop.machine Loop.switch).diagram.transitions,
      t.isReactive = false := by
    decide
  have hcache : (Loop.machine Loop.switch).cache =
      .empty (Loop.machine Loop.switch).assembly.id := by
    decide
  use hreachable, hguarded, hcache
  obtain ⟨m', sol, hpasses, hsol, heq⟩ :=
    passes_eq_solve hreachable hguarded hcache ⟨⟨2, false, by decide⟩, .stateRegion⟩
  have hconv : ((Loop.machine Loop.switch).solve ⟨⟨2, false, by decide⟩, .stateRegion⟩).map
      Solution.converged = .ok false := by
    decide +kernel
  exact ⟨m', sol, hpasses, hsol, Model.eq_of_map_solve hsol hconv, heq⟩

end Machine

end AssemblySemantics
