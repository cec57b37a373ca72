import AssemblySemantics.Proofs.Diagram.Paths
import AssemblySemantics.Proofs.Solver.Iteration

/-!
# Steady regions

Regions of the states are steady when the region of every state is the join of what its
incoming transitions reach from the regions of their sources. The values of the solver
approach steady regions: a state that is forward gets its steady region at once, in the first
sweep, and no state is given more than its steady region unless, on some path to it, a
transition is blocked whose source is not forward. When the solver has converged on an acyclic
diagram, the states without such a transition have their steady regions.
-/

namespace AssemblySemantics

namespace Model

/-- The pseudostate has the initial region, and every other state the join of what its
incoming transitions reach from the regions of their sources. -/
structure Steady (m : Model) (basis : Basis) (f : State → Region) : Prop where
  pseudo : f m.diagram.pseudo = m.assembly.initial
  assembly : ∀ s ∈ m.diagram.states, (f s).assembly = m.assembly.id
  mem_iff : ∀ s ∈ m.properStates, ∀ c, c ∈ f s
    ↔ ∃ t ∈ m.diagram.transitions, t.target = s ∧ c ∈ t.image (f t.source) m.assembly basis

/-- On all paths to a state, every transition has a forward source, or it is not blocked over
the region of its source. -/
def Clear (m : Model) (f : State → Region) (s : State) : Prop :=
  ∀ t ∈ m.diagram.transitions, m.diagram.Leads t.target s →
    m.diagram.Forward t.source ∨ ¬ t.Blocked (f t.source) m.assembly

/-- What is known of the values when some states were raised in the present sweep: a clear
state has at most its steady region, and a forward state has nothing or all of it, and all of
it once it was raised. -/
structure Approaches (m : Model) (f : State → Region) (raised : List State)
    (v : Table State Region) : Prop where
  tagged : m.Tagged v
  value_subset : ∀ s ∈ m.diagram.states, m.Clear f s → m.value v s ⊆ f s
  subset_value : ∀ s, m.diagram.Forward s → s = m.diagram.pseudo ∨ s ∈ raised →
    f s ⊆ m.value v s
  none_or_all : ∀ s ∈ m.diagram.states, m.diagram.Forward s →
    m.value v s = m.bottom ∨ f s ⊆ m.value v s

variable {m : Model} {basis : Basis} {config : SolverConfig} {f g : State → Region}
  {v : Table State Region} {s : State} {t : Transition} {before after : List State}

theorem Clear.source (h : m.Clear f t.target) (ht : t ∈ m.diagram.transitions) :
  m.Clear f t.source
  := by
  intro t' ht' hleads
  apply h t' ht' (hleads.target ht)

theorem clear_of_forward (h : m.diagram.Forward s) :
  m.Clear f s
  := by
  intro t ht hleads
  left
  apply h.of_leads (((Diagram.Leads.refl _ _).target ht).trans hleads)

/-- Only the regions of the states matter. -/
theorem Steady.congr (h : m.Steady basis f) (hd : m.diagram.WellFormed)
    (hfg : ∀ s ∈ m.diagram.states, f s = g s) :
  m.Steady basis g
  := by
  constructor
  · rw [← hfg _ hd.pseudo_mem]
    apply h.pseudo
  · intro s hs
    rw [← hfg s hs]
    apply h.assembly s hs
  · intro s hs c
    rw [← hfg s (mem_properStates.mp hs).1, h.mem_iff s hs]
    apply exists_congr
    intro t
    apply and_congr_right
    intro ht
    rw [hfg t.source (hd.source_mem_states ht)]

/-! ### Sweeps in order -/

/-- What is kept when the next state in order is raised is kept by a sweep. -/
theorem sweep_induction {P : List State → Table State Region → Prop}
    (hraise : ∀ before s after v, m.properStates = before ++ s :: after → P before v →
      P (before ++ [s]) (m.raise basis v s))
    (hv : P [] v) :
  P m.properStates (m.sweep basis v)
  := by
  have hfold : ∀ rest before v, m.properStates = before ++ rest → P before v →
      P m.properStates (rest.foldl (m.raise basis) v) := by
    intro rest
    induction rest with
    | nil =>
      intro before v hsplit hv
      rw [hsplit, List.append_nil]
      apply hv
    | cons s rest ih =>
      intro before v hsplit hv
      apply ih (before ++ [s])
      · rw [hsplit, List.append_assoc, List.singleton_append]
      · apply hraise before s rest v hsplit hv
  apply hfold _ [] v rfl hv

theorem settle_induction_in_order {P : List State → Table State Region → Prop}
    (hraise : ∀ before s after v, m.properStates = before ++ s :: after → P before v →
      P (before ++ [s]) (m.raise basis v s))
    (hagain : ∀ v, P m.properStates v → P [] v) (fuel done : Nat) (hv : P [] v) :
  P m.properStates (m.settle basis (fuel + 1) done v).values
  := by
  have hsweep : P m.properStates (m.sweep basis v) := sweep_induction hraise hv
  induction fuel generalizing v done with
  | zero =>
    rw [settle]
    split
    · rename_i heq
      rw [heq] at hsweep
      apply hsweep
    · apply hsweep
  | succ fuel ih =>
    rw [settle]
    split
    · rename_i heq
      rw [heq] at hsweep
      apply hsweep
    · apply ih _ (hagain _ hsweep)
      apply sweep_induction hraise (hagain _ hsweep)

/-- What holds at the start, is kept when the next state in order is raised, and holds before
a sweep when it held after the one before, holds of the solution. -/
theorem solution_induction_in_order {P : List State → Table State Region → Prop}
    (hstart : P [] m.startValues)
    (hraise : ∀ before s after v, m.properStates = before ++ s :: after → P before v →
      P (before ++ [s]) (m.raise config.basis v s))
    (hagain : ∀ v, P m.properStates v → P [] v) :
  P m.properStates (m.solution config).values
  := by
  obtain ⟨fuel, hfuel⟩ := Nat.exists_eq_add_one.mpr config.cap.rounds_pos
  rw [solution, hfuel]
  apply settle_induction_in_order hraise hagain fuel 0 hstart

/-! ### Approaching steady regions -/

/-- A forward state that has all of its steady region has exactly this. -/
theorem Approaches.value_eq (h : m.Approaches f before v) (hf : m.Steady basis f)
    (hs : s ∈ m.diagram.states) (hforward : m.diagram.Forward s) (hall : f s ⊆ m.value v s) :
  m.value v s = f s
  := by
  apply Region.ext
  · rw [h.tagged.assembly_value, hf.assembly s hs]
  · intro c
    constructor
    · apply h.value_subset s hs (clear_of_forward hforward)
    · apply hall

theorem approaches_startValues (hd : m.diagram.WellFormed) (hf : m.Steady basis f) :
  m.Approaches f [] m.startValues
  := by
  constructor
  · apply m.tagged_startValues
  · intro s hs _ c hc
    obtain ⟨-, hp, hc⟩ := mem_value_startValues.mp hc
    rw [hd.eq_pseudo s hs hp, hf.pseudo]
    apply hc
  · rintro s - (rfl | hs)
    · intro c hc
      rw [hf.pseudo] at hc
      apply mem_value_startValues.mpr ⟨hd.pseudo_mem, hd.isPseudo_pseudo, hc⟩
    · cases hs
  · intro s hs _
    obtain rfl | hs := eq_pseudo_or_mem_properStates hd hs
    · right
      rw [value_startValues_pseudo hd, hf.pseudo]
      apply Region.Subset.refl
    · left
      apply value_startValues_of_mem hs

/-- A clear state is offered at most its steady region. -/
theorem Approaches.offered_subset (h : m.Approaches f before v) (hf : m.Steady basis f)
    (hd : m.diagram.WellFormed) (hs : s ∈ m.properStates) (hclear : m.Clear f s) :
  m.offered basis v s ⊆ f s
  := by
  intro c hc
  obtain ⟨t, ht, rfl, himage⟩ := (mem_offered_iff hd (mem_properStates.mp hs).1).mp hc
  have hsource := hd.source_mem_states ht
  apply (hf.mem_iff t.target hs c).mpr
  use t, ht, rfl
  obtain hforward | hopen := hclear t ht (Diagram.Leads.refl _ _)
  · -- nothing comes from the source before it has all of its region
    obtain hnone | hall := h.none_or_all t.source hsource hforward
    · rw [hnone] at himage
      apply (Transition.not_mem_image_bottom himage).elim
    · rw [← h.value_eq hf hsource hforward hall]
      apply himage
  · apply Transition.image_subset_of_not_blocked hopen _ c himage
    apply h.value_subset t.source hsource (hclear.source ht)

/-- The state that is next in order is offered its steady region if it is forward. -/
theorem Approaches.subset_offered (h : m.Approaches f before v) (hf : m.Steady basis f)
    (hd : m.diagram.WellFormed) (hsplit : m.properStates = before ++ s :: after)
    (hs : s ∈ m.properStates) (hforward : m.diagram.Forward s) :
  f s ⊆ m.offered basis v s
  := by
  intro c hc
  obtain ⟨t, ht, rfl, himage⟩ := (hf.mem_iff s hs c).mp hc
  have hsource : m.diagram.Forward t.source :=
    hforward.of_leads ((Diagram.Leads.refl _ _).target ht)
  have hraised := (precedes_iff hd hsplit).mp (hforward t ht (Diagram.Leads.refl _ _))
  apply (mem_offered_iff hd (mem_properStates.mp hs).1).mpr
  use t, ht, rfl
  rw [h.value_eq hf (hd.source_mem_states ht) hsource (h.subset_value t.source hsource hraised)]
  apply himage

/-- Raising the next state in order keeps the values on the way to the steady regions. -/
theorem Approaches.raise (h : m.Approaches f before v) (hf : m.Steady basis f)
    (hd : m.diagram.WellFormed) (hsplit : m.properStates = before ++ s :: after) :
  m.Approaches f (before ++ [s]) (m.raise basis v s)
  := by
  have hs : s ∈ m.properStates := by
    rw [hsplit]
    apply List.mem_append_right before List.mem_cons_self
  have hall : m.diagram.Forward s → f s ⊆ m.value (m.raise basis v s) s := by
    intro hforward
    rw [value_raise, if_pos rfl]
    apply Region.Subset.trans _ Region.subset_union_right
    apply h.subset_offered hf hd hsplit hs hforward
  constructor
  · apply h.tagged.raise
  · intro s' hs' hclear c hc
    rw [value_raise] at hc
    split at hc
    · rename_i heq
      obtain rfl := heq
      obtain hc | hc := Region.mem_union.mp hc
      · apply h.value_subset s hs' hclear c hc
      · apply h.offered_subset hf hd hs hclear c hc
    · apply h.value_subset s' hs' hclear c hc
  · intro s' hforward hraised
    by_cases heq : s = s'
    · obtain rfl := heq
      apply hall hforward
    · apply Region.Subset.trans _ (value_subset_raise s s')
      apply h.subset_value s' hforward
      apply hraised.imp_right
      intro hmem
      obtain hmem | hmem := List.mem_append.mp hmem
      · apply hmem
      · apply (heq (List.mem_singleton.mp hmem).symm).elim
  · intro s' hs' hforward
    by_cases heq : s = s'
    · obtain rfl := heq
      right
      apply hall hforward
    · rw [value_raise, if_neg heq]
      apply h.none_or_all s' hs' hforward

/-- The solution is on the way to all steady regions, whether the solver has converged or
not. -/
theorem approaches_solution (hd : m.diagram.WellFormed) (hf : m.Steady config.basis f) :
  m.Approaches f m.properStates (m.solution config).values
  := by
  apply solution_induction_in_order (P := m.Approaches f) (approaches_startValues hd hf)
  · intro before s after v hsplit hv
    apply hv.raise hf hd hsplit
  · intro v hv
    refine ⟨hv.tagged, hv.value_subset, ?_, hv.none_or_all⟩
    intro s hforward hs
    apply hv.subset_value s hforward
    apply hs.imp_right
    intro hmem
    cases hmem

/-- In the solution a forward state has its steady region. -/
theorem value_eq_of_forward (hd : m.diagram.WellFormed) (hf : m.Steady config.basis f)
    (hs : s ∈ m.diagram.states) (hforward : m.diagram.Forward s) :
  m.value (m.solution config).values s = f s
  := by
  have happroaches := approaches_solution hd hf
  apply happroaches.value_eq hf hs hforward
  apply happroaches.subset_value s hforward (eq_pseudo_or_mem_properStates hd hs)

/-- When the solver has converged on an acyclic diagram, a clear state has its steady
region. -/
theorem value_eq_of_clear (hd : m.diagram.WellFormed) (hacyclic : m.diagram.Acyclic)
    (hf : m.Steady config.basis f) (hconv : (m.solution config).converged = true)
    (hs : s ∈ m.diagram.states) (hclear : m.Clear f s) :
  m.value (m.solution config).values s = f s
  := by
  obtain ⟨rank, -, hrank⟩ := hacyclic.exists_rank hd
  induction hn : rank s using Nat.strong_induction_on generalizing s with
  | _ n ih =>
    obtain rfl := hn
    apply Region.ext
    · rw [(m.tagged_solution config).assembly_value, hf.assembly s hs]
    · intro c
      constructor
      · apply (approaches_solution hd hf).value_subset s hs hclear
      · intro hc
        obtain rfl | hproper := eq_pseudo_or_mem_properStates hd hs
        · rw [value_pseudo hd, ← hf.pseudo]
          apply hc
        · obtain ⟨t, ht, rfl, himage⟩ := (hf.mem_iff s hproper c).mp hc
          have hsource : m.value (m.solution config).values t.source = f t.source :=
            ih _ (hrank t ht) (hd.source_mem_states ht) (hclear.source ht) rfl
          rw [← hsource] at himage
          apply image_subset_value hd hconv ht c himage

end Model

end AssemblySemantics
