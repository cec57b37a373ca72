import AssemblySemantics.Proofs.Diagram.Order
import AssemblySemantics.Proofs.Solver.Sweep
import Mathlib.Logic.Function.Iterate

/-!
# The result of the solver

The solver never fails: its result is the `solution`, for which sweeps are repeated until
one changes nothing or the cap is reached. What holds of the values at the start and is kept
when one state is raised holds of the solution. When the solver has converged, the solution
is closed under the transitions of the diagram.
-/

namespace AssemblySemantics

namespace Model

/-- The solution after at most `fuel` sweeps that follow `done` others. -/
def settle (m : Model) (basis : Basis) : (fuel done : Nat) → Table State Region → Solution
  | 0, done, v => ⟨v, done, false⟩
  | fuel + 1, done, v =>
    if m.sweep basis v = v then ⟨v, done + 1, true⟩
    else m.settle basis fuel (done + 1) (m.sweep basis v)

/-- The solution under given settings. -/
def solution (m : Model) (config : SolverConfig) : Solution :=
  m.settle config.basis config.cap.rounds 0 m.startValues

variable {m : Model} {basis : Basis} {config : SolverConfig} {v : Table State Region}
  {s : State} {c : Configuration} {t : Transition}

/-! ### The values at the start -/

theorem get?_startValues (s : State) :
  m.startValues.get? s =
    if s ∈ m.diagram.states then some (if s.isPseudo then m.assembly.initial else m.bottom)
    else none
  := Table.get?_ofList_map _ _ _

theorem value_startValues_pseudo (h : m.diagram.WellFormed) :
  m.value m.startValues m.diagram.pseudo = m.assembly.initial
  := by
  rw [value, Table.getD, get?_startValues, if_pos h.pseudo_mem, h.isPseudo_pseudo]
  rfl

/-- At the start the states other than the pseudostate have nothing. -/
theorem value_startValues_of_mem (hs : s ∈ m.properStates) :
  m.value m.startValues s = m.bottom
  := by
  obtain ⟨hstate, hp⟩ := mem_properStates.mp hs
  rw [value, Table.getD, get?_startValues, if_pos hstate, hp]
  rfl

theorem tagged_startValues (m : Model) :
  m.Tagged m.startValues
  := by
  intro s r hr
  rw [get?_startValues] at hr
  split at hr
  · obtain rfl := Option.some.inj hr
    split
    · apply Assembly.assembly_initial
    · rfl
  · cases hr

theorem contains_startValues (hs : s ∈ m.diagram.states) :
  m.startValues.contains s = true
  := by
  rw [Table.contains, get?_startValues, if_pos hs]
  rfl

/-- At the start only a pseudostate has configurations, the initial ones. -/
theorem mem_value_startValues :
  c ∈ m.value m.startValues s
    ↔ s ∈ m.diagram.states ∧ s.isPseudo = true ∧ c ∈ m.assembly.initial
  := by
  rw [value, Table.getD, get?_startValues]
  by_cases hs : s ∈ m.diagram.states
  · rw [if_pos hs, Option.getD_some]
    cases hp : s.isPseudo with
    | true => simp [hs]
    | false => simp [bottom]
  · rw [if_neg hs, Option.getD_none]
    simp [hs, bottom]

/-! ### The solver computes the solution -/

theorem computes_rounds (hv : m.Tagged v) (fuel done : Nat) :
  m.Computes (m.rounds basis fuel done) v
    ((m.settle basis fuel done v).iterations, (m.settle basis fuel done v).converged)
    (m.settle basis fuel done v).values
  := by
  induction fuel generalizing v done with
  | zero => apply Computes.pure
  | succ fuel ih =>
    rw [rounds, settle]
    apply Computes.bind (computes_round hv)
    by_cases h : m.sweep basis v = v
    · rw [if_pos h, h, decide_eq_false (not_not_intro rfl)]
      apply Computes.pure
    · rw [if_neg h, decide_eq_true h]
      apply ih hv.sweep

/-- The solver never fails, and its result is the solution. -/
theorem solve_eq (m : Model) (config : SolverConfig) :
  m.solve config = .ok (m.solution config)
  := by
  have hempty : m.Faithful ∅ := by
    intro s base zones h
    cases h
  have hrounds : m.Computes (m.rounds config.basis config.cap.rounds 0) m.startValues _ _ :=
    computes_rounds m.tagged_startValues config.cap.rounds 0
  obtain ⟨derived, -, hrun⟩ := hrounds ∅ hempty
  rw [solve, hrun]
  rfl

/-- What is computed from the result of the solver is so of the solution that it returns. -/
theorem eq_of_map_solve {α : Type} {m : Model} {config : SolverConfig} {sol : Solution}
    {f : Solution → α} {x : α} (hsol : m.solve config = .ok sol)
    (h : (m.solve config).map f = .ok x) :
  f sol = x
  := by
  rw [hsol] at h
  apply Except.ok.inj h

/-- The values of the solution are those after as many sweeps as the cap allows. -/
theorem values_settle (fuel done : Nat) :
  (m.settle basis fuel done v).values = (m.sweep basis)^[fuel] v
  := by
  induction fuel generalizing v done with
  | zero => rfl
  | succ fuel ih =>
    rw [settle, Function.iterate_succ_apply]
    split
    · rename_i heq
      rw [heq, Function.iterate_fixed heq]
    · apply ih

/-! ### Invariants -/

/-- What is kept when one state is raised is kept by sweeps. -/
theorem settle_induction {P : Table State Region → Prop}
    (hraise : ∀ v, P v → ∀ s ∈ m.properStates, P (m.raise basis v s)) (fuel done : Nat)
    (hv : P v) :
  P (m.settle basis fuel done v).values
  := by
  induction fuel generalizing v done with
  | zero => apply hv
  | succ fuel ih =>
    rw [settle]
    split
    · apply hv
    · apply ih
      apply List.foldlRecOn (motive := P) _ _ hv hraise

/-- What holds at the start and is kept when one state is raised holds of the solution. -/
theorem solution_induction {P : Table State Region → Prop} (hstart : P m.startValues)
    (hraise : ∀ v, P v → ∀ s ∈ m.properStates, P (m.raise config.basis v s)) :
  P (m.solution config).values
  := settle_induction hraise _ _ hstart

theorem tagged_solution (m : Model) (config : SolverConfig) :
  m.Tagged (m.solution config).values
  := by
  apply solution_induction m.tagged_startValues
  intro v hv s _
  apply hv.raise s

/-- In the solution every state of the diagram has a value. -/
theorem get?_solution (hs : s ∈ m.diagram.states) :
  (m.solution config).values.get? s = some (m.value (m.solution config).values s)
  := by
  have hcontains : (m.solution config).values.contains s = true := by
    apply solution_induction (P := fun v => v.contains s = true) (contains_startValues hs)
    intro v hv s' _
    apply contains_raise hv s'
  obtain ⟨r, hr⟩ := Option.isSome_iff_exists.mp hcontains
  rw [value, Table.getD, hr]
  rfl

/-- In the solution the pseudostate has the initial region. -/
theorem value_pseudo (h : m.diagram.WellFormed) :
  m.value (m.solution config).values m.diagram.pseudo = m.assembly.initial
  := by
  apply solution_induction (P := fun v => m.value v m.diagram.pseudo = m.assembly.initial)
  · apply value_startValues_pseudo h
  · intro v hv s hs
    rw [value_raise, if_neg]
    · apply hv
    · rintro rfl
      apply pseudo_not_mem_properStates h hs

/-- What a state of the diagram is offered comes from the transitions that lead to it. -/
theorem mem_offered_iff (h : m.diagram.WellFormed) (hs : s ∈ m.diagram.states) :
  c ∈ m.offered basis v s
    ↔ ∃ t ∈ m.diagram.transitions, t.target = s
      ∧ c ∈ t.image (m.value v t.source) m.assembly basis
  := by
  simp only [mem_offered, h.mem_incoming_iff hs, and_assoc]

/-- A configuration is contributed to a state by a transition that leads there, over a part
of the value of its source. -/
def Contributed (m : Model) (basis : Basis) (v : Table State Region) (s : State)
    (c : Configuration) : Prop :=
  ∃ t ∈ m.diagram.transitions, t.target = s ∧ ∃ r : Region, r.assembly = m.assembly.id
    ∧ r ⊆ m.value v t.source ∧ c ∈ t.image r m.assembly basis

/-- What is contributed over given values is contributed over what they become. -/
theorem Contributed.raise (hc : m.Contributed basis v s c) (s' : State) :
  m.Contributed basis (m.raise basis v s') s c
  := by
  obtain ⟨t, ht, htarget, r, hr, hsub, hc⟩ := hc
  exact ⟨t, ht, htarget, r, hr, Region.Subset.trans hsub (value_subset_raise s' t.source), hc⟩

/-- After a state is raised, a configuration was there before, or it is contributed. -/
theorem mem_or_contributed (h : m.diagram.WellFormed) (hv : m.Tagged v) {s' : State}
    (hs : s ∈ m.properStates) (hc : c ∈ m.value (m.raise basis v s) s') :
  c ∈ m.value v s' ∨ m.Contributed basis v s' c
  := by
  rw [value_raise] at hc
  split at hc
  · rename_i heq
    obtain rfl := heq
    obtain hc | hc := Region.mem_union.mp hc
    · left
      apply hc
    · right
      obtain ⟨t, ht, htarget, hc⟩ := (mem_offered_iff h (mem_properStates.mp hs).1).mp hc
      exact ⟨t, ht, htarget, _, hv.assembly_value t.source, Region.Subset.refl _, hc⟩
  · left
    apply hc

/-- A property of the initial configurations at the pseudostate that every transition hands
on, from all regions of the assembly, holds of all configurations in the solution. -/
theorem mem_solution_induction (h : m.diagram.WellFormed) {P : State → Configuration → Prop}
    (hstart : ∀ c ∈ m.assembly.initial, P m.diagram.pseudo c)
    (hstep : ∀ t ∈ m.diagram.transitions, ∀ r : Region, r.assembly = m.assembly.id →
      (∀ b ∈ r, P t.source b) → ∀ c ∈ t.image r m.assembly config.basis, P t.target c)
    (hc : c ∈ m.value (m.solution config).values s) :
  P s c
  := by
  have hall : m.Tagged (m.solution config).values
      ∧ ∀ s c, c ∈ m.value (m.solution config).values s → P s c := by
    apply solution_induction
      (P := fun v => m.Tagged v ∧ ∀ s c, c ∈ m.value v s → P s c)
    · use m.tagged_startValues
      intro s c hc
      obtain ⟨hs, hp, hc⟩ := mem_value_startValues.mp hc
      rw [h.eq_pseudo s hs hp]
      apply hstart c hc
    · rintro v ⟨htagged, hv⟩ s hs
      use htagged.raise s
      intro s' c hc
      obtain hc | ⟨t, ht, rfl, r, hr, hsub, hc⟩ := mem_or_contributed h htagged hs hc
      · apply hv s' c hc
      · apply hstep t ht r hr _ c hc
        intro b hb
        apply hv t.source b (hsub b hb)
  apply hall.2 s c hc

/-- Every configuration of a state other than the pseudostate was contributed by a transition
that leads there, over a part of the region that its source has in the end. -/
theorem contributed_of_mem_value (h : m.diagram.WellFormed) (hs : s ∈ m.properStates)
    (hc : c ∈ m.value (m.solution config).values s) :
  m.Contributed config.basis (m.solution config).values s c
  := by
  have hall : m.Tagged (m.solution config).values
      ∧ ∀ s ∈ m.properStates, ∀ c ∈ m.value (m.solution config).values s,
        m.Contributed config.basis (m.solution config).values s c := by
    apply solution_induction (P := fun v => m.Tagged v
      ∧ ∀ s ∈ m.properStates, ∀ c ∈ m.value v s, m.Contributed config.basis v s c)
    · use m.tagged_startValues
      intro s hs c hc
      have hp := (mem_value_startValues.mp hc).2.1
      rw [(mem_properStates.mp hs).2] at hp
      cases hp
    · rintro v ⟨htagged, hv⟩ s hs
      use htagged.raise s
      intro s' hs' c hc
      apply Contributed.raise
      obtain hc | hc := mem_or_contributed h htagged hs hc
      · apply hv s' hs' c hc
      · apply hc
  apply hall.2 s hs c hc

/-! ### Convergence -/

theorem sweep_settle (fuel done : Nat)
    (h : (m.settle basis fuel done v).converged = true) :
  m.sweep basis (m.settle basis fuel done v).values = (m.settle basis fuel done v).values
  := by
  induction fuel generalizing v done with
  | zero => cases h
  | succ fuel ih =>
    rw [settle] at h ⊢
    split
    · rename_i hv
      apply hv
    · rename_i hv
      rw [if_neg hv] at h
      apply ih _ h

/-- When the solver has converged, every state has what is offered to it. -/
theorem offered_subset_value (hconv : (m.solution config).converged = true)
    (hs : s ∈ m.properStates) :
  m.offered config.basis (m.solution config).values s ⊆ m.value (m.solution config).values s
  := sweep_eq_self_iff.mp (sweep_settle _ _ hconv) s hs

/-- When the solver has converged, the image of the value of a source is part of the value of
the target. -/
theorem image_subset_value (h : m.diagram.WellFormed)
    (hconv : (m.solution config).converged = true) (ht : t ∈ m.diagram.transitions) :
  t.image (m.value (m.solution config).values t.source) m.assembly config.basis
    ⊆ m.value (m.solution config).values t.target
  := by
  intro c hc
  apply offered_subset_value hconv (target_mem_properStates h ht)
  apply (mem_offered_iff h (h.target_mem_states ht)).mpr ⟨t, ht, rfl, hc⟩

end Model

end AssemblySemantics
