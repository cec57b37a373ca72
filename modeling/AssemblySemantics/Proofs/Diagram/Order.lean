import AssemblySemantics.Model
import AssemblySemantics.Proofs.Diagram.Structure

/-!
# The order of the states

The states of a well-formed diagram are its pseudostate and, after it, the states other than
pseudostates. What comes before such a state is the pseudostate or one of those that are
taken before it when they are taken in order.
-/

namespace AssemblySemantics

namespace Diagram

/-- A state comes before another one in the list of states. -/
def Precedes (d : Diagram) (r s : State) : Prop := d.states.idxOf r < d.states.idxOf s

instance (d : Diagram) (r s : State) : Decidable (d.Precedes r s) :=
  inferInstanceAs (Decidable (d.states.idxOf r < d.states.idxOf s))

end Diagram

namespace Model

variable {m : Model} {r s : State} {t : Transition} {before after : List State}

theorem mem_properStates :
  s ∈ m.properStates ↔ s ∈ m.diagram.states ∧ s.isPseudo = false
  := by
  rw [properStates, List.mem_filter, Bool.not_eq_true']

theorem pseudo_not_mem_properStates (h : m.diagram.WellFormed) :
  m.diagram.pseudo ∉ m.properStates
  := by
  rw [mem_properStates, h.isPseudo_pseudo]
  rintro ⟨-, hp⟩
  cases hp

theorem eq_pseudo_or_mem_properStates (h : m.diagram.WellFormed) (hs : s ∈ m.diagram.states) :
  s = m.diagram.pseudo ∨ s ∈ m.properStates
  := by
  cases hp : s.isPseudo with
  | true =>
    left
    apply h.eq_pseudo s hs hp
  | false =>
    right
    apply mem_properStates.mpr ⟨hs, hp⟩

/-- The target of a transition is a state other than the pseudostate. -/
theorem target_mem_properStates (h : m.diagram.WellFormed) (ht : t ∈ m.diagram.transitions) :
  t.target ∈ m.properStates
  := mem_properStates.mpr ⟨h.target_mem_states ht, h.isPseudo_target ht⟩

/-- The pseudostate comes first, and then the other states. -/
theorem states_eq_cons (h : m.diagram.WellFormed) :
  m.diagram.states = m.diagram.pseudo :: m.properStates
  := by
  obtain ⟨states, hstates⟩ := List.head?_eq_some_iff.mp h.head?_states
  have hnodup := h.nodup_states
  rw [hstates] at hnodup
  rw [properStates, hstates, List.filter_cons_of_neg]
  · apply congrArg (m.diagram.pseudo :: ·)
    symm
    apply List.filter_eq_self.mpr
    intro s hs
    apply (Bool.not_eq_true' _).mpr
    apply Bool.eq_false_iff.mpr
    intro hp
    have hmem : s ∈ m.diagram.states := by
      rw [hstates]
      apply List.mem_cons_of_mem _ hs
    rw [h.eq_pseudo s hmem hp] at hs
    apply (List.nodup_cons.mp hnodup).1 hs
  · rw [h.isPseudo_pseudo]
    apply Bool.false_ne_true

theorem nodup_properStates (h : m.diagram.WellFormed) :
  m.properStates.Nodup
  := h.nodup_states.filter _

/-- What comes before a state is the pseudostate and what is taken before it. -/
theorem precedes_iff (h : m.diagram.WellFormed) (hsplit : m.properStates = before ++ s :: after) :
  m.diagram.Precedes r s ↔ r = m.diagram.pseudo ∨ r ∈ before
  := by
  have hstates : m.diagram.states = (m.diagram.pseudo :: before) ++ s :: after := by
    rw [states_eq_cons h, hsplit]
    rfl
  have hnodup := h.nodup_states
  rw [hstates] at hnodup
  have hs : s ∉ m.diagram.pseudo :: before := by
    intro hs
    apply List.disjoint_of_nodup_append hnodup hs List.mem_cons_self
  rw [← List.mem_cons, Diagram.Precedes, hstates, List.idxOf_append_of_notMem hs,
    List.idxOf_cons_self]
  constructor
  · intro hr
    by_contra hr'
    rw [List.idxOf_append_of_notMem hr'] at hr
    omega
  · intro hr
    rw [List.idxOf_append_of_mem hr]
    have hlt := List.idxOf_lt_length_of_mem hr
    omega

/-- What comes before a state is neither the state itself nor taken after it. -/
theorem not_mem_cons_of_precedes (h : m.diagram.WellFormed)
    (hsplit : m.properStates = before ++ s :: after) (hr : m.diagram.Precedes r s) :
  r ∉ s :: after
  := by
  have hnodup := nodup_properStates h
  have hpseudo := pseudo_not_mem_properStates h
  rw [hsplit] at hnodup hpseudo
  intro hmem
  obtain rfl | hbefore := (precedes_iff h hsplit).mp hr
  · apply hpseudo (List.mem_append_right before hmem)
  · apply List.disjoint_of_nodup_append hnodup hbefore hmem

/-- A state is not taken again after it was taken. -/
theorem not_mem_after (h : m.diagram.WellFormed)
    (hsplit : m.properStates = before ++ s :: after) :
  s ∉ after
  := by
  have hnodup := nodup_properStates h
  rw [hsplit] at hnodup
  apply (List.nodup_cons.mp (List.nodup_append.mp hnodup).2.1).1

end Model

end AssemblySemantics
