import AssemblySemantics.Proofs.Diagram.Order
import Mathlib.Data.Finset.Card
import Mathlib.Logic.Relation

/-!
# Paths in a diagram

A state leads to the states that are reached from it along transitions. In an acyclic
diagram no state leads back to itself, and the states have ranks that grow along every
transition and stay below the number of states. A state is forward when on all paths to it
the transitions go from earlier to later states.
-/

namespace AssemblySemantics

namespace Diagram

/-- A transition goes from one state to another. -/
def Step (d : Diagram) (r s : State) : Prop :=
  ∃ t ∈ d.transitions, t.source = r ∧ t.target = s

/-- A state is another one, or leads to it along transitions. -/
def Leads (d : Diagram) (r s : State) : Prop := Relation.ReflTransGen d.Step r s

/-- No state leads back to itself. -/
def Acyclic (d : Diagram) : Prop := ∀ s, ¬ Relation.TransGen d.Step s s

/-- On all paths to a state, the sources come before the targets. -/
def Forward (d : Diagram) (s : State) : Prop :=
  ∀ t ∈ d.transitions, d.Leads t.target s → d.Precedes t.source t.target

open scoped Classical in
/-- The states on the paths to a state. -/
noncomputable def ancestors (d : Diagram) (s : State) : Finset State :=
  d.states.toFinset.filter fun r => Relation.TransGen d.Step r s

variable {d : Diagram} {r s : State} {t : Transition}

theorem Leads.refl (d : Diagram) (s : State) :
  d.Leads s s
  := Relation.ReflTransGen.refl

/-- What leads to the source of a transition leads to its target. -/
theorem Leads.target (h : d.Leads s t.source) (ht : t ∈ d.transitions) :
  d.Leads s t.target
  := h.tail ⟨t, ht, rfl, rfl⟩

/-- What leads to a forward state is forward. -/
theorem Forward.of_leads (h : d.Forward s) (hleads : d.Leads r s) :
  d.Forward r
  := by
  intro t ht hr
  apply h t ht (hr.trans hleads)

/-! ### Ranks -/

/-- If ranks grow along every transition, the diagram is acyclic. -/
theorem acyclic_of_rank (rank : State → Nat)
    (h : ∀ t ∈ d.transitions, rank t.source < rank t.target) :
  d.Acyclic
  := by
  have hlt : ∀ r s, Relation.TransGen d.Step r s → rank r < rank s := by
    intro r s hpath
    induction hpath with
    | single hstep =>
      obtain ⟨t, ht, rfl, rfl⟩ := hstep
      apply h t ht
    | tail _ hstep ih =>
      obtain ⟨t, ht, rfl, rfl⟩ := hstep
      apply ih.trans (h t ht)
  intro s hcycle
  apply (hlt s s hcycle).false

theorem mem_ancestors :
  r ∈ d.ancestors s ↔ r ∈ d.states ∧ Relation.TransGen d.Step r s
  := by
  simp only [ancestors, Finset.mem_filter, List.mem_toFinset]

/-- In an acyclic diagram the paths to a state do not pass through it. -/
theorem Acyclic.not_mem_ancestors (h : d.Acyclic) (s : State) :
  s ∉ d.ancestors s
  := by
  intro hs
  apply h s (mem_ancestors.mp hs).2

/-- In an acyclic diagram the target of a transition has more states on the paths to it than
the source. -/
theorem Acyclic.ancestors_ssubset (h : d.Acyclic) (hd : d.WellFormed)
    (ht : t ∈ d.transitions) :
  d.ancestors t.source ⊂ d.ancestors t.target
  := by
  have hstep : d.Step t.source t.target := ⟨t, ht, rfl, rfl⟩
  have hsub : d.ancestors t.source ⊆ d.ancestors t.target := by
    intro r hr
    obtain ⟨hmem, hpath⟩ := mem_ancestors.mp hr
    apply mem_ancestors.mpr ⟨hmem, hpath.tail hstep⟩
  apply (Finset.ssubset_iff_of_subset hsub).mpr
  refine ⟨t.source, ?_, h.not_mem_ancestors t.source⟩
  apply mem_ancestors.mpr ⟨hd.source_mem_states ht, .single hstep⟩

/-- The states of an acyclic diagram have ranks below the number of states that grow along
every transition. -/
theorem Acyclic.exists_rank (h : d.Acyclic) (hd : d.WellFormed) :
  ∃ rank : State → Nat, (∀ s ∈ d.states, rank s < d.states.length)
    ∧ ∀ t ∈ d.transitions, rank t.source < rank t.target
  := by
  use fun s => (d.ancestors s).card
  constructor
  · intro s hs
    have hsub : d.ancestors s ⊆ d.states.toFinset := by
      intro r hr
      apply List.mem_toFinset.mpr (mem_ancestors.mp hr).1
    have hssub : d.ancestors s ⊂ d.states.toFinset := by
      apply (Finset.ssubset_iff_of_subset hsub).mpr
      exact ⟨s, List.mem_toFinset.mpr hs, h.not_mem_ancestors s⟩
    apply (Finset.card_lt_card hssub).trans_le (List.toFinset_card_le d.states)
  · intro t ht
    apply Finset.card_lt_card (h.ancestors_ssubset hd ht)

end Diagram

end AssemblySemantics
