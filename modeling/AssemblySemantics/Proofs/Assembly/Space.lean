import AssemblySemantics.Assembly.Basic
import AssemblySemantics.Proofs.Configuration.Canonical
import Mathlib.Data.List.Nodup

/-!
# The space of an assembly

The space holds exactly the configurations that are sorted and place every component once,
in one of its states. It follows that the initial configurations lie in the space, and that
the space is closed under moving a component to one of its states.
-/

namespace AssemblySemantics

namespace Configuration

/-- A sorted configuration that places every machine for which there is a choice once, in
one of the states chosen for it. -/
structure Fits (choices : List (String × List String)) (c : Configuration) : Prop where
  sorted : c.IsSorted
  machines : (c.map Placement.machine).Perm (choices.map Prod.fst)
  states : ∀ p ∈ c, ∃ states, (p.machine, states) ∈ choices ∧ p.state ∈ states

/-- The order of the choices does not matter. -/
theorem Fits.perm {choices choices' : List (String × List String)} {c : Configuration}
    (h : c.Fits choices) (hp : choices.Perm choices') :
  c.Fits choices'
  := by
  refine ⟨h.sorted, h.machines.trans (hp.map Prod.fst), ?_⟩
  intro p hc
  obtain ⟨states, hmem, hst⟩ := h.states p hc
  use states, hp.mem_iff.mp hmem

/-- A placement in front of the choices that it does not concern. -/
theorem Fits.add {machine state : String} {states : List String}
    {choices : List (String × List String)} {c : Configuration} (h : c.Fits choices)
    (hs : state ∈ states) :
  (add ⟨machine, state⟩ c).Fits ((machine, states) :: choices)
  := by
  constructor
  · apply h.sorted.add
  · apply ((add_perm ⟨machine, state⟩ c).map Placement.machine).trans
    apply h.machines.cons
  · intro p hp
    obtain rfl | hp := mem_add.mp hp
    · use states, List.mem_cons_self
    · obtain ⟨states', hmem, hst⟩ := h.states p hp
      use states', List.mem_cons_of_mem _ hmem

/-- A configuration that fits several choices is one that fits all but the first of them,
with a placement inserted. -/
theorem Fits.exists_add {machine : String} {states : List String}
    {choices : List (String × List String)} {c : Configuration}
    (h : c.Fits ((machine, states) :: choices)) (hn : machine ∉ choices.map Prod.fst) :
  ∃ state ∈ states, ∃ c', c'.Fits choices ∧ c = Configuration.add ⟨machine, state⟩ c'
  := by
  have hm : machine ∈ c.map Placement.machine := by
    apply h.machines.mem_iff.mpr
    apply List.mem_cons_self
  obtain ⟨p, hp, rfl⟩ := List.mem_map.mp hm
  have hperm : c.Perm (p :: c.erase p) := List.perm_cons_erase hp
  have hsorted : IsSorted (c.erase p) := h.sorted.sublist List.erase_sublist
  have hmachines : ((c.erase p).map Placement.machine).Perm (choices.map Prod.fst) := by
    apply List.Perm.cons_inv (a := p.machine)
    apply (hperm.map Placement.machine).symm.trans h.machines
  have hrest : ∀ q ∈ c.erase p, q.machine ≠ p.machine := by
    intro q hq he
    apply hn
    rw [← he]
    apply hmachines.mem_iff.mp (List.mem_map_of_mem hq)
  refine ⟨p.state, ?_, c.erase p, ⟨hsorted, hmachines, ?_⟩, ?_⟩
  · obtain ⟨states', hmem, hst⟩ := h.states p hp
    obtain heq | hmem := List.mem_cons.mp hmem
    · obtain ⟨-, rfl⟩ := Prod.mk.inj heq
      apply hst
    · apply (hn (List.mem_map_of_mem hmem)).elim
  · intro q hq
    obtain ⟨states', hmem, hst⟩ := h.states q (List.mem_of_mem_erase hq)
    obtain heq | hmem := List.mem_cons.mp hmem
    · apply (hrest q hq (Prod.mk.inj heq).1).elim
    · use states'
  · apply h.sorted.eq_of_perm hsorted.add
    apply hperm.trans
    apply (add_perm p (c.erase p)).symm

end Configuration

namespace Assembly

/-- The joint configurations of choices for distinct machines are those that fit them. -/
theorem mem_jointConfigurations {choices : List (String × List String)} {c : Configuration}
    (hn : (choices.map Prod.fst).Nodup) :
  c ∈ jointConfigurations choices ↔ c.Fits choices
  := by
  induction choices generalizing c with
  | nil =>
    rw [jointConfigurations, List.mem_singleton]
    constructor
    · rintro rfl
      exact ⟨List.Pairwise.nil, List.Perm.refl _, by simp⟩
    · intro h
      apply List.map_eq_nil_iff.mp
      apply h.machines.eq_nil
  | cons choice choices ih =>
    obtain ⟨machine, states⟩ := choice
    obtain ⟨hnm, hn⟩ := List.nodup_cons.mp hn
    simp only [jointConfigurations, List.mem_flatMap, List.mem_map]
    constructor
    · rintro ⟨state, hs, c', hc', rfl⟩
      apply ((ih hn).mp hc').add hs
    · intro h
      obtain ⟨state, hs, c', hc', rfl⟩ := h.exists_add hnm
      exact ⟨state, hs, c', (ih hn).mpr hc', rfl⟩

variable {a : Assembly} {c : Configuration} {choice : Component → List String}

/-- A configuration is in a product exactly when it is sorted and places every component
once, in one of the states chosen for it. -/
theorem mem_product :
  c ∈ a.product choice ↔ c.Fits (a.components.map fun d => (d.id, choice d))
  := by
  rw [product, Region.mem_ofConfigurations]
  apply mem_jointConfigurations
  rw [List.map_map]
  apply a.nodup_ids

/-- The same by components: every component has one placement, in one of the states chosen for
it. -/
theorem mem_product_iff_forall :
  c ∈ a.product choice
    ↔ c.IsSorted ∧ (c.map Placement.machine).Perm (a.components.map Component.id)
      ∧ ∀ p ∈ c, ∃ d ∈ a.components, d.id = p.machine ∧ p.state ∈ choice d
  := by
  have hids : (a.components.map fun d => (d.id, choice d)).map Prod.fst =
      a.components.map Component.id := by
    rw [List.map_map]
    rfl
  rw [mem_product]
  constructor
  · intro h
    refine ⟨h.sorted, hids ▸ h.machines, ?_⟩
    intro p hp
    obtain ⟨states, hmem, hstate⟩ := h.states p hp
    obtain ⟨d, hd, heq⟩ := List.mem_map.mp hmem
    obtain ⟨hid, rfl⟩ := Prod.mk.inj heq
    exact ⟨d, hd, hid, hstate⟩
  · rintro ⟨hsorted, hmachines, hstates⟩
    refine ⟨hsorted, hids ▸ hmachines, ?_⟩
    intro p hp
    obtain ⟨d, hd, hid, hstate⟩ := hstates p hp
    exact ⟨choice d, List.mem_map.mpr ⟨d, hd, Prod.ext hid rfl⟩, hstate⟩

/-- A product grows with the choices. -/
theorem mem_product_of_subset {choice' : Component → List String}
    (hsub : ∀ d ∈ a.components, choice d ⊆ choice' d) (h : c ∈ a.product choice) :
  c ∈ a.product choice'
  := by
  obtain ⟨hsorted, hmachines, hstates⟩ := mem_product_iff_forall.mp h
  apply mem_product_iff_forall.mpr ⟨hsorted, hmachines, _⟩
  intro p hp
  obtain ⟨d, hd, hid, hs⟩ := hstates p hp
  exact ⟨d, hd, hid, hsub d hd hs⟩

/-- The initial configurations lie in the space. -/
theorem mem_space_of_mem_initial (h : c ∈ a.initial) :
  c ∈ a.space
  := by
  apply mem_product_of_subset _ h
  intro d _ s hs
  apply Component.mem_states_of_mem_initialStates hs

/-- A component is registered under its id. -/
theorem component?_eq_some_iff {id : String} {d : Component} :
  a.component? id = some d ↔ d ∈ a.components ∧ d.id = id
  := by
  constructor
  · intro h
    refine ⟨List.mem_of_find?_eq_some h, ?_⟩
    simpa using List.find?_some h
  · rintro ⟨hd, rfl⟩
    rcases h : a.component? d.id with _ | e
    · have := List.find?_eq_none.mp h d hd
      simp at this
    · have he : e.id = d.id := by simpa using List.find?_some h
      have hmem : e ∈ a.components := List.mem_of_find?_eq_some h
      rw [List.inj_on_of_nodup_map a.nodup_ids hmem hd he]

theorem component?_eq_none_iff {id : String} :
  a.component? id = none ↔ ∀ d ∈ a.components, d.id ≠ id
  := by
  rw [component?, List.find?_eq_none]
  simp

/-- A configuration of the space places every registered machine once, and no other one. -/
theorem machines_perm_of_mem_space (h : c ∈ a.space) :
  (c.map Placement.machine).Perm (a.components.map Component.id)
  := (mem_product_iff_forall.mp h).2.1

theorem nodup_machines_of_mem_space (h : c ∈ a.space) :
  (c.map Placement.machine).Nodup
  := (machines_perm_of_mem_space h).nodup_iff.mpr a.nodup_ids

theorem isSorted_of_mem_space (h : c ∈ a.space) :
  c.IsSorted
  := (mem_product.mp h).sorted

/-- The configurations of `statesWhere` are those of the space in which the machine is in
the state. -/
theorem mem_statesWhere_iff_state? {p : Placement} :
  c ∈ a.statesWhere p ↔ c ∈ a.space ∧ c.state? p.machine = some p.state
  := by
  rw [mem_statesWhere]
  apply and_congr_right
  intro hc
  rw [Configuration.state?_eq_some_iff (nodup_machines_of_mem_space hc)]

/-- The space is closed under moving a component to one of its states. -/
theorem reassign_mem_space {id state : String} {d : Component} (h : c ∈ a.space)
    (hd : a.component? id = some d) (hs : state ∈ d.states) :
  c.reassign id state ∈ a.space
  := by
  obtain ⟨hmem, rfl⟩ := component?_eq_some_iff.mp hd
  have hn := nodup_machines_of_mem_space h
  obtain ⟨hsorted, hmachines, hstates⟩ := mem_product_iff_forall.mp h
  apply mem_product_iff_forall.mpr ⟨hsorted.reassign hn d.id state, _, _⟩
  · rw [Configuration.map_machine_reassign]
    apply hmachines
  · intro p hp
    obtain rfl | ⟨hp, -⟩ := Configuration.mem_reassign hp
    · exact ⟨d, hmem, rfl, hs⟩
    · apply hstates p hp

end Assembly

end AssemblySemantics
