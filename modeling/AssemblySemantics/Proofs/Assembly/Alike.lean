import AssemblySemantics.Proofs.Contribution.Image

/-!
# Assemblies that are alike

Assemblies of one id are alike when they register the same components up to order: the
components may be registered in another order, and each of them may list its states in
another order and its moves in another order and more or less often. Alike assemblies have
the same space and the same initial region, their actions lead to the same configurations,
their regions have the same exit zones, and transitions have the same images within them.
-/

namespace AssemblySemantics

/-- Components are alike when they have one id, one declared initial state, the same states
and the same moves, in whatever order and however often a move is listed. -/
structure Component.Alike (d d' : Component) : Prop where
  id_eq : d.id = d'.id
  initial_eq : d.initial = d'.initial
  states_perm : d.states.Perm d'.states
  mem_moves_iff : ∀ x, x ∈ d.moves ↔ x ∈ d'.moves

/-- Assemblies are alike when they have one id and every component of one is like a
component of the other. -/
structure Assembly.Alike (a a' : Assembly) : Prop where
  id_eq : a.id = a'.id
  left : ∀ d ∈ a.components, ∃ d' ∈ a'.components, d.Alike d'
  right : ∀ d' ∈ a'.components, ∃ d ∈ a.components, d.Alike d'

/-! ### Components -/

namespace Component.Alike

variable {d d' : Component}

theorem symm (h : d.Alike d') :
  d'.Alike d
  := ⟨h.id_eq.symm, h.initial_eq.symm, h.states_perm.symm, fun x => (h.mem_moves_iff x).symm⟩

theorem mem_initialStates (h : d.Alike d') {s : String} (hs : s ∈ d.initialStates) :
  s ∈ d'.initialStates
  := by
  rw [Component.initialStates, ← h.initial_eq]
  rw [Component.initialStates] at hs
  split
  · rename_i hinitial
    rw [hinitial] at hs
    apply h.states_perm.mem_iff.mp hs
  · rename_i s' hinitial
    rw [hinitial] at hs
    apply hs

theorem mem_autonomousMoves (h : d.Alike d') {x : Move} (hx : x ∈ d.autonomousMoves) :
  x ∈ d'.autonomousMoves
  := by
  obtain ⟨hx, hauto⟩ := List.mem_filter.mp hx
  apply List.mem_filter.mpr ⟨(h.mem_moves_iff x).mp hx, hauto⟩

theorem mem_firedBy (h : d.Alike d') {x : Move} {state : Option String} {event : String}
    (hx : x ∈ d.firedBy state event) :
  x ∈ d'.firedBy state event
  := by
  obtain ⟨hx, hanswers⟩ := List.mem_filter.mp hx
  apply List.mem_filter.mpr ⟨(h.mem_moves_iff x).mp hx, hanswers⟩

end Component.Alike

namespace Assembly.Alike

variable {a a' : Assembly} {b c : Configuration} {r : Region} {x : Action} {xs : List Action}
  {z : ExitZone} {p : Placement} {t : Transition} {basis : Basis}

theorem symm (h : a.Alike a') :
  a'.Alike a
  := by
  refine ⟨h.id_eq.symm, ?_, ?_⟩
  · intro d' hd'
    obtain ⟨d, hd, hlike⟩ := h.right d' hd'
    exact ⟨d, hd, hlike.symm⟩
  · intro d hd
    obtain ⟨d', hd', hlike⟩ := h.left d hd
    exact ⟨d', hd', hlike.symm⟩

/-- Under one id alike assemblies register components that are alike. -/
theorem exists_component (h : a.Alike a') {id : String} {d : Component}
    (hd : a.component? id = some d) :
  ∃ d', a'.component? id = some d' ∧ d.Alike d'
  := by
  obtain ⟨hmem, rfl⟩ := component?_eq_some_iff.mp hd
  obtain ⟨d', hd', hlike⟩ := h.left d hmem
  exact ⟨d', component?_eq_some_iff.mpr ⟨hd', hlike.id_eq.symm⟩, hlike⟩

theorem component?_eq_none (h : a.Alike a') {id : String} (hid : a.component? id = none) :
  a'.component? id = none
  := by
  rcases hd : a'.component? id with _ | d'
  · rfl
  · obtain ⟨d, hd, -⟩ := h.symm.exists_component hd
    rw [hid] at hd
    cases hd

/-! ### The space -/

theorem ids_perm (h : a.Alike a') :
  (a.components.map Component.id).Perm (a'.components.map Component.id)
  := by
  apply (List.perm_ext_iff_of_nodup a.nodup_ids a'.nodup_ids).mpr
  intro id
  constructor
  · intro hid
    obtain ⟨d, hd, rfl⟩ := List.mem_map.mp hid
    obtain ⟨d', hd', hlike⟩ := h.left d hd
    rw [hlike.id_eq]
    apply List.mem_map_of_mem hd'
  · intro hid
    obtain ⟨d', hd', rfl⟩ := List.mem_map.mp hid
    obtain ⟨d, hd, hlike⟩ := h.right d' hd'
    rw [← hlike.id_eq]
    apply List.mem_map_of_mem hd

/-- A configuration of a product is one of the product over an alike assembly, if alike
components have the same choices. -/
theorem mem_product_of_mem (h : a.Alike a') {choice : Component → List String}
    (hchoice : ∀ d d' : Component, d.Alike d' → choice d ⊆ choice d') (hc : c ∈ a.product choice) :
  c ∈ a'.product choice
  := by
  obtain ⟨hsorted, hmachines, hstates⟩ := mem_product_iff_forall.mp hc
  apply mem_product_iff_forall.mpr ⟨hsorted, hmachines.trans h.ids_perm, _⟩
  intro p hp
  obtain ⟨d, hd, hid, hstate⟩ := hstates p hp
  obtain ⟨d', hd', hlike⟩ := h.left d hd
  exact ⟨d', hd', hlike.id_eq.symm.trans hid, hchoice d d' hlike hstate⟩

theorem product_eq (h : a.Alike a') {choice : Component → List String}
    (hchoice : ∀ d d' : Component, d.Alike d' → choice d ⊆ choice d') :
  a.product choice = a'.product choice
  := by
  apply Region.ext h.id_eq
  intro c
  constructor
  · apply h.mem_product_of_mem hchoice
  · apply h.symm.mem_product_of_mem hchoice

theorem space_eq (h : a.Alike a') :
  a.space = a'.space
  := h.product_eq fun _ _ hlike => hlike.states_perm.subset

theorem initial_eq (h : a.Alike a') :
  a.initial = a'.initial
  := h.product_eq fun _ _ hlike _ hs => hlike.mem_initialStates hs

theorem statesWhere_eq (h : a.Alike a') (p : Placement) :
  a.statesWhere p = a'.statesWhere p
  := by
  rw [statesWhere, statesWhere, h.space_eq]

/-- Propositions are true in the same region of alike assemblies. -/
theorem extent_eq (h : a.Alike a') (f : Proposition) :
  f.extent a = f.extent a'
  := by
  induction f with
  | basic p => apply h.statesWhere_eq
  | always => apply h.space_eq
  | never => rw [Proposition.extent, Proposition.extent, h.id_eq]
  | and l r ihl ihr => rw [Proposition.extent, Proposition.extent, ihl, ihr]
  | or l r ihl ihr => rw [Proposition.extent, Proposition.extent, ihl, ihr]
  | not f ih => rw [Proposition.extent, Proposition.extent, h.space_eq, ih]

/-! ### Motion -/

theorem reacts (h : a.Alike a') (hx : a.Reacts x b c) :
  a'.Reacts x b c
  := by
  cases hx with
  | unregistered hnone => apply Reacts.unregistered (h.component?_eq_none hnone)
  | ignored hd hfired =>
    obtain ⟨d', hd', hlike⟩ := h.exists_component hd
    apply Reacts.ignored hd'
    apply List.eq_nil_iff_forall_not_mem.mpr
    intro y hy
    have hy := hlike.symm.mem_firedBy hy
    rw [hfired] at hy
    apply List.not_mem_nil hy
  | fired hd hfired =>
    obtain ⟨d', hd', hlike⟩ := h.exists_component hd
    apply Reacts.fired hd' (hlike.mem_firedBy hfired)

theorem performs (h : a.Alike a') (hxs : a.Performs xs b c) :
  a'.Performs xs b c
  := by
  induction hxs with
  | nil => apply Performs.nil
  | cons hx _ ih => apply Performs.cons (h.reacts hx) ih

/-- Actions lead to the same region within alike assemblies. -/
theorem flatMap_performed_eq (h : a.Alike a') (r : Region) (xs : List Action) :
  r.flatMap (a.performed xs) = r.flatMap (a'.performed xs)
  := by
  apply Region.ext
  · rfl
  · intro c
    simp only [Region.mem_flatMap, mem_performed]
    apply exists_congr
    intro b
    apply and_congr_right
    intro _
    exact ⟨h.performs, h.symm.performs⟩

/-! ### Exit zones and images -/

theorem mem_possibleZones_of_mem (h : a.Alike a') (hz : z ∈ a.possibleZones) :
  z ∈ a'.possibleZones
  := by
  obtain ⟨d, hd, y, hy, rfl⟩ := mem_possibleZones.mp hz
  obtain ⟨d', hd', hlike⟩ := h.exists_component hd
  rw [hlike.id_eq] at hd'
  apply mem_possibleZones.mpr ⟨d', hd', y, hlike.mem_autonomousMoves hy, ?_⟩
  rw [ExitZone.ofMove, ExitZone.ofMove, hlike.id_eq]

theorem zones_eq (h : a.Alike a') (r : Region) :
  r.zones a = r.zones a'
  := by
  apply Std.ExtTreeSet.ext_mem
  intro z
  rw [Region.mem_zones, Region.mem_zones, Region.Touches, Region.Touches, Region.Touches,
    Region.Touches, h.statesWhere_eq, h.statesWhere_eq]
  apply and_congr_left
  intro _
  exact ⟨h.mem_possibleZones_of_mem, h.symm.mem_possibleZones_of_mem⟩

theorem sources_eq (h : a.Alike a') (zones : List ExitZone) :
  a.sources zones = a'.sources zones
  := by
  rw [sources, sources, h.id_eq]
  congr 2
  funext z
  apply h.statesWhere_eq

theorem basisRegion_eq (h : a.Alike a') (r : Region) (zones : List ExitZone) :
  basis.region r zones a = basis.region r zones a'
  := by
  cases basis with
  | stateRegion => rfl
  | zoneSources => apply h.sources_eq

theorem firing_eq (h : a.Alike a') (t : Transition) (r : Region) (zones : List ExitZone)
    (basis : Basis) :
  t.firing r zones a basis = t.firing r zones a' basis
  := by
  rw [Transition.firing, Transition.firing, h.extent_eq, h.id_eq, h.basisRegion_eq]

/-- Transitions have the same images within alike assemblies. -/
theorem image_eq (h : a.Alike a') (t : Transition) (r : Region) (basis : Basis) :
  t.image r a basis = t.image r a' basis
  := by
  rw [Transition.image, Transition.image, Transition.reach, Transition.reach, h.zones_eq,
    h.firing_eq, h.flatMap_performed_eq]

end Assembly.Alike

end AssemblySemantics
