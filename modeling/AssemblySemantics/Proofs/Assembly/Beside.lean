import AssemblySemantics.Proofs.Contribution.Image

/-!
# A component beside an assembly

When an assembly registers one more component, its space is the old one with the component
in any of its states, and its initial region the old one with the component in any of the
states in which it may start. A transition that ignores the component, in its guard and in
its actions, sees nothing of it: the image of a region with the component beside it is the
image of the region with the component beside it.
-/

namespace AssemblySemantics

/-- The configurations of a region, with a component in one of the states in which it may
start. -/
def Region.beside (r : Region) (d : Component) : Region :=
  r.flatMap fun c => d.initialStates.map fun q => Configuration.add ⟨d.id, q⟩ c

/-- An assembly registers the components of another one, and after them one under a new
id. -/
structure Assembly.Beside (a : Assembly) (d : Component) (a' : Assembly) : Prop where
  id_eq : a'.id = a.id
  components_eq : a'.components = a.components ++ [d]
  id_not_mem : d.id ∉ a.components.map Component.id

/-- A transition speaks of a machine neither in its guard nor in its actions. -/
structure Transition.Ignores (t : Transition) (machine : String) : Prop where
  guard : ∀ p ∈ t.guard.leaves, p.machine ≠ machine
  actions : ∀ x ∈ t.actions, x.machine ≠ machine

namespace Region

variable {d : Component} {c : Configuration} {r s : Region} {z : ExitZone}

theorem mem_beside :
  c ∈ r.beside d ↔ ∃ b ∈ r, ∃ q ∈ d.initialStates, c = Configuration.add ⟨d.id, q⟩ b
  := by
  simp only [beside, mem_flatMap, List.mem_map, eq_comm]

/-- In a region of a space the component is placed beside a configuration by bringing the two
into canonical form. -/
theorem mem_beside_of_subset_space {a : Assembly} (h : r ⊆ a.space) :
  c ∈ r.beside d
    ↔ ∃ b ∈ r, ∃ q ∈ d.initialStates, c = Configuration.ofPlacements (⟨d.id, q⟩ :: b)
  := by
  rw [mem_beside]
  apply exists_congr
  intro b
  apply and_congr_right
  intro hb
  have hsorted : b.IsSorted := Assembly.isSorted_of_mem_space (h b hb)
  have hcanonical : ∀ q, Configuration.ofPlacements (⟨d.id, q⟩ :: b) =
      Configuration.add ⟨d.id, q⟩ b := fun q => congrArg _ hsorted.ofPlacements_eq
  simp only [hcanonical]

@[simp]
theorem assembly_beside (r : Region) (d : Component) :
  (r.beside d).assembly = r.assembly
  := rfl

/-- What leads on from a configuration with the component beside it as it does without the
component, leads from a region with the component beside it as it does without. -/
theorem flatMap_beside {f f' : Configuration → List Configuration}
    (h : ∀ q b, f' (Configuration.add ⟨d.id, q⟩ b) =
      (f b).map (Configuration.add ⟨d.id, q⟩)) :
  (r.beside d).flatMap f' = (r.flatMap f).beside d
  := by
  apply Region.ext
  · rfl
  · intro c
    rw [mem_flatMap, mem_beside]
    constructor
    · rintro ⟨b', hb', hc⟩
      obtain ⟨b, hb, q, hq, rfl⟩ := mem_beside.mp hb'
      rw [h] at hc
      obtain ⟨e, he, rfl⟩ := List.mem_map.mp hc
      exact ⟨e, mem_flatMap.mpr ⟨b, hb, he⟩, q, hq, rfl⟩
    · rintro ⟨e, he, q, hq, rfl⟩
      obtain ⟨b, hb, he⟩ := mem_flatMap.mp he
      use Configuration.add ⟨d.id, q⟩ b, mem_beside.mpr ⟨b, hb, q, hq, rfl⟩
      rw [h]
      apply List.mem_map_of_mem he

theorem bottom_beside (assembly : String) (d : Component) :
  (bottom assembly).beside d = bottom assembly
  := by
  apply Region.ext
  · rfl
  · intro c
    simp [mem_beside]

theorem union_beside (r s : Region) (d : Component) :
  (r ∪ s).beside d = r.beside d ∪ s.beside d
  := by
  apply Region.ext
  · rfl
  · intro c
    simp only [mem_beside, mem_union, or_and_right, exists_or]

/-- The move of an exit zone of another machine does not concern the component. -/
theorem stepped_beside (hz : z.machine ≠ d.id) :
  (r.beside d).stepped z = (r.stepped z).beside d
  := by
  apply flatMap_beside
  intro q b
  rw [Configuration.state?_add hz.symm, Configuration.reassign_add hz.symm]
  split <;> rfl

end Region

namespace Assembly

variable {a a' : Assembly} {d : Component} {b c : Configuration} {r s : Region}
  {x : Action} {xs : List Action} {p : Placement} {z : ExitZone} {f : Proposition}
  {t : Transition} {q id : String}

/-- A component with a new id can be registered. -/
theorem exists_register (h : d.id ∉ a.components.map Component.id) :
  ∃ a', a.register d = .ok a' ∧ a.Beside d a'
  := by
  refine ⟨_, dif_neg h, ?_⟩
  exact ⟨rfl, rfl, h⟩

namespace Beside

/-- Under every other id the assembly has the component that it had. -/
theorem component?_eq (h : a.Beside d a') (hid : id ≠ d.id) :
  a'.component? id = a.component? id
  := by
  have hd : [d].find? (·.id = id) = none := by simp [hid.symm]
  rw [component?, component?, h.components_eq, List.find?_append, hd, Option.or_none]

/-! ### The space -/

/-- A configuration of a product is one without the component, and a state chosen for the
component. -/
theorem mem_product_iff (h : a.Beside d a') {choice : Component → List String} :
  c ∈ a'.product choice
    ↔ ∃ b ∈ a.product choice, ∃ q ∈ choice d, c = Configuration.add ⟨d.id, q⟩ b
  := by
  have hperm : (a'.components.map fun e => (e.id, choice e)).Perm
      ((d.id, choice d) :: a.components.map fun e => (e.id, choice e)) := by
    rw [h.components_eq, List.map_append]
    apply List.perm_append_singleton
  have hid : d.id ∉ (a.components.map fun e => (e.id, choice e)).map Prod.fst := by
    rw [List.map_map]
    apply h.id_not_mem
  simp only [mem_product]
  constructor
  · intro hc
    obtain ⟨q, hq, b, hb, rfl⟩ := (hc.perm hperm).exists_add hid
    exact ⟨b, hb, q, hq, rfl⟩
  · rintro ⟨b, hb, q, hq, rfl⟩
    apply (hb.add hq).perm hperm.symm

/-- Every configuration of the space may have the component beside it. -/
theorem add_mem_space (h : a.Beside d a') (hc : c ∈ a.space) (hq : q ∈ d.initialStates) :
  Configuration.add ⟨d.id, q⟩ c ∈ a'.space
  := h.mem_product_iff.mpr ⟨c, hc, q, Component.mem_states_of_mem_initialStates hq, rfl⟩

theorem initial_eq (h : a.Beside d a') :
  a'.initial = a.initial.beside d
  := by
  apply Region.ext h.id_eq
  intro c
  rw [Region.mem_beside]
  apply h.mem_product_iff

/-- The configurations of the space do not place the component. -/
theorem machine_not_mem (h : a.Beside d a') (hc : c ∈ a.space) :
  d.id ∉ c.map Placement.machine
  := fun hmem => h.id_not_mem ((machines_perm_of_mem_space hc).subset hmem)

/-- The component can be taken out again, so that regions of the space are compared as they
are with the component beside them. -/
theorem beside_subset_iff (h : a.Beside d a') (hr : r ⊆ a.space) (hs : s ⊆ a.space) :
  r.beside d ⊆ s.beside d ↔ r ⊆ s
  := by
  constructor
  · intro hsub c hc
    obtain ⟨q, hq⟩ := List.exists_mem_of_ne_nil _ d.initialStates_ne_nil
    obtain ⟨b, hb, q', -, heq⟩ :=
      Region.mem_beside.mp (hsub _ (Region.mem_beside.mpr ⟨c, hc, q, hq, rfl⟩))
    obtain ⟨-, rfl⟩ :=
      Configuration.add_inj (h.machine_not_mem (hr c hc)) (h.machine_not_mem (hs b hb)) heq
    apply hb
  · apply Region.flatMap_subset_flatMap

/-! ### Motion -/

/-- An action on another machine does not concern the component. -/
theorem outcomes_add (h : a.Beside d a') (hx : x.machine ≠ d.id) (q : String)
    (c : Configuration) :
  a'.outcomes x (Configuration.add ⟨d.id, q⟩ c) =
    (a.outcomes x c).map (Configuration.add ⟨d.id, q⟩)
  := by
  rw [outcomes, outcomes, h.component?_eq hx]
  cases a.component? x.machine with
  | none => rfl
  | some e =>
    simp only [Configuration.state?_add hx.symm, Configuration.reassign_add hx.symm]
    split
    · rfl
    · rw [List.map_map]
      rfl

theorem performed_add (h : a.Beside d a') (hxs : ∀ x ∈ xs, x.machine ≠ d.id) (q : String)
    (c : Configuration) :
  a'.performed xs (Configuration.add ⟨d.id, q⟩ c) =
    (a.performed xs c).map (Configuration.add ⟨d.id, q⟩)
  := by
  induction xs generalizing c with
  | nil => rfl
  | cons x xs ih =>
    obtain ⟨hx, hxs⟩ := List.forall_mem_cons.mp hxs
    rw [performed, performed, h.outcomes_add hx, List.flatMap_map, List.map_flatMap]
    congr 1
    funext e
    apply ih hxs

/-! ### Propositions -/

/-- A proposition that does not speak of the component is true with it beside a
configuration where it is true without. -/
theorem add_mem_extent_iff (h : a.Beside d a') (hf : ∀ p ∈ f.leaves, p.machine ≠ d.id)
    (hc : c ∈ a.space) (hq : q ∈ d.initialStates) :
  Configuration.add ⟨d.id, q⟩ c ∈ f.extent a' ↔ c ∈ f.extent a
  := by
  rw [Proposition.mem_extent, Proposition.mem_extent, iff_true_intro hc,
    iff_true_intro (h.add_mem_space hc hq), true_and, true_and]
  apply Proposition.holds_congr
  intro p hp
  apply Configuration.state?_add (hf p hp).symm

theorem inter_extent_eq (h : a.Beside d a') (hf : ∀ p ∈ f.leaves, p.machine ≠ d.id)
    (hr : r ⊆ a.space) :
  r.beside d ∩ f.extent a' = (r ∩ f.extent a).beside d
  := by
  apply Region.ext
  · rfl
  · intro c
    rw [Region.mem_inter, Region.mem_beside, Region.mem_beside]
    constructor
    · rintro ⟨⟨b, hb, q, hq, rfl⟩, hc⟩
      rw [h.add_mem_extent_iff hf (hr b hb) hq] at hc
      exact ⟨b, Region.mem_inter.mpr ⟨hb, hc⟩, q, hq, rfl⟩
    · rintro ⟨b, hb, q, hq, rfl⟩
      obtain ⟨hb, hbf⟩ := Region.mem_inter.mp hb
      rw [h.add_mem_extent_iff hf (hr b hb) hq]
      exact ⟨⟨b, hb, q, hq, rfl⟩, hbf⟩

/-- A region touches a placement of another machine with the component beside it when it
does without. -/
theorem touches_iff (h : a.Beside d a') (hp : p.machine ≠ d.id) (hr : r ⊆ a.space) :
  (r.beside d).Touches p a' ↔ r.Touches p a
  := by
  have hleaves : ∀ p' ∈ (Proposition.basic p).leaves, p'.machine ≠ d.id := by
    intro p' hp'
    rw [List.mem_singleton.mp hp']
    apply hp
  have hinter : r.beside d ∩ a'.statesWhere p = (r ∩ a.statesWhere p).beside d :=
    h.inter_extent_eq hleaves hr
  constructor
  · rintro ⟨c, hc, hcp⟩
    have hmem := Region.mem_inter.mpr ⟨hc, hcp⟩
    rw [hinter] at hmem
    obtain ⟨b, hb, -⟩ := Region.mem_beside.mp hmem
    obtain ⟨hb, hbp⟩ := Region.mem_inter.mp hb
    exact ⟨b, hb, hbp⟩
  · rintro ⟨b, hb, hbp⟩
    obtain ⟨q, hq⟩ := List.exists_mem_of_ne_nil _ d.initialStates_ne_nil
    have hmem : Configuration.add ⟨d.id, q⟩ b ∈ (r ∩ a.statesWhere p).beside d :=
      Region.mem_beside.mpr ⟨b, Region.mem_inter.mpr ⟨hb, hbp⟩, q, hq, rfl⟩
    rw [← hinter] at hmem
    obtain ⟨hc, hcp⟩ := Region.mem_inter.mp hmem
    exact ⟨_, hc, hcp⟩

/-! ### Exit zones and images -/

theorem mem_possibleZones_iff (h : a.Beside d a') (hz : z.machine ≠ d.id) :
  z ∈ a'.possibleZones ↔ z ∈ a.possibleZones
  := by
  rw [mem_possibleZones, mem_possibleZones]
  apply exists_congr
  intro e
  apply and_congr_left
  rintro ⟨y, -, rfl⟩
  have heq : a'.component? e.id = a.component? e.id := h.component?_eq hz
  rw [heq]

/-- A region has the same exit zones of other machines with the component beside it. -/
theorem mem_zones_iff (h : a.Beside d a') (hz : z.machine ≠ d.id) (hr : r ⊆ a.space) :
  z ∈ (r.beside d).zones a' ↔ z ∈ r.zones a
  := by
  rw [Region.mem_zones, Region.mem_zones, h.mem_possibleZones_iff hz]
  apply and_congr_right
  intro hpossible
  obtain ⟨e, -, y, -, rfl⟩ := mem_possibleZones.mp hpossible
  rw [h.touches_iff hz hr, h.touches_iff hz hr]

/-- The zones that lead to a placement of another machine are followed as without the
component. -/
theorem followed_eq (h : a.Beside d a') (hp : p.machine ≠ d.id) (hr : r ⊆ a.space) :
  (r.beside d).followed p ((r.beside d).zones a').toList =
    (r.followed p (r.zones a).toList).beside d
  := by
  apply Region.ext
  · rfl
  · intro c
    simp only [Region.mem_followed, Region.mem_beside, Region.mem_toList_zones]
    constructor
    · rintro ⟨z, hz, rfl, hc⟩
      have hmachine : z.machine ≠ d.id := by
        rw [Region.target_of_mem_zones hz] at hp
        apply hp
      rw [Region.stepped_beside hmachine] at hc
      obtain ⟨b, hb, q, hq, rfl⟩ := Region.mem_beside.mp hc
      exact ⟨b, ⟨z, (h.mem_zones_iff hmachine hr).mp hz, rfl, hb⟩, q, hq, rfl⟩
    · rintro ⟨b, ⟨z, hz, rfl, hb⟩, q, hq, rfl⟩
      have hmachine : z.machine ≠ d.id := by
        rw [Region.target_of_mem_zones hz] at hp
        apply hp
      use z, (h.mem_zones_iff hmachine hr).mpr hz, rfl
      rw [Region.stepped_beside hmachine]
      exact Region.mem_beside.mpr ⟨b, hb, q, hq, rfl⟩

theorem firing_eq (h : a.Beside d a') (ht : t.Ignores d.id) (hr : r ⊆ a.space) :
  t.firing (r.beside d) ((r.beside d).zones a').toList a' .stateRegion =
    (t.firing r (r.zones a).toList a .stateRegion).beside d
  := by
  unfold Transition.firing
  split
  · cases hguard : t.guard.basic? with
    | none => rw [Region.bottom_beside, h.id_eq]
    | some p =>
      have hp : p.machine ≠ d.id := by
        apply ht.guard
        rw [Proposition.basic?_eq_some_iff.mp hguard]
        apply List.mem_singleton_self
      apply h.followed_eq hp hr
  · apply h.inter_extent_eq ht.guard hr

/-- The image of a region with the component beside it, under a transition that ignores the
component, is the image of the region with the component beside it. -/
theorem image_eq (h : a.Beside d a') (ht : t.Ignores d.id) (hr : r ⊆ a.space) :
  t.image (r.beside d) a' .stateRegion = (t.image r a .stateRegion).beside d
  := by
  rw [Transition.image, Transition.reach, h.firing_eq ht hr]
  apply Region.flatMap_beside
  apply h.performed_add ht.actions

end Beside

end Assembly

end AssemblySemantics
