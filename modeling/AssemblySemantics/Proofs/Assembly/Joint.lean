import AssemblySemantics.Proofs.Assembly.Alike
import AssemblySemantics.Proofs.Machine.History
import Mathlib.Algebra.Group.Nat.Defs

/-!
# Joint states

A joint state of an assembly is a sorted configuration that places every component once, in a
state of its own. The space holds these and no other configurations: the choices from which it
is built positionally are all brought into different canonical forms, so that its size is the
product of the numbers of states. The initial region holds those in which every component with
a declared initial state is in it. Neither depends on the order in which the components were
registered.
-/

namespace AssemblySemantics

namespace Assembly

/-- A configuration is a joint state of an assembly: its placements are in order, they place
the registered machines, each of them once, and they place each in one of its states. -/
structure IsJointState (a : Assembly) (c : Configuration) : Prop where
  sorted : c.IsSorted
  machines : (c.map Placement.machine).Perm (a.components.map Component.id)
  states : ∀ p ∈ c, ∃ d ∈ a.components, d.id = p.machine ∧ p.state ∈ d.states

variable {a : Assembly} {c : Configuration} {choice : Component → List String}
  {choices : List (String × List String)}

/-! ### How many joint configurations there are -/

/-- Different choices lead to different joint configurations. -/
theorem nodup_jointConfigurations (hn : (choices.map Prod.fst).Nodup)
    (hs : ∀ choice ∈ choices, choice.2.Nodup) :
  (jointConfigurations choices).Nodup
  := by
  induction choices with
  | nil => apply List.nodup_singleton
  | cons choice choices ih =>
    obtain ⟨machine, states⟩ := choice
    obtain ⟨hm, hn⟩ := List.nodup_cons.mp hn
    obtain ⟨hstates, hs⟩ := List.forall_mem_cons.mp hs
    -- the other choices leave the machine without a place, so what is inserted for it can be told
    have hnew : ∀ c ∈ jointConfigurations choices, machine ∉ c.map Placement.machine := by
      intro c hc hmem
      apply hm (((mem_jointConfigurations hn).mp hc).machines.subset hmem)
    rw [jointConfigurations]
    apply List.nodup_flatMap.mpr
    constructor
    · intro s _
      apply (ih hn hs).map_on
      intro c hc c' hc' heq
      apply (Configuration.add_inj (hnew c hc) (hnew c' hc') heq).2
    · apply hstates.imp
      intro s s' hne
      apply List.disjoint_left.mpr
      intro b hb hb'
      obtain ⟨c, hc, rfl⟩ := List.mem_map.mp hb
      obtain ⟨c', hc', heq⟩ := List.mem_map.mp hb'
      apply hne
      symm
      apply (Configuration.add_inj (hnew c' hc') (hnew c hc) heq).1

theorem length_jointConfigurations (choices : List (String × List String)) :
  (jointConfigurations choices).length = (choices.map fun choice => choice.2.length).prod
  := by
  induction choices with
  | nil => rfl
  | cons choice choices ih =>
    rw [jointConfigurations, List.map_cons, List.prod_cons, ← ih]
    simp [List.length_flatMap]

/-- A product has one configuration for each way to choose, for every component, one of the
states to choose from. -/
theorem size_product (h : ∀ d ∈ a.components, (choice d).Nodup) :
  (a.product choice).size = (a.components.map fun d => (choice d).length).prod
  := by
  rw [product, Region.size_ofConfigurations, length_jointConfigurations, List.map_map]
  · rfl
  · apply nodup_jointConfigurations
    · rw [List.map_map]
      apply a.nodup_ids
    · intro choice hchoice
      obtain ⟨d, hd, rfl⟩ := List.mem_map.mp hchoice
      apply h d hd

theorem jointConfigurations_ne_nil (h : ∀ choice ∈ choices, choice.2 ≠ []) :
  jointConfigurations choices ≠ []
  := by
  induction choices with
  | nil => apply List.cons_ne_nil
  | cons choice choices ih =>
    obtain ⟨hchoice, h⟩ := List.forall_mem_cons.mp h
    obtain ⟨s, hs⟩ := List.exists_mem_of_ne_nil _ hchoice
    intro hnil
    rw [jointConfigurations, List.flatMap_eq_nil_iff] at hnil
    apply ih h (List.map_eq_nil_iff.mp (hnil s hs))

/-- A product is empty only if some component has nothing to choose from. -/
theorem isEmpty_product (h : ∀ d ∈ a.components, choice d ≠ []) :
  (a.product choice).isEmpty = false
  := by
  have hne : jointConfigurations (a.components.map fun d => (d.id, choice d)) ≠ [] := by
    apply jointConfigurations_ne_nil
    intro choice hchoice
    obtain ⟨d, hd, rfl⟩ := List.mem_map.mp hchoice
    apply h d hd
  obtain ⟨c, hc⟩ := List.exists_mem_of_ne_nil _ hne
  rw [← Bool.not_eq_true, Region.isEmpty_iff]
  intro hempty
  apply hempty c (Region.mem_ofConfigurations.mpr hc)

/-! ### What they are -/

/-- The space holds the joint states. -/
theorem mem_space_iff :
  c ∈ a.space ↔ a.IsJointState c
  := by
  rw [space, mem_product_iff_forall]
  constructor
  · rintro ⟨hsorted, hmachines, hstates⟩
    exact ⟨hsorted, hmachines, hstates⟩
  · intro h
    exact ⟨h.sorted, h.machines, h.states⟩

/-- The initial region holds the joint states in which every component with a declared initial
state is in it. -/
theorem mem_initial_iff :
  c ∈ a.initial
    ↔ c ∈ a.space ∧ ∀ d ∈ a.components, ∀ s, d.initial = some s → c.state? d.id = some s
  := by
  constructor
  · intro h
    have hspace := mem_space_of_mem_initial h
    use hspace
    intro d hd s hs
    obtain ⟨-, hmachines, hstates⟩ := mem_product_iff_forall.mp h
    obtain ⟨p, hp, hid⟩ := List.mem_map.mp (hmachines.symm.subset (List.mem_map_of_mem hd))
    obtain ⟨d', hd', hid', hstate⟩ := hstates p hp
    obtain rfl : d' = d := List.inj_on_of_nodup_map a.nodup_ids hd' hd (hid'.trans hid)
    rw [Component.initialStates, hs] at hstate
    obtain rfl := List.mem_singleton.mp hstate
    rw [← hid]
    apply (Configuration.state?_eq_some_iff (nodup_machines_of_mem_space hspace) p).mpr hp
  · rintro ⟨hspace, hinitial⟩
    have hjoint := mem_space_iff.mp hspace
    apply mem_product_iff_forall.mpr ⟨hjoint.sorted, hjoint.machines, _⟩
    intro p hp
    obtain ⟨d, hd, hid, hstate⟩ := hjoint.states p hp
    refine ⟨d, hd, hid, ?_⟩
    rw [Component.initialStates]
    split
    · apply hstate
    · rename_i s hs
      have hn := nodup_machines_of_mem_space hspace
      have hplaced := (Configuration.state?_eq_some_iff hn p).mpr hp
      rw [← hid, hinitial d hd s hs] at hplaced
      rw [Option.some.inj hplaced]
      apply List.mem_singleton_self

/-! ### The order of registration -/

/-- Registering components one by one succeeds if their ids are new and distinct, and lists them
in this order. -/
theorem foldlM_register_eq_ok_iff {a' : Assembly} {ds : List Component} :
  ds.foldlM register a = .ok a'
    ↔ a'.uid = a.uid ∧ a'.id = a.id ∧ a'.components = a.components ++ ds
  := by
  induction ds generalizing a with
  | nil =>
    rw [List.foldlM_nil, List.append_nil, ← eq_iff, eq_comm]
    exact ⟨fun h => Except.ok.inj h, congrArg Except.ok⟩
  | cons d ds ih =>
    rw [List.foldlM_cons]
    by_cases hd : d.id ∈ a.components.map Component.id
    · rw [register, dif_pos hd]
      apply iff_of_false
      · intro h
        cases h
      · rintro ⟨-, -, hcomponents⟩
        have hn := a'.nodup_ids
        rw [hcomponents, List.map_append, List.nodup_append'] at hn
        apply hn.2.2 hd List.mem_cons_self
    · rw [register, dif_neg hd]
      apply ih.trans
      rw [List.append_assoc, List.singleton_append]

/-- Every assembly is what registering its components one by one gives. -/
theorem make_eq_ok_iff {uid : Nat} {id : String} {ds : List Component} :
  make uid id ds = .ok a ↔ a.uid = uid ∧ a.id = id ∧ a.components = ds
  := by
  rw [make]
  split
  · rename_i hid
    apply iff_of_false
    · intro h
      cases h
    · rintro ⟨-, rfl, -⟩
      apply a.id_ne_empty hid
  · apply foldlM_register_eq_ok_iff

/-- Assemblies of one id that list the same components, in whatever order, are alike. -/
theorem Alike.of_perm {a' : Assembly} (hid : a'.id = a.id)
    (h : a'.components.Perm a.components) :
  a'.Alike a
  := by
  have hrefl : ∀ d : Component, d.Alike d :=
    fun d => ⟨rfl, rfl, List.Perm.refl _, fun _ => Iff.rfl⟩
  refine ⟨hid, ?_, ?_⟩
  · intro d hd
    exact ⟨d, h.mem_iff.mp hd, hrefl d⟩
  · intro d hd
    exact ⟨d, h.mem_iff.mpr hd, hrefl d⟩

/-- The components of an assembly may be registered in any order. -/
theorem exists_make_of_perm (uid : Nat) {ds : List Component} (h : ds.Perm a.components) :
  ∃ a', make uid a.id ds = .ok a' ∧ a'.Alike a
  := by
  have hn : (ds.map Component.id).Nodup := (h.map Component.id).nodup_iff.mpr a.nodup_ids
  refine ⟨⟨uid, a.id, ds, a.id_ne_empty, hn⟩, make_eq_ok_iff.mpr ⟨rfl, rfl, rfl⟩, ?_⟩
  apply Alike.of_perm _ h
  rfl

/-- The space of an assembly, whatever registrations it comes from, holds exactly the joint
states of its components, and as many as the product of the numbers of their states. The initial
region holds exactly those in which every component with a declared initial state is in it; there
always are some, and without components there is just the configuration that places nothing.
Registering the same components in another order gives the same space, initial region and parts
of the space. -/
theorem space_exact (a : Assembly) :
  make a.uid a.id a.components = .ok a
    ∧ (∀ c, c ∈ a.space ↔ a.IsJointState c)
    ∧ a.space.size = (a.components.map fun d => d.states.length).prod
    ∧ (∀ c, c ∈ a.initial
      ↔ c ∈ a.space ∧ ∀ d ∈ a.components, ∀ s, d.initial = some s → c.state? d.id = some s)
    ∧ a.initial.isEmpty = false
    ∧ (a.components = [] → ∀ c, (c ∈ a.space ↔ c = []) ∧ (c ∈ a.initial ↔ c = []))
    ∧ ∀ (uid : Nat) (ds : List Component), ds.Perm a.components →
      ∃ a', make uid a.id ds = .ok a' ∧ a'.space = a.space ∧ a'.initial = a.initial
        ∧ ∀ p, a'.statesWhere p = a.statesWhere p
  := by
  refine ⟨make_eq_ok_iff.mpr ⟨rfl, rfl, rfl⟩, fun c => mem_space_iff, ?_, fun c => mem_initial_iff,
    ?_, ?_, ?_⟩
  · apply size_product fun d _ => d.nodup_states
  · apply isEmpty_product fun d _ => d.initialStates_ne_nil
  · intro hnil c
    have hproduct : ∀ choice, c ∈ a.product choice ↔ c = [] := by
      intro choice
      rw [product, hnil, Region.mem_ofConfigurations]
      apply List.mem_singleton
    exact ⟨hproduct _, hproduct _⟩
  · intro uid ds hperm
    obtain ⟨a', hmake, halike⟩ := exists_make_of_perm uid hperm
    exact ⟨a', hmake, halike.space_eq, halike.initial_eq, halike.statesWhere_eq⟩

/-- The light is off at first and the door is open or closed. The door may be registered before
the light. -/
theorem space_exact_house :
  Loop.house.space.size = 2 * 2
    ∧ Loop.house.IsJointState [⟨"door", "open"⟩, ⟨"light", "on"⟩]
    ∧ Loop.house.initial.toList =
      [[⟨"door", "closed"⟩, ⟨"light", "off"⟩], [⟨"door", "open"⟩, ⟨"light", "off"⟩]]
    ∧ ∃ a', make 7 "room" [Loop.door, Loop.light] = .ok a' ∧ a'.space = Loop.house.space
      ∧ a'.initial = Loop.house.initial
      ∧ a'.statesWhere ⟨"light", "on"⟩ = Loop.house.statesWhere ⟨"light", "on"⟩
  := by
  obtain ⟨-, hspace, hsize, -, -, -, horder⟩ := space_exact Loop.house
  obtain ⟨a', hmake, hspace', hinitial', hpart'⟩ :=
    horder 7 [Loop.door, Loop.light] (List.Perm.swap _ _ [])
  refine ⟨hsize, (hspace _).mp ?_, ?_, a', hmake, hspace', hinitial', hpart' _⟩ <;>
    decide +kernel

end Assembly

end AssemblySemantics
