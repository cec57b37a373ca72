import AssemblySemantics.Contribution
import AssemblySemantics.Proofs.ExitZone.Zones
import AssemblySemantics.Proofs.Region.Motion

/-!
# The image of a region under a transition

What a transition contributes from a region of the assembly is a region again: `reach`, for
given exit zones, and `image` for the exit zones of the region itself. A configuration is in
it exactly when firing the transition leads to a configuration from which its actions lead
there. Images stay in the space of the assembly. They grow with the region when the
transition is not reactive, and otherwise as long as the guard stays untouched.
-/

namespace AssemblySemantics

variable {a : Assembly} {b c : Configuration} {r s : Region} {zones : List ExitZone}
  {p : Placement} {basis : Basis} {t : Transition}

namespace Region

/-- The configurations to which the move of an exit zone leads, by operations on sets. -/
def stepped (r : Region) (z : ExitZone) : Region :=
  r.flatMap fun c =>
    if c.state? z.machine = some z.move.source then [c.reassign z.machine z.move.target] else []

/-- The configurations to which those of the given exit zones lead that have a target, by
operations on sets. -/
def followed (r : Region) (target : Placement) (zones : List ExitZone) : Region :=
  unions r.assembly
    (zones.map fun z => if z.target = target then r.stepped z else bottom r.assembly)

theorem mem_stepped {z : ExitZone} :
  c ∈ r.stepped z
    ↔ ∃ b ∈ r, b.state? z.machine = some z.move.source ∧ c = b.reassign z.machine z.move.target
  := by
  rw [stepped, mem_flatMap]
  apply exists_congr
  intro b
  apply and_congr_right
  intro _
  split <;> simp_all

/-- The move of a possible zone does not leave the space. -/
theorem stepped_subset_space {z : ExitZone} (h : r ⊆ a.space) (hz : z ∈ a.possibleZones) :
  r.stepped z ⊆ a.space
  := by
  intro c hc
  obtain ⟨b, hb, -, rfl⟩ := mem_stepped.mp hc
  obtain ⟨d, hd, x, hx, rfl⟩ := Assembly.mem_possibleZones.mp hz
  apply Assembly.reassign_mem_space (h b hb) hd
  apply (d.ends_mem x (List.mem_filter.mp hx).1).2

theorem mem_followed :
  c ∈ r.followed p zones ↔ ∃ z ∈ zones, z.target = p ∧ c ∈ r.stepped z
  := by
  rw [followed, mem_unions]
  constructor
  · rintro ⟨s, hs, hc⟩
    obtain ⟨z, hz, rfl⟩ := List.mem_map.mp hs
    split at hc
    · rename_i ht
      exact ⟨z, hz, ht, hc⟩
    · apply (not_mem_bottom hc).elim
  · rintro ⟨z, hz, ht, hc⟩
    refine ⟨_, List.mem_map_of_mem hz, ?_⟩
    rw [if_pos ht]
    apply hc

theorem follow_of_eq (h : r.assembly = a.id) (z : ExitZone) :
  r.follow z a = .ok (r.stepped z)
  := by
  rw [follow, advance, within_of_eq h]
  rfl

/-- Following zones in a region of the assembly. -/
theorem followTo_of_eq (h : r.assembly = a.id) :
  r.followTo p zones a = .ok (r.followed p zones)
  := by
  rw [followTo, followed, h]
  apply foldlM_bottom_eq_unions
  intro joined z _ hj
  split
  · rw [follow_of_eq h]
    apply join_of_eq
    apply hj.trans h.symm
  · symm
    apply congrArg Except.ok
    apply union_eq_left_iff.mpr bottom_subset

/-- Without a zone that has the target nothing is followed, in whatever region. -/
theorem followTo_of_forall_ne (h : ∀ z ∈ zones, z.target ≠ p) :
  r.followTo p zones a = .ok (.bottom a.id)
  := by
  rw [followTo]
  induction zones with
  | nil => rfl
  | cons z zones ih =>
    rw [List.foldlM_cons, if_neg (h z List.mem_cons_self)]
    apply ih
    intro z' hz'
    apply h z' (List.mem_cons_of_mem z hz')

/-- In a region of another assembly no zone can be followed. -/
theorem followTo_of_ne (h : r.assembly ≠ a.id) (hz : ∃ z ∈ zones, z.target = p) :
  r.followTo p zones a = .error (.misplaced r.assembly a.id)
  := by
  rw [followTo]
  induction zones with
  | nil =>
    obtain ⟨z, hz, -⟩ := hz
    apply (List.not_mem_nil hz).elim
  | cons y zones ih =>
    rw [List.foldlM_cons]
    split
    · rw [follow, advance, within_of_ne h]
      rfl
    · rename_i hy
      apply ih
      obtain ⟨z, hz, htarget⟩ := hz
      obtain rfl | hz := List.mem_cons.mp hz
      · apply (hy htarget).elim
      · exact ⟨z, hz, htarget⟩

/-- In a region of another assembly, following the zones with a target succeeds only if there
is none. -/
theorem eq_bottom_of_followTo (h : r.assembly ≠ a.id) (hs : r.followTo p zones a = .ok s) :
  s = .bottom a.id ∧ ∀ z ∈ zones, z.target ≠ p
  := by
  have hzones : ∀ z ∈ zones, z.target ≠ p := by
    intro z hz htarget
    rw [followTo_of_ne h ⟨z, hz, htarget⟩] at hs
    cases hs
  rw [followTo_of_forall_ne hzones] at hs
  exact ⟨(Except.ok.inj hs).symm, hzones⟩

/-- It does not matter in which order zones are followed, and how often. -/
theorem followTo_congr {zones' : List ExitZone} (h : ∀ z, z ∈ zones ↔ z ∈ zones') :
  r.followTo p zones a = r.followTo p zones' a
  := by
  by_cases htag : r.assembly = a.id
  · rw [followTo_of_eq htag, followTo_of_eq htag]
    congr 1
    apply Region.ext
    · rfl
    · intro c
      simp only [mem_followed, h]
  · by_cases hz : ∃ z ∈ zones, z.target = p
    · obtain ⟨z, hz, htarget⟩ := hz
      rw [followTo_of_ne htag ⟨z, hz, htarget⟩, followTo_of_ne htag ⟨z, (h z).mp hz, htarget⟩]
    · have hzones : ∀ z ∈ zones, z.target ≠ p := by
        intro z hmem htarget
        apply hz ⟨z, hmem, htarget⟩
      rw [followTo_of_forall_ne hzones, followTo_of_forall_ne]
      intro z hmem
      apply hzones z ((h z).mpr hmem)

end Region

namespace Assembly

/-- The configurations at the source of one of the given zones, by operations on sets. -/
def sources (a : Assembly) (zones : List ExitZone) : Region :=
  .unions a.id (zones.map fun z => a.statesWhere z.source)

theorem mem_sources :
  c ∈ a.sources zones ↔ ∃ z ∈ zones, c ∈ a.statesWhere z.source
  := by
  simp only [sources, Region.mem_unions, List.mem_map, exists_exists_and_eq_and]

theorem sources_subset_space :
  a.sources zones ⊆ a.space
  := by
  intro c hc
  obtain ⟨_, _, hc⟩ := mem_sources.mp hc
  apply (mem_statesWhere.mp hc).1

theorem zoneSources_eq :
  zoneSources zones a = .ok (a.sources zones)
  := by
  apply Region.foldlM_bottom_eq_unions
  intro joined z _ hj
  apply Region.join_of_eq hj

end Assembly

/-- The region that a basis selects, by operations on sets. -/
def Basis.region (basis : Basis) (source : Region) (zones : List ExitZone) (a : Assembly) :
    Region :=
  match basis with
  | .stateRegion => source
  | .zoneSources => a.sources zones

theorem Basis.base_eq (source : Region) :
  basis.base source zones a = .ok (basis.region source zones a)
  := by
  cases basis with
  | stateRegion => rfl
  | zoneSources => apply Assembly.zoneSources_eq

theorem Basis.assembly_region (h : r.assembly = a.id) :
  (basis.region r zones a).assembly = a.id
  := by
  cases basis with
  | stateRegion => apply h
  | zoneSources => rfl

theorem Proposition.basic?_eq_some_iff {f : Proposition} :
  f.basic? = some p ↔ f = .basic p
  := by
  cases f <;> simp [Proposition.basic?]

namespace Transition

/-- The configurations reached by firing a transition, before its actions, by operations on
sets. -/
def firing (t : Transition) (source : Region) (zones : List ExitZone) (a : Assembly)
    (basis : Basis) : Region :=
  if t.isReactive then
    match t.guard.basic? with
    | none => .bottom a.id
    | some target => (basis.region source zones a).followed target zones
  else source ∩ t.guard.extent a

/-- The configurations reached by firing a transition and performing its actions, by
operations on sets. -/
def reach (t : Transition) (source : Region) (zones : List ExitZone) (a : Assembly)
    (basis : Basis) : Region :=
  (t.firing source zones a basis).flatMap (a.performed t.actions)

/-- What a transition reaches from a region with the exit zones of that region. -/
def image (t : Transition) (source : Region) (a : Assembly) (basis : Basis) : Region :=
  t.reach source (source.zones a).toList a basis

theorem assembly_firing (h : r.assembly = a.id) :
  (t.firing r zones a basis).assembly = a.id
  := by
  unfold firing
  split
  · split
    · rfl
    · apply Basis.assembly_region h
  · apply h

theorem fired_of_eq (h : r.assembly = a.id) :
  t.fired r zones a basis = .ok (t.firing r zones a basis)
  := by
  unfold fired firing
  split
  · cases t.guard.basic? with
    | none => rfl
    | some target =>
      rw [Basis.base_eq]
      apply Region.followTo_of_eq (Basis.assembly_region h)
  · rw [Proposition.lift_eq]
    apply Region.meet_of_eq
    rw [h, Proposition.assembly_extent]

/-- A transition contributes, from a region of the assembly, what it reaches. -/
theorem contribution_of_eq (h : r.assembly = a.id) :
  t.contribution r zones a basis = .ok (t.reach r zones a basis)
  := by
  rw [contribution, fired_of_eq h]
  apply Region.perform_of_eq _ (assembly_firing h)

/-- Firing that succeeds, from whatever region, leads to a region of the assembly with the
configurations to which firing leads by operations on sets. -/
theorem mem_fired (hs : t.fired r zones a basis = .ok s) :
  s.assembly = a.id ∧ ∀ c, c ∈ s ↔ c ∈ t.firing r zones a basis
  := by
  by_cases htag : r.assembly = a.id
  · rw [fired_of_eq htag] at hs
    obtain rfl := Except.ok.inj hs
    exact ⟨assembly_firing htag, fun _ => Iff.rfl⟩
  · cases hreactive : t.isReactive with
    | false =>
      rw [fired, if_neg (by rw [hreactive]; apply Bool.false_ne_true), Proposition.lift_eq] at hs
      have hextent := (Region.meet_eq_ok_iff.mp hs).1
      rw [Proposition.assembly_extent] at hextent
      apply (htag hextent).elim
    | true =>
      rw [fired, if_pos hreactive] at hs
      rw [firing, if_pos hreactive]
      cases hguard : t.guard.basic? with
      | none =>
        rw [hguard] at hs
        obtain rfl := Except.ok.inj hs
        exact ⟨rfl, fun _ => Iff.rfl⟩
      | some target =>
        rw [hguard] at hs
        cases basis with
        | stateRegion =>
          obtain ⟨rfl, hzones⟩ := Region.eq_bottom_of_followTo htag hs
          use rfl
          intro c
          constructor
          · intro hc
            apply (Region.not_mem_bottom hc).elim
          · intro hc
            obtain ⟨z, hz, hztarget, -⟩ := Region.mem_followed.mp hc
            apply (hzones z hz hztarget).elim
        | zoneSources =>
          have hs : Basis.zoneSources.base r zones a >>= (·.followTo target zones a) = .ok s := hs
          rw [Basis.base_eq] at hs
          obtain rfl := Except.ok.inj ((Region.followTo_of_eq rfl).symm.trans hs)
          exact ⟨rfl, fun _ => Iff.rfl⟩

/-- The actions of a transition lead on from where it fires. -/
theorem contribution_of_fired (hs : t.fired r zones a basis = .ok s) :
  t.contribution r zones a basis = .ok (s.flatMap (a.performed t.actions))
  := by
  rw [contribution, hs]
  apply Region.perform_of_eq _ (mem_fired hs).1

/-- What a transition contributes is what its actions lead to from where it fires. -/
theorem exists_fired (hs : t.contribution r zones a basis = .ok s) :
  ∃ u, t.fired r zones a basis = .ok u ∧ s = u.flatMap (a.performed t.actions)
  := by
  rcases hfired : t.fired r zones a basis with e | u
  · rw [contribution, hfired] at hs
    cases hs
  · rw [contribution_of_fired hfired] at hs
    exact ⟨u, rfl, (Except.ok.inj hs).symm⟩

/-- A transition that contributes, from whatever region, contributes the configurations that
it reaches, as a region of the assembly. -/
theorem mem_contribution (hs : t.contribution r zones a basis = .ok s) :
  s.assembly = a.id ∧ ∀ c, c ∈ s ↔ c ∈ t.reach r zones a basis
  := by
  obtain ⟨u, hfired, rfl⟩ := exists_fired hs
  obtain ⟨hu, hmem⟩ := mem_fired hfired
  use hu
  intro c
  rw [reach, Region.mem_flatMap, Region.mem_flatMap]
  apply exists_congr
  intro b
  rw [hmem]

/-- Without its actions, a transition contributes where it fires. -/
theorem contribution_without_actions :
  ({ t with actions := [] } : Transition).contribution r zones a basis =
    t.fired r zones a basis
  := bind_pure (t.fired r zones a basis)

/-- A transition reads the region of its source: to keep the part where its guard holds, or to
follow a zone from there. -/
def Reads (t : Transition) (zones : List ExitZone) (basis : Basis) : Prop :=
  t.isReactive = false
    ∨ (basis = .stateRegion ∧ ∃ p, t.guard = .basic p ∧ ∃ z ∈ zones, z.target = p)

/-- A transition that is not reactive is refused a region of another assembly. -/
theorem contribution_of_ne (ht : t.isReactive = false) (h : r.assembly ≠ a.id) :
  t.contribution r zones a basis = .error (.mixed r.assembly a.id)
  := by
  have hmeet : r.meet (t.guard.extent a) = .error (.mixed r.assembly a.id) := by
    apply (if_neg _).trans
    · rw [Proposition.assembly_extent]
    · rw [Proposition.assembly_extent]
      apply h
  have hfired : t.fired r zones a basis = .error (.mixed r.assembly a.id) := by
    rw [fired, if_neg (by rw [ht]; apply Bool.false_ne_true), Proposition.lift_eq]
    apply hmeet
  rw [contribution, hfired]
  rfl

/-- A transition contributes if and only if the region of its source belongs to the assembly
or is not read. -/
theorem exists_contribution_iff :
  (∃ s, t.contribution r zones a basis = .ok s) ↔ (t.Reads zones basis → r.assembly = a.id)
  := by
  constructor
  · rintro ⟨s, hs⟩ hreads
    by_contra h
    cases ht : t.isReactive with
    | false =>
      rw [contribution_of_ne ht h] at hs
      cases hs
    | true =>
      obtain hfalse | ⟨rfl, p, hp, hz⟩ := hreads
      · rw [ht] at hfalse
        cases hfalse
      · have hfired : t.fired r zones a .stateRegion = .error (.misplaced r.assembly a.id) := by
          rw [fired, if_pos ht, Proposition.basic?_eq_some_iff.mpr hp]
          apply Region.followTo_of_ne h hz
        rw [contribution, hfired] at hs
        cases hs
  · intro hreads
    by_cases h : r.assembly = a.id
    · exact ⟨_, contribution_of_eq h⟩
    · obtain ⟨ht, hbasis⟩ := not_or.mp (mt hreads h)
      have hfired : ∃ s, t.fired r zones a basis = .ok s := by
        rw [fired, if_pos (Bool.of_not_eq_false ht)]
        cases hguard : t.guard.basic? with
        | none => exact ⟨_, rfl⟩
        | some p =>
          cases basis with
          | stateRegion =>
            refine ⟨_, Region.followTo_of_forall_ne (r := r) (p := p) ?_⟩
            intro z hz htarget
            apply hbasis ⟨rfl, p, Proposition.basic?_eq_some_iff.mp hguard, z, hz, htarget⟩
          | zoneSources =>
            rw [Basis.base_eq]
            exact ⟨_, Region.followTo_of_eq rfl⟩
      obtain ⟨s, hs⟩ := hfired
      exact ⟨_, contribution_of_fired hs⟩

/-- What a transition contributes does not depend on the order in which the exit zones are
listed, and on how often. -/
theorem contribution_congr {zones' : List ExitZone} (h : ∀ z, z ∈ zones ↔ z ∈ zones') :
  t.contribution r zones a basis = t.contribution r zones' a basis
  := by
  have hregion : basis.region r zones a = basis.region r zones' a := by
    cases basis with
    | stateRegion => rfl
    | zoneSources =>
      apply Region.ext
      · rfl
      · intro c
        simp only [Basis.region, Assembly.mem_sources, h]
  have hfired : t.fired r zones a basis = t.fired r zones' a basis := by
    unfold fired
    split
    · cases t.guard.basic? with
      | none => rfl
      | some target =>
        rw [Basis.base_eq, Basis.base_eq, hregion]
        apply Region.followTo_congr h
    · rfl
  rw [contribution, contribution, hfired]

theorem assembly_reach (h : r.assembly = a.id) :
  (t.reach r zones a basis).assembly = a.id
  := assembly_firing h

theorem mem_reach :
  c ∈ t.reach r zones a basis
    ↔ ∃ b ∈ t.firing r zones a basis, a.Performs t.actions b c
  := by
  simp only [reach, Region.mem_flatMap, Assembly.mem_performed]

/-- A transition that is not reactive fires where its guard holds. -/
theorem mem_firing_of_not_isReactive (ht : t.isReactive = false) :
  b ∈ t.firing r zones a basis ↔ b ∈ r ∧ b ∈ t.guard.extent a
  := by
  rw [firing, if_neg (by rw [ht]; apply Bool.false_ne_true), Region.mem_inter]

/-- A reactive transition follows the zones whose target is the placement that guards it. -/
theorem mem_firing_of_isReactive (ht : t.isReactive = true) :
  b ∈ t.firing r zones a basis
    ↔ ∃ p, t.guard = .basic p ∧ b ∈ (basis.region r zones a).followed p zones
  := by
  rw [firing, if_pos ht]
  split
  · rename_i hg
    constructor
    · intro h
      apply (Region.not_mem_bottom h).elim
    · rintro ⟨p, hp, -⟩
      rw [Proposition.basic?_eq_some_iff.mpr hp] at hg
      cases hg
  · rename_i target hg
    rw [Proposition.basic?_eq_some_iff] at hg
    constructor
    · intro h
      exact ⟨target, hg, h⟩
    · rintro ⟨p, hp, h⟩
      obtain rfl : target = p := Proposition.basic.inj (hg.symm.trans hp)
      apply h

/-! ### Where images lie -/

/-- Firing does not leave the space, along zones of registered components. The source must lie
in the space only where a reactive transition starts from it, and not from the sources of the
zones. -/
theorem firing_subset_space (h : t.isReactive = true → basis = .stateRegion → r ⊆ a.space)
    (hz : ∀ z ∈ zones, z ∈ a.possibleZones) :
  t.firing r zones a basis ⊆ a.space
  := by
  intro b hb
  cases ht : t.isReactive with
  | false => apply Proposition.extent_subset_space _ b ((mem_firing_of_not_isReactive ht).mp hb).2
  | true =>
    obtain ⟨p, -, hb⟩ := (mem_firing_of_isReactive ht).mp hb
    obtain ⟨z, hmem, -, hb⟩ := Region.mem_followed.mp hb
    apply Region.stepped_subset_space _ (hz z hmem) b hb
    cases basis with
    | stateRegion => apply h ht rfl
    | zoneSources => apply Assembly.sources_subset_space

/-- A transition does not leave the space, along zones of registered components. -/
theorem reach_subset_space (h : t.isReactive = true → basis = .stateRegion → r ⊆ a.space)
    (hz : ∀ z ∈ zones, z ∈ a.possibleZones) :
  t.reach r zones a basis ⊆ a.space
  := by
  intro c hc
  obtain ⟨b, hb, hperf⟩ := mem_reach.mp hc
  apply hperf.mem_space (firing_subset_space h hz b hb)

/-- Images do not leave the space. -/
theorem image_subset_space (h : t.isReactive = true → basis = .stateRegion → r ⊆ a.space) :
  t.image r a basis ⊆ a.space
  := by
  apply reach_subset_space h (r.forall_mem_possibleZones a)

theorem assembly_image (h : r.assembly = a.id) :
  (t.image r a basis).assembly = a.id
  := assembly_reach h

/-- Nothing is reached from the empty region. -/
theorem not_mem_image_bottom {assembly : String} :
  c ∉ t.image (.bottom assembly) a basis
  := by
  intro hc
  obtain ⟨b, hb, -⟩ := mem_reach.mp hc
  cases ht : t.isReactive with
  | false => apply Region.not_mem_bottom ((mem_firing_of_not_isReactive ht).mp hb).1
  | true =>
    obtain ⟨p, -, hb⟩ := (mem_firing_of_isReactive ht).mp hb
    obtain ⟨z, hz, -, -⟩ := Region.mem_followed.mp hb
    obtain ⟨-, ⟨d, hd, -⟩, -⟩ := Region.mem_zones.mp (Region.mem_toList_zones.mp hz)
    apply Region.not_mem_bottom hd

/-! ### How images grow -/

/-- Reaching further from more: it suffices that firing does. -/
theorem image_subset_image {basis' : Basis}
    (h : t.firing r (r.zones a).toList a basis ⊆ t.firing s (s.zones a).toList a basis') :
  t.image r a basis ⊆ t.image s a basis'
  := Region.flatMap_subset_flatMap _ h

/-- The image under a transition that is not reactive grows with the region. -/
theorem image_mono_of_not_isReactive (ht : t.isReactive = false) (h : r ⊆ s) :
  t.image r a basis ⊆ t.image s a basis
  := by
  apply image_subset_image
  intro b hb
  obtain ⟨hb, hg⟩ := (mem_firing_of_not_isReactive ht).mp hb
  apply (mem_firing_of_not_isReactive ht).mpr ⟨h b hb, hg⟩

/-- The image under a reactive transition grows with the region as long as the region does
not touch the placement that guards the transition. -/
theorem image_mono_of_not_touches (ht : t.isReactive = true)
    (hg : ∀ p, t.guard = .basic p → ¬ s.Touches p a) (h : r ⊆ s) :
  t.image r a basis ⊆ t.image s a basis
  := by
  apply image_subset_image
  intro b hb
  obtain ⟨p, hp, hb⟩ := (mem_firing_of_isReactive ht).mp hb
  obtain ⟨z, hz, hzp, hb⟩ := Region.mem_followed.mp hb
  obtain ⟨d, hd, hsource, hbd⟩ := Region.mem_stepped.mp hb
  have hzr : z ∈ r.zones a := Region.mem_toList_zones.mp hz
  have hzs : z ∈ s.zones a := by
    apply Region.mem_zones_of_subset hzr h
    rw [hzp]
    apply hg p hp
  have hz' : z ∈ (s.zones a).toList := Region.mem_toList_zones.mpr hzs
  apply (mem_firing_of_isReactive ht).mpr
  refine ⟨p, hp, Region.mem_followed.mpr ⟨z, hz', hzp, ?_⟩⟩
  refine Region.mem_stepped.mpr ⟨d, ?_, hsource, hbd⟩
  cases basis with
  | stateRegion => apply h d hd
  | zoneSources =>
    -- other zones may be lost, but `d` is at the source of the one that is followed
    obtain ⟨y, -, hy⟩ := Assembly.mem_sources.mp hd
    refine Assembly.mem_sources.mpr ⟨z, hz', ?_⟩
    rw [Region.source_of_mem_zones hzs, Assembly.mem_statesWhere_iff_state?]
    exact ⟨(Assembly.mem_statesWhere.mp hy).1, hsource⟩

/-- A reactive transition is blocked over a region that touches the placement that guards it,
so that no exit zone of the region leads there. -/
def Blocked (t : Transition) (r : Region) (a : Assembly) : Prop :=
  t.isReactive = true ∧ ∃ p, t.guard = .basic p ∧ r.Touches p a

/-- An image grows with the region as long as the transition is not blocked. -/
theorem image_subset_of_not_blocked (ht : ¬ t.Blocked s a) (h : r ⊆ s) :
  t.image r a basis ⊆ t.image s a basis
  := by
  cases hreactive : t.isReactive with
  | false => apply image_mono_of_not_isReactive hreactive h
  | true =>
    apply image_mono_of_not_touches hreactive _ h
    intro p hp htouches
    apply ht ⟨hreactive, p, hp, htouches⟩

end Transition

end AssemblySemantics
