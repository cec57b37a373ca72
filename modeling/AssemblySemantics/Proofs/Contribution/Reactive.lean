import AssemblySemantics.Proofs.Contribution.Exits

/-!
# What reactive transitions contribute

A reactive transition that is guarded by a placement contributes, from a region of the space,
in closed form. Over the region itself it reaches nothing when some configuration already has
the placement, and otherwise every configuration into which an autonomous move of the machine
leads from one of the region. Over the sources of the exit zones it reaches the whole extent of
the placement as soon as some zone leads there, whatever the other zones are, and nothing when
none does. The second contribution contains the first one.
-/

namespace AssemblySemantics

variable {a : Assembly} {r : Region} {p : Placement} {b c : Configuration}
  {zones : List ExitZone} {t : Transition} {basis : Basis}

namespace Assembly

/-- A machine may go of its own accord, from where a configuration places it, into a
placement. -/
def Enters (a : Assembly) (p : Placement) (b c : Configuration) : Prop :=
  ∃ d, a.component? p.machine = some d ∧ ∃ x ∈ d.autonomousMoves,
    b.state? p.machine = some x.source ∧ x.target = p.state ∧ c = b.reassign p.machine p.state

theorem Enters.state?_eq (h : a.Enters p b c) :
  c.state? p.machine = some p.state
  := by
  obtain ⟨d, -, x, -, hsource, -, rfl⟩ := h
  rw [Configuration.state?_reassign, if_pos rfl, hsource]
  rfl

/-- Autonomous moves do not leave the space. -/
theorem Enters.mem_space (h : a.Enters p b c) (hb : b ∈ a.space) :
  c ∈ a.space
  := by
  obtain ⟨d, hd, x, hx, -, htarget, rfl⟩ := h
  apply reassign_mem_space hb hd
  rw [← htarget]
  apply (d.ends_mem x (List.mem_filter.mp hx).1).2

theorem Enters.mem_extent (h : a.Enters p b c) (hb : b ∈ a.space) :
  c ∈ (Proposition.basic p).extent a
  := Proposition.mem_extent.mpr ⟨h.mem_space hb, h.state?_eq⟩

end Assembly

namespace Region

/-! ### Following the exit zones of a region -/

/-- Following a possible zone is entering its target. -/
theorem enters_of_mem_stepped {z : ExitZone} (hz : z ∈ a.possibleZones) (hc : c ∈ r.stepped z) :
  ∃ b ∈ r, a.Enters z.target b c
  := by
  obtain ⟨d, hd, x, hx, rfl⟩ := Assembly.mem_possibleZones.mp hz
  obtain ⟨b, hb, hsource, rfl⟩ := mem_stepped.mp hc
  exact ⟨b, hb, d, hd, x, hx, hsource, rfl, rfl⟩

/-- Where the exit zones of a region lead that have a target: nowhere from a region that
touches the target, and otherwise wherever the target is entered from the region. -/
theorem mem_followed_zones (hr : r ⊆ a.space) :
  c ∈ r.followed p (r.zones a).toList ↔ ¬ r.Touches p a ∧ ∃ b ∈ r, a.Enters p b c
  := by
  rw [mem_followed]
  constructor
  · rintro ⟨z, hz, rfl, hc⟩
    obtain ⟨hpossible, -, htouches⟩ := mem_zones.mp (mem_toList_zones.mp hz)
    exact ⟨htouches, enters_of_mem_stepped hpossible hc⟩
  · rintro ⟨htouches, b, hb, d, hd, x, hx, hsource, htarget, rfl⟩
    obtain ⟨hmem, hid⟩ := Assembly.component?_eq_some_iff.mp hd
    have hp : (ExitZone.ofMove d x).target = p := by
      rw [ExitZone.ofMove, hid, htarget]
    refine ⟨ExitZone.ofMove d x, mem_toList_zones.mpr (mem_zones.mpr ⟨?_, ?_, ?_⟩), hp, ?_⟩
    · apply Assembly.mem_possibleZones.mpr ⟨d, _, x, hx, rfl⟩
      rw [hid]
      apply hd
    · apply touches_iff.mpr ⟨b, hb, hr b hb, _⟩
      rw [ExitZone.ofMove, hid]
      apply hsource
    · rw [hp]
      apply htouches
    · apply mem_stepped.mpr ⟨b, hb, _⟩
      rw [ExitZone.ofMove, hid, htarget]
      exact ⟨hsource, rfl⟩

/-- Within the space, a region that touches a placement has a configuration with it. -/
theorem touches_iff_of_subset_space (hr : r ⊆ a.space) :
  r.Touches p a ↔ ∃ b ∈ r, b.state? p.machine = some p.state
  := by
  rw [touches_iff]
  apply exists_congr
  intro b
  apply and_congr_right
  intro hb
  apply and_iff_right (hr b hb)

/-! ### Following zones from their sources -/

/-- From the sources of possible zones, each of them leads to the whole extent of its target:
a configuration there is reached from the one in which the machine is at the source. -/
theorem mem_stepped_sources {z : ExitZone} (hz : z ∈ zones) (hpossible : z ∈ a.possibleZones) :
  c ∈ (a.sources zones).stepped z ↔ c ∈ (Proposition.basic z.target).extent a
  := by
  constructor
  · intro hc
    obtain ⟨b, hb, henters⟩ := enters_of_mem_stepped hpossible hc
    apply henters.mem_extent (Assembly.sources_subset_space b hb)
  · intro hc
    obtain ⟨hspace, hstate⟩ := Proposition.mem_extent.mp hc
    obtain ⟨d, hd, x, hx, rfl⟩ := Assembly.mem_possibleZones.mp hpossible
    have hstate : c.state? d.id = some x.target := hstate
    have hback : (c.reassign d.id x.source).state? d.id = some x.source := by
      rw [Configuration.state?_reassign, if_pos rfl, hstate]
      rfl
    refine mem_stepped.mpr ⟨c.reassign d.id x.source, ?_, hback, ?_⟩
    · refine Assembly.mem_sources.mpr ⟨_, hz, Assembly.mem_statesWhere_iff_state?.mpr ⟨?_, hback⟩⟩
      apply Assembly.reassign_mem_space hspace hd
      apply (d.ends_mem x (List.mem_filter.mp hx).1).1
    · symm
      apply (Configuration.reassign_reassign c d.id x.source x.target).trans
      apply Configuration.reassign_of_state? (Assembly.nodup_machines_of_mem_space hspace) hstate

/-- From the sources of possible zones, those with a target lead to its whole extent, if there
are any. -/
theorem mem_followed_sources (hpossible : ∀ z ∈ zones, z ∈ a.possibleZones) :
  c ∈ (a.sources zones).followed p zones
    ↔ (∃ z ∈ zones, z.target = p) ∧ c ∈ (Proposition.basic p).extent a
  := by
  rw [mem_followed]
  constructor
  · rintro ⟨z, hz, rfl, hc⟩
    exact ⟨⟨z, hz, rfl⟩, (mem_stepped_sources hz (hpossible z hz)).mp hc⟩
  · rintro ⟨⟨z, hz, rfl⟩, hc⟩
    exact ⟨z, hz, rfl, (mem_stepped_sources hz (hpossible z hz)).mpr hc⟩

end Region

namespace Transition

/-! ### What a reactive transition fires into -/

theorem firing_of_guard (ht : t.isReactive = true) (hp : t.guard = .basic p) :
  t.firing r zones a basis = (basis.region r zones a).followed p zones
  := by
  rw [firing, if_pos ht, Proposition.basic?_eq_some_iff.mpr hp]

/-- A reactive transition that is guarded by anything but a placement fires nowhere. -/
theorem firing_of_forall_ne (ht : t.isReactive = true) (hguard : ∀ p, t.guard ≠ .basic p) :
  t.firing r zones a basis = .bottom a.id
  := by
  rw [firing, if_pos ht]
  split
  · rfl
  · rename_i p hp
    apply (hguard p (Proposition.basic?_eq_some_iff.mp hp)).elim

/-- Where no zone leads to the placement that guards it, a reactive transition fires nowhere. -/
theorem firing_of_forall_target_ne (h : r.assembly = a.id) (ht : t.isReactive = true)
    (hp : t.guard = .basic p) (hz : ∀ z ∈ zones, z.target ≠ p) :
  t.firing r zones a basis = .bottom a.id
  := by
  apply Region.eq_bottom (assembly_firing h)
  intro c hc
  rw [firing_of_guard ht hp] at hc
  obtain ⟨z, hmem, htarget, -⟩ := Region.mem_followed.mp hc
  apply hz z hmem htarget

/-- Where some zone leads to the placement that guards it, a reactive transition fires over the
sources of the zones wherever its guard holds. -/
theorem firing_zoneSources (h : r.assembly = a.id) (ht : t.isReactive = true)
    (hp : t.guard = .basic p) (hpossible : ∀ z ∈ zones, z ∈ a.possibleZones)
    (hz : ∃ z ∈ zones, z.target = p) :
  t.firing r zones a .zoneSources = t.guard.extent a
  := by
  apply Region.ext
  · apply (assembly_firing h).trans (Proposition.assembly_extent a t.guard).symm
  · intro c
    rw [firing_of_guard ht hp, hp]
    apply (Region.mem_followed_sources hpossible).trans
    apply and_iff_right hz

/-- From a region of the space, a reactive transition fires over the region only into
configurations into which it also fires over the sources of the exit zones. -/
theorem firing_stateRegion_subset (h : r.assembly = a.id) (ht : t.isReactive = true)
    (hr : r ⊆ a.space) :
  t.firing r (r.zones a).toList a .stateRegion ⊆ t.firing r (r.zones a).toList a .zoneSources
  := by
  intro c hc
  obtain ⟨p, hp, hc⟩ := (mem_firing_of_isReactive ht).mp hc
  obtain ⟨z, hz, htarget, -⟩ := Region.mem_followed.mp hc
  rw [firing_zoneSources h ht hp (r.forall_mem_possibleZones a) ⟨z, hz, htarget⟩, hp]
  obtain ⟨-, b, hb, henters⟩ := (Region.mem_followed_zones hr).mp hc
  apply henters.mem_extent (hr b hb)

/-- Over the exit zones of its source, listed in any order, a transition contributes its
image. -/
theorem contribution_eq_image {listed : List ExitZone} (h : r.assembly = a.id)
    (hlisted : ∀ z, z ∈ listed ↔ z ∈ r.zones a) :
  t.contribution r listed a basis = .ok (t.image r a basis)
  := by
  have hzones : ∀ z, z ∈ listed ↔ z ∈ (r.zones a).toList := by
    intro z
    rw [hlisted, Region.mem_toList_zones]
  rw [contribution_congr hzones]
  apply contribution_of_eq h

/-! ### The two bases -/

/-- A reactive transition contributes in closed form over a region of the space, in whatever
order the exit zones of the region are listed. Guarded by a placement, it performs its actions
on the configurations into which autonomous moves into the placement lead from the region, and
on none if the region has one with the placement already; all of these lie outside the region
and in the lift of the guard. Guarded by anything else, it contributes nothing. -/
theorem contribution_stateRegion (hr : r.le a.space = .ok true) (ht : t.isReactive = true) :
  ∃ zones, r.exitZones a = .ok zones
    ∧ ∀ listed : List ExitZone, (∀ z, z ∈ listed ↔ z ∈ zones) →
      (∀ p, t.guard = .basic p → ∃ entered contributed held : Region,
        entered.assembly = a.id
        ∧ (∀ c, c ∈ entered
          ↔ (∀ b ∈ r, b.state? p.machine ≠ some p.state) ∧ ∃ b ∈ r, a.Enters p b c)
        ∧ entered.perform t.actions a = .ok contributed
        ∧ t.contribution r listed a .stateRegion = .ok contributed
        ∧ (∀ c ∈ entered, c ∉ r)
        ∧ t.guard.lift a = .ok held ∧ entered.le held = .ok true)
      ∧ ((∀ p, t.guard ≠ .basic p) →
        t.contribution r listed a .stateRegion = .ok (.bottom a.id))
  := by
  obtain ⟨htag, hr⟩ := Region.le_eq_ok_true_iff.mp hr
  refine ⟨r.zones a, Region.exitZones_of_eq htag, ?_⟩
  intro listed hlisted
  rw [contribution_eq_image htag hlisted, image, reach]
  constructor
  · intro p hp
    rw [firing_of_guard ht hp]
    refine ⟨r.followed p (r.zones a).toList, _, t.guard.extent a, htag, ?_,
      Region.perform_of_eq _ htag, rfl, ?_, Proposition.lift_eq a t.guard, ?_⟩
    · intro c
      rw [Region.mem_followed_zones hr, Region.touches_iff_of_subset_space hr, not_exists]
      simp only [not_and, ne_eq]
    · intro c hc hmem
      obtain ⟨htouches, b, -, henters⟩ := (Region.mem_followed_zones hr).mp hc
      apply htouches
      apply (Region.touches_iff_of_subset_space hr).mpr ⟨c, hmem, henters.state?_eq⟩
    · apply Region.le_eq_ok_true_iff.mpr
      use htag.trans (Proposition.assembly_extent a t.guard).symm
      intro c hc
      obtain ⟨-, b, hb, henters⟩ := (Region.mem_followed_zones hr).mp hc
      rw [hp]
      apply henters.mem_extent (hr b hb)
  · intro hguard
    rw [firing_of_forall_ne ht hguard, Region.bottom_flatMap]

end Transition

namespace Lamp

/-- From the first state to the second one, when the lamp has gone on by itself, with a push at
the lamp. -/
def wake : Transition :=
  ⟨10, "wake", Loop.first, Loop.second, .basic ⟨"lamp", "on"⟩, false, [⟨"lamp", "push"⟩]⟩

end Lamp

namespace Transition

/-- In the dark the lamp goes on along either of two moves, and the push makes it dark again; the
exit zones are listed from the last to the first, and once more from the first to the last. -/
theorem contribution_stateRegion_dark :
  Lamp.dark.le Lamp.porch.space = .ok true ∧ Lamp.wake.isReactive = true
    ∧ ∃ zones, Lamp.dark.exitZones Lamp.porch = .ok zones ∧ ∃ entered contributed : Region,
      (∀ c, c ∈ entered ↔ (∀ b ∈ Lamp.dark, b.state? "lamp" ≠ some "on")
        ∧ ∃ b ∈ Lamp.dark, Lamp.porch.Enters ⟨"lamp", "on"⟩ b c)
      ∧ (∀ c ∈ entered, c ∉ Lamp.dark)
      ∧ entered.perform [⟨"lamp", "push"⟩] Lamp.porch = .ok contributed
      ∧ Lamp.wake.contribution Lamp.dark (zones.toList.reverse ++ zones.toList) Lamp.porch
        .stateRegion = .ok contributed
      ∧ contributed.toList =
        [[⟨"door", "closed"⟩, ⟨"lamp", "dim"⟩], [⟨"door", "closed"⟩, ⟨"lamp", "off"⟩]]
  := by
  have hle : Lamp.dark.le Lamp.porch.space = .ok true := by decide +kernel
  obtain ⟨zones, hzones, hlisted⟩ := contribution_stateRegion (t := Lamp.wake) hle rfl
  have hmem : ∀ z, z ∈ zones.toList.reverse ++ zones.toList ↔ z ∈ zones := by
    intro z
    rw [List.mem_append, List.mem_reverse, or_self, Std.ExtTreeSet.mem_toList]
  obtain ⟨entered, contributed, -, -, hentered, hperform, hcontribution, hdisjoint, -, -⟩ :=
    (hlisted _ hmem).1 ⟨"lamp", "on"⟩ rfl
  have hvalue : (Lamp.dark.exitZones Lamp.porch).map (fun zones =>
      (Lamp.wake.contribution Lamp.dark (zones.toList.reverse ++ zones.toList) Lamp.porch
        .stateRegion).map Region.toList) =
      .ok (.ok
        [[⟨"door", "closed"⟩, ⟨"lamp", "dim"⟩], [⟨"door", "closed"⟩, ⟨"lamp", "off"⟩]]) := by
    decide +kernel
  rw [hzones] at hvalue
  have hvalue := Except.ok.inj hvalue
  simp only [hcontribution] at hvalue
  exact ⟨hle, rfl, zones, hzones, entered, contributed, hentered, hdisjoint, hperform,
    hcontribution, Except.ok.inj hvalue⟩

/-- Over the sources of the exit zones of a region of the space, a reactive transition that is
guarded by a placement performs its actions on the whole lift of its guard when some exit zone
leads to the placement, and contributes nothing otherwise, whatever other exit zones there are
and in whatever order they are listed. It always contributes what it contributes over the
region, and possibly more. -/
theorem contribution_zoneSources (hr : r.le a.space = .ok true) (ht : t.isReactive = true)
    (hp : t.guard = .basic p) :
  ∃ zones held performed, r.exitZones a = .ok zones
    ∧ t.guard.lift a = .ok held ∧ held.perform t.actions a = .ok performed
    ∧ ∀ listed : List ExitZone, (∀ z, z ∈ listed ↔ z ∈ zones) →
      ∃ wide narrow : Region, t.contribution r listed a .zoneSources = .ok wide
        ∧ ((∃ z ∈ zones, z.target = p) → wide = performed)
        ∧ ((∀ z ∈ zones, z.target ≠ p) → wide = .bottom a.id)
        ∧ t.contribution r listed a .stateRegion = .ok narrow ∧ narrow.le wide = .ok true
  := by
  obtain ⟨htag, hr⟩ := Region.le_eq_ok_true_iff.mp hr
  refine ⟨r.zones a, t.guard.extent a, _, Region.exitZones_of_eq htag,
    Proposition.lift_eq a t.guard, Region.perform_of_eq _ (Proposition.assembly_extent a t.guard),
    ?_⟩
  intro listed hlisted
  refine ⟨_, _, contribution_eq_image htag hlisted, ?_, ?_,
    contribution_eq_image htag hlisted, ?_⟩
  · rintro ⟨z, hz, htarget⟩
    rw [image, reach, firing_zoneSources htag ht hp (r.forall_mem_possibleZones a)
      ⟨z, Region.mem_toList_zones.mpr hz, htarget⟩]
  · intro hz
    rw [image, reach, firing_of_forall_target_ne htag ht hp, Region.bottom_flatMap]
    intro z hmem
    apply hz z (Region.mem_toList_zones.mp hmem)
  · apply Region.le_eq_ok_true_iff.mpr
    use (assembly_image htag).trans (assembly_image htag).symm
    apply image_subset_image (firing_stateRegion_subset htag ht hr)

/-- In the dark the door is closed, but over the sources of the exit zones, of which one is the
closed door, it may be open when the lamp goes on. -/
theorem contribution_zoneSources_dark :
  Lamp.dark.le Lamp.porch.space = .ok true ∧ Lamp.wake.isReactive = true
    ∧ Lamp.wake.guard = .basic ⟨"lamp", "on"⟩
    ∧ ∃ zones, Lamp.dark.exitZones Lamp.porch = .ok zones ∧ ∃ held performed : Region,
      Lamp.wake.guard.lift Lamp.porch = .ok held
      ∧ held.perform [⟨"lamp", "push"⟩] Lamp.porch = .ok performed
      ∧ Lamp.wake.contribution Lamp.dark zones.toList Lamp.porch .zoneSources = .ok performed
      ∧ performed.toList = [[⟨"door", "closed"⟩, ⟨"lamp", "dim"⟩],
        [⟨"door", "closed"⟩, ⟨"lamp", "off"⟩], [⟨"door", "open"⟩, ⟨"lamp", "dim"⟩],
        [⟨"door", "open"⟩, ⟨"lamp", "off"⟩]]
  := by
  have hle : Lamp.dark.le Lamp.porch.space = .ok true := by decide +kernel
  have hvalue : (Lamp.dark.exitZones Lamp.porch).map (fun zones =>
      (zones.toList.any fun z => z.target = ⟨"lamp", "on"⟩,
        (Lamp.wake.contribution Lamp.dark zones.toList Lamp.porch .zoneSources).map
          Region.toList)) =
      .ok (true, .ok [[⟨"door", "closed"⟩, ⟨"lamp", "dim"⟩],
        [⟨"door", "closed"⟩, ⟨"lamp", "off"⟩], [⟨"door", "open"⟩, ⟨"lamp", "dim"⟩],
        [⟨"door", "open"⟩, ⟨"lamp", "off"⟩]]) := by
    decide +kernel
  obtain ⟨zones, held, performed, hzones, hheld, hperform, hlisted⟩ :=
    contribution_zoneSources (t := Lamp.wake) (p := ⟨"lamp", "on"⟩) hle rfl rfl
  obtain ⟨wide, _, hwide, hsome, -, -, -⟩ :=
    hlisted zones.toList fun z => Std.ExtTreeSet.mem_toList
  rw [hzones] at hvalue
  obtain ⟨hany, hvalue⟩ := Prod.mk.inj (Except.ok.inj hvalue)
  rw [hwide] at hvalue
  have htarget : ∃ z ∈ zones, z.target = ⟨"lamp", "on"⟩ := by
    obtain ⟨z, hz, htarget⟩ := List.any_eq_true.mp hany
    exact ⟨z, Std.ExtTreeSet.mem_toList.mp hz, of_decide_eq_true htarget⟩
  obtain rfl := hsome htarget
  exact ⟨hle, rfl, rfl, zones, hzones, held, wide, hheld, hperform, hwide,
    Except.ok.inj hvalue⟩

end Transition

end AssemblySemantics
