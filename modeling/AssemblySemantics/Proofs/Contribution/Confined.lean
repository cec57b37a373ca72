import AssemblySemantics.Proofs.Assembly.Joint
import AssemblySemantics.Proofs.Contribution.Exits

/-!
# Contributions stay in the space

Whatever a transition contributes from a region of the space is in the space again, also when
the exit zones that it follows are those of another region. A zone is a move of a registered
component, whose ends are states of the component; so is every move that an action fires; and
moving a component to one of its states turns joint states into joint states.
-/

namespace AssemblySemantics

namespace Transition

variable {a : Assembly} {base r : Region} {t : Transition} {basis : Basis}
  {listed : List ExitZone}

/-- Along possible zones, a transition always contributes from a region of the space, and what
it contributes is in the space. -/
theorem exists_contribution_le (hr : r.le a.space = .ok true)
    (hpossible : ∀ z ∈ listed, z ∈ a.possibleZones) :
  ∃ s, t.contribution r listed a basis = .ok s ∧ s.le a.space = .ok true
  := by
  obtain ⟨htag, hr⟩ := Region.le_eq_ok_true_iff.mp hr
  refine ⟨t.reach r listed a basis, contribution_of_eq htag, ?_⟩
  apply Region.le_eq_ok_true_iff.mpr
  use assembly_reach htag
  apply reach_subset_space (fun _ _ => hr) hpossible

/-- From a region of the space, every transition contributes a region of the space, over either
basis and along the exit zones of any region of the assembly, in whatever order they are listed.
Its guard may be any proposition, and its actions may be addressed to machines that are not
registered. Every configuration that it contributes is a joint state. -/
theorem contribution_le_space (hr : r.le a.space = .ok true) (hbase : base.assembly = a.id) :
  ∃ zones, base.exitZones a = .ok zones
    ∧ ∀ listed : List ExitZone, (∀ z, z ∈ listed ↔ z ∈ zones) →
      ∃ s, t.contribution r listed a basis = .ok s ∧ s.le a.space = .ok true
        ∧ ∀ c ∈ s, a.IsJointState c
  := by
  refine ⟨base.zones a, Region.exitZones_of_eq hbase, ?_⟩
  intro listed hlisted
  have hpossible : ∀ z ∈ listed, z ∈ a.possibleZones := by
    intro z hz
    apply (Region.mem_zones.mp ((hlisted z).mp hz)).1
  obtain ⟨s, hs, hle⟩ := exists_contribution_le hr hpossible
  refine ⟨s, hs, hle, ?_⟩
  intro c hc
  obtain ⟨-, hsub⟩ := Region.le_eq_ok_true_iff.mp hle
  apply Assembly.mem_space_iff.mp (hsub c hc)

end Transition

namespace Lamp

/-- The door is open, and the lamp is not off. -/
def airy : Region :=
  .ofConfigurations "porch"
    [[⟨"door", "open"⟩, ⟨"lamp", "dim"⟩], [⟨"door", "open"⟩, ⟨"lamp", "on"⟩]]

/-- From the first state to the second one, when the lamp has gone on by itself, with a push at
the lamp between two actions at a bell that is not there. -/
def chime : Transition :=
  ⟨11, "chime", Loop.first, Loop.second, .basic ⟨"lamp", "on"⟩, false,
    [⟨"bell", "ring"⟩, ⟨"lamp", "push"⟩, ⟨"bell", "ring"⟩]⟩

end Lamp

namespace Transition

/-- Along the exit zones of the dark, the lamp may go on beside the open door, although it may be
on there already. The push makes it dark again. -/
theorem contribution_le_space_airy :
  Lamp.airy.le Lamp.porch.space = .ok true ∧ Lamp.dark.assembly = Lamp.porch.id
    ∧ ∃ zones s, Lamp.dark.exitZones Lamp.porch = .ok zones
      ∧ Lamp.chime.contribution Lamp.airy zones.toList Lamp.porch .stateRegion = .ok s
      ∧ s.toList =
        [[⟨"door", "open"⟩, ⟨"lamp", "dim"⟩], [⟨"door", "open"⟩, ⟨"lamp", "off"⟩]]
      ∧ s.le Lamp.porch.space = .ok true ∧ ∀ c ∈ s, Lamp.porch.IsJointState c
  := by
  have hle : Lamp.airy.le Lamp.porch.space = .ok true := by decide +kernel
  have hvalue : (Lamp.dark.exitZones Lamp.porch).map (fun zones =>
      (Lamp.chime.contribution Lamp.airy zones.toList Lamp.porch .stateRegion).map
        Region.toList) =
      .ok (.ok
        [[⟨"door", "open"⟩, ⟨"lamp", "dim"⟩], [⟨"door", "open"⟩, ⟨"lamp", "off"⟩]]) := by
    decide +kernel
  obtain ⟨zones, hzones, hlisted⟩ :=
    @contribution_le_space Lamp.porch Lamp.dark Lamp.airy Lamp.chime .stateRegion hle rfl
  obtain ⟨s, hs, hspace, hjoint⟩ := hlisted zones.toList fun z => Std.ExtTreeSet.mem_toList
  rw [hzones] at hvalue
  have hvalue := Except.ok.inj hvalue
  simp only [hs] at hvalue
  exact ⟨hle, rfl, zones, s, hzones, hs, Except.ok.inj hvalue, hspace, hjoint⟩

end Transition

end AssemblySemantics
