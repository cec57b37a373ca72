import AssemblySemantics.Proofs.Assembly.Space
import AssemblySemantics.Proofs.ExitZone.Zones

/-!
# Assemblies that grow

An assembly may take another component, and its components may take more moves. It keeps its
id and the zones that were possible. More moves leave the space alone, another component does
not: its configurations place one machine more.
-/

namespace AssemblySemantics

namespace Component

/-- What becomes of a component when those of an identity take one more move. -/
def moved (uid : Nat) (m : Move) (c : Component) : Component :=
  if c.uid = uid then (c.addMove m).toOption.getD c else c

theorem moved_eq (uid : Nat) (m : Move) (c : Component) :
  (c.moved uid m).id = c.id ∧ (c.moved uid m).states = c.states
    ∧ c.moves ⊆ (c.moved uid m).moves
  := by
  rw [moved]
  split
  · rcases h : c.addMove m with _ | d
    · exact ⟨rfl, rfl, List.Subset.refl _⟩
    · obtain ⟨-, hid, hstates, -, hmoves⟩ := Component.addMove_eq_ok h
      refine ⟨hid, hstates, ?_⟩
      change c.moves ⊆ d.moves
      rw [hmoves]
      apply List.subset_append_left
  · exact ⟨rfl, rfl, List.Subset.refl _⟩

end Component

namespace Assembly

variable {a a' : Assembly} {d : Component}

/-- Another component comes last. -/
theorem register_eq_ok (h : a.register d = .ok a') :
  a'.id = a.id ∧ a'.components = a.components ++ [d]
  := by
  rw [register] at h
  split at h
  · cases h
  · obtain rfl := Except.ok.inj h
    exact ⟨rfl, rfl⟩

/-- Registering a component keeps the zones that are possible. -/
theorem possibleZones_subset_register (h : a.register d = .ok a') :
  a.possibleZones ⊆ a'.possibleZones
  := by
  rw [possibleZones, possibleZones, (register_eq_ok h).2, List.flatMap_append]
  apply List.subset_append_left

theorem components_addMove (a : Assembly) (uid : Nat) (m : Move) :
  (a.addMove uid m).components = a.components.map (Component.moved uid m)
  := rfl

/-- The space does not depend on the moves. -/
theorem space_addMove (a : Assembly) (uid : Nat) (m : Move) :
  (a.addMove uid m).space = a.space
  := by
  rw [space, space, product, product, components_addMove, List.map_map]
  apply congrArg (fun choices => Region.ofConfigurations a.id (jointConfigurations choices))
  apply List.map_congr_left
  intro c _
  obtain ⟨hid, hstates, -⟩ := Component.moved_eq uid m c
  apply Prod.ext hid hstates

/-- One more move keeps the zones that are possible. -/
theorem possibleZones_subset_addMove (a : Assembly) (uid : Nat) (m : Move) :
  a.possibleZones ⊆ (a.addMove uid m).possibleZones
  := by
  intro z hz
  rw [possibleZones, List.mem_flatMap] at hz ⊢
  obtain ⟨c, hc, hz⟩ := hz
  obtain ⟨n, hn, rfl⟩ := List.mem_map.mp hz
  obtain ⟨hmove, hautonomous⟩ := List.mem_filter.mp hn
  obtain ⟨hid, -, hmoves⟩ := Component.moved_eq uid m c
  use c.moved uid m
  constructor
  · rw [components_addMove]
    apply List.mem_map_of_mem hc
  · apply List.mem_map.mpr
    use n, List.mem_filter.mpr ⟨hmoves hmove, hautonomous⟩
    rw [ExitZone.ofMove, ExitZone.ofMove, hid]

end Assembly

end AssemblySemantics
