import AssemblySemantics.Proposition

/-!
# Exit zones

An exit zone witnesses that an autonomous move of a component is bound to leave a region:
some configuration of the region has the machine at the move's source, and none has it at
the move's target. `Region.exitZones` collects the zones of a region.
-/

namespace AssemblySemantics

/-- A move of a machine, with the placements before and after it. -/
structure ExitZone where
  machine : String
  move : Move
  source : Placement
  target : Placement
deriving DecidableEq

namespace ExitZone

/-- Exit zones are ordered by machine, move, source and target. -/
instance : Ord ExitZone :=
  ⟨compareLex (compareOn ExitZone.machine) (compareLex (compareOn ExitZone.move)
    (compareLex (compareOn ExitZone.source) (compareOn ExitZone.target)))⟩

instance : Std.TransOrd ExitZone :=
  inferInstanceAs (Std.TransCmp (compareLex (compareOn ExitZone.machine)
    (compareLex (compareOn ExitZone.move)
      (compareLex (compareOn ExitZone.source) (compareOn ExitZone.target)))))

instance : Std.LawfulEqOrd ExitZone where
  eq_of_compare {y z} h := by
    obtain ⟨m, v, s, t⟩ := y
    obtain ⟨m', v', s', t'⟩ := z
    have h : (compare m m').then ((compare v v').then
      ((compare s s').then (compare t t'))) = .eq := h
    rw [Ordering.then_eq_eq, Ordering.then_eq_eq, Ordering.then_eq_eq] at h
    rw [Std.LawfulEqOrd.eq_of_compare h.1, Std.LawfulEqOrd.eq_of_compare h.2.1,
      Std.LawfulEqOrd.eq_of_compare h.2.2.1, Std.LawfulEqOrd.eq_of_compare h.2.2.2]

/-- The exit zone that a move of a component may give rise to. -/
def ofMove (c : Component) (m : Move) : ExitZone :=
  ⟨c.id, m, ⟨c.id, m.source⟩, ⟨c.id, m.target⟩⟩

/-- An exit zone as it is shown to a reader. -/
def display (z : ExitZone) : String :=
  z.machine ++ ": " ++ Proposition.displayPlacement z.source ++ " -> " ++
    Proposition.displayPlacement z.target

/-- An exit zone field by field. -/
def inspect (z : ExitZone) : String :=
  "ExitZone(machine_id=" ++ Text.quoted z.machine ++ ", transition=" ++ z.move.inspect ++
    ", source=" ++ Proposition.inspectPlacement z.source ++
    ", target=" ++ Proposition.inspectPlacement z.target ++ ")"

end ExitZone

/-- A set of exit zones. -/
abbrev ZoneSet := Std.ExtTreeSet ExitZone

namespace Assembly

/-- The exit zones that the autonomous moves of the components may give rise to. -/
def possibleZones (a : Assembly) : List ExitZone :=
  a.components.flatMap fun c => c.autonomousMoves.map (ExitZone.ofMove c)

end Assembly

namespace Region

/-- Whether a region has a configuration in common with the part of the space that has a
placement. -/
def touches (r : Region) (p : Placement) (a : Assembly) : Except RegionError Bool :=
  ((a.statesWhere p).meet r).map (!·.isEmpty)

/-- Whether an exit zone is bound to leave a region: the region touches the source of the
zone and does not touch its target. -/
def leaves (r : Region) (z : ExitZone) (a : Assembly) : Except RegionError Bool := do
  if ← r.touches z.source a then
    return !(← r.touches z.target a)
  else
    return false

/-- Adds an exit zone to a set if it is bound to leave a region. -/
def collect (r : Region) (a : Assembly) (zones : ZoneSet) (z : ExitZone) :
    Except RegionError ZoneSet := do
  if ← r.leaves z a then
    return zones.insert z
  else
    return zones

/-- The exit zones of a region within an assembly. -/
def exitZones (r : Region) (a : Assembly) : Except RegionError ZoneSet :=
  a.possibleZones.foldlM (r.collect a) ∅

end Region

/-- The configurations of an assembly at the source of one of the given zones. -/
def zoneSources (zones : List ExitZone) (a : Assembly) : Except RegionError Region :=
  zones.foldlM (fun r z => r.join (a.statesWhere z.source)) (.bottom a.id)

end AssemblySemantics
