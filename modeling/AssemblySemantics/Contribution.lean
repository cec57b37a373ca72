import AssemblySemantics.Event
import AssemblySemantics.ExitZone

/-!
# Contributions of transitions

A transition contributes the configurations reached by firing it from its source. A
triggerable one, or one that leaves a pseudostate, fires where its guard holds. A reactive
one follows the exit zones of its source whose target is the placement that guards it: each
such zone advances the base along its move. The actions are performed last.
-/

namespace AssemblySemantics

namespace Region

/-- The configurations to which the move of an exit zone leads. -/
def follow (r : Region) (z : ExitZone) (a : Assembly) : Except RegionError Region :=
  r.advance z.machine (some z.move.source) z.move.target a

/-- The configurations to which those of the given exit zones lead that have a target. -/
def followTo (r : Region) (target : Placement) (zones : List ExitZone) (a : Assembly) :
    Except RegionError Region :=
  zones.foldlM
    (fun reached z =>
      if z.target = target then do
        let moved ← r.follow z a
        reached.join moved
      else return reached)
    (.bottom a.id)

end Region

namespace Basis

/-- The region that a basis selects. -/
def base (b : Basis) (source : Region) (zones : List ExitZone) (a : Assembly) :
    Except RegionError Region :=
  match b with
  | .stateRegion => return source
  | .zoneSources => AssemblySemantics.zoneSources zones a

end Basis

namespace Transition

/-- The configurations reached by firing a transition, before its actions, from a source
region with the given exit zones. -/
def fired (t : Transition) (source : Region) (zones : List ExitZone) (a : Assembly)
    (basis : Basis) : Except RegionError Region := do
  if t.isReactive then
    match t.guard.basic? with
    | none => return .bottom a.id
    | some target =>
      let base ← basis.base source zones a
      base.followTo target zones a
  else
    let held ← t.guard.lift a
    source.meet held

/-- The configurations reached by firing a transition from a source region with the given
exit zones and performing its actions. -/
def contribution (t : Transition) (source : Region) (zones : List ExitZone) (a : Assembly)
    (basis : Basis) : Except RegionError Region := do
  let reached ← t.fired source zones a basis
  reached.perform t.actions a

/-- What is reported whenever a transition is evaluated. -/
def notes (t : Transition) : List Event :=
  if t.isReactive && t.guard.basic?.isNone then [.guardSkipped t.name t.guard] else []

end Transition

end AssemblySemantics
