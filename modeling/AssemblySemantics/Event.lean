import AssemblySemantics.Diagram.Edge
import AssemblySemantics.SolverConfig

/-!
# Events

What the computations report while they run: each event has a level, a channel and a
message.
-/

namespace AssemblySemantics

/-- How much an event matters. -/
inductive Level where
  | debug
  | info
  | warning
deriving DecidableEq

/-- The name of a level. -/
def Level.name : Level → String
  | .debug => "DEBUG"
  | .info => "INFO"
  | .warning => "WARNING"

/-- Which computation reports an event. -/
inductive Channel where
  | machine
  | propagation
  | solver
deriving DecidableEq

/-- Something that a computation reports. -/
inductive Event where
  /-- A reactive transition was skipped, because its guard is not a placement. -/
  | guardSkipped (transition : String) (guard : Proposition)
  /-- An edge to a state was skipped, because it is not a transition. -/
  | edgeSkipped (edge state : String)
  /-- A pass over a machine has come to its end. -/
  | passCompleted (machine : String)
  /-- A machine refreshes its cache. -/
  | refreshing (machine : String) (strategy : Strategy)
  /-- The solver has begun. -/
  | solverStarted (machine : String)
  /-- The solver was stopped by its cap. -/
  | capReached (machine : String) (rounds : Nat)
  /-- The solver has come to its end. -/
  | solverCompleted (machine : String) (rounds : Nat)
deriving DecidableEq

namespace Event

/-- The level of an event. -/
def level : Event → Level
  | .guardSkipped .. | .edgeSkipped .. | .passCompleted .. | .refreshing .. => .debug
  | .solverStarted .. | .solverCompleted .. => .info
  | .capReached .. => .warning

/-- The channel of an event. -/
def channel : Event → Channel
  | .guardSkipped .. | .edgeSkipped .. | .passCompleted .. => .propagation
  | .refreshing .. => .machine
  | .solverStarted .. | .capReached .. | .solverCompleted .. => .solver

/-- The text of an event. -/
def message : Event → String
  | .guardSkipped transition guard =>
    s!"Reactive transition {transition} has a non basic guard {guard.display}; skipped"
  | .edgeSkipped edge state =>
    s!"Skipping {edge} incoming to {state}: not a semantic transition"
  | .passCompleted machine => s!"Local semantics pass completed for machine '{machine}'"
  | .refreshing machine strategy =>
    s!"Recalculating semantics of machine '{machine}' ({strategy.name})"
  | .solverStarted machine =>
    s!"Starting fixed-point semantics computation for machine '{machine}'"
  | .capReached machine rounds =>
    s!"Fixed-point solver reached iteration cap ({rounds} iterations) for machine '{machine}'. Results may not have fully converged."
  | .solverCompleted machine rounds =>
    s!"Completed semantics computation in {rounds} iterations for machine '{machine}'"

end Event

end AssemblySemantics
