import AssemblySemantics.Diagram.Basic
import AssemblySemantics.SolverConfig

/-!
# Models

A model is what semantics is computed for: a diagram over an assembly, with a name and the
settings of the solver. Its defects are the places where the semantics is bound to be
degenerate: states that nothing leads to, and guards and actions that the assembly does not
know.
-/

namespace AssemblySemantics

/-- A named diagram over an assembly. -/
structure Model where
  name : String
  assembly : Assembly
  config : SolverConfig
  diagram : Diagram
deriving DecidableEq

/-- Something in a model that makes its semantics degenerate. -/
inductive Defect where
  /-- No edge leads to a state. -/
  | noIncoming (state : String)
  /-- A reactive transition is guarded by something else than a placement. -/
  | compoundGuard (transition : String)
  /-- A guard speaks of a machine that is not registered. -/
  | unknownMachine (transition machine : String)
  /-- A guard speaks of a state that its machine does not have. -/
  | unknownState (transition state machine : String)
  /-- An action is sent to a machine that is not registered. -/
  | unknownReceiver (transition machine : String)
deriving DecidableEq

/-- The text of a defect. -/
def Defect.message : Defect → String
  | .noIncoming state => s!"State '{state}' has no incoming transitions"
  | .compoundGuard transition =>
    s!"Reactive transition '{transition}' needs a basic state proposition guard"
  | .unknownMachine transition machine =>
    s!"Guard of transition '{transition}' names unknown machine '{machine}'"
  | .unknownState transition state machine =>
    s!"Guard of transition '{transition}' names unknown state '{state}' of machine '{machine}'"
  | .unknownReceiver transition machine =>
    s!"Action of transition '{transition}' targets unknown machine '{machine}'"

namespace Model

/-- The states other than pseudostates, in their order. -/
def properStates (m : Model) : List State := m.diagram.states.filter (!·.isPseudo)

/-- The region that a state has when nothing reaches it. -/
def bottom (m : Model) : Region := .bottom m.assembly.id

/-- The defect of a state, if it has one. -/
def stateDefects (m : Model) (s : State) : List Defect :=
  if (m.diagram.incoming s).isEmpty then [.noIncoming s.name] else []

/-- The defect of a placement in the guard of a transition, if it has one. -/
def placementDefects (m : Model) (t : Transition) (p : Placement) : List Defect :=
  match m.assembly.component? p.machine with
  | none => [.unknownMachine t.name p.machine]
  | some c => if p.state ∈ c.states then [] else [.unknownState t.name p.state p.machine]

/-- The defect of an action of a transition, if it has one. -/
def actionDefects (m : Model) (t : Transition) (x : Action) : List Defect :=
  if (m.assembly.component? x.machine).isNone then [.unknownReceiver t.name x.machine] else []

/-- The defects of a transition: of its guard as a whole, of the placements in its guard
and of its actions. -/
def transitionDefects (m : Model) (t : Transition) : List Defect :=
  (if t.isReactive && t.guard.basic?.isNone then [.compoundGuard t.name] else []) ++
    t.guard.statements.flatMap (m.placementDefects t) ++ t.actions.flatMap (m.actionDefects t)

/-- All defects: of the states, and then of the transitions. -/
def defects (m : Model) : List Defect :=
  m.properStates.flatMap m.stateDefects ++ m.diagram.transitions.flatMap m.transitionDefects

end Model

end AssemblySemantics
