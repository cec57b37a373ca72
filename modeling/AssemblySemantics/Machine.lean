import AssemblySemantics.Propagation
import AssemblySemantics.Solver

/-!
# Machines

A machine is a model with a cache of its own. Changes of its diagram keep the cache except
for what is removed, a change of its assembly starts a new one, and `refresh` brings it up
to date by one pass or by the solver.
-/

namespace AssemblySemantics

/-- A model with the cache of what was computed for it. -/
structure Machine extends Model where
  cache : Cache
deriving DecidableEq

namespace Model

/-- Refreshes a cache by a strategy. -/
def refresh (m : Model) (strategy : Strategy) : Pass Unit := do
  Pass.report [.refreshing m.name strategy]
  match strategy with
  | .oneStep => m.propagate
  | .fixedPoint =>
    let solution ← ofExcept (m.solve m.config)
    Pass.report (m.solverEvents m.config solution)
    m.store solution.values

end Model

namespace Machine

/-- A machine over an assembly, with nothing but its pseudostate. -/
def make (name : String) (a : Assembly) (config : SolverConfig) (pseudo : State) :
    Except NameError Machine :=
  if name = "" then .error .noMachineName
  else .ok ⟨⟨name, a, config, .initial pseudo⟩, .empty a.id⟩

/-- The machine with one more state. -/
def addState (m : Machine) (s : State) : Except DiagramError Machine :=
  (m.diagram.addState s).map fun d => { m with diagram := d }

/-- The machine with one more edge. -/
def addEdge (m : Machine) (e : Edge) : Except DiagramError Machine :=
  (m.diagram.addEdge e).map fun d => { m with diagram := d }

/-- The machine without the first copy of an edge, if there is one; the cache forgets the
edge. -/
def dropEdge (m : Machine) (e : Edge) : Machine :=
  if e ∈ m.diagram.edges then
    { m with diagram := m.diagram.eraseEdge e, cache := m.cache.forgetEdge e }
  else m

/-- The machine without the first copy of an edge, which must be there. -/
def removeEdge (m : Machine) (e : Edge) : Except DiagramError Machine :=
  if e ∈ m.diagram.edges then .ok (m.dropEdge e) else .error (.edgeAbsent e.inspect)

/-- The machine without a state and the edges that touch it. -/
def removeState (m : Machine) (s : State) : Except DiagramError Machine :=
  if s = m.diagram.pseudo then .error .pseudoRemoved
  else if s ∉ m.diagram.states then .error (.stateAbsent s.name)
  else
    let m := (m.diagram.touching s).foldl dropEdge m
    .ok { m with diagram := m.diagram.eraseState s, cache := m.cache.forgetState s }

/-- The machine over another assembly, with a new cache. -/
def setAssembly (m : Machine) (a : Assembly) : Machine :=
  { m with assembly := a, cache := .empty a.id }

/-- The machine with other settings. -/
def setConfig (m : Machine) (config : SolverConfig) : Machine := { m with config := config }

/-- Runs a pass on the cache of a machine: its result, the machine after it and the events
that it reported. -/
def run {α : Type} (m : Machine) (p : Model → Pass α) :
    Except RegionError α × Machine × List Event :=
  let (result, progress) := (p m.toModel).run ⟨m.cache, []⟩
  (result, { m with cache := progress.cache }, progress.events)

/-- The states other than pseudostates whose stored region is empty. -/
def unreachableStates (m : Machine) : List State :=
  m.properStates.filter fun s => (m.cache.stateRegion s).isEmpty

/-- The transitions whose stored region is empty. -/
def deadTransitions (m : Machine) : List Transition :=
  m.diagram.transitions.filter fun t => (m.cache.edgeRegion (.transition t)).isEmpty

/-- A machine by its name and the sizes of its diagram. -/
def inspect (m : Machine) : String :=
  "SemanticMachine(" ++ Text.quoted m.name ++ ", states=" ++ toString m.diagram.states.length ++
    ", transitions=" ++ toString m.diagram.edges.length ++ ")"

end Machine

end AssemblySemantics
