import AssemblySemantics.Contribution
import AssemblySemantics.Model
import AssemblySemantics.Table

/-!
# The solver

The solver starts from the empty region at every state and the initial region at the
pseudostate. A round goes through the states in their order; each takes what its incoming
transitions contribute from the present values, and keeps what it had. Rounds are run until
one changes nothing, or until the cap is reached. The exit zones of a state are derived
again only when its value has changed.
-/

namespace AssemblySemantics

/-- The present values of the states, and the exit zones derived last for each state with
the value from which they were derived. -/
structure Working where
  values : Table State Region
  derived : Table State (Region × ZoneSet)

/-- A step of the solver. -/
abbrev Solving := StateT Working (Except RegionError)

/-- The result of the solver. -/
structure Solution where
  values : Table State Region
  iterations : Nat
  converged : Bool
deriving DecidableEq

namespace Model

/-- Derives the exit zones of a state's present value and remembers them. -/
def deriveZones (m : Model) (s : State) (value : Region) : Solving ZoneSet := do
  let zones ← value.exitZones m.assembly
  modify fun w => { w with derived := w.derived.set s (value, zones) }
  return zones

/-- The exit zones of a state's present value, remembered if they were derived from it. -/
def zonesOf (m : Model) (s : State) (value : Region) : Solving ZoneSet := do
  match (← get).derived.get? s with
  | some (base, zones) => if base = value then return zones else m.deriveZones s value
  | none => m.deriveZones s value

/-- Joins what one edge contributes from the present value of its source. -/
def gatherEdge (m : Model) (basis : Basis) (gathered : Region) : Edge → Solving Region
  | .link _ => return gathered
  | .transition t => do
    match (← get).values.get? t.source with
    | none => return gathered
    | some value =>
      let zones ← m.zonesOf t.source value
      let reached ← t.contribution value zones.toList m.assembly basis
      gathered.join reached

/-- What the incoming transitions of a state contribute from the present values. -/
def gather (m : Model) (basis : Basis) (s : State) : Solving Region :=
  (m.diagram.incoming s).foldlM (m.gatherEdge basis) m.bottom

/-- Adds to the value of a state what its incoming transitions contribute, and says whether
the value has changed. -/
def grow (m : Model) (basis : Basis) (s : State) : Solving Bool := do
  let gathered ← m.gather basis s
  let value := (← get).values.getD s m.bottom
  let grown ← value.join gathered
  if grown = value then return false
  else
    modify fun w => { w with values := w.values.set s grown }
    return true

/-- Lets every state grow once, in order, and says whether any has. -/
def round (m : Model) (basis : Basis) : Solving Bool :=
  m.properStates.foldlM (fun changed s => return (← m.grow basis s) || changed) false

/-- Runs at most `fuel` rounds after `done` others, until one changes nothing; gives the
number of all rounds and whether the last one changed nothing. -/
def rounds (m : Model) (basis : Basis) : (fuel done : Nat) → Solving (Nat × Bool)
  | 0, done => return (done, false)
  | fuel + 1, done => do
    if ← m.round basis then m.rounds basis fuel (done + 1)
    else return (done + 1, true)

/-- The values from which the solver starts. -/
def startValues (m : Model) : Table State Region :=
  .ofList (m.diagram.states.map fun s => (s, if s.isPseudo then m.assembly.initial else m.bottom))

/-- Runs the solver under the given settings. -/
def solve (m : Model) (config : SolverConfig) : Except RegionError Solution := do
  let ((iterations, converged), w) ←
    (m.rounds config.basis config.cap.rounds 0).run ⟨m.startValues, ∅⟩
  return ⟨w.values, iterations, converged⟩

/-- The events of one round. -/
def roundEvents (m : Model) : List Event :=
  m.properStates.flatMap fun s =>
    ((m.diagram.incoming s).filterMap Edge.transition?).flatMap Transition.notes

/-- The events of a run of the solver. -/
def solverEvents (m : Model) (config : SolverConfig) (solution : Solution) : List Event :=
  .solverStarted m.name :: (List.replicate solution.iterations m.roundEvents).flatten ++
    (if solution.converged then [] else [.capReached m.name config.cap.rounds]) ++
    [.solverCompleted m.name solution.iterations]

end Model

namespace Solution

/-- A solution by the sizes of its regions. -/
def inspect (s : Solution) : String :=
  "SemanticsMap(\x7b" ++
    String.intercalate ", "
      (s.values.entries.map fun e => e.1.name ++ ": " ++ toString e.2.size) ++
    "\x7d, iterations=" ++ toString s.iterations ++
    ", converged=" ++ (if s.converged then "True" else "False") ++ ")"

end Solution

end AssemblySemantics
