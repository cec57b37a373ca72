import AssemblySemantics.Cache
import AssemblySemantics.Contribution
import AssemblySemantics.Model

/-!
# Propagation through a cache

A pass works on a cache and reports events; when it is refused half-way, what it has stored
and reported until then stays. `evaluate` computes the region of a transition from what the
cache holds for its source, `computeState` that of a state from its incoming edges, and
`propagate` refreshes a whole model once, in the order of its states. `store` takes the
regions of the states from a table instead.
-/

namespace AssemblySemantics

/-- The cache in its present condition and the events reported so far. -/
structure Progress where
  cache : Cache
  events : List Event
deriving DecidableEq

/-- A computation on a cache that may be refused. -/
abbrev Pass := ExceptT RegionError (StateM Progress)

namespace Pass

/-- The cache in its present condition. -/
def cache : Pass Cache := return (← get).cache

/-- Changes the cache. -/
def update (f : Cache → Cache) : Pass Unit := modify fun p => { p with cache := f p.cache }

/-- Reports events. -/
def report (events : List Event) : Pass Unit :=
  modify fun p => { p with events := p.events ++ events }

@[simp]
theorem run_cache (p : Progress) :
  cache.run p = (.ok p.cache, p)
  := rfl

@[simp]
theorem run_update (f : Cache → Cache) (p : Progress) :
  (update f).run p = (.ok (), { p with cache := f p.cache })
  := rfl

@[simp]
theorem run_report (events : List Event) (p : Progress) :
  (report events).run p = (.ok (), { p with events := p.events ++ events })
  := rfl

end Pass

namespace Model

/-- The region of a transition over the stored values of its source. -/
def regionOver (m : Model) (c : Cache) (t : Transition) : Except RegionError Region :=
  t.contribution (c.stateRegion t.source) (c.stateZones t.source).toList m.assembly
    m.config.basis

/-- Computes the region of a transition; it is not stored. -/
def evaluate (m : Model) (t : Transition) : Pass Region := do
  Pass.report t.notes
  let cache ← Pass.cache
  ofExcept (m.regionOver cache t)

/-- Evaluating a transition leaves the cache alone. -/
@[simp]
theorem run_evaluate (m : Model) (t : Transition) (p : Progress) :
  (m.evaluate t).run p =
    (m.regionOver p.cache t, { p with events := p.events ++ t.notes })
  := by
  change (ofExcept (m.regionOver p.cache t) : Pass Region).run _ = _
  rcases m.regionOver p.cache t with e | r <;> rfl

/-- Stores a region and its exit zones for a state. -/
def storeState (m : Model) (s : State) (r : Region) : Pass Unit := do
  Pass.update (·.setStateRegion s r)
  let zones ← ofExcept (r.exitZones m.assembly)
  Pass.update (·.setStateZones s zones)

/-- Stores the initial region of the assembly for the pseudostate. -/
def refreshPseudo (m : Model) : Pass Region := do
  m.storeState m.diagram.pseudo m.assembly.initial
  return m.assembly.initial

/-- Joins the region of one edge that leads to a state. -/
def joinEdge (m : Model) (s : State) (joined : Region) : Edge → Pass Region
  | .transition t => do
    let reached ← m.evaluate t
    ofExcept (joined.join reached)
  | .link l => do
    Pass.report [.edgeSkipped (Edge.link l).inspect s.name]
    return joined

/-- Computes the region of a state as the join over its incoming transitions and stores its
exit zones; the region is left to the caller. A pseudostate is refreshed instead. -/
def computeState (m : Model) (s : State) : Pass Region := do
  if s.isPseudo then m.refreshPseudo
  else
    let joined ← (m.diagram.incoming s).foldlM (m.joinEdge s) m.bottom
    let zones ← ofExcept (joined.exitZones m.assembly)
    Pass.update (·.setStateZones s zones)
    return joined

/-- Computes and stores the region of every transition. -/
def refreshTransitions (m : Model) : Pass Unit :=
  m.diagram.transitions.forM fun t => do
    let r ← m.evaluate t
    Pass.update (·.setEdgeRegion (.transition t) r)

/-- Refreshes everything once: the pseudostate, the other states in their order, and the
transitions. -/
def propagate (m : Model) : Pass Unit := do
  let _ ← m.refreshPseudo
  m.properStates.forM fun s => do
    let r ← m.computeState s
    Pass.update (·.setStateRegion s r)
  m.refreshTransitions
  Pass.report [.passCompleted m.name]

/-- Stores given regions, the empty one for a state without any, and refreshes the
transitions; the pseudostate takes the initial region whatever is given for it. -/
def store (m : Model) (values : Table State Region) : Pass Unit := do
  let _ ← m.refreshPseudo
  m.properStates.forM fun s => m.storeState s (values.getD s m.bottom)
  m.refreshTransitions

end Model

end AssemblySemantics
