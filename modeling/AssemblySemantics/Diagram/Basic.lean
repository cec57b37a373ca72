import AssemblySemantics.Diagram.Edge

/-!
# Diagrams

A diagram has states, the pseudostate first, and edges between them. Beside the list of
edges every state keeps the edges that lead to it and those that start from it, in the
order in which they were added and as often. `addState` and `addEdge` refuse what would
break this; `eraseEdge` and `eraseState` take the first copy of an edge, or a state, out of
all the lists.
-/

namespace AssemblySemantics

/-- What may be offered as a state without being one or naming one. -/
inductive NonState where
  | nothing
  | flag
  | whole
  | fraction
  | list
  | record
  | edge (e : Edge)
deriving DecidableEq

/-- The word for what was offered. -/
def NonState.kind : NonState → String
  | .nothing => "NoneType"
  | .flag => "bool"
  | .whole => "int"
  | .fraction => "float"
  | .list => "list"
  | .record => "dict"
  | .edge (.transition _) => "SemanticTransition"
  | .edge (.link _) => "Link"

/-- Why a change of a diagram is refused. -/
inductive DiagramError where
  /-- Something else than a state was to be added as one. -/
  | notState (offered : NonState)
  /-- A second pseudostate was to be added. -/
  | secondPseudo
  /-- A state of that name is there already. -/
  | nameTaken (name : String)
  /-- An edge starts outside the diagram. -/
  | sourceAbsent (text : String)
  /-- An edge leads outside the diagram. -/
  | targetAbsent (text : String)
  /-- An edge leads to the pseudostate. -/
  | intoPseudo
  /-- The edge to be removed is not there. -/
  | edgeAbsent (text : String)
  /-- The pseudostate was to be removed. -/
  | pseudoRemoved
  /-- The state to be removed is not there. -/
  | stateAbsent (name : String)
deriving DecidableEq

/-- The text of a refusal by the diagram of the named machine. -/
def DiagramError.message (machine : String) : DiagramError → String
  | .notState offered => s!"Expected a SemanticState, got {offered.kind}"
  | .secondPseudo => "A machine has exactly one pseudostate, created with the machine"
  | .nameTaken name => s!"State '{name}' already exists in machine '{machine}'"
  | .sourceAbsent text => s!"Source state {text} not in machine '{machine}'"
  | .targetAbsent text => s!"Target state {text} not in machine '{machine}'"
  | .intoPseudo => "The pseudostate cannot have incoming transitions"
  | .edgeAbsent text => s!"Transition {text} not in machine '{machine}'"
  | .pseudoRemoved => "The pseudostate cannot be removed"
  | .stateAbsent name => s!"State {name} not in machine '{machine}'"

/-- A state with the edges that lead to it and those that start from it. -/
structure Node where
  state : State
  incoming : List Edge
  outgoing : List Edge
deriving DecidableEq

/-- States, each with its edges, and the list of all edges. -/
structure Diagram where
  pseudo : State
  nodes : List Node
  edges : List Edge
deriving DecidableEq

namespace Diagram

/-- The diagram that has only its pseudostate. -/
def initial (pseudo : State) : Diagram := ⟨pseudo, [⟨pseudo, [], []⟩], []⟩

/-- The states in the order in which they were added. -/
def states (d : Diagram) : List State := d.nodes.map Node.state

/-- The transitions among the edges, in their order. -/
def transitions (d : Diagram) : List Transition := d.edges.filterMap Edge.transition?

/-- The node of a state. -/
def node? (d : Diagram) (s : State) : Option Node := d.nodes.find? (·.state = s)

/-- The edges that lead to a state. -/
def incoming (d : Diagram) (s : State) : List Edge := ((d.node? s).map Node.incoming).getD []

/-- The edges that start from a state. -/
def outgoing (d : Diagram) (s : State) : List Edge := ((d.node? s).map Node.outgoing).getD []

/-- Whether an end is a state of the diagram. -/
def hasEnd (d : Diagram) (e : Endpoint) : Bool := d.states.any fun s => e = .state s

/-- The first state of a name. -/
def stateNamed? (d : Diagram) (name : String) : Option State :=
  d.states.find? (·.name = name)

/-- The diagram with one more state, which has no edges. -/
def addState (d : Diagram) (s : State) : Except DiagramError Diagram :=
  if s.isPseudo then .error .secondPseudo
  else if (d.stateNamed? s.name).isSome then .error (.nameTaken s.name)
  else .ok { d with nodes := d.nodes ++ [⟨s, [], []⟩] }

/-- Applies a change of edge lists at both ends of an edge. -/
def atEnds (e : Edge) (f : List Edge → List Edge) (n : Node) : Node where
  state := n.state
  incoming := if e.target = .state n.state then f n.incoming else n.incoming
  outgoing := if e.source = .state n.state then f n.outgoing else n.outgoing

/-- The diagram with one more edge between its states. -/
def addEdge (d : Diagram) (e : Edge) : Except DiagramError Diagram :=
  if !d.hasEnd e.source then .error (.sourceAbsent e.source.display)
  else if !d.hasEnd e.target then .error (.targetAbsent e.target.display)
  else if e.target = .state d.pseudo then .error .intoPseudo
  else .ok { d with
    nodes := d.nodes.map (atEnds e (· ++ [e]))
    edges := d.edges ++ [e] }

/-- The diagram without the first copy of an edge. -/
def eraseEdge (d : Diagram) (e : Edge) : Diagram :=
  { d with
    nodes := d.nodes.map (atEnds e (·.erase e))
    edges := d.edges.erase e }

/-- The diagram without a state. -/
def eraseState (d : Diagram) (s : State) : Diagram :=
  { d with nodes := d.nodes.filter (·.state ≠ s) }

/-- The edges that touch a state: those that lead to it, then those that start from it. -/
def touching (d : Diagram) (s : State) : List Edge := d.incoming s ++ d.outgoing s

@[simp]
theorem state_atEnds (e : Edge) (f : List Edge → List Edge) (n : Node) :
  (atEnds e f n).state = n.state
  := rfl

/-- Erasing an edge keeps the states. -/
@[simp]
theorem states_eraseEdge (d : Diagram) (e : Edge) :
  (d.eraseEdge e).states = d.states
  := by
  simp [states, eraseEdge, Function.comp_def]

/-- A new state comes last. -/
theorem states_addState {d d' : Diagram} {s : State} (h : d.addState s = .ok d') :
  d'.states = d.states ++ [s]
  := by
  unfold addState at h
  split at h
  · cases h
  · split at h
    · cases h
    · obtain rfl := Except.ok.inj h
      simp [states]

/-- A new edge comes last, and no state is added or lost. -/
theorem addEdge_eq_ok {d d' : Diagram} {e : Edge} (h : d.addEdge e = .ok d') :
  d'.edges = d.edges ++ [e] ∧ d'.states = d.states ∧ d'.pseudo = d.pseudo
  := by
  unfold addEdge at h
  split at h
  · cases h
  · split at h
    · cases h
    · split at h
      · cases h
      · obtain rfl := Except.ok.inj h
        simp [states, Function.comp_def]

end Diagram

end AssemblySemantics
