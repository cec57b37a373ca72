import AssemblySemantics.Text.Quoted

/-!
# Component machines

A component machine is a flat state machine: named states, a declared initial state or
none, and moves between its states. A move has an event for its trigger or none, and is
autonomous in the second case. Whatever builds a component checks it, and the checks are
kept as facts in the type: the states are distinct, the initial state is one of them, and
so are both ends of every move.
-/

namespace AssemblySemantics

/-- Why a component machine or an assembly is refused. -/
inductive AssemblyError where
  /-- An autonomous move takes no event. -/
  | eventOnAutonomous (source target : String)
  /-- A move that is not autonomous needs an event. -/
  | noEvent (source target : String)
  /-- A component has no id. -/
  | noComponentId
  /-- A component has no states. -/
  | noStates (component : String)
  /-- Two states of a component have one name. -/
  | duplicateStates (component : String)
  /-- The declared initial state is no state of the component. -/
  | unknownInitial (state component : String)
  /-- The end of a move is no state of the component. -/
  | unknownEnd (state component : String)
  /-- An assembly has no id. -/
  | noAssemblyId
  /-- An assembly has a component of that id already. -/
  | alreadyRegistered (component : String)
deriving DecidableEq

/-- The text of a refusal. -/
def AssemblyError.message : AssemblyError → String
  | .eventOnAutonomous source target =>
    s!"Autonomous transition {source}->{target} cannot have an event"
  | .noEvent source target =>
    s!"Transition {source}->{target} needs an event or must be autonomous"
  | .noComponentId => "Component machine id must be a non-empty string"
  | .noStates component => s!"Component machine '{component}' has no states"
  | .duplicateStates component => s!"Component machine '{component}' has duplicate state names"
  | .unknownInitial state component => s!"Initial state '{state}' is not a state of '{component}'"
  | .unknownEnd state component => s!"State '{state}' is not a state of '{component}'"
  | .noAssemblyId => "Assembly id must be a non-empty string"
  | .alreadyRegistered component => s!"Component machine '{component}' is already registered"

/-- A move of a component machine between two of its states, on an event or, with no
trigger, of its own accord. -/
structure Move where
  source : String
  target : String
  trigger : Option String
deriving DecidableEq

namespace Move

/-- Moves are ordered by source, target and trigger. -/
instance : Ord Move :=
  ⟨compareLex (compareOn Move.source)
    (compareLex (compareOn Move.target) (compareOn Move.trigger))⟩

instance : Std.TransOrd Move :=
  inferInstanceAs (Std.TransCmp (compareLex (compareOn Move.source)
    (compareLex (compareOn Move.target) (compareOn Move.trigger))))

instance : Std.LawfulEqOrd Move where
  eq_of_compare {p q} h := by
    obtain ⟨s, t, e⟩ := p
    obtain ⟨s', t', e'⟩ := q
    have h : (compare s s').then ((compare t t').then (compare e e')) = .eq := h
    rw [Ordering.then_eq_eq, Ordering.then_eq_eq] at h
    rw [Std.LawfulEqOrd.eq_of_compare h.1, Std.LawfulEqOrd.eq_of_compare h.2.1,
      Std.LawfulEqOrd.eq_of_compare h.2.2]

/-- How the source of a step is called when a machine has no place at all. -/
def noSource : String := "None"

/-- The trigger of a move between two named ends: none for an autonomous move, which takes
no event, and a non-empty event for any other. -/
def checkTrigger (source target : String) (event : Option String) (autonomous : Bool) :
    Except AssemblyError (Option String) :=
  if autonomous then
    if event.isSome then .error (.eventOnAutonomous source target) else .ok none
  else
    match event with
    | none => .error (.noEvent source target)
    | some e => if e = "" then .error (.noEvent source target) else .ok (some e)

/-- The move with the given ends, if its trigger is in order. -/
def make (source target : String) (event : Option String) (autonomous : Bool) :
    Except AssemblyError Move :=
  (checkTrigger source target event autonomous).map (⟨source, target, ·⟩)

/-- Whether a move happens of its own accord. -/
def isAutonomous (m : Move) : Bool := m.trigger.isNone

/-- Whether a machine in a state, or in none, takes the move on an event. -/
def answers (m : Move) (state : Option String) (event : String) : Bool :=
  m.trigger = some event && state = some m.source

/-- A move as it is shown to a reader. -/
def display (m : Move) : String :=
  m.source ++ " -[" ++ m.trigger.getD "auto" ++ "]-> " ++ m.target

/-- A move field by field. -/
def inspect (m : Move) : String :=
  "ComponentTransition(source=" ++ Text.quoted m.source ++ ", target=" ++ Text.quoted m.target ++
    ", event=" ++ (m.trigger.map Text.quoted).getD "None" ++
    ", autonomous=" ++ (if m.isAutonomous then "True" else "False") ++ ")"

end Move

/-- A component machine of an assembly. -/
structure Component where
  uid : Nat
  id : String
  states : List String
  initial : Option String
  moves : List Move
  id_ne_empty : id ≠ ""
  states_ne_nil : states ≠ []
  nodup_states : states.Nodup
  initial_mem : ∀ s, initial = some s → s ∈ states
  ends_mem : ∀ m ∈ moves, m.source ∈ states ∧ m.target ∈ states
deriving DecidableEq

namespace Component

/-- The component with one more move, if both ends are its states; the source is looked at
before the target. -/
def addMove (c : Component) (m : Move) : Except AssemblyError Component :=
  if hs : m.source ∈ c.states then
    if ht : m.target ∈ c.states then
      .ok { c with
        moves := c.moves ++ [m]
        ends_mem := by
          intro n hn
          rcases List.mem_append.1 hn with h | h
          · exact c.ends_mem n h
          · obtain rfl := List.mem_singleton.1 h
            exact ⟨hs, ht⟩ }
    else .error (.unknownEnd m.target c.id)
  else .error (.unknownEnd m.source c.id)

/-- The component with the given parts, if they are in order: first the id is looked at,
then the states, the initial state and the moves one by one. -/
def make (uid : Nat) (id : String) (states : List String) (initial : Option String)
    (moves : List Move) : Except AssemblyError Component :=
  if hid : id = "" then .error .noComponentId
  else if hne : states = [] then .error (.noStates id)
  else if hnd : states.Nodup then
    match initial with
    | none =>
      moves.foldlM addMove
        ⟨uid, id, states, none, [], hid, hne, hnd, by simp, by simp⟩
    | some s =>
      if hs : s ∈ states then
        moves.foldlM addMove
          ⟨uid, id, states, some s, [], hid, hne, hnd, fun _ h => Option.some.inj h ▸ hs, by simp⟩
      else .error (.unknownInitial s id)
  else .error (.duplicateStates id)

/-- The states in which a component may start: the declared one, or else any. -/
def initialStates (c : Component) : List String :=
  match c.initial with
  | none => c.states
  | some s => [s]

/-- The moves that a component makes of its own accord. -/
def autonomousMoves (c : Component) : List Move := c.moves.filter Move.isAutonomous

/-- The moves that an event fires from a state; from no state it fires none. -/
def firedBy (c : Component) (state : Option String) (event : String) : List Move :=
  c.moves.filter (·.answers state event)

/-- A component by its id and states. -/
def inspect (c : Component) : String :=
  "ComponentMachine(" ++ Text.quoted c.id ++ ", states=" ++ Text.quotedList c.states ++ ")"

/-- A component may start in states of its own. -/
theorem mem_states_of_mem_initialStates {c : Component} {s : String}
    (h : s ∈ c.initialStates) : s ∈ c.states
  := by
  unfold initialStates at h
  split at h
  · exact h
  · rename_i s' hs
    obtain rfl := List.mem_singleton.1 h
    exact c.initial_mem _ hs

/-- A component can start. -/
theorem initialStates_ne_nil (c : Component) :
  c.initialStates ≠ []
  := by
  unfold initialStates
  split
  · exact c.states_ne_nil
  · simp

/-- A new move changes nothing but the list of moves. -/
theorem addMove_eq_ok {c d : Component} {m : Move} (h : c.addMove m = .ok d) :
  d.uid = c.uid ∧ d.id = c.id ∧ d.states = c.states ∧ d.initial = c.initial ∧
    d.moves = c.moves ++ [m]
  := by
  unfold addMove at h
  split at h
  · split at h
    · obtain rfl := Except.ok.inj h
      exact ⟨rfl, rfl, rfl, rfl, rfl⟩
    · cases h
  · cases h

end Component

end AssemblySemantics
