import AssemblySemantics.Decimal.Shortest
import AssemblySemantics.Proposition
import AssemblySemantics.Region.Motion

/-!
# States and edges

The entities of which a diagram is made: states, and edges between them. An edge is a
transition, which has a guard, actions and a kind, or a link, which only has ends, and ends
that need not be states. Every entity carries a unique number, and is equal only to itself:
two states of one name are two states.
-/

namespace AssemblySemantics

/-- Why a name is refused. -/
inductive NameError where
  /-- A state has no name. -/
  | noStateName
  /-- A machine has no name. -/
  | noMachineName
deriving DecidableEq

/-- The text of a refusal. -/
def NameError.message : NameError → String
  | .noStateName => "State name must be a non-empty string"
  | .noMachineName => "Machine name must be a non-empty string"

/-- A state of a diagram. -/
structure State where
  uid : Nat
  name : String
  isPseudo : Bool
deriving DecidableEq

namespace State

/-- The name of the pseudostate of every diagram. -/
def pseudoName : String := "PseudoState"

/-- The pseudostate with the given number. -/
def pseudo (uid : Nat) : State := ⟨uid, pseudoName, true⟩

/-- The state of a name, which must not be empty. -/
def make (uid : Nat) (name : String) (isPseudo : Bool) : Except NameError State :=
  if name = "" then .error .noStateName else .ok ⟨uid, name, isPseudo⟩

/-- A state field by field. -/
def inspect (s : State) : String :=
  (if s.isPseudo then "PseudoState" else "State") ++ "(" ++ Text.quoted s.name ++ ")"

end State

/-- A guarded edge. A triggerable transition waits for a trigger from outside; one that is
not triggerable follows the autonomous moves of the components, unless it leaves a
pseudostate. -/
structure Transition where
  uid : Nat
  name : String
  source : State
  target : State
  guard : Proposition
  triggerable : Bool
  actions : List Action
deriving DecidableEq

namespace Transition

/-- The name of a transition: the chosen one, or else one made from its ends. -/
def nameFor (chosen : Option String) (source target : State) : String :=
  match chosen with
  | none | some "" => source.name ++ "->" ++ target.name
  | some name => name

/-- Whether a transition is driven by the exit zones of its source. -/
def isReactive (t : Transition) : Bool := !t.triggerable && !t.source.isPseudo

/-- A transition by its name, kind and guard. -/
def inspect (t : Transition) : String :=
  "SemanticTransition(" ++ Text.quoted t.name ++ ", " ++
    (if t.triggerable then "triggerable" else "reactive") ++
    ", guard=" ++ t.guard.display ++ ")"

end Transition

/-- What a link has at one of its ends: a state, or something that is shown as a text. -/
inductive Endpoint where
  | state (s : State)
  | other (text : String)
deriving DecidableEq

namespace Endpoint

/-- No end at all. -/
def missing : Endpoint := .other "None"

/-- A flag in the place of an end. -/
def flag (b : Bool) : Endpoint := .other (if b then "True" else "False")

/-- A whole number in the place of an end. -/
def whole (n : Int) : Endpoint := .other (toString n)

/-- The fraction `digits * 10 ^ exponent`, with its sign, in the place of an end. -/
def fraction (isNegative : Bool) (digits : Nat) (exponent : Int) : Endpoint :=
  .other (Decimal.text isNegative digits exponent)

/-- An infinite number in the place of an end. -/
def infinite (isNegative : Bool) : Endpoint := .other (if isNegative then "-inf" else "inf")

/-- What is no number at all in the place of an end. -/
def undefinedNumber : Endpoint := .other "nan"

/-- The state at an end. -/
def state? : Endpoint → Option State
  | .state s => some s
  | .other _ => none

/-- An end as it is shown to a reader. -/
def display : Endpoint → String
  | .state s => s.name
  | .other text => text

end Endpoint

/-- An edge that takes no part in the semantics. -/
structure Link where
  uid : Nat
  source : Endpoint
  target : Endpoint
deriving DecidableEq

/-- An edge of a diagram. -/
inductive Edge where
  | transition (t : Transition)
  | link (l : Link)
deriving DecidableEq

namespace Edge

/-- What an edge starts from. -/
def source : Edge → Endpoint
  | .transition t => .state t.source
  | .link l => l.source

/-- What an edge leads to. -/
def target : Edge → Endpoint
  | .transition t => .state t.target
  | .link l => l.target

/-- The transition that an edge is. -/
def transition? : Edge → Option Transition
  | .transition t => some t
  | .link _ => none

/-- An edge by its kind and, for a transition, its contents. -/
def inspect : Edge → String
  | .transition t => t.inspect
  | .link _ => "Link"

end Edge

end AssemblySemantics
