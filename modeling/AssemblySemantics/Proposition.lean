import AssemblySemantics.Assembly.Basic

/-!
# Propositions

A proposition speaks about one configuration: that a machine is in a state, or a Boolean
combination of such statements. `Holds` says when it is true of a configuration, and `lift`
gives the region of an assembly in which it is true, by lattice operations on the space and
its parts; negation is the complement in the space.
-/

namespace AssemblySemantics

/-- A statement about one configuration. -/
inductive Proposition where
  | basic (p : Placement)
  | always
  | never
  | and (left right : Proposition)
  | or (left right : Proposition)
  | not (operand : Proposition)
deriving DecidableEq, Inhabited

namespace Proposition

/-- When a proposition is true of a configuration. -/
def Holds : Proposition → Configuration → Prop
  | basic p, c => c.state? p.machine = some p.state
  | always, _ => True
  | never, _ => False
  | and l r, c => l.Holds c ∧ r.Holds c
  | or l r, c => l.Holds c ∨ r.Holds c
  | not f, c => ¬ f.Holds c

instance decidableHolds : (f : Proposition) → (c : Configuration) → Decidable (f.Holds c)
  | basic p, c => inferInstanceAs (Decidable (c.state? p.machine = some p.state))
  | always, _ => inferInstanceAs (Decidable True)
  | never, _ => inferInstanceAs (Decidable False)
  | and l r, c =>
    have := decidableHolds l c
    have := decidableHolds r c
    inferInstanceAs (Decidable (l.Holds c ∧ r.Holds c))
  | or l r, c =>
    have := decidableHolds l c
    have := decidableHolds r c
    inferInstanceAs (Decidable (l.Holds c ∨ r.Holds c))
  | not f, c =>
    have := decidableHolds f c
    inferInstanceAs (Decidable (¬ f.Holds c))

/-- The placement that a proposition states, when it states just one. -/
def basic? : Proposition → Option Placement
  | basic p => some p
  | _ => none

/-- The region in which a proposition is true, from two questions that may have effects:
the space of the assembly named by `id`, and the part of it with a placement. -/
def liftM {m : Type → Type} [Monad m] [MonadLiftT (Except RegionError) m] (id : String)
    (space : m Region) (statesWhere : Placement → m Region) : Proposition → m Region
  | basic p => statesWhere p
  | always => space
  | never => pure (.bottom id)
  | and l r => do
    let left ← l.liftM id space statesWhere
    let right ← r.liftM id space statesWhere
    left.meet right
  | or l r => do
    let left ← l.liftM id space statesWhere
    let right ← r.liftM id space statesWhere
    left.join right
  | not f => do
    let all ← space
    let held ← f.liftM id space statesWhere
    all.diff held

/-- The region of an assembly in which a proposition is true. -/
def lift (f : Proposition) (a : Assembly) : Except RegionError Region :=
  f.liftM a.id (.ok a.space) fun p => .ok (a.statesWhere p)

/-- The number of connectives and leaves. -/
def weight : Proposition → Nat
  | basic _ | always | never => 1
  | and l r | or l r => l.weight + r.weight + 1
  | not f => f.weight + 1

/-- The placements stated at the leaves, from left to right. -/
def leaves : Proposition → List Placement
  | basic p => [p]
  | always | never => []
  | and l r | or l r => l.leaves ++ r.leaves
  | not f => f.leaves

/-- The placements stated in a stack of propositions, the top one first and each one from
right to left. -/
def stated : List Proposition → List Placement
  | [] => []
  | basic p :: rest => p :: stated rest
  | always :: rest | never :: rest => stated rest
  | and l r :: rest | or l r :: rest => stated (r :: l :: rest)
  | not f :: rest => stated (f :: rest)
termination_by stack => stack.foldr (fun f n => f.weight + n) 0
decreasing_by all_goals simp [weight]; try omega

/-- The placements that a proposition states, from right to left. -/
def statements (f : Proposition) : List Placement := stated [f]

/-- A placement as it stands in a proposition. -/
def displayPlacement (p : Placement) : String := p.machine ++ "." ++ p.state

/-- A proposition as it is shown to a reader. -/
def display : Proposition → String
  | basic p => displayPlacement p
  | always => "true"
  | never => "false"
  | and l r => "(" ++ l.display ++ " & " ++ r.display ++ ")"
  | or l r => "(" ++ l.display ++ " | " ++ r.display ++ ")"
  | not f => "!" ++ f.display

/-- A placement field by field, as it stands in a proposition. -/
def inspectPlacement (p : Placement) : String :=
  "BasicStateProposition(machine_id=" ++ Text.quoted p.machine ++ ", state=" ++
    Text.quoted p.state ++ ")"

/-- A proposition field by field. -/
def inspect : Proposition → String
  | basic p => inspectPlacement p
  | always => "TrueProposition()"
  | never => "FalseProposition()"
  | and l r => "AndProposition(left=" ++ l.inspect ++ ", right=" ++ r.inspect ++ ")"
  | or l r => "OrProposition(left=" ++ l.inspect ++ ", right=" ++ r.inspect ++ ")"
  | not f => "NotProposition(operand=" ++ f.inspect ++ ")"

end Proposition

end AssemblySemantics
