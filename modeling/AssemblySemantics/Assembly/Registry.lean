import AssemblySemantics.Proposition
import AssemblySemantics.Table

/-!
# Registries

A registry is an assembly that remembers its answers: its space, once that was asked for,
and the part of the space with each placement that was asked for. Registering a component
drops what is remembered. A new move of a component does not, since neither the space nor
its parts depend on the moves.
-/

namespace AssemblySemantics

/-- An assembly with the answers that it has given. -/
structure Registry where
  assembly : Assembly
  space? : Option Region
  parts : Table Placement Region

/-- A question to a registry, which may remember the answer. -/
abbrev Query := StateT Registry (Except RegionError)

namespace Registry

/-- The registry of an assembly that was not asked anything. -/
def ofAssembly (a : Assembly) : Registry := ⟨a, none, ∅⟩

/-- The registry with one more component; what was remembered is dropped. -/
def register (r : Registry) (c : Component) : Except AssemblyError Registry :=
  (r.assembly.register c).map ofAssembly

/-- The registry after a component has taken one more move; what was remembered stays. -/
def addMove (r : Registry) (uid : Nat) (m : Move) : Registry :=
  { r with assembly := r.assembly.addMove uid m }

/-- The space of the assembly. -/
def space : Query Region := do
  let r ← get
  match r.space? with
  | some answer => return answer
  | none =>
    let answer := r.assembly.space
    set { r with space? := some answer }
    return answer

/-- The part of the space with a placement. -/
def statesWhere (p : Placement) : Query Region := do
  match (← get).parts.get? p with
  | some answer => return answer
  | none =>
    let all ← space
    let answer := all.having p
    modify fun r => { r with parts := r.parts.set p answer }
    return answer

/-- The region in which a proposition is true. -/
def lift (f : Proposition) : Query Region := do
  f.liftM (← get).assembly.id space statesWhere

end Registry

end AssemblySemantics
