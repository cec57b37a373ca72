/-!
# Solver settings

The solver runs for at most so many rounds as its cap allows, and evaluates reactive
transitions over one of two bases. A cap is a positive number; it may also be given as the
flag `true`, which counts as one and is shown as it was given.
-/

namespace AssemblySemantics

/-- The value that the exit zones of a reactive transition move. -/
inductive Basis where
  /-- The region of the transition's source. -/
  | stateRegion
  /-- All configurations of the space at the source of one of the zones. -/
  | zoneSources
deriving DecidableEq

namespace Basis

/-- The name of a basis. -/
def name : Basis → String
  | .stateRegion => "STATE_SEMANTICS"
  | .zoneSources => "EXIT_ZONE_SOURCES"

/-- The place of a basis in the list of all. -/
def number : Basis → Nat
  | .stateRegion => 1
  | .zoneSources => 2

/-- The basis of a name. -/
def ofName? (name : String) : Option Basis :=
  [stateRegion, zoneSources].find? (·.name = name)

end Basis

/-- What may be given for a cap: a whole number, a flag, or something else. -/
inductive CapInput where
  | count (n : Int)
  | flag (b : Bool)
  | other

/-- A positive number of rounds, and whether it was given as the flag `true`. -/
structure Cap where
  rounds : Nat
  isFlag : Bool
  rounds_pos : 0 < rounds := by decide
deriving DecidableEq

/-- The cap given by an input, if that is positive. -/
def CapInput.cap? : CapInput → Option Cap
  | .count n => if h : 0 < n then some ⟨n.toNat, false, by omega⟩ else none
  | .flag true => some ⟨1, true, by decide⟩
  | .flag false | .other => none

/-- A cap as a text. -/
def Cap.inspect (c : Cap) : String := if c.isFlag then "True" else toString c.rounds

/-- Why settings are refused. -/
inductive ConfigError where
  /-- The cap is no positive whole number. -/
  | badCap
  /-- The basis is none of the two. -/
  | badBasis
deriving DecidableEq

/-- The text of a refusal. -/
def ConfigError.message : ConfigError → String
  | .badCap => "max_iterations must be a positive integer"
  | .badBasis => "reactive_basis must be a ReactiveBasis enum value"

/-- The settings of the solver. -/
structure SolverConfig where
  cap : Cap
  basis : Basis
deriving DecidableEq

namespace SolverConfig

/-- A thousand rounds over the region of the source. -/
def standard : SolverConfig := ⟨⟨1000, false, by decide⟩, .stateRegion⟩

instance : Inhabited SolverConfig := ⟨standard⟩

/-- The settings given by a cap and the name of a basis, where what is absent is taken from
the standard; `some none` stands for a basis given by something else than a name. -/
def make (cap : Option CapInput) (basis : Option (Option String)) :
    Except ConfigError SolverConfig := do
  let cap ←
    match cap with
    | none => .ok standard.cap
    | some input => input.cap?.elim (.error .badCap) .ok
  let basis ←
    match basis with
    | none => .ok standard.basis
    | some given => (given.bind Basis.ofName?).elim (.error .badBasis) .ok
  return ⟨cap, basis⟩

/-- Settings field by field. -/
def inspect (c : SolverConfig) : String :=
  "SolverConfig(max_iterations=" ++ c.cap.inspect ++ ", reactive_basis=<ReactiveBasis." ++
    c.basis.name ++ ": " ++ toString c.basis.number ++ ">)"

end SolverConfig

/-- How a machine refreshes its cache. -/
inductive Strategy where
  /-- One pass over the current values. -/
  | oneStep
  /-- The solver's result, written back. -/
  | fixedPoint
deriving DecidableEq

/-- The name of a strategy. -/
def Strategy.name : Strategy → String
  | .oneStep => "LOCAL"
  | .fixedPoint => "FIXED_POINT"

end AssemblySemantics
