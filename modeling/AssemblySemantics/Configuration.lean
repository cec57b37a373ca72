import Std.Data.ExtTreeSet

/-!
# Configurations

A configuration places component machines in states. It is a list of placements; the
canonical one, `Configuration.ofPlacements`, lists them by machine and then by state, so
that one joint assignment has one configuration. `state?` reads the state of a machine off
a configuration and `reassign` moves a machine to another state, in place.
-/

namespace AssemblySemantics

/-- A component machine in one of its states. -/
structure Placement where
  machine : String
  state : String
deriving DecidableEq

namespace Placement

/-- Placements are ordered by machine and then by state. -/
instance : Ord Placement :=
  ⟨compareLex (compareOn Placement.machine) (compareOn Placement.state)⟩

instance : Std.TransOrd Placement :=
  inferInstanceAs
    (Std.TransCmp (compareLex (compareOn Placement.machine) (compareOn Placement.state)))

instance : Std.LawfulEqOrd Placement where
  eq_of_compare {p q} h := by
    obtain ⟨m, s⟩ := p
    obtain ⟨n, t⟩ := q
    have h : (compare m n).then (compare s t) = .eq := h
    rw [Ordering.then_eq_eq] at h
    rw [Std.LawfulEqOrd.eq_of_compare h.1, Std.LawfulEqOrd.eq_of_compare h.2]

/-- A placement as it is shown to a reader. -/
def display (p : Placement) : String := p.machine ++ "=" ++ p.state

end Placement

/-- A list of placements; a joint state of an assembly when it is canonical and places
every machine of the assembly once. -/
abbrev Configuration := List Placement

namespace Configuration

/-- The state in which a configuration places a machine, by its first placement. -/
def state? (c : Configuration) (machine : String) : Option String :=
  (c.find? fun p => p.machine = machine).map Placement.state

/-- The configuration with every placement of a machine moved to a state. -/
def reassign (c : Configuration) (machine state : String) : Configuration :=
  c.map fun p => if p.machine = machine then ⟨machine, state⟩ else p

/-- Inserts a placement before the first one that is not less. -/
def add (p : Placement) : Configuration → Configuration
  | [] => [p]
  | q :: rest => if compare p q = .gt then q :: add p rest else p :: q :: rest

/-- The canonical configuration of the given placements. -/
def ofPlacements (placements : List Placement) : Configuration :=
  placements.foldr add []

/-- A configuration as it is shown to a reader. -/
def display (c : Configuration) : String :=
  String.intercalate ", " (c.map Placement.display)

@[simp]
theorem state?_nil (machine : String) :
  state? [] machine = none
  := rfl

theorem state?_cons (p : Placement) (c : Configuration) (machine : String) :
  state? (p :: c) machine = if p.machine = machine then some p.state else state? c machine
  := by
  by_cases h : p.machine = machine <;> simp [state?, h]

/-- Moving a machine leaves the order of the machines alone. -/
@[simp]
theorem map_machine_reassign (c : Configuration) (machine state : String) :
  (c.reassign machine state).map Placement.machine = c.map Placement.machine
  := by
  simp only [reassign, List.map_map]
  apply List.map_congr_left
  intro p _
  by_cases h : p.machine = machine <;> simp [h]

/-- After a move, a machine that has a place is in the state moved to, and every other
machine is where it was. -/
theorem state?_reassign (c : Configuration) (machine state other : String) :
  (c.reassign machine state).state? other =
    if other = machine then (c.state? other).map fun _ => state else c.state? other
  := by
  induction c with
  | nil => simp [reassign]
  | cons p c ih =>
    have hcons : reassign (p :: c) machine state =
        (if p.machine = machine then ⟨machine, state⟩ else p) :: reassign c machine state := rfl
    rw [hcons, state?_cons, state?_cons, ih]
    by_cases hp : p.machine = machine
    · by_cases ho : machine = other
      · subst ho
        simp [hp]
      · simp [hp, ho, Ne.symm ho]
    · by_cases ho : p.machine = other
      · subst ho
        simp [hp]
      · simp [hp, ho]

/-- Inserting a placement adds that placement and no other. -/
theorem mem_add {p q : Placement} {c : Configuration} :
  q ∈ add p c ↔ q = p ∨ q ∈ c
  := by
  induction c with
  | nil => simp [add]
  | cons r c ih =>
    rw [add]
    split
    · simp only [List.mem_cons, ih]
      constructor <;> rintro (h | h | h) <;> simp [h]
    · simp

end Configuration

end AssemblySemantics
