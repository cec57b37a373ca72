import AssemblySemantics.Proofs.Assembly.Alike
import AssemblySemantics.Proofs.Machine.History
import AssemblySemantics.Proofs.Solver.Iteration

/-!
# Orders that do not matter

The solver goes through lists whose order means nothing: the transitions that lead to a
state, the components of the assembly with their states and moves, and the exit zones of a
region. `Enumeration` leaves the order of the exit zones open, and `solveBy` is the solver
that evaluates transitions over zones enumerated so; it gives what the solver gives. Models
that are alike up to the other orders have the same result, since whatever is offered to a
state is.
-/

namespace AssemblySemantics

/-- A way to enumerate sets of exit zones, which may depend on the transition that is
evaluated and on the working state. -/
structure Enumeration where
  list : Working → Transition → ZoneSet → List ExitZone
  mem_list : ∀ w t zones z, z ∈ list w t zones ↔ z ∈ zones

namespace Model

/-! ### The solver over enumerated zones -/

/-- Joins what one edge contributes, over exit zones as they are enumerated. -/
def gatherEdgeBy (m : Model) (order : Enumeration) (basis : Basis) (gathered : Region) :
    Edge → Solving Region
  | .link _ => return gathered
  | .transition t => do
    let w ← get
    match w.values.get? t.source with
    | none => return gathered
    | some value =>
      let zones ← m.zonesOf t.source value
      let reached ← t.contribution value (order.list w t zones) m.assembly basis
      gathered.join reached

/-- What the incoming transitions of a state contribute, over exit zones as they are
enumerated. -/
def gatherBy (m : Model) (order : Enumeration) (basis : Basis) (s : State) : Solving Region :=
  (m.diagram.incoming s).foldlM (m.gatherEdgeBy order basis) m.bottom

/-- Adds to the value of a state what is gathered over exit zones as they are enumerated. -/
def growBy (m : Model) (order : Enumeration) (basis : Basis) (s : State) : Solving Bool := do
  let gathered ← m.gatherBy order basis s
  let value := (← get).values.getD s m.bottom
  let grown ← value.join gathered
  if grown = value then return false
  else
    modify fun w => { w with values := w.values.set s grown }
    return true

/-- A round over exit zones as they are enumerated. -/
def roundBy (m : Model) (order : Enumeration) (basis : Basis) : Solving Bool :=
  m.properStates.foldlM (fun changed s => return (← m.growBy order basis s) || changed) false

/-- Rounds over exit zones as they are enumerated. -/
def roundsBy (m : Model) (order : Enumeration) (basis : Basis) :
    (fuel done : Nat) → Solving (Nat × Bool)
  | 0, done => return (done, false)
  | fuel + 1, done => do
    if ← m.roundBy order basis then m.roundsBy order basis fuel (done + 1)
    else return (done + 1, true)

/-- Runs the solver over exit zones as they are enumerated. -/
def solveBy (m : Model) (order : Enumeration) (config : SolverConfig) :
    Except RegionError Solution := do
  let ((iterations, converged), w) ←
    (m.roundsBy order config.basis config.cap.rounds 0).run ⟨m.startValues, ∅⟩
  return ⟨w.values, iterations, converged⟩

/-- Models are alike when their assemblies are, and their diagrams have the same states in
the same order and the same transitions, in whatever order and however often each was
added. -/
structure Alike (m m' : Model) : Prop where
  assembly : m.assembly.Alike m'.assembly
  states_eq : m.diagram.states = m'.diagram.states
  mem_transitions_iff : ∀ t, t ∈ m.diagram.transitions ↔ t ∈ m'.diagram.transitions

variable {m m' : Model} {basis : Basis} {v : Table State Region} {s : State}

/-! ### The order of the exit zones -/

theorem gatherEdgeBy_eq (m : Model) (order : Enumeration) (basis : Basis) :
  m.gatherEdgeBy order basis = m.gatherEdge basis
  := by
  funext gathered e
  cases e with
  | link l => rfl
  | transition t =>
    rw [gatherEdgeBy, gatherEdge]
    apply bind_congr
    intro w
    cases w.values.get? t.source with
    | none => rfl
    | some value =>
      apply bind_congr
      intro zones
      have hzones : ∀ z, z ∈ order.list w t zones ↔ z ∈ zones.toList := by
        intro z
        rw [order.mem_list, Std.ExtTreeSet.mem_toList]
      rw [Transition.contribution_congr hzones]

theorem growBy_eq (m : Model) (order : Enumeration) (basis : Basis) (s : State) :
  m.growBy order basis s = m.grow basis s
  := by
  rw [growBy, grow, gatherBy, gather, gatherEdgeBy_eq]

theorem roundBy_eq (m : Model) (order : Enumeration) (basis : Basis) :
  m.roundBy order basis = m.round basis
  := by
  simp only [roundBy, round, growBy_eq]

theorem roundsBy_eq (m : Model) (order : Enumeration) (basis : Basis) (fuel done : Nat) :
  m.roundsBy order basis fuel done = m.rounds basis fuel done
  := by
  induction fuel generalizing done with
  | zero => rfl
  | succ fuel ih => rw [roundsBy, rounds, roundBy_eq, ih]

/-- It does not matter to the solver in which order exit zones are enumerated. -/
theorem solveBy_eq (m : Model) (order : Enumeration) (config : SolverConfig) :
  m.solveBy order config = m.solve config
  := by
  rw [solveBy, solve, roundsBy_eq]

/-! ### Models that are alike -/

namespace Alike

theorem bottom_eq (h : m.Alike m') :
  m.bottom = m'.bottom
  := by
  rw [bottom, bottom, h.assembly.id_eq]

theorem properStates_eq (h : m.Alike m') :
  m.properStates = m'.properStates
  := by
  rw [properStates, properStates, h.states_eq]

theorem value_eq (h : m.Alike m') (v : Table State Region) (s : State) :
  m.value v s = m'.value v s
  := by
  rw [value, value, h.bottom_eq]

theorem startValues_eq (h : m.Alike m') :
  m.startValues = m'.startValues
  := by
  rw [startValues, startValues, h.states_eq, h.bottom_eq, h.assembly.initial_eq]

/-- A state is offered the same in models that are alike. -/
theorem offered_eq (h : m.Alike m') (hm : m.diagram.WellFormed) (hm' : m'.diagram.WellFormed)
    (hs : s ∈ m.diagram.states) :
  m.offered basis v s = m'.offered basis v s
  := by
  apply Region.ext
  · apply h.assembly.id_eq
  · intro c
    have hs' : s ∈ m'.diagram.states := by
      rw [← h.states_eq]
      apply hs
    simp only [mem_offered_iff hm hs, mem_offered_iff hm' hs', h.mem_transitions_iff, h.value_eq,
      h.assembly.image_eq]

theorem raise_eq (h : m.Alike m') (hm : m.diagram.WellFormed) (hm' : m'.diagram.WellFormed)
    (hs : s ∈ m.diagram.states) :
  m.raise basis v s = m'.raise basis v s
  := by
  rw [raise, raise, h.offered_eq hm hm' hs, h.value_eq]

theorem sweep_eq (h : m.Alike m') (hm : m.diagram.WellFormed) (hm' : m'.diagram.WellFormed)
    (basis : Basis) (v : Table State Region) :
  m.sweep basis v = m'.sweep basis v
  := by
  rw [sweep, sweep, ← h.properStates_eq]
  apply List.foldl_ext
  intro v s hs
  apply h.raise_eq hm hm' (mem_properStates.mp hs).1

theorem settle_eq (h : m.Alike m') (hm : m.diagram.WellFormed) (hm' : m'.diagram.WellFormed)
    (fuel done : Nat) (v : Table State Region) :
  m.settle basis fuel done v = m'.settle basis fuel done v
  := by
  induction fuel generalizing done v with
  | zero => rfl
  | succ fuel ih => rw [settle, settle, h.sweep_eq hm hm', ih]

/-- Models that are alike have one solution. -/
theorem solution_eq (h : m.Alike m') (hm : m.diagram.WellFormed) (hm' : m'.diagram.WellFormed)
    (config : SolverConfig) :
  m.solution config = m'.solution config
  := by
  rw [solution, solution, h.startValues_eq, h.settle_eq hm hm']

end Alike

end Model

namespace Machine

/-- The solver gives machines that are alike one result, with the same rounds and the same
convergence, in whatever order the exit zones are enumerated for either of them. -/
theorem solve_eq_of_alike {m m' : Machine} (hm : m.Reachable) (hm' : m'.Reachable)
    (h : m.Alike m'.toModel) (config : SolverConfig) :
  ∃ sol, m.solve config = .ok sol ∧ m'.solve config = .ok sol
    ∧ ∀ order : Enumeration, m.solveBy order config = .ok sol ∧ m'.solveBy order config = .ok sol
  := by
  have hsolve : m.solve config = .ok (m.solution config) := m.solve_eq config
  have hsolve' : m'.solve config = .ok (m.solution config) := by
    rw [h.solution_eq hm.wellFormed hm'.wellFormed]
    apply m'.solve_eq config
  refine ⟨m.solution config, hsolve, hsolve', ?_⟩
  intro order
  rw [Model.solveBy_eq, Model.solveBy_eq]
  exact ⟨hsolve, hsolve'⟩

end Machine

namespace Loop

/-- The loop that waits for the light, over the light and the door. -/
def housed : Machine := (machine await).setAssembly house

/-- The same loop with its transitions added in another order, and one of them twice. -/
def turned : Machine :=
  Machine.edited ⟨⟨"turned", turnedHouse, .standard, .initial (.pseudo 0)⟩, .empty turnedHouse.id⟩
    [.addState first, .addState second, .addEdge (.transition back),
      .addEdge (.transition await), .addEdge (.transition enter), .addEdge (.transition await)]

/-- Exit zones from the last to the first. -/
def backwards : Enumeration where
  list _ _ zones := zones.toList.reverse
  mem_list _ _ zones z := by rw [List.mem_reverse, Std.ExtTreeSet.mem_toList]

theorem reachable_housed :
  housed.Reachable
  := (reachable_machine await).setAssembly house

theorem reachable_turned :
  turned.Reachable
  := by
  have hmake : Machine.make "turned" turnedHouse .standard (.pseudo 0) = .ok _ :=
    if_neg (by decide)
  apply (Machine.Reachable.make hmake).edited

theorem alike_turnedHouse :
  house.Alike turnedHouse
  := by
  have hlight : light.Alike turnedLight := by
    refine ⟨rfl, rfl, by decide, ?_⟩
    intro x
    simp only [light, turnedLight, List.mem_cons, List.not_mem_nil, or_false]
    tauto
  have hdoor : door.Alike turnedDoor := by
    refine ⟨rfl, rfl, by decide, ?_⟩
    intro x
    simp only [door, turnedDoor, List.mem_cons, List.not_mem_nil, or_false]
    tauto
  refine ⟨rfl, ?_, ?_⟩
  · simp only [house, turnedHouse, List.forall_mem_cons, List.exists_mem_cons_iff]
    exact ⟨.inr (.inl hlight), .inl hdoor, by simp⟩
  · simp only [house, turnedHouse, List.forall_mem_cons, List.exists_mem_cons_iff]
    exact ⟨.inr (.inl hdoor), .inl hlight, by simp⟩

theorem alike_turned :
  housed.Alike turned.toModel
  := by
  refine ⟨alike_turnedHouse, by decide, ?_⟩
  intro t
  have htransitions : housed.diagram.transitions = [enter, await, back] := by decide
  have hturned : turned.diagram.transitions = [back, await, enter, await] := by decide
  rw [htransitions, hturned]
  simp only [List.mem_cons, List.not_mem_nil, or_false]
  tauto

end Loop

namespace Machine

/-- The loop over the light and the door: its second state has the light on, however the
lists are turned and the exit zones enumerated. -/
theorem solve_eq_of_alike_turned :
  Loop.housed.Reachable ∧ Loop.turned.Reachable ∧ Loop.housed.Alike Loop.turned.toModel
    ∧ ∃ sol, Loop.housed.solve .standard = .ok sol
      ∧ Loop.turned.solveBy Loop.backwards .standard = .ok sol
      ∧ (sol.values.get? Loop.second).map Region.toList =
        some [[⟨"door", "closed"⟩, ⟨"light", "on"⟩], [⟨"door", "open"⟩, ⟨"light", "on"⟩]]
  := by
  use Loop.reachable_housed, Loop.reachable_turned, Loop.alike_turned
  obtain ⟨sol, hsol, -, horder⟩ :=
    solve_eq_of_alike Loop.reachable_housed Loop.reachable_turned Loop.alike_turned .standard
  refine ⟨sol, hsol, (horder Loop.backwards).2, ?_⟩
  have hvalue : (Loop.housed.solve .standard).map (fun sol =>
      (sol.values.get? Loop.second).map Region.toList) =
        .ok (some [[⟨"door", "closed"⟩, ⟨"light", "on"⟩],
          [⟨"door", "open"⟩, ⟨"light", "on"⟩]]) := by
    decide +kernel
  apply Model.eq_of_map_solve hsol hvalue

end Machine

end AssemblySemantics
