import AssemblySemantics.Proofs.Solver.Supply

/-!
# The memory of the solver

The solver remembers for every state the exit zones that it has derived last, and from which
value. Its memory is never seen: it gives what the loop gives that derives the zones `afresh`
whenever it evaluates a transition. To tell what the solver is answered, `watched` notes every
question: in each round it asks once for each transition, and the answer is derived from the value
that the source has at that moment.
-/

namespace AssemblySemantics

/-- A question for the exit zones of a state: the values at that moment, and the answer. -/
structure ZoneCall where
  state : State
  values : Table State Region
  zones : ZoneSet

/-- A working state of the solver with the questions that were asked until then. -/
structure Watched where
  working : Working
  calls : List ZoneCall

namespace Model

/-- Exit zones that are derived whenever they are asked for. -/
def afresh (m : Model) : Supply (Table State Region) where
  values v := v
  setValues _ v := v
  zones _ r := liftM (r.exitZones m.assembly)

/-- Asks for the exit zones of a state with a value, and notes the question. -/
def watchZones (m : Model) (s : State) (value : Region) :
    StateT Watched (Except RegionError) ZoneSet := do
  let w ← get
  let (zones, working) ← (m.zonesOf s value).run w.working
  set (⟨working, w.calls ++ [⟨s, w.working.values, zones⟩]⟩ : Watched)
  return zones

/-- The exit zones from memory, where everything that is asked for is noted. -/
def watched (m : Model) : Supply Watched where
  values w := w.working.values
  setValues w v := { w with working := { w.working with values := v } }
  zones := m.watchZones

/-- The result of the loop that derives exit zones whenever it evaluates a transition. -/
def solveAfresh (m : Model) (config : SolverConfig) : Except RegionError Solution :=
  (m.solveOver m.afresh config m.startValues).map Prod.fst

/-- The result of the solver, with the questions that it has asked. -/
def solveWatched (m : Model) (config : SolverConfig) :
    Except RegionError (Solution × List ZoneCall) :=
  (m.solveOver m.watched config ⟨⟨m.startValues, ∅⟩, []⟩).map fun (sol, w) => (sol, w.calls)

/-- What is remembered for a value was derived from this value. -/
def Remembers (m : Model) (derived : Table State (Region × ZoneSet)) : Prop :=
  ∀ s base zones, derived.get? s = some (base, zones) → base.exitZones m.assembly = .ok zones

/-- The answer was derived from the value that the state had when it was asked for. -/
def Derived (m : Model) (call : ZoneCall) : Prop :=
  ∃ value, call.values.get? call.state = some value
    ∧ value.exitZones m.assembly = .ok call.zones

/-- The source of an edge that is evaluated: of a transition whose source is in the diagram. -/
def evaluatedSource (m : Model) : Edge → List State
  | .link _ => []
  | .transition t => if t.source ∈ m.diagram.states then [t.source] else []

/-- The sources of the transitions that are evaluated in a round, in their order. -/
def roundSources (m : Model) : List State :=
  m.properStates.flatMap fun s => (m.diagram.incoming s).flatMap m.evaluatedSource

variable {m : Model} {s : State}

/-! ### Answers from memory -/

theorem remembers_empty (m : Model) :
  m.Remembers ∅
  := by
  intro s base zones h
  cases h

theorem run_deriveZones {w : Working} (h : m.Remembers w.derived) (s : State) (r : Region) :
  ∃ derived, m.Remembers derived ∧ (m.deriveZones s r).run w =
    (r.exitZones m.assembly).map fun zones => (zones, { w with derived := derived })
  := by
  cases hzones : r.exitZones m.assembly with
  | error e =>
    use w.derived, h
    rw [deriveZones, hzones]
    rfl
  | ok zones =>
    use w.derived.set s (r, zones)
    constructor
    · intro s' base zones' hget
      rw [Table.get?_set] at hget
      split at hget
      · obtain ⟨rfl, rfl⟩ := Prod.mk.inj (Option.some.inj hget)
        apply hzones
      · apply h s' base zones' hget
    · rw [deriveZones, hzones]
      rfl

/-- From memory or not, the exit zones of a value are those that are derived from it. -/
theorem run_zonesOf {w : Working} (h : m.Remembers w.derived) (s : State) (r : Region) :
  ∃ derived, m.Remembers derived ∧ (m.zonesOf s r).run w =
    (r.exitZones m.assembly).map fun zones => (zones, { w with derived := derived })
  := by
  rw [zonesOf, StateT.run_bind, StateT.run_get, pure_bind]
  split
  · rename_i base zones hget
    split
    · rename_i hbase
      use w.derived, h
      rw [← hbase, h s base zones hget]
      rfl
    · apply run_deriveZones h
  · apply run_deriveZones h

/-- Deriving exit zones whenever they are asked for gives what the memory gives. -/
theorem matches_afresh (m : Model) :
  m.memory.Matches m.afresh fun w v => w.values = v ∧ m.Remembers w.derived
  := by
  constructor
  · rintro w v ⟨hvalues, -⟩
    apply hvalues
  · rintro w v ⟨-, hderived⟩ values
    exact ⟨rfl, hderived⟩
  · rintro w v s r ⟨rfl, hderived⟩ -
    obtain ⟨derived, hderived', hrun⟩ := run_zonesOf hderived s r
    change Agree _ ((m.zonesOf s r).run w) ((liftM (r.exitZones m.assembly) : StateT _ _ _).run _)
    rw [hrun]
    cases r.exitZones m.assembly with
    | error e => apply Agree.refused
    | ok zones => apply Agree.done zones ⟨rfl, hderived'⟩

theorem run_watchZones (m : Model) (s : State) (r : Region) (w : Watched) :
  (m.watchZones s r).run w = ((m.zonesOf s r).run w.working).map fun x =>
    (x.1, ⟨x.2, w.calls ++ [⟨s, w.working.values, x.1⟩]⟩)
  := by
  rw [watchZones, StateT.run_bind, StateT.run_get, pure_bind, StateT.run_bind]
  rcases (m.zonesOf s r).run w.working with e | x <;> rfl

/-- Noting what is asked for changes nothing, and what is answered was derived from the value at
that moment. -/
theorem matches_watched (m : Model) :
  m.memory.Matches m.watched fun w v =>
    v.working = w ∧ m.Remembers w.derived ∧ ∀ call ∈ v.calls, m.Derived call
  := by
  constructor
  · rintro w v ⟨rfl, -⟩
    rfl
  · rintro w v ⟨rfl, h⟩ values
    exact ⟨rfl, h⟩
  · rintro w v s r ⟨rfl, hderived, hcalls⟩ hr
    obtain ⟨derived, hderived', hrun⟩ := run_zonesOf hderived s r
    change Agree _ ((m.zonesOf s r).run _) ((m.watchZones s r).run _)
    rw [run_watchZones, hrun]
    cases hzones : r.exitZones m.assembly with
    | error e => apply Agree.refused
    | ok zones =>
      apply Agree.done zones
      refine ⟨rfl, hderived', ?_⟩
      intro call hcall
      obtain hcall | hcall := List.mem_append.mp hcall
      · apply hcalls call hcall
      · obtain rfl := List.mem_singleton.mp hcall
        exact ⟨r, hr, hzones⟩

/-! ### What the solver asks for -/

/-- The states of the diagram have values, and no others, and the memory is in order. -/
structure Ready (m : Model) (w : Working) : Prop where
  contains_iff : ∀ s, w.values.contains s = true ↔ s ∈ m.diagram.states
  remembers : m.Remembers w.derived

/-- When a computation succeeds, it has asked for the exit zones of the given states, in this
order. -/
def Asks {α : Type} (m : Model) (p : StateT Watched (Except RegionError) α)
    (asked : List State) : Prop :=
  ∀ w x w', m.Ready w.working → p.run w = .ok (x, w') →
    m.Ready w'.working
      ∧ w'.calls.map ZoneCall.state = w.calls.map ZoneCall.state ++ asked

section Asks

variable {α β : Type} {p : StateT Watched (Except RegionError) α}
  {f : α → StateT Watched (Except RegionError) β} {asked asked' : List State}

theorem Asks.pure (m : Model) (x : α) :
  m.Asks (Pure.pure x) []
  := by
  rintro w x' w' hw ⟨⟩
  exact ⟨hw, (List.append_nil _).symm⟩

theorem Asks.lift (m : Model) (e : Except RegionError α) :
  m.Asks (liftM e) []
  := by
  intro w x w' hw hrun
  cases e with
  | error e => cases hrun
  | ok y =>
    cases hrun
    exact ⟨hw, (List.append_nil _).symm⟩

theorem Asks.bind (hp : m.Asks p asked) (hf : ∀ x, m.Asks (f x) asked') :
  m.Asks (p >>= f) (asked ++ asked')
  := by
  intro w y w'' hw hrun
  rw [StateT.run_bind] at hrun
  rcases hp' : p.run w with e | ⟨x, w'⟩
  · rw [hp'] at hrun
    cases hrun
  · rw [hp'] at hrun
    obtain ⟨hw', hasked⟩ := hp w x w' hw hp'
    obtain ⟨hw'', hasked'⟩ := hf x w' y w'' hw' hrun
    exact ⟨hw'', by rw [hasked', hasked, List.append_assoc]⟩

theorem Asks.bind_of_nil (hp : m.Asks p asked) (hf : ∀ x, m.Asks (f x) []) :
  m.Asks (p >>= f) asked
  := by
  rw [← List.append_nil asked]
  apply hp.bind hf

theorem Asks.get_bind {f : Watched → StateT Watched (Except RegionError) α}
    (h : ∀ w, m.Ready w.working → m.Asks (f w) asked) :
  m.Asks (get >>= f) asked
  := fun w x w' hw hrun => h w hw w x w' hw hrun

theorem Asks.foldlM {ι : Type} {f : α → ι → StateT Watched (Except RegionError) α}
    {asked : ι → List State} {list : List ι} (h : ∀ i ∈ list, ∀ x, m.Asks (f x i) (asked i))
    (x : α) :
  m.Asks (list.foldlM f x) (list.flatMap asked)
  := by
  induction list generalizing x with
  | nil => apply Asks.pure
  | cons i list ih =>
    obtain ⟨hi, h⟩ := List.forall_mem_cons.mp h
    rw [List.foldlM_cons, List.flatMap_cons]
    apply (hi x).bind (ih h)

end Asks

theorem ready_start (m : Model) :
  m.Ready ⟨m.startValues, ∅⟩
  := by
  constructor
  · intro s
    change (m.startValues.get? s).isSome = true ↔ _
    rw [get?_startValues]
    split
    · rename_i hs
      exact iff_of_true rfl hs
    · rename_i hs
      exact iff_of_false Bool.false_ne_true hs
  · apply remembers_empty

/-- A state of the diagram may take another value. -/
theorem Ready.set {w : Working} (h : m.Ready w) (hs : s ∈ m.diagram.states) (r : Region) :
  m.Ready { w with values := w.values.set s r }
  := by
  constructor
  · intro s'
    rw [Table.contains, Table.get?_set]
    split
    · rename_i heq
      exact iff_of_true rfl (heq ▸ hs)
    · apply h.contains_iff s'
  · apply h.remembers

theorem asks_watchZones (m : Model) (s : State) (r : Region) :
  m.Asks (m.watchZones s r) [s]
  := by
  intro w x w' hw hrun
  obtain ⟨derived, hderived, hrun'⟩ := run_zonesOf hw.remembers s r
  rw [run_watchZones, hrun'] at hrun
  cases hzones : r.exitZones m.assembly with
  | error e =>
    rw [hzones] at hrun
    cases hrun
  | ok zones =>
    rw [hzones] at hrun
    cases hrun
    exact ⟨⟨hw.contains_iff, hderived⟩, List.map_append⟩

theorem asks_gatherEdgeOver (basis : Basis) (gathered : Region) (e : Edge) :
  m.Asks (m.gatherEdgeOver m.watched basis gathered e) (m.evaluatedSource e)
  := by
  cases e with
  | link l => apply Asks.pure
  | transition t =>
    apply Asks.get_bind
    intro w hw
    have hmem : ((m.watched.values w).get? t.source).isSome = true ↔ _ :=
      hw.contains_iff t.source
    rw [evaluatedSource]
    cases hvalue : (m.watched.values w).get? t.source with
    | none =>
      rw [hvalue] at hmem
      rw [if_neg (fun hs => Bool.false_ne_true (hmem.mpr hs))]
      apply Asks.pure
    | some value =>
      rw [hvalue] at hmem
      rw [if_pos (hmem.mp rfl)]
      apply (asks_watchZones m t.source value).bind_of_nil
      intro zones
      apply (Asks.lift m _).bind_of_nil
      intro reached
      apply Asks.lift

theorem asks_growOver (basis : Basis) (hs : s ∈ m.diagram.states) :
  m.Asks (m.growOver m.watched basis s) ((m.diagram.incoming s).flatMap m.evaluatedSource)
  := by
  rw [growOver]
  apply Asks.bind_of_nil
  · apply Asks.foldlM fun e _ gathered => asks_gatherEdgeOver basis gathered e
  · intro gathered
    apply Asks.get_bind
    intro w hw
    apply (Asks.lift m _).bind_of_nil
    intro grown
    split
    · apply Asks.pure
    · rintro w x w' hw ⟨⟩
      exact ⟨hw.set hs grown, (List.append_nil _).symm⟩

theorem asks_roundOver (m : Model) (basis : Basis) :
  m.Asks (m.roundOver m.watched basis) m.roundSources
  := by
  apply Asks.foldlM
  intro s hs changed
  apply (asks_growOver basis (mem_properStates.mp hs).1).bind_of_nil
  intro grown
  apply Asks.pure

/-- The rounds ask for the sources of a round, as often as there are rounds. -/
theorem asks_roundsOver {basis : Basis} {fuel done rounds : Nat} {converged : Bool}
    {w w' : Watched} (hw : m.Ready w.working)
    (hrun : (m.roundsOver m.watched basis fuel done).run w = .ok ((rounds, converged), w')) :
  ∃ n, rounds = done + n ∧ w'.calls.map ZoneCall.state =
    w.calls.map ZoneCall.state ++ (List.replicate n m.roundSources).flatten
  := by
  induction fuel generalizing done w with
  | zero =>
    cases hrun
    exact ⟨0, rfl, (List.append_nil _).symm⟩
  | succ fuel ih =>
    rw [roundsOver, StateT.run_bind] at hrun
    rcases hround : (m.roundOver m.watched basis).run w with e | ⟨changed, w₁⟩
    · rw [hround] at hrun
      cases hrun
    · rw [hround] at hrun
      obtain ⟨hw₁, hasked⟩ := asks_roundOver m basis w changed w₁ hw hround
      cases changed with
      | false =>
        cases hrun
        use 1, rfl
        rw [hasked, List.replicate_one, List.flatten_singleton]
      | true =>
        obtain ⟨n, rfl, hcalls⟩ := ih hw₁ hrun
        use n + 1, by omega
        rw [hcalls, hasked, List.replicate_succ, List.flatten_cons, List.append_assoc]

theorem map_state_of_solveWatched {config : SolverConfig} {sol : Solution}
    {calls : List ZoneCall} (h : m.solveWatched config = .ok (sol, calls)) :
  calls.map ZoneCall.state = (List.replicate sol.iterations m.roundSources).flatten
  := by
  rw [solveWatched, solveOver] at h
  rcases hrun : (m.roundsOver m.watched config.basis config.cap.rounds 0).run
      ⟨⟨m.startValues, ∅⟩, []⟩ with e | ⟨⟨iterations, converged⟩, w⟩
  · rw [hrun] at h
    cases h
  · rw [hrun] at h
    cases h
    obtain ⟨n, hn, hcalls⟩ := asks_roundsOver m.ready_start hrun
    rw [hcalls, hn, Nat.zero_add]
    rfl

/-- The memory of the solver is never seen. Under whatever settings, the solver has the result
of the loop that derives the exit zones afresh whenever it evaluates a transition: the same
values, as many rounds, and the same convergence. In every round the solver asks once for each
transition that it evaluates, and is answered with the exit zones of the value that the source
has at that moment. -/
theorem solve_afresh (m : Model) (config : SolverConfig) :
  ∃ sol calls, m.solve config = .ok sol ∧ m.solveAfresh config = .ok sol
    ∧ m.solveWatched config = .ok (sol, calls)
    ∧ calls.map ZoneCall.state = (List.replicate sol.iterations m.roundSources).flatten
    ∧ ∀ call ∈ calls, ∃ value, call.values.get? call.state = some value
      ∧ value.exitZones m.assembly = .ok call.zones
  := by
  have hempty := m.remembers_empty
  obtain ⟨-, v, hafresh, -⟩ := m.exists_solveOver m.matches_afresh config ⟨rfl, hempty⟩
  obtain ⟨-, w, hwatched, -, -, hcalls⟩ :=
    m.exists_solveOver m.matches_watched config (v := ⟨⟨m.startValues, ∅⟩, []⟩)
      ⟨rfl, hempty, List.forall_mem_nil _⟩
  have hresult : m.solveWatched config = .ok (m.solution config, w.calls) := by
    rw [solveWatched, hwatched]
    rfl
  refine ⟨m.solution config, w.calls, m.solve_eq config, ?_, hresult,
    map_state_of_solveWatched hresult, hcalls⟩
  rw [solveAfresh, hafresh]
  rfl

end Model

end AssemblySemantics
