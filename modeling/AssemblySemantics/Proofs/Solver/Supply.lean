import AssemblySemantics.Proofs.Solver.Iteration

/-!
# Where the solver takes exit zones from

Whenever it evaluates a transition, the solver asks for the exit zones of the source. `Supply`
leaves open how it comes by them, and what is kept beside the values for this purpose. The solver
is the loop over its own `memory`, and over supplies that match the loop does the same.
-/

namespace AssemblySemantics

/-- Working states that hold the values of the solver, and a way to come by the exit zones of a
state with a given value. -/
structure Supply (σ : Type) where
  values : σ → Table State Region
  setValues : σ → Table State Region → σ
  zones : State → Region → StateT σ (Except RegionError) ZoneSet

namespace Model

/-! ### The loop over a supply -/

section Loop

variable {σ : Type} (m : Model) (u : Supply σ) (basis : Basis)

/-- Joins what one edge contributes, with the exit zones that are supplied for its source. -/
def gatherEdgeOver (gathered : Region) : Edge → StateT σ (Except RegionError) Region
  | .link _ => return gathered
  | .transition t => do
    match (u.values (← get)).get? t.source with
    | none => return gathered
    | some value =>
      let zones ← u.zones t.source value
      let reached ← t.contribution value zones.toList m.assembly basis
      gathered.join reached

/-- What the incoming transitions of a state contribute, with the exit zones that are
supplied. -/
def gatherOver (s : State) : StateT σ (Except RegionError) Region :=
  (m.diagram.incoming s).foldlM (m.gatherEdgeOver u basis) m.bottom

/-- Adds to the value of a state what is gathered, and says whether the value has changed. -/
def growOver (s : State) : StateT σ (Except RegionError) Bool := do
  let gathered ← m.gatherOver u basis s
  let value := (u.values (← get)).getD s m.bottom
  let grown ← value.join gathered
  if grown = value then return false
  else
    modify fun w => u.setValues w ((u.values w).set s grown)
    return true

/-- Lets every state grow once, in order, and says whether any has. -/
def roundOver : StateT σ (Except RegionError) Bool :=
  m.properStates.foldlM (fun changed s => return (← m.growOver u basis s) || changed) false

/-- Runs at most `fuel` rounds after `done` others, until one changes nothing. -/
def roundsOver : (fuel done : Nat) → StateT σ (Except RegionError) (Nat × Bool)
  | 0, done => return (done, false)
  | fuel + 1, done => do
    if ← m.roundOver u basis then roundsOver fuel (done + 1)
    else return (done + 1, true)

/-- Runs the solver over a supply, from a working state; gives the working state at the end,
too. -/
def solveOver (config : SolverConfig) (start : σ) : Except RegionError (Solution × σ) := do
  let ((iterations, converged), w) ←
    (m.roundsOver u config.basis config.cap.rounds 0).run start
  return (⟨u.values w, iterations, converged⟩, w)

end Loop

/-- The exit zones that were derived last, as long as the value is the same. -/
def memory (m : Model) : Supply Working where
  values := Working.values
  setValues w v := { w with values := v }
  zones := m.zonesOf

/-! ### The solver is the loop over its memory -/

theorem gatherEdgeOver_memory (m : Model) (basis : Basis) :
  m.gatherEdgeOver m.memory basis = m.gatherEdge basis
  := by
  funext gathered e
  cases e <;> rfl

theorem growOver_memory (m : Model) (basis : Basis) (s : State) :
  m.growOver m.memory basis s = m.grow basis s
  := by
  rw [growOver, grow, gatherOver, gather, gatherEdgeOver_memory]
  rfl

theorem roundsOver_memory (m : Model) (basis : Basis) (fuel done : Nat) :
  m.roundsOver m.memory basis fuel done = m.rounds basis fuel done
  := by
  induction fuel generalizing done with
  | zero => rfl
  | succ fuel ih => simp only [roundsOver, rounds, roundOver, round, growOver_memory, ih]

/-- The solver is the loop over its memory, which is empty at first. -/
theorem solveOver_memory (m : Model) (config : SolverConfig) :
  (m.solveOver m.memory config ⟨m.startValues, ∅⟩).map Prod.fst = m.solve config
  := by
  rw [solveOver, solve, roundsOver_memory]
  rcases (m.rounds config.basis config.cap.rounds 0).run ⟨m.startValues, ∅⟩ with e | r <;> rfl

end Model

/-! ### Loops in step -/

/-- Two computations are refused alike, or end with the same result in working states that are
related. -/
inductive Agree {σ τ α : Type} (S : σ → τ → Prop) :
    Except RegionError (α × σ) → Except RegionError (α × τ) → Prop where
  | refused (e : RegionError) : Agree S (.error e) (.error e)
  | done (x : α) {w : σ} {v : τ} (h : S w v) : Agree S (.ok (x, w)) (.ok (x, v))

/-- Started in working states that are related, two computations end so. -/
def InStep {σ τ α : Type} (S : σ → τ → Prop) (p : StateT σ (Except RegionError) α)
    (q : StateT τ (Except RegionError) α) : Prop :=
  ∀ w v, S w v → Agree S (p.run w) (q.run v)

/-- Related working states hold the same values, stay related when these are changed alike, and
supply the same exit zones for a state with its value. -/
structure Supply.Matches {σ τ : Type} (u : Supply σ) (u' : Supply τ) (S : σ → τ → Prop) :
    Prop where
  values_eq : ∀ {w v}, S w v → u.values w = u'.values v
  setValues : ∀ {w v}, S w v → ∀ values, S (u.setValues w values) (u'.setValues v values)
  zones : ∀ {w v s r}, S w v → (u.values w).get? s = some r →
    Agree S ((u.zones s r).run w) ((u'.zones s r).run v)

section InStep

variable {σ τ α β : Type} {S : σ → τ → Prop} {x : α} {p : StateT σ (Except RegionError) α}
  {q : StateT τ (Except RegionError) α} {f : α → StateT σ (Except RegionError) β}
  {g : α → StateT τ (Except RegionError) β} {w : σ} {v : τ}

theorem Agree.bind (h : Agree S (p.run w) (q.run v)) (hf : ∀ x, InStep S (f x) (g x)) :
  Agree S ((p >>= f).run w) ((q >>= g).run v)
  := by
  rw [StateT.run_bind, StateT.run_bind]
  generalize p.run w = a at h
  generalize q.run v = b at h
  cases h with
  | refused e => apply Agree.refused
  | done x h => apply hf x _ _ h

theorem InStep.pure (x : α) :
  InStep S (Pure.pure x) (Pure.pure x)
  := fun _ _ h => .done x h

theorem InStep.bind (hp : InStep S p q) (hf : ∀ x, InStep S (f x) (g x)) :
  InStep S (p >>= f) (q >>= g)
  := fun w v h => (hp w v h).bind hf

/-- A computation outside the loop leaves the working states alone. -/
theorem InStep.lift (e : Except RegionError α) :
  InStep S (liftM e) (liftM e)
  := by
  intro w v h
  cases e with
  | error e => apply Agree.refused
  | ok x => apply Agree.done x h

theorem InStep.get_bind {f : σ → StateT σ (Except RegionError) β}
    {g : τ → StateT τ (Except RegionError) β}
    (h : ∀ w v, S w v → Agree S ((f w).run w) ((g v).run v)) :
  InStep S (get >>= f) (get >>= g)
  := h

theorem InStep.foldlM {ι : Type} {f : β → ι → StateT σ (Except RegionError) β}
    {g : β → ι → StateT τ (Except RegionError) β} (h : ∀ y i, InStep S (f y i) (g y i))
    (list : List ι) (y : β) :
  InStep S (list.foldlM f y) (list.foldlM g y)
  := by
  induction list generalizing y with
  | nil => apply InStep.pure
  | cons i list ih =>
    rw [List.foldlM_cons, List.foldlM_cons]
    apply (h y i).bind ih

end InStep

namespace Supply.Matches

variable {σ τ : Type} {u : Supply σ} {u' : Supply τ} {S : σ → τ → Prop} {m : Model}
  {basis : Basis}

theorem gatherEdgeOver (h : u.Matches u' S) (gathered : Region) (e : Edge) :
  InStep S (m.gatherEdgeOver u basis gathered e) (m.gatherEdgeOver u' basis gathered e)
  := by
  cases e with
  | link l => apply InStep.pure
  | transition t =>
    apply InStep.get_bind
    intro w v hw
    rw [← h.values_eq hw]
    cases hvalue : (u.values w).get? t.source with
    | none => apply InStep.pure _ _ _ hw
    | some value =>
      apply (h.zones hw hvalue).bind
      intro zones
      apply InStep.bind (InStep.lift _)
      intro reached
      apply InStep.lift

theorem growOver (h : u.Matches u' S) (s : State) :
  InStep S (m.growOver u basis s) (m.growOver u' basis s)
  := by
  rw [Model.growOver, Model.growOver]
  apply InStep.bind
  · apply InStep.foldlM h.gatherEdgeOver
  · intro gathered
    apply InStep.get_bind
    intro w v hw
    rw [← h.values_eq hw]
    apply InStep.bind (InStep.lift _) _ w v hw
    intro grown
    split
    · apply InStep.pure
    · intro w v hw
      have hset := h.setValues hw ((u.values w).set s grown)
      rw [h.values_eq hw] at hset
      change Agree S (.ok (true, u.setValues w ((u.values w).set s grown)))
        (.ok (true, u'.setValues v ((u'.values v).set s grown)))
      rw [h.values_eq hw]
      apply Agree.done true hset

theorem roundOver (h : u.Matches u' S) :
  InStep S (m.roundOver u basis) (m.roundOver u' basis)
  := by
  apply InStep.foldlM
  intro changed s
  apply (h.growOver s).bind
  intro grown
  apply InStep.pure

theorem roundsOver (h : u.Matches u' S) (fuel done : Nat) :
  InStep S (m.roundsOver u basis fuel done) (m.roundsOver u' basis fuel done)
  := by
  induction fuel generalizing done with
  | zero => apply InStep.pure
  | succ fuel ih =>
    apply h.roundOver.bind
    intro changed
    cases changed with
    | false => apply InStep.pure
    | true => apply ih

/-- The solver does the same over supplies that match. -/
theorem solveOver (h : u.Matches u' S) (config : SolverConfig) {w : σ} {v : τ} (hw : S w v) :
  Agree S (m.solveOver u config w) (m.solveOver u' config v)
  := by
  rw [Model.solveOver, Model.solveOver]
  have hrounds : Agree S ((m.roundsOver u config.basis config.cap.rounds 0).run w)
      ((m.roundsOver u' config.basis config.cap.rounds 0).run v) :=
    h.roundsOver config.cap.rounds 0 w v hw
  generalize StateT.run _ w = a at hrounds ⊢
  generalize StateT.run _ v = b at hrounds ⊢
  cases hrounds with
  | refused e => apply Agree.refused
  | @done x w' v' h' =>
    change Agree S (.ok ((⟨u.values w', x.1, x.2⟩ : Solution), w'))
      (.ok ((⟨u'.values v', x.1, x.2⟩ : Solution), v'))
    rw [h.values_eq h']
    apply Agree.done _ h'

end Supply.Matches

namespace Model

/-- Over a supply that matches the memory, the loop has the solution. -/
theorem exists_solveOver (m : Model) {σ : Type} {u : Supply σ} {S : Working → σ → Prop}
    (h : m.memory.Matches u S) (config : SolverConfig) {v : σ} (hv : S ⟨m.startValues, ∅⟩ v) :
  ∃ w v', m.solveOver u config v = .ok (m.solution config, v') ∧ S w v'
  := by
  have hsolve := (m.solveOver_memory config).trans (m.solve_eq config)
  have hagree := h.solveOver (m := m) config hv
  generalize m.solveOver m.memory config _ = a at hsolve hagree
  generalize m.solveOver u config v = b at hagree ⊢
  cases hagree with
  | refused e => cases hsolve
  | @done sol w v' hw =>
    obtain rfl : sol = m.solution config := Except.ok.inj hsolve
    exact ⟨w, v', rfl, hw⟩

end Model

end AssemblySemantics
