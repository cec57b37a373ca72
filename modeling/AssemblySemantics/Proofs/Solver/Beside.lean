import AssemblySemantics.Proofs.Assembly.Beside
import AssemblySemantics.Proofs.Solver.Bound

/-!
# Components that do not interfere

A component that no guard and no action speaks of does not interfere with a machine. Over the
assembly that registers it the solver goes through the same rounds as without it, and every
state has at every point what it has without the component, with the component beside it.
-/

namespace AssemblySemantics

namespace Model

/-- The model over another assembly. -/
def withAssembly (m : Model) (a : Assembly) : Model := { m with assembly := a }

/-- Values over the assembly of a model and values over an assembly with one more component:
the latter are the former with the component beside them. -/
structure Paired (m : Model) (d : Component) (a : Assembly) (v v' : Table State Region) :
    Prop where
  within : m.Within v
  value_eq : ∀ s, (m.withAssembly a).value v' s = (m.value v s).beside d

variable {m : Model} {d : Component} {a : Assembly} {v v' : Table State Region} {s : State}

/-- At the start all values have the component beside them. -/
theorem paired_startValues (h : m.assembly.Beside d a) :
  m.Paired d a m.startValues (m.withAssembly a).startValues
  := by
  use m.within_startValues
  intro s
  have hbottom : (m.withAssembly a).bottom = m.bottom := congrArg Region.bottom h.id_eq
  have hstart : (m.withAssembly a).startValues.get? s =
      if s ∈ m.diagram.states then
        some (if s.isPseudo then m.assembly.initial.beside d else m.bottom)
      else none := by
    rw [get?_startValues, hbottom, ← h.initial_eq]
    rfl
  rw [value, value, Table.getD, Table.getD, hstart, get?_startValues, hbottom]
  by_cases hs : s ∈ m.diagram.states
  · rw [if_pos hs, if_pos hs]
    cases s.isPseudo with
    | true => rfl
    | false => apply (Region.bottom_beside _ d).symm
  · rw [if_neg hs, if_neg hs]
    apply (Region.bottom_beside _ d).symm

namespace Paired

variable (h : m.assembly.Beside d a) (hm : m.diagram.WellFormed)
  (hignore : ∀ t ∈ m.diagram.transitions, t.Ignores d.id)

include h hm hignore

/-- A state is offered what it is offered without the component, with the component beside
it. -/
theorem offered_eq (hp : m.Paired d a v v') (hs : s ∈ m.diagram.states) :
  (m.withAssembly a).offered .stateRegion v' s = (m.offered .stateRegion v s).beside d
  := by
  apply Region.ext h.id_eq
  intro c
  have himage : ∀ t ∈ m.diagram.transitions,
      t.image ((m.withAssembly a).value v' t.source) a .stateRegion =
        (t.image (m.value v t.source) m.assembly .stateRegion).beside d := by
    intro t ht
    rw [hp.value_eq]
    apply h.image_eq (hignore t ht) (hp.within t.source)
  rw [mem_offered_iff (m := m.withAssembly a) hm hs, Region.mem_beside]
  constructor
  · rintro ⟨t, ht, htarget, hc⟩
    have hc : c ∈ t.image ((m.withAssembly a).value v' t.source) a .stateRegion := hc
    rw [himage t ht] at hc
    obtain ⟨b, hb, q, hq, rfl⟩ := Region.mem_beside.mp hc
    exact ⟨b, (mem_offered_iff hm hs).mpr ⟨t, ht, htarget, hb⟩, q, hq, rfl⟩
  · rintro ⟨b, hb, q, hq, rfl⟩
    obtain ⟨t, ht, htarget, hb⟩ := (mem_offered_iff hm hs).mp hb
    use t, ht, htarget
    change _ ∈ t.image ((m.withAssembly a).value v' t.source) a .stateRegion
    rw [himage t ht]
    exact Region.mem_beside.mpr ⟨b, hb, q, hq, rfl⟩

theorem raise (hp : m.Paired d a v v') (hs : s ∈ m.diagram.states) :
  m.Paired d a (m.raise .stateRegion v s) ((m.withAssembly a).raise .stateRegion v' s)
  := by
  use hp.within.raise s
  intro s'
  rw [value_raise, value_raise]
  split
  · rw [hp.offered_eq h hm hignore hs, hp.value_eq, Region.union_beside]
  · apply hp.value_eq

/-- A sweep keeps the component beside the values. -/
theorem sweep (hp : m.Paired d a v v') :
  m.Paired d a (m.sweep .stateRegion v) ((m.withAssembly a).sweep .stateRegion v')
  := by
  have hstates : ∀ s ∈ m.properStates, s ∈ m.diagram.states :=
    fun s hs => (mem_properStates.mp hs).1
  change m.Paired d a (m.properStates.foldl (m.raise .stateRegion) v)
    (m.properStates.foldl ((m.withAssembly a).raise .stateRegion) v')
  generalize m.properStates = states at hstates
  induction states generalizing v v' with
  | nil => apply hp
  | cons s states ih =>
    obtain ⟨hs, hstates⟩ := List.forall_mem_cons.mp hstates
    apply ih (hp.raise h hm hignore hs) hstates

/-- A sweep changes something with the component when it does without. -/
theorem sweep_eq_self_iff (hp : m.Paired d a v v') :
  (m.withAssembly a).sweep .stateRegion v' = v' ↔ m.sweep .stateRegion v = v
  := by
  rw [Model.sweep_eq_self_iff, Model.sweep_eq_self_iff]
  apply forall_congr'
  intro s
  apply forall_congr'
  intro hs
  have hs : s ∈ m.properStates := hs
  rw [hp.offered_eq h hm hignore (mem_properStates.mp hs).1, hp.value_eq]
  apply h.beside_subset_iff _ (hp.within s)
  intro c hc
  obtain ⟨t, -, hc⟩ := mem_offered.mp hc
  apply Transition.image_subset_space (fun _ _ => hp.within t.source) c hc

/-- Sweeps are repeated as often with the component as without it, and lead to values with the
component beside them. -/
theorem settle (hp : m.Paired d a v v') (fuel done : Nat) :
  ((m.withAssembly a).settle .stateRegion fuel done v').iterations =
      (m.settle .stateRegion fuel done v).iterations
    ∧ ((m.withAssembly a).settle .stateRegion fuel done v').converged =
      (m.settle .stateRegion fuel done v).converged
    ∧ m.Paired d a (m.settle .stateRegion fuel done v).values
      ((m.withAssembly a).settle .stateRegion fuel done v').values
  := by
  induction fuel generalizing done v v' with
  | zero => exact ⟨rfl, rfl, hp⟩
  | succ fuel ih =>
    rw [Model.settle, Model.settle]
    by_cases hv : m.sweep .stateRegion v = v
    · rw [if_pos hv, if_pos ((hp.sweep_eq_self_iff h hm hignore).mpr hv)]
      exact ⟨rfl, rfl, hp⟩
    · rw [if_neg hv, if_neg (mt (hp.sweep_eq_self_iff h hm hignore).mp hv)]
      apply ih (hp.sweep h hm hignore)

end Paired

/-- The solver runs as many rounds with the component as without it, and finds values with the
component beside them. -/
theorem paired_solution (h : m.assembly.Beside d a) (hm : m.diagram.WellFormed)
    (hignore : ∀ t ∈ m.diagram.transitions, t.Ignores d.id) {config : SolverConfig}
    (hbasis : config.basis = .stateRegion) :
  ((m.withAssembly a).solution config).iterations = (m.solution config).iterations
    ∧ ((m.withAssembly a).solution config).converged = (m.solution config).converged
    ∧ m.Paired d a (m.solution config).values ((m.withAssembly a).solution config).values
  := by
  rw [solution, solution, hbasis]
  apply (paired_startValues h).settle h hm hignore

end Model

namespace Machine

/-- A component under a new id that no guard and no action speaks of can be registered, and
does not interfere: with as many rounds and the same convergence, every state has the
configurations that it has without the component, in canonical form with the component in one
of the states in which it may start. -/
theorem solve_register {m : Machine} {d : Component} (h : m.Reachable)
    (hid : d.id ∉ m.assembly.components.map Component.id)
    (hignore : ∀ t ∈ m.diagram.transitions, t.Ignores d.id) (cap : Cap) :
  ∃ a sol sol', m.assembly.register d = .ok a ∧ m.solve ⟨cap, .stateRegion⟩ = .ok sol
    ∧ (m.setAssembly a).solve ⟨cap, .stateRegion⟩ = .ok sol'
    ∧ sol'.iterations = sol.iterations ∧ sol'.converged = sol.converged
    ∧ ∀ s ∈ m.diagram.states, ∃ r r', sol.values.get? s = some r ∧ sol'.values.get? s = some r'
      ∧ r'.assembly = r.assembly
      ∧ ∀ c', c' ∈ r' ↔ ∃ c ∈ r, ∃ q ∈ d.initialStates,
        c' = Configuration.ofPlacements (⟨d.id, q⟩ :: c)
  := by
  obtain ⟨a, hregister, hbeside⟩ := Assembly.exists_register hid
  have hbasis : (SolverConfig.mk cap .stateRegion).basis = .stateRegion := rfl
  obtain ⟨hiterations, hconverged, hpaired⟩ :=
    Model.paired_solution hbeside h.wellFormed hignore hbasis
  use a, m.solution ⟨cap, .stateRegion⟩, (m.withAssembly a).solution ⟨cap, .stateRegion⟩,
    hregister, m.solve_eq _, (m.withAssembly a).solve_eq _, hiterations, hconverged
  intro s hs
  refine ⟨_, _, Model.get?_solution hs, Model.get?_solution (m := m.withAssembly a) hs, ?_⟩
  rw [hpaired.value_eq]
  use rfl
  intro c'
  apply Region.mem_beside_of_subset_space (hpaired.within s)

/-- The loop that waits for the light, with a door that opens and closes by itself: the light
is on in the second state, and the door may be open. -/
theorem solve_register_door :
  (Loop.machine Loop.await).Reachable
    ∧ Loop.door.id ∉ (Loop.machine Loop.await).assembly.components.map Component.id
    ∧ (∀ t ∈ (Loop.machine Loop.await).diagram.transitions, t.Ignores Loop.door.id)
    ∧ ∃ a sol sol', (Loop.machine Loop.await).assembly.register Loop.door = .ok a
      ∧ (Loop.machine Loop.await).solve .standard = .ok sol
      ∧ ((Loop.machine Loop.await).setAssembly a).solve .standard = .ok sol'
      ∧ sol'.iterations = sol.iterations ∧ sol'.converged = sol.converged
      ∧ ∃ r', sol'.values.get? Loop.second = some r'
        ∧ [⟨"door", "open"⟩, ⟨"light", "on"⟩] ∈ r'
  := by
  have hid : Loop.door.id ∉ (Loop.machine Loop.await).assembly.components.map Component.id := by
    decide
  have hignore : ∀ t ∈ (Loop.machine Loop.await).diagram.transitions,
      t.Ignores Loop.door.id := by
    have htransitions : (Loop.machine Loop.await).diagram.transitions =
        [Loop.enter, Loop.await, Loop.back] := by decide
    rw [htransitions]
    simp only [List.forall_mem_cons]
    exact ⟨⟨by decide, by decide⟩, ⟨by decide, by decide⟩, ⟨by decide, by decide⟩, by simp⟩
  use Loop.reachable_machine _, hid, hignore
  obtain ⟨a, sol, sol', hregister, hsol, hsol', hiterations, hconverged, hvalues⟩ :=
    solve_register (Loop.reachable_machine Loop.await) hid hignore SolverConfig.standard.cap
  use a, sol, sol', hregister, hsol, hsol', hiterations, hconverged
  obtain ⟨r, r', hr, hr', -, hiff⟩ := hvalues Loop.second (by decide)
  use r', hr'
  have hmem : ((Loop.machine Loop.await).solve .standard).map (fun sol =>
      (sol.values.get? Loop.second).map fun r => r.toList.contains [⟨"light", "on"⟩]) =
        .ok (some true) := by
    decide +kernel
  have hsol : (Loop.machine Loop.await).solve .standard = .ok sol := hsol
  rw [hsol] at hmem
  have hmem : (sol.values.get? Loop.second).map (fun r => r.toList.contains [⟨"light", "on"⟩]) =
      some true := Except.ok.inj hmem
  rw [hr] at hmem
  have hc := Region.mem_toList.mp (List.contains_iff_mem.mp (Option.some.inj hmem))
  apply (hiff _).mpr ⟨_, hc, "open", by decide, by decide⟩

end Machine

end AssemblySemantics
