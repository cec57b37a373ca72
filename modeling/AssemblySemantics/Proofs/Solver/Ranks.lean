import AssemblySemantics.Proofs.Diagram.Paths
import AssemblySemantics.Proofs.Solver.Cap

/-!
# Solving acyclic diagrams

In an acyclic diagram the values settle rank by rank: a state of rank `j` has its last value
after `j` sweeps, in whatever order the states are listed. A sweep after as many others as
there are ranks changes nothing, so that the number of states bounds the number of rounds,
however many configurations the assembly has.
-/

namespace AssemblySemantics

namespace Model

variable {m : Model} {basis : Basis} {v v' : Table State Region} {s : State} {k : Nat}
  {w : Working} {states before after : List State}

/-! ### What a sweep gives a state -/

/-- The value of a state stays when other states are raised. -/
theorem value_foldl_raise_of_notMem (hs : s ∉ states) :
  m.value (states.foldl (m.raise basis) v) s = m.value v s
  := by
  apply List.foldlRecOn (motive := fun v' => m.value v' s = m.value v s) states _ rfl
  intro v' hv' s' hs'
  rw [value_raise, if_neg]
  · apply hv'
  · rintro rfl
    apply hs hs'

/-- When a sweep comes to a state, everything that comes before the state has the value that it
has after the sweep, and everything else the value from before it. -/
theorem value_foldl_raise_before (h : m.diagram.WellFormed) (v : Table State Region)
    (hsplit : m.properStates = before ++ s :: after) (r : State) :
  m.value (before.foldl (m.raise basis) v) r =
    if m.diagram.Precedes r s then m.value (m.sweep basis v) r else m.value v r
  := by
  by_cases hr : m.diagram.Precedes r s
  · rw [if_pos hr, sweep, hsplit, List.foldl_append,
      value_foldl_raise_of_notMem (not_mem_cons_of_precedes h hsplit hr)]
  · obtain ⟨-, hbefore⟩ := not_or.mp (mt (precedes_iff h hsplit).mpr hr)
    rw [if_neg hr, value_foldl_raise_of_notMem hbefore]

/-- A sweep adds to a state what it is offered under values of which each is from before the
sweep or from after it. -/
theorem value_sweep (h : m.diagram.WellFormed) (v : Table State Region)
    (hs : s ∈ m.properStates) :
  ∃ v' : Table State Region,
    m.value (m.sweep basis v) s = m.value v s ∪ m.offered basis v' s
      ∧ ∀ r, m.value v' r =
        if m.diagram.Precedes r s then m.value (m.sweep basis v) r else m.value v r
  := by
  obtain ⟨before, after, hsplit⟩ := List.append_of_mem hs
  refine ⟨_, ?_, value_foldl_raise_before h v hsplit⟩
  have hbefore : s ∉ before := by
    intro hmem
    apply Nat.lt_irrefl _ ((precedes_iff h hsplit).mpr (.inr hmem))
  rw [sweep, hsplit, List.foldl_append, List.foldl_cons,
    value_foldl_raise_of_notMem (not_mem_after h hsplit), value_raise, if_pos rfl,
    value_foldl_raise_of_notMem hbefore]

/-- A state is offered the same under values that are the same for the sources of the
transitions that lead to it. -/
theorem offered_congr (h : m.diagram.WellFormed) (hs : s ∈ m.diagram.states)
    (heq : ∀ t ∈ m.diagram.transitions, t.target = s → m.value v t.source = m.value v' t.source) :
  m.offered basis v s = m.offered basis v' s
  := by
  apply congrArg (Region.unions m.assembly.id)
  apply List.map_congr_left
  intro e he
  cases e with
  | link l => rfl
  | transition t =>
    obtain ⟨ht, htarget⟩ := (h.mem_incoming_iff hs).mp he
    rw [offer, offer, heq t ht htarget]

/-! ### Settling rank by rank -/

/-- A state whose rank is at most the number of sweeps before gets nothing from another
sweep. -/
theorem value_iterate_succ (h : m.diagram.WellFormed) {rank : State → Nat}
    (hrank : ∀ t ∈ m.diagram.transitions, rank t.source < rank t.target)
    (hs : s ∈ m.diagram.states) (hk : rank s ≤ k) :
  m.value ((m.sweep basis)^[k + 1] v) s = m.value ((m.sweep basis)^[k] v) s
  := by
  induction hn : rank s using Nat.strong_induction_on generalizing s k with
  | _ n ih =>
    obtain rfl := hn
    rw [Function.iterate_succ_apply']
    obtain rfl | hproper := eq_pseudo_or_mem_properStates h hs
    · apply value_foldl_raise_of_notMem (pseudo_not_mem_properStates h)
    · obtain ⟨d, hvalue, hd⟩ := value_sweep h ((m.sweep basis)^[k] v) hproper
      rw [hvalue, Region.union_eq_left_iff]
      cases k with
      | zero =>
        -- no transition leads to the state
        intro c hc
        obtain ⟨t, ht, rfl, -⟩ := (mem_offered_iff h hs).mp hc
        have hlt := hrank t ht
        omega
      | succ i =>
        -- the sources have the same values before, during and after the last two sweeps
        obtain ⟨d', hvalue', hd'⟩ := value_sweep h ((m.sweep basis)^[i] v) hproper
        have hoffered : m.offered basis d s = m.offered basis d' s := by
          apply offered_congr h hs
          rintro t ht rfl
          have hsource := h.source_mem_states ht
          have hlt := hrank t ht
          have hnow : m.value ((m.sweep basis)^[i + 1 + 1] v) t.source =
              m.value ((m.sweep basis)^[i + 1] v) t.source :=
            ih _ hlt hsource (by omega) rfl
          have hlast : m.value ((m.sweep basis)^[i + 1] v) t.source =
              m.value ((m.sweep basis)^[i] v) t.source :=
            ih _ hlt hsource (by omega) rfl
          rw [hd, hd', ← Function.iterate_succ_apply' (m.sweep basis),
            ← Function.iterate_succ_apply' (m.sweep basis), hnow, hlast, ite_self]
        rw [hoffered, Function.iterate_succ_apply', hvalue']
        apply Region.subset_union_right

/-- In an acyclic diagram fewer rounds than there are states change something. -/
theorem Between.lt_length (h : m.diagram.WellFormed) (hacyclic : m.diagram.Acyclic)
    (hw : m.Between basis k w) :
  k < m.diagram.states.length
  := by
  obtain ⟨rank, hbound, hrank⟩ := hacyclic.exists_rank h
  obtain ⟨i, hi⟩ := h.exists_length_eq
  by_contra hle
  obtain ⟨w₁, w₂, hw₁, hrun⟩ := hw.exists_round (k := i) (by omega)
  obtain ⟨s, hs, hne⟩ := hw₁.exists_changed hrun
  have hstate := (mem_properStates.mp hs).1
  have hlt := hbound s hstate
  apply hne
  rw [hw₁.values_eq, (hw₁.next hrun).values_eq]
  symm
  apply value_iterate_succ h hrank hstate
  omega

end Model

namespace Machine

/-- If the transitions of a machine form no cycle, the solver runs at most as many rounds as
there are states, and it converges if the cap allows that many: over any assembly and either
basis, with reactive transitions, and in whatever order the states are listed. -/
theorem iterations_le_length {m : Machine} (h : m.Reachable) (hacyclic : m.diagram.Acyclic)
    (config : SolverConfig) (hcap : m.diagram.states.length ≤ config.cap.rounds) :
  ∃ sol, m.solve config = .ok sol ∧ sol.converged = true
    ∧ sol.iterations ≤ m.diagram.states.length
  := by
  use m.solution config, m.solve_eq config
  constructor
  · by_contra hconv
    obtain ⟨-, w, hw, -⟩ :=
      m.exists_between_of_not_converged config (Bool.eq_false_iff.mpr hconv)
    apply Nat.not_lt.mpr hcap (hw.lt_length h.wellFormed hacyclic)
  · obtain ⟨k, w, changed, w', hw, -, hsolve, -⟩ := m.exists_last_round config
    rw [m.solve_eq] at hsolve
    rw [Except.ok.inj hsolve]
    apply hw.lt_length h.wellFormed hacyclic

end Machine

namespace Detour

/-- The detour with its states listed against the direction of the transitions. -/
def reversed : Machine := machine [awake, hall, lit]

theorem acyclic_reversed :
  reversed.diagram.Acyclic
  := by
  apply Diagram.acyclic_of_rank State.uid
  decide

end Detour

namespace Machine

/-- The reversed detour, under a cap of four rounds: the third round changes nothing, when the light
is off or on in the hall and on in the state that waits for it. -/
theorem iterations_le_length_detour :
  Detour.reversed.Reachable ∧ Detour.reversed.diagram.Acyclic
    ∧ Detour.reversed.diagram.states.length = 4
    ∧ ∃ sol, Detour.reversed.solve ⟨⟨4, false, by decide⟩, .stateRegion⟩ = .ok sol
      ∧ sol.converged = true ∧ sol.iterations ≤ 4 ∧ sol.iterations = 3
      ∧ (sol.values.get? Detour.hall).map Region.toList =
        some [[⟨"light", "off"⟩], [⟨"light", "on"⟩]]
      ∧ (sol.values.get? Detour.awake).map Region.toList = some [[⟨"light", "on"⟩]]
  := by
  have hreachable : Detour.reversed.Reachable := Detour.reachable_machine _
  use hreachable, Detour.acyclic_reversed, by decide
  obtain ⟨sol, hsol, hconv, hle⟩ := iterations_le_length hreachable Detour.acyclic_reversed
    ⟨⟨4, false, by decide⟩, .stateRegion⟩ (by decide)
  have hvalues : (Detour.reversed.solve ⟨⟨4, false, by decide⟩, .stateRegion⟩).map (fun sol =>
      (sol.iterations, (sol.values.get? Detour.hall).map Region.toList,
        (sol.values.get? Detour.awake).map Region.toList)) =
          .ok (3, some [[⟨"light", "off"⟩], [⟨"light", "on"⟩]], some [[⟨"light", "on"⟩]]) := by
    decide +kernel
  have hvalues := Model.eq_of_map_solve hsol hvalues
  obtain ⟨hiterations, hregions⟩ := Prod.mk.inj hvalues
  obtain ⟨hhall, hawake⟩ := Prod.mk.inj hregions
  use sol, hsol, hconv, hle, hiterations, hhall, hawake

end Machine

end AssemblySemantics
