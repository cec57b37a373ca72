import AssemblySemantics.Proofs.Machine.History
import AssemblySemantics.Proofs.Refusable
import AssemblySemantics.Workspace

/-!
# What a machine lists

A machine lists its states, its edges, and for every state the edges that lead to it and
those that start from it. Changes keep the lists aligned, in whatever order they come, and
whether they are accepted or refused: an accepted one leaves the machine that it makes, and
a refused one leaves the workspace as it was.
-/

namespace AssemblySemantics

namespace Workspace

/-- A workspace that holds a machine under the number 1, and nothing else. -/
def holding (m : Machine) : Workspace where
  next := 3
  components := ∅
  registries := Table.set ∅ 0 (.ofAssembly m.assembly)
  machines := Table.set ∅ 1 ⟨m.name, 0, m.config, m.diagram, 2⟩
  caches := Table.set ∅ 2 m.cache
  events := []

end Workspace

namespace Session

variable {n : Nat} {m m' : Machine} {w w' : Workspace} {e : Engine}
  {f : Machine → Except DiagramError Machine} {α : Type} {x : α}

/-! ### Looking up -/

theorem run_present {o : Option α} (h : o = some x) :
  ExceptT.run (present o) w = (.ok x, w)
  := by
  rw [h]
  rfl

theorem eq_some_of_run_present {o : Option α} (h : ExceptT.run (present o) w = (.ok x, w')) :
  o = some x ∧ w' = w
  := by
  cases o with
  | none => cases h
  | some y =>
    cases h
    exact ⟨rfl, rfl⟩

/-- The machine of an engine has the entry, the assembly and the cache that are kept. -/
theorem run_load {entry : MachineEntry} {r : Registry}
    (hentry : w.machines.get? e.machine = some entry)
    (hregistry : w.registries.get? entry.assembly = some r)
    (hcache : w.caches.get? e.cache = some m.cache)
    (hmodel : m.toModel = ⟨entry.name, r.assembly, entry.config, entry.diagram⟩) :
  ExceptT.run (load e) w = (.ok m, w)
  := by
  have hassembly : ExceptT.run (assembly entry.assembly) w = (.ok r.assembly, w) :=
    run_bind_of_ok (run_present hregistry)
  obtain ⟨model, c⟩ := m
  obtain rfl := hmodel
  rw [load]
  apply (run_bind_of_ok (run_present hentry)).trans
  apply (run_bind_of_ok hassembly).trans
  apply run_bind_of_ok (run_present hcache)

/-- Loading the machine of an engine changes nothing, and succeeds only if its entry, its
assembly and its cache are kept. -/
theorem exists_of_run_load (h : ExceptT.run (load e) w = (.ok m, w')) :
  w' = w ∧ ∃ entry r, w.machines.get? e.machine = some entry
    ∧ w.registries.get? entry.assembly = some r ∧ w.caches.get? e.cache = some m.cache
    ∧ m.toModel = ⟨entry.name, r.assembly, entry.config, entry.diagram⟩
  := by
  rw [load] at h
  obtain ⟨entry, w₁, hentry, hrest⟩ := exists_run_of_run_bind h
  obtain ⟨a, w₂, hassembly, hlast⟩ := exists_run_of_run_bind hrest
  obtain ⟨r, w₃, hregistry, hanswer⟩ := exists_run_of_run_bind hassembly
  obtain ⟨c, w₄, hcache, hresult⟩ := exists_run_of_run_bind hlast
  obtain ⟨hentry, rfl⟩ := eq_some_of_run_present hentry
  obtain ⟨hregistry, rfl⟩ := eq_some_of_run_present hregistry
  cases hanswer
  obtain ⟨hcache, rfl⟩ := eq_some_of_run_present hcache
  cases hresult
  exact ⟨rfl, entry, r, hentry, hregistry, hcache, rfl⟩

theorem run_engineOf {entry : MachineEntry} (h : w.machines.get? n = some entry) :
  ExceptT.run (engineOf n) w = (.ok ⟨n, entry.cache⟩, w)
  := run_bind_of_ok (run_present h)

/-- Looking up the machine of a number changes nothing, and succeeds only if it has an entry
whose engine can be loaded. -/
theorem exists_of_run_machine (h : ExceptT.run (machine n) w = (.ok m, w')) :
  w' = w ∧ ∃ entry, w.machines.get? n = some entry
    ∧ ExceptT.run (load ⟨n, entry.cache⟩) w = (.ok m, w)
  := by
  rw [machine] at h
  obtain ⟨e, w₁, hengine, hload⟩ := exists_run_of_run_bind h
  obtain ⟨entry, w₂, hentry, hanswer⟩ := exists_run_of_run_bind hengine
  obtain ⟨hentry, rfl⟩ := eq_some_of_run_present hentry
  cases hanswer
  obtain ⟨rfl, -⟩ := exists_of_run_load hload
  exact ⟨rfl, entry, hentry, hload⟩

/-! ### Changing -/

/-- A refused change leaves the workspace as it was. -/
theorem run_change_of_error (h : ExceptT.run (machine n) w = (.ok m, w)) {refusal : DiagramError}
    (hf : f m = .error refusal) :
  ExceptT.run (change n f) w = (.error (.diagram m.name refusal), w)
  := by
  obtain ⟨-, entry, hentry, hload⟩ := exists_of_run_machine h
  rw [change]
  apply (run_bind_of_ok (run_engineOf hentry)).trans
  apply (run_bind_of_ok hload).trans
  apply run_bind_of_error
  rw [hf]
  rfl

/-- What `save` keeps for the machine of an engine is found when it is loaded again. -/
theorem run_save {entry : MachineEntry} (hentry : w.machines.get? e.machine = some entry)
    (hload : ExceptT.run (load e) w = (.ok m, w))
    (hm' : m'.toModel = { m.toModel with diagram := m'.diagram }) :
  ∃ w', ExceptT.run (save e m') w = (.ok (), w')
    ∧ w'.machines.get? e.machine =
      some { entry with diagram := m'.diagram, config := m'.config }
    ∧ ExceptT.run (load e) w' = (.ok m', w')
  := by
  obtain ⟨-, entry', r, hentry', hregistry, -, hmodel⟩ := exists_of_run_load hload
  obtain rfl : entry = entry' := Option.some.inj (hentry.symm.trans hentry')
  refine ⟨{ w with
    machines := w.machines.set e.machine { entry with diagram := m'.diagram, config := m'.config }
    caches := w.caches.set e.cache m'.cache }, ?_, ?_, ?_⟩
  · rw [save]
    apply run_bind_of_ok (run_present hentry)
  · apply Table.get?_set_self
  · apply run_load
    · apply Table.get?_set_self
    · apply hregistry
    · apply Table.get?_set_self
    · rw [hmodel] at hm'
      rw [hm']

/-- After an accepted change of its diagram the number stands for the machine that the change
makes. -/
theorem run_change_of_ok (h : ExceptT.run (machine n) w = (.ok m, w)) (hf : f m = .ok m')
    (hm' : m'.toModel = { m.toModel with diagram := m'.diagram }) :
  ∃ w', ExceptT.run (change n f) w = (.ok (), w')
    ∧ ExceptT.run (machine n) w' = (.ok m', w')
  := by
  obtain ⟨-, entry, hentry, hload⟩ := exists_of_run_machine h
  obtain ⟨w', hsave, hentry', hload'⟩ := run_save hentry hload hm'
  use w'
  constructor
  · rw [change]
    apply (run_bind_of_ok (run_engineOf hentry)).trans
    apply (run_bind_of_ok hload).trans
    rw [hf]
    apply hsave
  · rw [machine]
    apply (run_bind_of_ok (run_engineOf hentry')).trans hload'

/-- Taking a fresh number does not change a machine. -/
theorem run_machine_next (h : ExceptT.run (machine n) w = (.ok m, w)) (k : Nat) :
  ExceptT.run (machine n) { w with next := k } = (.ok m, { w with next := k })
  := by
  obtain ⟨-, entry, hentry, hload⟩ := exists_of_run_machine h
  obtain ⟨-, entry', r, hentry', hregistry, hcache, hmodel⟩ := exists_of_run_load hload
  rw [machine]
  apply (run_bind_of_ok (run_engineOf (w := { w with next := k }) hentry)).trans
  apply run_load
  · apply hentry'
  · apply hregistry
  · apply hcache
  · apply hmodel

/-- What is refused as a state is not added. -/
theorem run_refuseState (h : ExceptT.run (machine n) w = (.ok m, w)) (offered : NonState) :
  ExceptT.run (refuseState n offered : Session α) w =
    (.error (.diagram m.name (.notState offered)), w)
  := by
  obtain ⟨-, entry, hentry, hload⟩ := exists_of_run_machine h
  obtain ⟨-, entry', r, hentry', -, -, hmodel⟩ := exists_of_run_load hload
  obtain rfl : entry = entry' := Option.some.inj (hentry.symm.trans hentry')
  rw [hmodel]
  apply run_bind_of_ok (run_present hentry)

/-- When what is to be added is made first, which takes at most fresh numbers, a refusal
leaves the machine as it was, too. -/
theorem run_machine_of_refused (h : ExceptT.run (machine n) w = (.ok m, w)) {make : Session α}
    (hmake : ∃ result k, ExceptT.run make w = (result, { w with next := k })) {x : α → Machine.Edit}
    {refusal : Refusal}
    (hrun : ExceptT.run (do
      let made ← make
      change n (·.edit (x made))) w = (.error refusal, w')) :
  ExceptT.run (machine n) w' = (.ok m, w')
  := by
  obtain ⟨result, k, hresult⟩ := hmake
  have hnext := run_machine_next h k
  cases result with
  | error refused =>
    rw [run_bind_of_error hresult] at hrun
    cases hrun
    apply hnext
  | ok made =>
    rw [run_bind_of_ok hresult] at hrun
    rcases hedit : m.edit (x made) with refused | m'
    · rw [run_change_of_error hnext hedit] at hrun
      cases hrun
      apply hnext
    · obtain ⟨w'', hchange, -⟩ :=
        run_change_of_ok (f := (·.edit (x made))) hnext hedit (Machine.toModel_edit hedit)
      rw [hchange] at hrun
      cases hrun

end Session

namespace Loop

/-- Changes of the loop: its way back is listed twice, a link runs beside its way forward, the
second state is to be added again, and a transition stays in the first state. -/
def changes : List Machine.Edit :=
  [.addEdge (.transition back), .addEdge (.link ⟨7, .state first, .state second⟩),
    .addState second,
    .addEdge (.transition ⟨8, "stay", first, first, .always, true, []⟩)]

end Loop

namespace Machine

variable {m m' : Machine}

/-- The edges that touched an erased state are gone. -/
theorem not_touching_of_removeState (h : m.diagram.WellFormed) {s : State}
    (hs : m.removeState s = .ok m') :
  s ∉ m'.diagram.states ∧ ∀ e ∈ m'.diagram.edges, e.source ≠ .state s ∧ e.target ≠ .state s
  := by
  obtain ⟨-, hmem, rfl⟩ := removeState_eq_ok hs
  constructor
  · rw [Diagram.states_eraseState]
    intro hs
    apply of_decide_eq_true (List.mem_filter.mp hs).2 rfl
  · apply not_touching_foldl_dropEdge h hmem

/-- However a machine was changed, with or without refusals, its pseudostate comes first and
is the only one, the names of its states are distinct and stand for them, every state has
exactly the edges of the machine that lead to it and those that start from it, in the order
of all edges and as often, and every edge runs between states of the machine and not to the
pseudostate. A state that is removed takes the edges that touch it with it. In a workspace an
accepted change leaves the machine that it makes, and a refused one leaves everything as it
was, but for the number of what was made in order to be added. -/
theorem edited_aligned (h : m.Reachable) {xs : List Edit} (hm' : m.edited xs = m') :
  m'.diagram.states.head? = some m'.diagram.pseudo
    ∧ (∀ s ∈ m'.diagram.states, s.isPseudo = true ↔ s = m'.diagram.pseudo)
    ∧ (m'.diagram.states.map State.name).Nodup
    ∧ (∀ s ∈ m'.diagram.states, m'.diagram.stateNamed? s.name = some s)
    ∧ (∀ s ∈ m'.diagram.states,
      m'.diagram.incoming s = m'.diagram.edges.filter (fun e => e.target = .state s)
        ∧ m'.diagram.outgoing s = m'.diagram.edges.filter (fun e => e.source = .state s))
    ∧ (∀ e ∈ m'.diagram.edges, (∃ s ∈ m'.diagram.states, e.source = .state s)
      ∧ ∃ s ∈ m'.diagram.states, s ≠ m'.diagram.pseudo ∧ e.target = .state s)
    ∧ (∀ s m'', m'.removeState s = .ok m'' →
      s ∉ m''.diagram.states
        ∧ ∀ e ∈ m''.diagram.edges, e.source ≠ .state s ∧ e.target ≠ .state s)
    ∧ ∀ w n, ExceptT.run (Session.machine n) w = (.ok m', w) →
      (∀ x refusal, m'.edit x = .error refusal →
        ExceptT.run (Session.change n (·.edit x)) w = (.error (.diagram m'.name refusal), w))
      ∧ (∀ x m'', m'.edit x = .ok m'' →
        ∃ w', ExceptT.run (Session.change n (·.edit x)) w = (.ok (), w')
          ∧ ExceptT.run (Session.machine n) w' = (.ok m'', w'))
      ∧ (∀ offered, ExceptT.run (Session.refuseState n offered : Session Unit) w =
        (.error (.diagram m'.name (.notState offered)), w))
      ∧ (∀ name refusal w', ExceptT.run (do
          let s ← Session.newState name false
          Session.change n (·.addState s)) w = (.error refusal, w') →
        ExceptT.run (Session.machine n) w' = (.ok m', w'))
      ∧ ∀ name source target guard triggerable actions refusal w', ExceptT.run (do
          let t ← Session.newTransition name source target guard triggerable actions
          Session.change n (·.addEdge (.transition t))) w = (.error refusal, w') →
        ExceptT.run (Session.machine n) w' = (.ok m', w')
  := by
  obtain rfl := hm'
  have hd := (h.edited xs).wellFormed
  refine ⟨hd.head?_states, ?_, hd.nodup_names, ?_, ?_, ?_, ?_, ?_⟩
  · intro s hs
    constructor
    · apply hd.eq_pseudo s hs
    · rintro rfl
      apply hd.isPseudo_pseudo
  · intro s hs
    apply hd.stateNamed?_eq_some_iff.mpr ⟨hs, rfl⟩
  · intro s hs
    exact ⟨hd.incoming_eq_filter hs, hd.outgoing_eq_filter hs⟩
  · intro e he
    exact ⟨hd.source_mem e he, hd.target_mem e he⟩
  · intro s m'' hs
    apply not_touching_of_removeState hd hs
  · intro w n hw
    refine ⟨?_, ?_, ?_, ?_, ?_⟩
    · intro x refusal hx
      apply Session.run_change_of_error hw hx
    · intro x m'' hx
      apply Session.run_change_of_ok hw hx (toModel_edit hx)
    · apply Session.run_refuseState hw
    · intro name refusal w' hrun
      apply Session.run_machine_of_refused hw _ (x := .addState) hrun
      use (State.make w.next name false).mapError Refusal.name, w.next + 1
      rw [Session.newState]
      apply (run_bind_of_ok rfl).trans
      cases State.make w.next name false <;> rfl
    · intro name source target guard triggerable actions refusal w' hrun
      apply Session.run_machine_of_refused hw _ (x := fun t => .addEdge (.transition t)) hrun
      use .ok ⟨w.next, Transition.nameFor name source target, source, target, guard, triggerable,
        actions⟩, w.next + 1
      rw [Session.newTransition]
      apply run_bind_of_ok rfl

/-- After the changes of the loop the first state has the edges that lead to it, in their
order. In a workspace, the second state still cannot be added again. -/
theorem edited_aligned_loop :
  (Loop.machine Loop.switch).Reachable
    ∧ ∃ m', (Loop.machine Loop.switch).edited Loop.changes = m'
      ∧ m'.diagram.incoming Loop.first =
        m'.diagram.edges.filter (fun e => e.target = .state Loop.first)
      ∧ (m'.diagram.incoming Loop.first).count (.transition Loop.back) = 2
      ∧ ExceptT.run (Session.machine 1) (.holding m') = (.ok m', .holding m')
      ∧ ExceptT.run (Session.change 1 (·.addState Loop.second)) (.holding m') =
        (.error (.diagram "loop" (.nameTaken "second")), .holding m')
  := by
  have hreachable := Loop.reachable_machine Loop.switch
  have hm' : (Loop.machine Loop.switch).edited Loop.changes = _ := rfl
  obtain ⟨-, -, -, -, hedges, -, -, hsession⟩ := edited_aligned hreachable hm'
  refine ⟨hreachable, _, hm', (hedges Loop.first (by decide)).1, by decide, rfl, ?_⟩
  apply (hsession _ 1 rfl).1 (.addState Loop.second)
  rfl

end Machine

end AssemblySemantics
