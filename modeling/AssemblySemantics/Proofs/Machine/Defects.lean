import AssemblySemantics.Proofs.Assembly.Space
import AssemblySemantics.Proofs.Machine.History

/-!
# Defects of machines

The list of the defects of a machine goes through the places where a defect may be: its states,
and for each transition the guard, what is stated in the guard, from right to left, and the
actions. `Model.Faulty` says what is wrong in a place in terms of the edges of the machine and the
components of its assembly. The list holds exactly what is wrong, place by place.
-/

namespace AssemblySemantics

/-- What is stated in a stack of propositions is what is stated in each of them, one after the
other. -/
theorem Proposition.stated_eq_flatMap (stack : List Proposition) :
  stated stack = stack.flatMap fun f => f.leaves.reverse
  := by
  fun_induction stated stack with
  | case1 => rfl
  | case2 p rest ih =>
    rw [ih, List.flatMap_cons, leaves, List.reverse_singleton, List.singleton_append]
  | case3 rest ih => rw [ih, List.flatMap_cons, leaves, List.reverse_nil, List.nil_append]
  | case4 rest ih => rw [ih, List.flatMap_cons, leaves, List.reverse_nil, List.nil_append]
  -- the right one of two propositions lies on top, so that what it states comes first
  | case5 l r rest ih =>
    rw [ih, List.flatMap_cons, List.flatMap_cons, List.flatMap_cons, leaves, List.reverse_append,
      List.append_assoc]
  | case6 l r rest ih =>
    rw [ih, List.flatMap_cons, List.flatMap_cons, List.flatMap_cons, leaves, List.reverse_append,
      List.append_assoc]
  | case7 f rest ih => rw [ih, List.flatMap_cons, List.flatMap_cons, leaves]

/-- The placements that a proposition states are those at its leaves, from right to left. -/
theorem Proposition.statements_eq (f : Proposition) :
  f.statements = f.leaves.reverse
  := by
  rw [statements, stated_eq_flatMap, List.flatMap_singleton]

theorem Proposition.isNone_basic?_iff {f : Proposition} :
  f.basic?.isNone = true ↔ ∀ p, f ≠ .basic p
  := by
  cases f <;> simp [basic?]

/-! ### Reports -/

/-- A report on listed places has one entry for each place where something is wrong, in their
order, and nothing else. -/
inductive Reports {α β : Type} (faulty : α → β → Prop) : List α → List β → Prop where
  | nil : Reports faulty [] []
  | pass {x : α} {xs : List α} {ys : List β} (hx : ∀ y, ¬ faulty x y)
      (h : Reports faulty xs ys) : Reports faulty (x :: xs) ys
  | found {x : α} {y : β} {xs : List α} {ys : List β} (hx : faulty x y)
      (h : Reports faulty xs ys) : Reports faulty (x :: xs) (y :: ys)

namespace Reports

variable {α β γ : Type} {faulty : α → β → Prop} {x : α} {y : β} {xs xs' : List α}
  {ys ys' : List β}

theorem append (h : Reports faulty xs ys) (h' : Reports faulty xs' ys') :
  Reports faulty (xs ++ xs') (ys ++ ys')
  := by
  induction h with
  | nil => apply h'
  | pass hx _ ih => apply ih.pass hx
  | found hx _ ih => apply ih.found hx

theorem flatMap {l : List γ} {f : γ → List α} {g : γ → List β}
    (h : ∀ z ∈ l, Reports faulty (f z) (g z)) :
  Reports faulty (l.flatMap f) (l.flatMap g)
  := by
  induction l with
  | nil => apply Reports.nil
  | cons z l ih =>
    rw [List.flatMap_cons, List.flatMap_cons]
    apply (h z List.mem_cons_self).append
    apply ih fun z' hz' => h z' (List.mem_cons_of_mem z hz')

/-- A report on one place after the other. -/
theorem map {l : List γ} {f : γ → α} {g : γ → List β}
    (h : ∀ z ∈ l, Reports faulty [f z] (g z)) :
  Reports faulty (l.map f) (l.flatMap g)
  := by
  rw [List.map_eq_flatMap]
  apply flatMap h

/-- A report on one place, where something is wrong under a condition. -/
theorem ite {c : Prop} [Decidable c] (h : c → faulty x y) (h' : ¬ c → ∀ y, ¬ faulty x y) :
  Reports faulty [x] (if c then [y] else [])
  := by
  split
  · rename_i hc
    apply Reports.nil.found (h hc)
  · rename_i hc
    apply Reports.nil.pass (h' hc)

/-- There is one report only, when at most one thing is wrong in a place. -/
theorem unique (hfaulty : ∀ x y y', faulty x y → faulty x y' → y = y')
    (h : Reports faulty xs ys) (h' : Reports faulty xs ys') :
  ys = ys'
  := by
  induction h generalizing ys' with
  | nil =>
    cases h'
    rfl
  | pass hx _ ih =>
    cases h' with
    | pass _ h' => apply ih h'
    | found hx' _ => cases hx _ hx'
  | found hx _ ih =>
    cases h' with
    | pass hx' _ => cases hx' _ hx
    | found hx' h' => rw [hfaulty _ _ _ hx hx', ih h']

theorem eq_nil_iff (h : Reports faulty xs ys) :
  ys = [] ↔ ∀ x ∈ xs, ∀ y, ¬ faulty x y
  := by
  induction h with
  | nil => simp
  | pass hx _ ih => rw [ih, List.forall_mem_cons, and_iff_right hx]
  | found hx _ _ =>
    constructor
    · intro h
      cases h
    · intro h
      cases h _ List.mem_cons_self _ hx

end Reports

/-! ### Where something may be wrong -/

/-- A place in a machine where a defect may be. -/
inductive Site where
  | state (s : State)
  | guard (t : Transition)
  | leaf (t : Transition) (p : Placement)
  | action (t : Transition) (x : Action)

/-- The places in a transition: the guard as a whole, its leaves from right to left, and the
actions. -/
def Transition.sites (t : Transition) : List Site :=
  [.guard t] ++ t.guard.leaves.reverse.map (.leaf t) ++ t.actions.map (.action t)

namespace Model

/-- The places in a machine: the states other than the pseudostate, and the places in the
transitions. -/
def sites (m : Model) : List Site :=
  m.properStates.map .state ++ m.diagram.transitions.flatMap Transition.sites

/-- What is wrong in a place. -/
inductive Faulty (m : Model) : Site → Defect → Prop where
  /-- No edge leads to a state, not even a link. -/
  | noIncoming {s : State} (h : ∀ e ∈ m.diagram.edges, e.target ≠ .state s) :
      Faulty m (.state s) (.noIncoming s.name)
  /-- A reactive transition is guarded by something else than a placement. -/
  | compoundGuard {t : Transition} (ht : t.isReactive = true) (h : ∀ p, t.guard ≠ .basic p) :
      Faulty m (.guard t) (.compoundGuard t.name)
  /-- No component has the id of which a guard speaks. -/
  | unknownMachine {t : Transition} {p : Placement}
      (h : ∀ d ∈ m.assembly.components, d.id ≠ p.machine) :
      Faulty m (.leaf t p) (.unknownMachine t.name p.machine)
  /-- The component of which a guard speaks does not have the state. -/
  | unknownState {t : Transition} {p : Placement} {d : Component}
      (hd : d ∈ m.assembly.components) (hid : d.id = p.machine) (h : p.state ∉ d.states) :
      Faulty m (.leaf t p) (.unknownState t.name p.state p.machine)
  /-- No component has the id to which an action is sent. -/
  | unknownReceiver {t : Transition} {x : Action}
      (h : ∀ d ∈ m.assembly.components, d.id ≠ x.machine) :
      Faulty m (.action t x) (.unknownReceiver t.name x.machine)

variable {m : Model} {t : Transition}

theorem Faulty.unique {x : Site} {y y' : Defect} (h : m.Faulty x y) (h' : m.Faulty x y') :
  y = y'
  := by
  cases h with
  | noIncoming => cases h'; rfl
  | compoundGuard => cases h'; rfl
  | unknownMachine h =>
    cases h' with
    | unknownMachine => rfl
    | unknownState hd hid => cases h _ hd hid
  | unknownState hd hid =>
    cases h' with
    | unknownMachine h => cases h _ hd hid
    | unknownState => rfl
  | unknownReceiver => cases h'; rfl

/-! ### The report -/

theorem isEmpty_incoming_iff (h : m.diagram.WellFormed) {s : State}
    (hs : s ∈ m.diagram.states) :
  (m.diagram.incoming s).isEmpty = true ↔ ∀ e ∈ m.diagram.edges, e.target ≠ .state s
  := by
  rw [h.incoming_eq_filter hs, List.isEmpty_iff, List.filter_eq_nil_iff]
  simp only [decide_eq_true_eq, ne_eq]

theorem reports_state (h : m.diagram.WellFormed) {s : State} (hs : s ∈ m.diagram.states) :
  Reports m.Faulty [.state s] (m.stateDefects s)
  := by
  apply Reports.ite
  · intro hempty
    apply Faulty.noIncoming ((isEmpty_incoming_iff h hs).mp hempty)
  · intro hne y hy
    apply hne
    cases hy with
    | noIncoming hnone => apply (isEmpty_incoming_iff h hs).mpr hnone

theorem reports_guard (m : Model) (t : Transition) :
  Reports m.Faulty [.guard t]
    (if t.isReactive && t.guard.basic?.isNone then [.compoundGuard t.name] else [])
  := by
  apply Reports.ite
  · intro h
    obtain ⟨ht, hnone⟩ := Bool.and_eq_true_iff.mp h
    apply Faulty.compoundGuard ht (Proposition.isNone_basic?_iff.mp hnone)
  · intro h y hy
    apply h
    cases hy with
    | compoundGuard ht hnone =>
      apply Bool.and_eq_true_iff.mpr ⟨ht, Proposition.isNone_basic?_iff.mpr hnone⟩

theorem reports_leaf (m : Model) (t : Transition) (p : Placement) :
  Reports m.Faulty [.leaf t p] (m.placementDefects t p)
  := by
  rw [placementDefects]
  rcases hd : m.assembly.component? p.machine with _ | d
  · apply Reports.nil.found
    apply Faulty.unknownMachine (Assembly.component?_eq_none_iff.mp hd)
  · obtain ⟨hmem, hid⟩ := Assembly.component?_eq_some_iff.mp hd
    change Reports m.Faulty [.leaf t p]
      (if p.state ∈ d.states then [] else [.unknownState t.name p.state p.machine])
    rw [← ite_not]
    apply Reports.ite
    · apply Faulty.unknownState hmem hid
    · intro hp y hy
      apply hp
      cases hy with
      | unknownMachine hnone => cases hnone d hmem hid
      | unknownState hmem' hid' hp' =>
        have hd' := Assembly.component?_eq_some_iff.mpr ⟨hmem', hid'⟩
        obtain rfl := Option.some.inj (hd.symm.trans hd')
        apply hp'

theorem reports_action (m : Model) (t : Transition) (x : Action) :
  Reports m.Faulty [.action t x] (m.actionDefects t x)
  := by
  apply Reports.ite
  · intro hnone
    apply Faulty.unknownReceiver
    apply Assembly.component?_eq_none_iff.mp (Option.isNone_iff_eq_none.mp hnone)
  · intro hsome y hy
    apply hsome
    cases hy with
    | unknownReceiver hnone =>
      apply Option.isNone_iff_eq_none.mpr (Assembly.component?_eq_none_iff.mpr hnone)

theorem reports_transition (m : Model) (t : Transition) :
  Reports m.Faulty t.sites (m.transitionDefects t)
  := by
  rw [transitionDefects, t.guard.statements_eq]
  apply ((m.reports_guard t).append _).append
  · apply Reports.map fun x _ => m.reports_action t x
  · apply Reports.map fun p _ => m.reports_leaf t p

/-- The list of the defects is a report on the places in a machine. -/
theorem reports_defects (h : m.diagram.WellFormed) :
  Reports m.Faulty m.sites m.defects
  := by
  apply Reports.append
  · apply Reports.map
    intro s hs
    apply reports_state h (List.mem_filter.mp hs).1
  · apply Reports.flatMap fun t _ => m.reports_transition t

/-! ### Nothing to report -/

theorem state_mem_sites {s : State} :
  .state s ∈ m.sites ↔ s ∈ m.diagram.states ∧ s.isPseudo = false
  := by
  simp [sites, Transition.sites, properStates]

theorem guard_mem_sites :
  .guard t ∈ m.sites ↔ t ∈ m.diagram.transitions
  := by
  simp [sites, Transition.sites]

theorem leaf_mem_sites {p : Placement} :
  .leaf t p ∈ m.sites ↔ t ∈ m.diagram.transitions ∧ p ∈ t.guard.leaves
  := by
  simp [sites, Transition.sites]

theorem action_mem_sites {x : Action} :
  .action t x ∈ m.sites ↔ t ∈ m.diagram.transitions ∧ x ∈ t.actions
  := by
  simp [sites, Transition.sites]

/-- Nothing is wrong in a machine: an edge leads to every state, reactive transitions are guarded
by placements, and guards and actions speak of components that are registered and of states that
these have. -/
structure Flawless (m : Model) : Prop where
  reached : ∀ s ∈ m.diagram.states, s.isPseudo = false →
    ∃ e ∈ m.diagram.edges, e.target = .state s
  basic : ∀ t ∈ m.diagram.transitions, t.isReactive = true → ∃ p, t.guard = .basic p
  known : ∀ t ∈ m.diagram.transitions, ∀ p ∈ t.guard.leaves,
    ∃ d ∈ m.assembly.components, d.id = p.machine ∧ p.state ∈ d.states
  received : ∀ t ∈ m.diagram.transitions, ∀ x ∈ t.actions,
    ∃ d ∈ m.assembly.components, d.id = x.machine

theorem Flawless.not_faulty (h : m.Flawless) {x : Site} (hx : x ∈ m.sites) (y : Defect) :
  ¬ m.Faulty x y
  := by
  intro hy
  cases hy with
  | noIncoming hnone =>
    obtain ⟨hs, hp⟩ := state_mem_sites.mp hx
    obtain ⟨e, he, htarget⟩ := h.reached _ hs hp
    apply hnone e he htarget
  | compoundGuard ht hcompound =>
    obtain ⟨p, hp⟩ := h.basic _ (guard_mem_sites.mp hx) ht
    apply hcompound p hp
  | unknownMachine hnone =>
    obtain ⟨ht, hp⟩ := leaf_mem_sites.mp hx
    obtain ⟨d, hd, hid, -⟩ := h.known _ ht _ hp
    apply hnone d hd hid
  | unknownState hd hid hstate =>
    obtain ⟨ht, hp⟩ := leaf_mem_sites.mp hx
    obtain ⟨d', hd', hid', hstate'⟩ := h.known _ ht _ hp
    obtain rfl := List.inj_on_of_nodup_map m.assembly.nodup_ids hd hd' (hid.trans hid'.symm)
    apply hstate hstate'
  | unknownReceiver hnone =>
    obtain ⟨ht, hx⟩ := action_mem_sites.mp hx
    obtain ⟨d, hd, hid⟩ := h.received _ ht _ hx
    apply hnone d hd hid

theorem flawless_of_forall_not_faulty (h : ∀ x ∈ m.sites, ∀ y, ¬ m.Faulty x y) :
  m.Flawless
  := by
  constructor
  · intro s hs hp
    by_contra hnone
    apply h _ (state_mem_sites.mpr ⟨hs, hp⟩) _ (.noIncoming _)
    intro e he htarget
    apply hnone ⟨e, he, htarget⟩
  · intro t ht hreactive
    by_contra hnone
    apply h _ (guard_mem_sites.mpr ht) _ (.compoundGuard hreactive _)
    intro p hp
    apply hnone ⟨p, hp⟩
  · intro t ht p hp
    by_contra hnone
    apply h _ (leaf_mem_sites.mpr ⟨ht, hp⟩) _ (.unknownMachine _)
    intro d hd hid
    apply h _ (leaf_mem_sites.mpr ⟨ht, hp⟩) _ (.unknownState hd hid _)
    intro hstate
    apply hnone ⟨d, hd, hid, hstate⟩
  · intro t ht x hx
    by_contra hnone
    apply h _ (action_mem_sites.mpr ⟨ht, hx⟩) _ (.unknownReceiver _)
    intro d hd hid
    apply hnone ⟨d, hd, hid⟩

end Model

/-- In a machine that may come about, the list of the defects is the report on the places where a
defect may be: what is wrong in each of them, in their order, and nothing else. So there are no
messages if and only if nothing is wrong. -/
theorem Machine.defects_exact {m : Machine} (h : m.Reachable) :
  (∀ report, Reports m.Faulty m.sites report ↔ report = m.defects)
    ∧ (m.defects.map Defect.message = [] ↔ m.Flawless)
  := by
  have hreports := Model.reports_defects h.wellFormed
  constructor
  · intro report
    constructor
    · intro hreport
      apply Reports.unique _ hreport hreports
      intro x y y' hy hy'
      apply hy.unique hy'
    · rintro rfl
      apply hreports
  · rw [List.map_eq_nil_iff, hreports.eq_nil_iff]
    constructor
    · apply Model.flawless_of_forall_not_faulty
    · intro hflawless x hx y
      apply hflawless.not_faulty hx y

namespace Loop

/-- The loop that waits for the light, with a state to which only a link leads and one to which
nothing does, and with a second way forward that speaks of what is not there. -/
def flawed : Machine :=
  (machine await).edited
    [.addState ⟨7, "linked", false⟩, .addState ⟨8, "lost", false⟩,
      .addEdge (.link ⟨9, .state first, .state ⟨7, "linked", false⟩⟩),
      .addEdge (.transition ⟨10, "check", first, second,
        .and (.basic ⟨"light", "dim"⟩) (.not (.basic ⟨"lamp", "on"⟩)), false,
        [⟨"bell", "ring"⟩, ⟨"light", "switch"⟩]⟩)]

theorem reachable_flawed :
  flawed.Reachable
  := (reachable_machine await).edited _

end Loop

/-- The leaves of the guard come from right to left. -/
theorem Machine.defects_exact_flawed :
  Reports Loop.flawed.Faulty Loop.flawed.sites
      [.noIncoming "lost", .compoundGuard "check", .unknownMachine "check" "lamp",
        .unknownState "check" "dim" "light", .unknownReceiver "check" "bell"]
    ∧ (Loop.machine Loop.await).Flawless
  := by
  obtain ⟨hreport, -⟩ := defects_exact Loop.reachable_flawed
  obtain ⟨-, hflawless⟩ := defects_exact (Loop.reachable_machine Loop.await)
  constructor
  · apply (hreport _).mpr
    decide +kernel
  · apply hflawless.mp
    decide +kernel

end AssemblySemantics
