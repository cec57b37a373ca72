import AssemblySemantics.Proofs.Contribution.Exits
import AssemblySemantics.Proofs.Propagation.Coherent

/-!
# Actions and dead transitions

Performing actions on a region collects where they lead from its configurations, one by one.
Actions always lead somewhere, from every configuration, placed in full or in part. So they
make nothing of a region only if there is nothing in it, and whether a transition is dead after
a pass does not depend on its actions.
-/

namespace AssemblySemantics

namespace Machine

variable {m m' : Machine} {u : Update} {t : Transition} {events : List Event}

/-- After a pass, a transition is dead exactly when it would contribute nothing without its
actions. -/
theorem mem_deadTransitions_of_run (h : m.Reachable)
    (hrun : m.run u.pass = (.ok (), m', events)) (ht : t ∈ m.diagram.transitions) :
  ∃ bare : Region,
    ({ t with actions := [] } : Transition).contribution (m'.cache.stateRegion t.source)
      (m'.cache.stateZones t.source).toList m.assembly m.config.basis = .ok bare
    ∧ (t ∈ m'.deadTransitions ↔ bare.isEmpty = true)
  := by
  have hmodel := toModel_of_run hrun
  have hedge : t.contribution _ _ m.assembly m.config.basis = .ok _ :=
    (settled_of_run h hrun).edge t ht
  obtain ⟨bare, hfired, heq⟩ := Transition.exists_fired hedge
  refine ⟨bare, Transition.contribution_without_actions.trans hfired, ?_⟩
  rw [deadTransitions, List.mem_filter, hmodel, and_iff_right ht, heq,
    Region.isEmpty_flatMap (m.assembly.performed_ne_nil t.actions)]

end Machine

namespace Region

/-- Performing actions on a region of the assembly collects the configurations to which the
actions lead, in order, from those of the region. It distributes over the join, a list of
actions may be performed in two parts, and the result is empty exactly when the region is. So
a transition is dead after a pass that succeeds exactly when it would contribute nothing without
its actions. -/
theorem perform_collects {a : Assembly} {r : Region} (h : r.assembly = a.id) (xs : List Action) :
  ∃ s, r.perform xs a = .ok s
    ∧ (∀ c, c ∈ s ↔ ∃ b ∈ r, a.Performs xs b c)
    ∧ (∀ r' : Region, r'.assembly = a.id → ∃ joined s' performed,
      r.join r' = .ok joined ∧ r'.perform xs a = .ok s'
        ∧ s.join s' = .ok performed ∧ joined.perform xs a = .ok performed)
    ∧ (∀ ys, r.perform (xs ++ ys) a = s.perform ys a)
    ∧ s.isEmpty = r.isEmpty
    ∧ ∀ (m m' : Machine) (u : Machine.Update) (events : List Event), m.Reachable →
      m.run u.pass = (.ok (), m', events) → ∀ t ∈ m.diagram.transitions, ∃ bare : Region,
        ({ t with actions := [] } : Transition).contribution (m'.cache.stateRegion t.source)
          (m'.cache.stateZones t.source).toList m.assembly m.config.basis = .ok bare
        ∧ (t ∈ m'.deadTransitions ↔ bare.isEmpty = true)
  := by
  refine ⟨r.flatMap (a.performed xs), perform_of_eq xs h, ?_, ?_, ?_,
    isEmpty_flatMap (a.performed_ne_nil xs), ?_⟩
  · intro c
    simp only [mem_flatMap, Assembly.mem_performed]
  · intro r' h'
    refine ⟨r ∪ r', _, _, join_of_eq (h.trans h'.symm), perform_of_eq xs h',
      join_of_eq (h.trans h'.symm), ?_⟩
    rw [← union_flatMap]
    apply perform_of_eq (r := r ∪ r') xs h
  · intro ys
    rw [perform, List.foldlM_append]
    apply congrArg (· >>= _) (perform_of_eq xs h)
  · intro m m' u events hm hrun t ht
    apply Machine.mem_deadTransitions_of_run hm hrun ht

end Region

namespace Lamp

/-- The lamp is on and the door has no place; nothing has a place; the door is closed and the
lamp off. -/
def sketchy : Region :=
  .ofConfigurations "porch"
    [[⟨"lamp", "on"⟩], [], [⟨"door", "closed"⟩, ⟨"lamp", "off"⟩]]

/-- A push at the lamp, a push at the door, which does not answer, and a ring at a bell that is
not there. -/
def clumsy : List Action := [⟨"lamp", "push"⟩, ⟨"door", "push"⟩, ⟨"bell", "ring"⟩]

end Lamp

namespace Region

/-- A push at the lamp turns it off or dims it where it is on, and other actions are ignored.
In the loop that switches the light, the transition that does so is not dead after a pass, and
it fires whether it has its action or not. -/
theorem perform_collects_clumsy :
  Lamp.sketchy.assembly = Lamp.porch.id
    ∧ (∃ s, Lamp.sketchy.perform Lamp.clumsy Lamp.porch = .ok s
      ∧ s.toList = [[], [⟨"door", "closed"⟩, ⟨"lamp", "off"⟩], [⟨"lamp", "dim"⟩],
        [⟨"lamp", "off"⟩]]
      ∧ ∃ b ∈ Lamp.sketchy, Lamp.porch.Performs Lamp.clumsy b [⟨"lamp", "dim"⟩])
    ∧ (Loop.machine Loop.switch).Reachable
    ∧ ∃ m' events, (Loop.machine Loop.switch).run (Machine.Update.refresh .oneStep).pass =
        (.ok (), m', events)
      ∧ Loop.switch ∉ m'.deadTransitions
      ∧ ∃ bare, ({ Loop.switch with actions := [] } : Transition).contribution
          (m'.cache.stateRegion Loop.first) (m'.cache.stateZones Loop.first).toList
          Loop.assembly .stateRegion = .ok bare
        ∧ bare.isEmpty = false
  := by
  obtain ⟨s, hs, hmem, -, -, -, hdead⟩ :=
    perform_collects (r := Lamp.sketchy) (a := Lamp.porch) rfl Lamp.clumsy
  have hlisted : (Lamp.sketchy.perform Lamp.clumsy Lamp.porch).map toList =
      .ok [[], [⟨"door", "closed"⟩, ⟨"lamp", "off"⟩], [⟨"lamp", "dim"⟩], [⟨"lamp", "off"⟩]] := by
    decide +kernel
  rw [hs] at hlisted
  have hlisted := Except.ok.inj hlisted
  have hreachable := Loop.reachable_machine Loop.switch
  have hok : ((Loop.machine Loop.switch).run (Machine.Update.refresh .oneStep).pass).1 =
      .ok () := by
    decide +kernel
  have halive : Loop.switch ∉
      ((Loop.machine Loop.switch).run (Machine.Update.refresh .oneStep).pass).2.1.deadTransitions
      := by
    decide +kernel
  rcases hrun : (Loop.machine Loop.switch).run (Machine.Update.refresh .oneStep).pass with
    ⟨result, m', events⟩
  rw [hrun] at hok halive
  obtain rfl : result = .ok () := hok
  obtain ⟨bare, hbare, hiff⟩ := hdead _ m' _ events hreachable hrun Loop.switch (by decide)
  refine ⟨rfl, ⟨s, hs, hlisted, ?_⟩, hreachable, m', events, rfl, halive, bare, hbare, ?_⟩
  · apply (hmem _).mp
    rw [← mem_toList, hlisted]
    decide
  · rw [← Bool.not_eq_true, ← hiff]
    apply halive

end Region

end AssemblySemantics
