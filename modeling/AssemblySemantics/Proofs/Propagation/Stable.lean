import AssemblySemantics.Proofs.Propagation.Acyclic
import AssemblySemantics.Proofs.Propagation.Refresh

/-!
# Passes that come to an end

After a pass every state and every transition has an entry in the cache. If a second pass
stores the same for them as the first one, then it leaves the whole cache as it is, and so
does every further one. Over an acyclic diagram this is so after as many passes as there are
states, and what is stored then does not depend on the cache from which they started.
-/

namespace AssemblySemantics

namespace Model

variable {m : Model} {c : Cache} {s : State} {t : Transition} {states : List State}

/-! ### What has an entry after a pass -/

/-- After several states were renewed, these have records, and the others if they had. -/
theorem hasState_foldl_renew (hs : s ∈ states ∨ c.hasState s = true) :
  (states.foldl m.renew c).hasState s = true
  := by
  induction states generalizing c with
  | nil => apply hs.resolve_left List.not_mem_nil
  | cons s' states ih =>
    apply ih
    rw [renew, hasState_stow]
    obtain hs | hs := hs
    · obtain rfl | hs := List.mem_cons.mp hs
      · right
        apply if_pos rfl
      · left
        apply hs
    · right
      rw [hs]
      apply ite_self

/-- After a pass every state has a record. -/
theorem hasState_passed (h : m.diagram.WellFormed) (c : Cache) (hs : s ∈ m.diagram.states) :
  (m.passed c).hasState s = true
  := by
  rw [passed, Cache.hasState, states_foldl_fill]
  apply hasState_foldl_renew
  obtain rfl | hs := eq_pseudo_or_mem_properStates h hs
  · right
    rw [hasState_stow, if_pos rfl]
  · left
    apply hs

/-- After a pass every transition has an entry. -/
theorem contains_edges_passed (c : Cache) (ht : t ∈ m.diagram.transitions) :
  (m.passed c).edges.contains (.transition t) = true
  := by
  rw [passed, Table.contains, get?_edges_foldl_fill ht]
  rfl

/-! ### A second pass -/

/-- If a pass stores for the states what is stored already, then every state other than the
pseudostate has the join of what its incoming transitions reach from there. -/
theorem record_eq_joined (h : m.diagram.WellFormed) (hagree : m.diagram.Agree (m.passed c) c)
    (hs : s ∈ m.properStates) :
  c.record s = ⟨m.joined c s, (m.joined c s).zones m.assembly⟩
  := by
  have hstate := (mem_properStates.mp hs).1
  obtain ⟨d, hrecord, hd⟩ := record_passed h c hs
  have hjoined : m.joined d s = m.joined c s := by
    apply joined_congr h hstate
    intro t ht _
    rw [hd, hagree.record (h.source_mem_states ht), ite_self]
  rw [← hagree.record hstate, hrecord, hjoined]

/-- If a pass stores for the states and the transitions what is stored already, then every
transition has what it reaches from there. -/
theorem edgeRegion_eq_reached (h : m.diagram.WellFormed)
    (hagree : m.diagram.Agree (m.passed c) c) (ht : t ∈ m.diagram.transitions) :
  c.edgeRegion (.transition t) = m.reached c (.transition t)
  := by
  rw [← hagree.edgeRegion t ht, edgeRegion_passed h c ht, ← reached_passed h c ht]
  apply reached_congr (hagree.record (h.source_mem_states ht))

/-- A second pass that stores for the states and the transitions what the first one has stored
leaves the cache as it is. -/
theorem passed_passed (h : m.diagram.WellFormed) (c : Cache)
    (hagree : m.diagram.Agree (m.passed (m.passed c)) (m.passed c)) :
  m.passed (m.passed c) = m.passed c
  := by
  have hpseudo : m.stow (m.passed c) m.diagram.pseudo m.assembly.initial = m.passed c := by
    obtain ⟨hregion, hzones⟩ := StateRecord.mk.inj (record_passed_pseudo (c := c) h)
    apply stow_eq_self (hasState_passed h c h.pseudo_mem) hregion hzones
  have hstates : m.properStates.foldl m.renew (m.passed c) = m.passed c := by
    apply List.foldlRecOn (motive := fun c' => c' = m.passed c) _ _ rfl
    rintro _ rfl s hs
    obtain ⟨hregion, hzones⟩ := StateRecord.mk.inj (record_eq_joined h hagree hs)
    apply stow_eq_self (hasState_passed h c (mem_properStates.mp hs).1) hregion hzones
  have htransitions : m.diagram.transitions.foldl m.fill (m.passed c) = m.passed c := by
    apply List.foldlRecOn (motive := fun c' => c' = m.passed c) _ _ rfl
    rintro _ rfl t ht
    apply fill_eq_self (contains_edges_passed c ht) (edgeRegion_eq_reached h hagree ht)
  -- of the two passes only the second one is opened
  nth_rewrite 1 [passed]
  rw [hpseudo, hstates, htransitions]

end Model

namespace Machine

variable {m : Machine}

/-- In a stable machine every state other than the pseudostate has the join of what is stored
for the transitions that lead to it. -/
theorem Stable.joinIncoming_eq (hstable : m.Stable) (h : m.diagram.WellFormed) {s : State}
    (hs : s ∈ m.properStates) :
  m.joinIncoming s = .ok (m.cache.stateRegion s)
  := by
  have hsteady := hstable.steady h
  obtain ⟨m', events, hrun, hagree⟩ := hstable
  rw [(cache_eq_passed_of_run h hrun).1] at hagree
  have hstate := (Model.mem_properStates.mp hs).1
  have hedge : ∀ t, .transition t ∈ m.diagram.incoming s →
      m.cache.edgeRegion (.transition t) = m.reached m.cache (.transition t) := by
    intro t ht
    apply Model.edgeRegion_eq_reached h hagree ((h.mem_incoming_iff hstate).mp ht).1
  apply joinIncoming_eq_ok (hsteady.assembly s hstate)
  · intro t ht
    rw [hedge t ht]
    apply Transition.assembly_reach
    apply hsteady.assembly _ (h.source_mem_states ((h.mem_incoming_iff hstate).mp ht).1)
  · intro b
    rw [(StateRecord.mk.inj (Model.record_eq_joined h hagree hs)).1, Model.mem_joined]
    apply exists_congr
    intro t
    apply and_congr_right
    intro ht
    rw [hedge t ht]

/-- When a second pass would store what the first one has stored, any further passes leave the
machine as it is. -/
theorem passes_passed (h : m.diagram.WellFormed) (c : Cache)
    (hagree : m.diagram.Agree (m.passed (m.passed c)) (m.passed c)) (k : Nat) :
  passes k { m with cache := m.passed c } = .ok { m with cache := m.passed c }
  := by
  have howns : m.Owns (m.passed c) := Model.owns_passed h c
  rw [passes_eq (m := { m with cache := m.passed c }) h howns k]
  change Except.ok { m with cache := m.passed^[k] (m.passed c) } = _
  rw [Function.iterate_fixed (Model.passed_passed h c hagree)]

/-- Passes over a machine without a cycle end in the same, whatever regions of the assembly the
cache holds at first: after as many passes as there are states, the same is stored for every
state and every transition; each state other than the pseudostate has the join of the stored
regions of the transitions that lead to it; and further passes leave the machine as it is. -/
theorem passes_stabilise (h : m.Reachable) (hacyclic : m.diagram.Acyclic) {c c' : Cache}
    (hc : m.Owns c) (hc' : m.Owns c') :
  ∃ m₁ m₂, passes m.diagram.states.length { m with cache := c } = .ok m₁
    ∧ passes m.diagram.states.length { m with cache := c' } = .ok m₂
    ∧ m₁.toModel = m.toModel ∧ m.diagram.Agree m₁.cache m₂.cache
    ∧ (∀ s ∈ m.properStates, m₁.joinIncoming s = .ok (m₁.cache.stateRegion s))
    ∧ ∀ k, m₁.passes k = .ok m₁
  := by
  have hd := h.wellFormed
  have hpasses := passes_eq (m := { m with cache := c }) hd hc m.diagram.states.length
  have hpasses' := passes_eq (m := { m with cache := c' }) hd hc' m.diagram.states.length
  refine ⟨_, _, hpasses, hpasses', rfl, Model.agree_iterate hd hacyclic c c' le_rfl le_rfl, ?_, ?_⟩
  · obtain ⟨m₁, hpasses₁, -, hstable⟩ :=
      exists_stable (m := { m with cache := c }) hd hacyclic hc le_rfl
    obtain rfl := Except.ok.inj (hpasses₁.symm.trans hpasses)
    intro s hs
    apply hstable.joinIncoming_eq hd hs
  · intro k
    -- the last of the passes is taken apart from those before it
    obtain ⟨i, hi⟩ := hd.exists_length_eq
    have hagree := Model.agree_iterate hd hacyclic c c (Nat.le_succ _) le_rfl
    rw [Function.iterate_succ_apply', hi, Function.iterate_succ_apply'] at hagree
    rw [hi, Function.iterate_succ_apply']
    apply passes_passed hd _ hagree

end Machine

namespace Detour

/-- A cache in which the light may be on in the hall, and in which, all the same, an exit zone
says that it may go on there. -/
def misled : Cache :=
  ((Cache.empty "room").setStateRegion hall
    (.ofConfigurations "room" [[⟨"light", "off"⟩], [⟨"light", "on"⟩]])).setStateZones hall
      ((∅ : ZoneSet).insert ⟨"light", ⟨"off", "on", none⟩, ⟨"light", "off"⟩, ⟨"light", "on"⟩⟩)

theorem owns_misled :
  shuffled.Owns misled
  := by
  intro s _
  rw [misled, Cache.stateRegion_setStateZones, Cache.stateRegion_setStateRegion]
  split <;> rfl

end Detour

namespace Machine

/-- The detour with the lit room after the hall to which it leads. One pass over the misled
cache stores a configuration for the waiting state; after four passes nothing is stored for
it, as after four passes over an empty cache. -/
theorem passes_stabilise_shuffled :
  Detour.shuffled.Reachable ∧ Detour.shuffled.diagram.Acyclic
    ∧ Detour.shuffled.Owns Detour.misled ∧ Detour.shuffled.Owns (.empty "room")
    ∧ (passes 1 { Detour.shuffled with cache := Detour.misled }).map
      (·.cache.stateRegion Detour.awake) = .ok (.ofConfigurations "room" [[⟨"light", "on"⟩]])
    ∧ ∃ m₁ m₂, passes 4 { Detour.shuffled with cache := Detour.misled } = .ok m₁
      ∧ passes 4 { Detour.shuffled with cache := .empty "room" } = .ok m₂
      ∧ Detour.shuffled.diagram.Agree m₁.cache m₂.cache
      ∧ m₁.joinIncoming Detour.awake = .ok (m₁.cache.stateRegion Detour.awake)
      ∧ m₁.cache.stateRegion Detour.awake = .bottom "room"
      ∧ m₁.passes 1 = .ok m₁
  := by
  have hempty : Detour.shuffled.Owns (.empty "room") := Detour.shuffled.owns_empty
  obtain ⟨m₁, m₂, hpasses, hpasses', -, hagree, hjoin, hagain⟩ :=
    passes_stabilise Detour.reachable_shuffled Detour.acyclic_shuffled Detour.owns_misled hempty
  have hstored : (passes 4 { Detour.shuffled with cache := Detour.misled }).map
      (·.cache.stateRegion Detour.awake) = .ok (.bottom "room") := by
    decide +kernel
  have hpasses : passes 4 { Detour.shuffled with cache := Detour.misled } = .ok m₁ := hpasses
  rw [hpasses] at hstored
  exact ⟨Detour.reachable_shuffled, Detour.acyclic_shuffled, Detour.owns_misled, hempty,
    by decide +kernel, m₁, m₂, hpasses, hpasses', hagree, hjoin Detour.awake (by decide),
    Except.ok.inj hstored, hagain 1⟩

end Machine

end AssemblySemantics
