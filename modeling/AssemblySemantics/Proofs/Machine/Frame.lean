import AssemblySemantics.Proofs.Machine.Forget

/-!
# What changes of a diagram leave alone in the cache

What stays in a machine keeps what the cache stores for it, and what goes is forgotten until
something is stored for it again. An edge that is removed is forgotten with its first copy, also
when there are further ones.
-/

namespace AssemblySemantics

namespace Machine

variable {m m' : Machine} {x : Edit} {s : State} {e : Edge}

/-! ### One change -/

/-- Of an edge that is to be erased nothing is left, unless it is itself removed. -/
theorem notMem_edges_of_mem_erasedEdges (h : m.diagram.WellFormed) (hx : m.edit x = .ok m')
    (he : e ∈ x.erasedEdges m.diagram) :
  x = .removeEdge e ∨ e ∉ m'.diagram.edges
  := by
  cases x with
  | addState s => cases he
  | addEdge e' => cases he
  | removeEdge e' =>
    left
    rw [List.mem_singleton.mp he]
  | removeState s =>
    right
    obtain ⟨-, hs, rfl⟩ := removeState_eq_ok hx
    have he : e ∈ m.diagram.touching s := he
    rw [Diagram.touching, h.incoming_eq_filter hs, h.outgoing_eq_filter hs] at he
    intro hmem
    obtain ⟨hsource, htarget⟩ := not_touching_foldl_dropEdge h hs e hmem
    obtain hin | hout := List.mem_append.mp he
    · apply htarget (of_decide_eq_true (List.mem_filter.mp hin).2)
    · apply hsource (of_decide_eq_true (List.mem_filter.mp hout).2)

theorem record_edit_of_stays (hx : m.edit x = .ok m')
    (hs : s ∈ m.diagram.states → s ∈ m'.diagram.states) :
  m'.cache.record s = m.cache.record s
  := by
  rw [(effect_of_edit hx).record, if_neg]
  intro herased
  obtain ⟨hin, hout⟩ := notMem_states_of_mem_erasedStates hx herased
  apply hout (hs hin)

theorem record_edit_of_goes (hx : m.edit x = .ok m') (hs : s ∈ m.diagram.states)
    (hs' : s ∉ m'.diagram.states) :
  m'.cache.record s = ⟨m.cache.bottom, ∅⟩
  := by
  have heffect := effect_of_edit hx
  rw [heffect.record, if_pos (heffect.mem_erasedStates hs hs')]

theorem edgeRegion_edit_of_stays (h : m.diagram.WellFormed) (hx : m.edit x = .ok m')
    (he : e ∈ m.diagram.edges → e ∈ m'.diagram.edges ∧ x ≠ .removeEdge e) :
  m'.cache.edgeRegion e = m.cache.edgeRegion e
  := by
  rw [(effect_of_edit hx).edgeRegion, if_neg]
  rintro ⟨herased, hin⟩
  obtain ⟨hstays, hne⟩ := he hin
  obtain heq | hout := notMem_edges_of_mem_erasedEdges h hx herased
  · apply hne heq
  · apply hout hstays

theorem edgeRegion_edit_of_goes (hx : m.edit x = .ok m') (he : e ∈ m.diagram.edges)
    (he' : e ∉ m'.diagram.edges ∨ x = .removeEdge e) :
  m'.cache.edgeRegion e = m.cache.bottom
  := by
  have heffect := effect_of_edit hx
  rw [heffect.edgeRegion, if_pos]
  constructor
  · obtain hout | rfl := he'
    · apply heffect.mem_erasedEdges he hout
    · apply List.mem_singleton_self
  · apply he

/-! ### Later changes -/

/-- Changes, of which some may be refused, forget at most what they remove. -/
theorem forgets_edited (m : Machine) (xs : List Edit) :
  m.Forgets (m.edited xs)
  := by
  induction xs generalizing m with
  | nil => apply Forgets.refl
  | cons x xs ih =>
    rw [edited]
    rcases hx : m.edit x with refusal | m'
    · apply ih
    · apply (forgets_edit hx).trans (ih m')

/-- A state that is forgotten stays so until something is stored for it. -/
theorem Forgets.record_eq_bottom (h : m.Forgets m')
    (hs : m.cache.record s = ⟨m.cache.bottom, ∅⟩) :
  m'.cache.record s = ⟨m.cache.bottom, ∅⟩
  := by
  obtain ⟨hkept, -⟩ | hlost := h.record s
  · rw [hkept, hs]
  · rw [hlost, h.bottom]

/-- An edge that is forgotten stays so until something is stored for it. -/
theorem Forgets.edgeRegion_eq_bottom (h : m.Forgets m')
    (he : m.cache.edgeRegion e = m.cache.bottom) :
  m'.cache.edgeRegion e = m.cache.bottom
  := by
  obtain ⟨hkept, -⟩ | hlost := h.edge e
  · rw [hkept, he]
  · rw [hlost, h.bottom]

/-- A change of the diagram, accepted or refused, leaves alone what the cache stores for the
states and the edges that stay, but for an edge that is removed itself: it is forgotten, whether
or not it stays in a further copy. What goes is forgotten, and what is forgotten reads as the
empty region and no exit zones after further changes as well, also if it is added again. -/
theorem cache_edited (h : m.Reachable) (x : Edit) (hm' : m.edited [x] = m') :
  (∀ s, (s ∈ m.diagram.states → s ∈ m'.diagram.states) →
    m'.cache.stateRegion s = m.cache.stateRegion s ∧ m'.cache.stateZones s = m.cache.stateZones s)
    ∧ (∀ e, (e ∈ m.diagram.edges → e ∈ m'.diagram.edges ∧ x ≠ .removeEdge e) →
      m'.cache.edgeRegion e = m.cache.edgeRegion e)
    ∧ ∀ xs,
      (∀ s ∈ m.diagram.states, s ∉ m'.diagram.states →
        (m'.edited xs).cache.stateRegion s = .bottom m.cache.assembly
          ∧ (m'.edited xs).cache.stateZones s = ∅)
      ∧ ∀ e ∈ m.diagram.edges, e ∉ m'.diagram.edges ∨ x = .removeEdge e →
        (m'.edited xs).cache.edgeRegion e = .bottom m.cache.assembly
  := by
  rcases hx : m.edit x with refusal | m''
  · obtain rfl : m = m' := by
      rw [edited, hx] at hm'
      apply hm'
    refine ⟨fun s _ => ⟨rfl, rfl⟩, fun e _ => rfl, fun xs => ⟨fun s hs hs' => ?_, ?_⟩⟩
    · cases hs' hs
    · rintro e he (he' | rfl)
      · cases he' he
      · rw [edit, removeEdge, if_pos he] at hx
        cases hx
  · obtain rfl : m'' = m' := by
      rw [edited, hx] at hm'
      apply hm'
    have hbottom := (forgets_edit hx).bottom
    refine ⟨?_, ?_, fun xs => ⟨?_, ?_⟩⟩
    · intro s hs
      apply StateRecord.mk.inj (record_edit_of_stays hx hs)
    · intro e he
      apply edgeRegion_edit_of_stays h.wellFormed hx he
    · intro s hs hs'
      apply StateRecord.mk.inj
      apply hbottom ▸ (forgets_edited m'' xs).record_eq_bottom _
      rw [record_edit_of_goes hx hs hs', hbottom]
    · intro e he he'
      apply hbottom ▸ (forgets_edited m'' xs).edgeRegion_eq_bottom _
      rw [edgeRegion_edit_of_goes hx he he', hbottom]

end Machine

namespace Loop

/-- The loop that switches the light with its way back added twice, refreshed by the solver. -/
def doubled : Machine :=
  (((machine switch).edited [.addEdge (.transition back)]).run (·.refresh .fixedPoint)).2.1

theorem reachable_doubled :
  doubled.Reachable
  := ((reachable_machine switch).edited [.addEdge (.transition back)]).cached doubled.cache

end Loop

namespace Machine

/-- The way back is removed with the second state, and both are added again. -/
theorem cache_edited_doubled :
  ∃ m', Loop.doubled.edited [.removeState Loop.second] = m'
    ∧ m'.cache.stateRegion Loop.first = Loop.doubled.cache.stateRegion Loop.first
    ∧ (Loop.doubled.cache.stateRegion Loop.first).isEmpty = false
    ∧ m'.cache.edgeRegion (.transition Loop.enter) =
      Loop.doubled.cache.edgeRegion (.transition Loop.enter)
    ∧ ∃ m'', m'.edited [.addState Loop.second, .addEdge (.transition Loop.back)] = m''
      ∧ Loop.second ∈ m''.diagram.states ∧ .transition Loop.back ∈ m''.diagram.edges
      ∧ m''.cache.stateRegion Loop.second = .bottom "room"
      ∧ m''.cache.stateZones Loop.second = ∅
      ∧ m''.cache.edgeRegion (.transition Loop.back) = .bottom "room"
  := by
  have hassembly : Loop.doubled.cache.assembly = "room" := by decide +kernel
  obtain ⟨hstates, hedges, hlater⟩ :=
    cache_edited Loop.reachable_doubled (.removeState Loop.second) rfl
  rw [hassembly] at hlater
  obtain ⟨hstate, hedge⟩ := hlater [.addState Loop.second, .addEdge (.transition Loop.back)]
  obtain ⟨hregion, hzones⟩ := hstate Loop.second (by decide +kernel) (by decide +kernel)
  refine ⟨_, rfl, (hstates Loop.first (by decide +kernel)).1, by decide +kernel, ?_, _, rfl,
    by decide +kernel, by decide +kernel, hregion, hzones, ?_⟩
  · apply hedges
    intro _
    exact ⟨by decide +kernel, nofun⟩
  · apply hedge (.transition Loop.back) (by decide +kernel)
    left
    decide +kernel

/-- One copy of the way back is removed and the other one stays, with nothing in the cache. -/
theorem edgeRegion_ne_doubled :
  ∃ m', Loop.doubled.Reachable
    ∧ Loop.doubled.removeEdge (.transition Loop.back) = .ok m'
    ∧ .transition Loop.back ∈ Loop.doubled.diagram.edges
    ∧ .transition Loop.back ∈ m'.diagram.edges
    ∧ m'.cache.edgeRegion (.transition Loop.back) ≠
      Loop.doubled.cache.edgeRegion (.transition Loop.back)
  := by
  refine ⟨Loop.doubled.dropEdge (.transition Loop.back), Loop.reachable_doubled, ?_, ?_, ?_, ?_⟩
  · decide +kernel
  · decide +kernel
  · decide +kernel
  · decide +kernel

end Machine

end AssemblySemantics
