import AssemblySemantics.Diagram.Basic
import Mathlib.Data.List.Nodup
import Mathlib.Tactic.Common

/-!
# The structure of a diagram

A well-formed diagram has its pseudostate first and no other one, distinct names of states,
edges between its states of which none leads to the pseudostate, and at every state exactly
the edges that lead to it and start from it, in the order of the list of all edges. Adding
and erasing states and edges keeps a diagram well-formed.
-/

namespace AssemblySemantics

namespace Diagram

/-- What holds of the lists of a diagram. -/
structure WellFormed (d : Diagram) : Prop where
  isPseudo_pseudo : d.pseudo.isPseudo = true
  head?_states : d.states.head? = some d.pseudo
  eq_pseudo : ∀ s ∈ d.states, s.isPseudo = true → s = d.pseudo
  nodup_names : (d.states.map State.name).Nodup
  incoming_eq : ∀ n ∈ d.nodes, n.incoming = d.edges.filter fun e => e.target = .state n.state
  outgoing_eq : ∀ n ∈ d.nodes, n.outgoing = d.edges.filter fun e => e.source = .state n.state
  source_mem : ∀ e ∈ d.edges, ∃ s ∈ d.states, e.source = .state s
  target_mem : ∀ e ∈ d.edges, ∃ s ∈ d.states, s ≠ d.pseudo ∧ e.target = .state s

variable {d d' : Diagram} {s : State} {e : Edge} {t : Transition}

/-! ### Reading a well-formed diagram -/

theorem mem_filterMap_transition? {edges : List Edge} :
  t ∈ edges.filterMap Edge.transition? ↔ .transition t ∈ edges
  := by
  rw [List.mem_filterMap]
  constructor
  · rintro ⟨e, he, ht⟩
    cases e with
    | transition t' =>
      obtain rfl := Option.some.inj ht
      apply he
    | link l => cases ht
  · intro h
    use .transition t, h
    rfl

theorem mem_transitions :
  t ∈ d.transitions ↔ .transition t ∈ d.edges
  := mem_filterMap_transition?

theorem exists_node (hs : s ∈ d.states) :
  ∃ n ∈ d.nodes, n.state = s ∧ d.node? s = some n
  := by
  obtain ⟨n, hn, rfl⟩ := List.mem_map.mp hs
  rcases h : d.node? n.state with _ | n'
  · have hne := List.find?_eq_none.mp h n hn
    simp at hne
  · use n', List.mem_of_find?_eq_some h
    constructor
    · simpa using List.find?_some h
    · rfl

/-- Nothing leads to what is not a state of the diagram. -/
theorem incoming_of_notMem (hs : s ∉ d.states) :
  d.incoming s = []
  := by
  have hnode : d.node? s = none := by
    apply List.find?_eq_none.mpr
    intro n hn heq
    apply hs
    apply List.mem_map.mpr ⟨n, hn, of_decide_eq_true heq⟩
  rw [incoming, hnode]
  rfl

namespace WellFormed

theorem incoming_eq_filter (h : d.WellFormed) (hs : s ∈ d.states) :
  d.incoming s = d.edges.filter fun e => e.target = .state s
  := by
  obtain ⟨n, hn, rfl, hfind⟩ := exists_node hs
  rw [incoming, hfind]
  apply h.incoming_eq n hn

theorem outgoing_eq_filter (h : d.WellFormed) (hs : s ∈ d.states) :
  d.outgoing s = d.edges.filter fun e => e.source = .state s
  := by
  obtain ⟨n, hn, rfl, hfind⟩ := exists_node hs
  rw [outgoing, hfind]
  apply h.outgoing_eq n hn

theorem pseudo_mem (h : d.WellFormed) :
  d.pseudo ∈ d.states
  := List.mem_of_head? h.head?_states

/-- There is at least one state. -/
theorem exists_length_eq (h : d.WellFormed) :
  ∃ n, d.states.length = n + 1
  := Nat.exists_eq_add_one.mpr (List.length_pos_of_mem h.pseudo_mem)

theorem nodup_states (h : d.WellFormed) :
  d.states.Nodup
  := h.nodup_names.of_map

/-- A name stands for the only state that has it. -/
theorem stateNamed?_eq_some_iff (h : d.WellFormed) {name : String} :
  d.stateNamed? name = some s ↔ s ∈ d.states ∧ s.name = name
  := by
  constructor
  · intro hs
    use List.mem_of_find?_eq_some hs
    simpa using List.find?_some hs
  · rintro ⟨hs, rfl⟩
    rcases hfind : d.stateNamed? s.name with _ | r
    · have hne := List.find?_eq_none.mp hfind s hs
      simp at hne
    · have hname : r.name = s.name := by simpa using List.find?_some hfind
      have hr : r ∈ d.states := List.mem_of_find?_eq_some hfind
      rw [List.inj_on_of_nodup_map h.nodup_names hr hs hname]

/-- A transition of the diagram starts at one of its states. -/
theorem source_mem_states (h : d.WellFormed) (ht : t ∈ d.transitions) :
  t.source ∈ d.states
  := by
  obtain ⟨s, hs, heq⟩ := h.source_mem _ (mem_transitions.mp ht)
  rw [Endpoint.state.inj heq]
  apply hs

/-- A transition of the diagram leads to one of its states. -/
theorem target_mem_states (h : d.WellFormed) (ht : t ∈ d.transitions) :
  t.target ∈ d.states
  := by
  obtain ⟨s, hs, -, heq⟩ := h.target_mem _ (mem_transitions.mp ht)
  rw [Endpoint.state.inj heq]
  apply hs

/-- No transition leads to the pseudostate. -/
theorem isPseudo_target (h : d.WellFormed) (ht : t ∈ d.transitions) :
  t.target.isPseudo = false
  := by
  obtain ⟨s, hs, hne, heq⟩ := h.target_mem _ (mem_transitions.mp ht)
  rw [Endpoint.state.inj heq]
  apply Bool.eq_false_iff.mpr
  intro hp
  apply hne (h.eq_pseudo s hs hp)

/-- The transitions among the incoming edges of a state are those that lead to it. -/
theorem mem_incoming_iff (h : d.WellFormed) (hs : s ∈ d.states) :
  .transition t ∈ d.incoming s ↔ t ∈ d.transitions ∧ t.target = s
  := by
  rw [h.incoming_eq_filter hs, List.mem_filter, mem_transitions, decide_eq_true_eq]
  apply and_congr_right
  intro _
  constructor
  · apply Endpoint.state.inj
  · rintro rfl
    rfl

end WellFormed

/-! ### Adding -/

/-- The diagram that has only a pseudostate. -/
theorem wellFormed_initial {pseudo : State} (h : pseudo.isPseudo = true) :
  (initial pseudo).WellFormed
  := by
  constructor <;> simp [initial, states, h]

theorem addState_eq_ok (h : d.addState s = .ok d') :
  s.isPseudo = false ∧ s.name ∉ d.states.map State.name
    ∧ d' = { d with nodes := d.nodes ++ [⟨s, [], []⟩] }
  := by
  unfold addState at h
  split at h
  · cases h
  · rename_i hp
    split at h
    · cases h
    · rename_i hn
      obtain rfl := Except.ok.inj h
      use Bool.eq_false_iff.mpr hp
      constructor
      · intro hmem
        obtain ⟨r, hr, hname⟩ := List.mem_map.mp hmem
        apply hn
        apply List.find?_isSome.mpr
        use r, hr
        apply decide_eq_true hname
      · rfl

/-- A state without edges, under a new name, may be added. -/
theorem WellFormed.addState (hd : d.WellFormed) (h : d.addState s = .ok d') :
  d'.WellFormed
  := by
  obtain ⟨hp, hname, rfl⟩ := addState_eq_ok h
  have hstates : states { d with nodes := d.nodes ++ [⟨s, [], []⟩] } = d.states ++ [s] := by
    simp [states]
  have hs : s ∉ d.states := fun hmem => hname (List.mem_map_of_mem hmem)
  constructor
  · apply hd.isPseudo_pseudo
  · rw [hstates, List.head?_append, hd.head?_states]
    rfl
  · rw [hstates]
    intro r hr hrp
    obtain hr | hr := List.mem_append.mp hr
    · apply hd.eq_pseudo r hr hrp
    · rw [List.mem_singleton.mp hr, hp] at hrp
      cases hrp
  · rw [hstates, List.map_append, List.nodup_append]
    use hd.nodup_names, List.nodup_singleton _
    rintro _ hr _ hr' rfl
    apply hname
    rw [← List.mem_singleton.mp hr']
    apply hr
  · intro n hn
    obtain hn | hn := List.mem_append.mp hn
    · apply hd.incoming_eq n hn
    · obtain rfl := List.mem_singleton.mp hn
      symm
      apply List.filter_eq_nil_iff.mpr
      intro e he htarget
      obtain ⟨r, hr, -, heq⟩ := hd.target_mem e he
      have hrs : r = s := Endpoint.state.inj (heq.symm.trans (of_decide_eq_true htarget))
      apply hs (hrs ▸ hr)
  · intro n hn
    obtain hn | hn := List.mem_append.mp hn
    · apply hd.outgoing_eq n hn
    · obtain rfl := List.mem_singleton.mp hn
      symm
      apply List.filter_eq_nil_iff.mpr
      intro e he hsource
      obtain ⟨r, hr, heq⟩ := hd.source_mem e he
      have hrs : r = s := Endpoint.state.inj (heq.symm.trans (of_decide_eq_true hsource))
      apply hs (hrs ▸ hr)
  · intro e he
    obtain ⟨r, hr, heq⟩ := hd.source_mem e he
    use r, hstates ▸ List.mem_append_left _ hr
  · intro e he
    obtain ⟨r, hr, hne, heq⟩ := hd.target_mem e he
    use r, hstates ▸ List.mem_append_left _ hr

theorem exists_state_of_hasEnd {x : Endpoint} (h : d.hasEnd x = true) :
  ∃ s ∈ d.states, x = .state s
  := by
  obtain ⟨s, hs, heq⟩ := List.any_eq_true.mp h
  use s, hs
  apply of_decide_eq_true heq

/-- An added edge runs between states of the diagram and does not lead to the pseudostate. -/
theorem addEdge_ends (h : d.addEdge e = .ok d') :
  (∃ s ∈ d.states, e.source = .state s)
    ∧ (∃ s ∈ d.states, s ≠ d.pseudo ∧ e.target = .state s)
    ∧ d' = { d with nodes := d.nodes.map (atEnds e (· ++ [e])), edges := d.edges ++ [e] }
  := by
  unfold addEdge at h
  split at h
  · cases h
  · rename_i hsource
    split at h
    · cases h
    · rename_i htarget
      split at h
      · cases h
      · rename_i hpseudo
        obtain rfl := Except.ok.inj h
        rw [Bool.not_eq_true', Bool.not_eq_false] at hsource htarget
        use exists_state_of_hasEnd hsource
        constructor
        · obtain ⟨s, hs, heq⟩ := exists_state_of_hasEnd htarget
          use s, hs
          constructor
          · rintro rfl
            apply hpseudo heq
          · apply heq
        · rfl

theorem states_map_atEnds (nodes : List Node) (f : List Edge → List Edge) :
  (nodes.map (atEnds e f)).map Node.state = nodes.map Node.state
  := by
  rw [List.map_map]
  rfl

/-- Well-formedness is kept by a change of all edges that changes the edges at either end of one
edge likewise, and after which every edge has its ends in the diagram. -/
theorem WellFormed.mapEdges (hd : d.WellFormed) {f : List Edge → List Edge}
    (hf : ∀ (test : Edge → Bool) (edges : List Edge),
      (f edges).filter test = if test e then f (edges.filter test) else edges.filter test)
    (hsource : ∀ x ∈ f d.edges, ∃ s ∈ d.states, x.source = .state s)
    (htarget : ∀ x ∈ f d.edges, ∃ s ∈ d.states, s ≠ d.pseudo ∧ x.target = .state s) :
  WellFormed { d with nodes := d.nodes.map (atEnds e f), edges := f d.edges }
  := by
  have hstates : states { d with nodes := d.nodes.map (atEnds e f), edges := f d.edges } =
      d.states := states_map_atEnds d.nodes f
  constructor
  · apply hd.isPseudo_pseudo
  · rw [hstates]
    apply hd.head?_states
  · rw [hstates]
    apply hd.eq_pseudo
  · rw [hstates]
    apply hd.nodup_names
  · intro n hn
    obtain ⟨n, hmem, rfl⟩ := List.mem_map.mp hn
    rw [atEnds, hf, ← hd.incoming_eq n hmem]
    simp
  · intro n hn
    obtain ⟨n, hmem, rfl⟩ := List.mem_map.mp hn
    rw [atEnds, hf, ← hd.outgoing_eq n hmem]
    simp
  · rw [hstates]
    apply hsource
  · rw [hstates]
    apply htarget

/-- Adding an edge to the part of a list that satisfies a test. -/
theorem filter_append_eq (f : Edge → Bool) (edges : List Edge) :
  (edges ++ [e]).filter f = if f e then edges.filter f ++ [e] else edges.filter f
  := by
  rw [List.filter_append]
  split
  · rename_i hf
    rw [List.filter_cons_of_pos hf, List.filter_nil]
  · rename_i hf
    rw [List.filter_cons_of_neg hf, List.filter_nil, List.append_nil]

/-- An edge may be added between states, unless it leads to the pseudostate. -/
theorem WellFormed.addEdge (hd : d.WellFormed) (h : d.addEdge e = .ok d') :
  d'.WellFormed
  := by
  obtain ⟨hsource, htarget, rfl⟩ := addEdge_ends h
  apply hd.mapEdges filter_append_eq
  · intro x hx
    obtain hx | hx := List.mem_append.mp hx
    · apply hd.source_mem x hx
    · rw [List.mem_singleton.mp hx]
      apply hsource
  · intro x hx
    obtain hx | hx := List.mem_append.mp hx
    · apply hd.target_mem x hx
    · rw [List.mem_singleton.mp hx]
      apply htarget

/-! ### Erasing -/

/-- Erasing an edge from the part of a list that satisfies a test. -/
theorem filter_erase_eq (f : Edge → Bool) (edges : List Edge) :
  (edges.erase e).filter f = if f e then (edges.filter f).erase e else edges.filter f
  := by
  rw [← List.erase_filter]
  split
  · rfl
  · rename_i hf
    apply List.erase_of_not_mem
    intro hmem
    apply hf (List.mem_filter.mp hmem).2

/-- The first copy of an edge may be erased. -/
theorem WellFormed.eraseEdge (hd : d.WellFormed) (e : Edge) :
  (d.eraseEdge e).WellFormed
  := by
  apply hd.mapEdges filter_erase_eq
  · intro x hx
    apply hd.source_mem x (List.mem_of_mem_erase hx)
  · intro x hx
    apply hd.target_mem x (List.mem_of_mem_erase hx)

theorem states_eraseState (d : Diagram) (s : State) :
  (d.eraseState s).states = d.states.filter (· ≠ s)
  := by
  simp only [states, eraseState, List.filter_map]
  rfl

/-- A state other than the pseudostate may be erased when no edge touches it. -/
theorem WellFormed.eraseState (hd : d.WellFormed) (hs : s ≠ d.pseudo)
    (hedges : ∀ e ∈ d.edges, e.source ≠ .state s ∧ e.target ≠ .state s) :
  (d.eraseState s).WellFormed
  := by
  have hstates := states_eraseState d s
  have hsub : (d.eraseState s).states ⊆ d.states := by
    rw [hstates]
    apply List.filter_subset_self
  have hmem : ∀ r ∈ d.states, r ≠ s → r ∈ (d.eraseState s).states := by
    intro r hr hne
    rw [hstates]
    apply List.mem_filter.mpr ⟨hr, decide_eq_true hne⟩
  constructor
  · apply hd.isPseudo_pseudo
  · have hhead := hd.head?_states
    rw [hstates]
    rcases hl : d.states with _ | ⟨r, rest⟩
    · rw [hl] at hhead
      cases hhead
    · rw [hl] at hhead
      obtain rfl : r = d.pseudo := Option.some.inj hhead
      rw [List.filter_cons_of_pos]
      · rfl
      · apply decide_eq_true hs.symm
  · intro r hr hp
    apply hd.eq_pseudo r (hsub hr) hp
  · rw [hstates]
    apply (List.filter_sublist.map State.name).nodup hd.nodup_names
  · intro n hn
    apply hd.incoming_eq n (List.mem_filter.mp hn).1
  · intro n hn
    apply hd.outgoing_eq n (List.mem_filter.mp hn).1
  · intro e he
    obtain ⟨r, hr, heq⟩ := hd.source_mem e he
    use r
    constructor
    · apply hmem r hr
      rintro rfl
      apply (hedges e he).1 heq
    · apply heq
  · intro e he
    obtain ⟨r, hr, hne, heq⟩ := hd.target_mem e he
    use r
    constructor
    · apply hmem r hr
      rintro rfl
      apply (hedges e he).2 heq
    · exact ⟨hne, heq⟩

end Diagram

end AssemblySemantics
