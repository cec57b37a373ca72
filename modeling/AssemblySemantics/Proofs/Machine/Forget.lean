import AssemblySemantics.Proofs.Machine.History
import AssemblySemantics.Proofs.Propagation.Pass

/-!
# What changes of a diagram leave in the cache

A change of the diagram forgets the states and the edges that it erases, which read as the empty
region then, and touches nothing else in the cache.
-/

namespace AssemblySemantics

namespace Machine

/-- The states that a change is to erase. -/
def Edit.erasedStates : Edit → List State
  | removeState s => [s]
  | _ => []

/-- The edges that a change is to erase, of each copy one. -/
def Edit.erasedEdges (d : Diagram) : Edit → List Edge
  | removeEdge e => [e]
  | removeState s => d.touching s
  | _ => []

/-- The states that a change is to add. -/
def Edit.addedStates : Edit → List State
  | addState s => [s]
  | _ => []

/-- The edges that a change is to add. -/
def Edit.addedEdges : Edit → List Edge
  | addEdge e => [e]
  | _ => []

variable {m m' m'' : Machine} {x : Edit} {s : State} {e : Edge}

/-! ### Erasing edges -/

theorem record_dropEdge (m : Machine) (e : Edge) (s : State) :
  (m.dropEdge e).cache.record s = m.cache.record s
  := by
  rw [dropEdge]
  split <;> rfl

theorem edgeRegion_dropEdge (m : Machine) (e e' : Edge) :
  (m.dropEdge e).cache.edgeRegion e' =
    if e = e' ∧ e' ∈ m.diagram.edges then m.cache.bottom else m.cache.edgeRegion e'
  := by
  by_cases he : e ∈ m.diagram.edges
  · rw [dropEdge, if_pos he]
    apply (Cache.edgeRegion_forgetEdge _ _ _).trans
    by_cases heq : e = e'
    · rw [if_pos heq, if_pos ⟨heq, heq ▸ he⟩]
    · rw [if_neg heq, if_neg fun h => heq h.1]
  · rw [dropEdge, if_neg he, if_neg]
    rintro ⟨rfl, he'⟩
    apply he he'

theorem states_dropEdge (m : Machine) (e : Edge) :
  (m.dropEdge e).diagram.states = m.diagram.states
  := by
  rw [dropEdge]
  split
  · apply Diagram.states_eraseEdge
  · rfl

theorem states_foldl_dropEdge (m : Machine) (edges : List Edge) :
  (edges.foldl dropEdge m).diagram.states = m.diagram.states
  := by
  induction edges generalizing m with
  | nil => rfl
  | cons e edges ih => rw [List.foldl_cons, ih, states_dropEdge]

theorem record_foldl_dropEdge (m : Machine) (edges : List Edge) (s : State) :
  (edges.foldl dropEdge m).cache.record s = m.cache.record s
  := by
  induction edges generalizing m with
  | nil => rfl
  | cons e edges ih => rw [List.foldl_cons, ih, record_dropEdge]

theorem assembly_dropEdge (m : Machine) (e : Edge) :
  (m.dropEdge e).cache.assembly = m.cache.assembly
  := by
  rw [dropEdge]
  split <;> rfl

theorem assembly_foldl_dropEdge (m : Machine) (edges : List Edge) :
  (edges.foldl dropEdge m).cache.assembly = m.cache.assembly
  := by
  induction edges generalizing m with
  | nil => rfl
  | cons e edges ih => rw [List.foldl_cons, ih, assembly_dropEdge]

/-- Every edge that is erased, in one copy or in several, is forgotten, and no other one is. -/
theorem edgeRegion_foldl_dropEdge (m : Machine) (edges : List Edge) (e : Edge) :
  (edges.foldl dropEdge m).cache.edgeRegion e =
    if e ∈ edges ∧ e ∈ m.diagram.edges then m.cache.bottom else m.cache.edgeRegion e
  := by
  induction edges generalizing m with
  | nil => simp
  | cons e' edges ih =>
    have hbottom : (m.dropEdge e').cache.bottom = m.cache.bottom :=
      congrArg Region.bottom (assembly_dropEdge m e')
    rw [List.foldl_cons, ih, edgeRegion_dropEdge, edges_dropEdge, hbottom]
    by_cases heq : e' = e
    · subst heq
      by_cases he : e' ∈ m.diagram.edges
      · simp [he]
      · simp [he, List.erase_of_not_mem he]
    · simp [heq, Ne.symm heq, List.mem_erase_of_ne (Ne.symm heq)]

/-! ### One change -/

/-- What a change does: it erases and adds states and edges, and what it erases is forgotten. -/
structure Effect (m : Machine) (x : Edit) (m' : Machine) : Prop where
  pseudo : m'.diagram.pseudo = m.diagram.pseudo
  states : m'.diagram.states =
    m.diagram.states.filter (fun s => s ∉ x.erasedStates) ++ x.addedStates
  edges : m'.diagram.edges = m.diagram.edges.diff (x.erasedEdges m.diagram) ++ x.addedEdges
  assembly : m'.cache.assembly = m.cache.assembly
  record : ∀ s, m'.cache.record s =
    if s ∈ x.erasedStates then ⟨m.cache.bottom, ∅⟩ else m.cache.record s
  edgeRegion : ∀ e, m'.cache.edgeRegion e =
    if e ∈ x.erasedEdges m.diagram ∧ e ∈ m.diagram.edges then m.cache.bottom
    else m.cache.edgeRegion e

theorem effect_of_edit (hx : m.edit x = .ok m') :
  m.Effect x m'
  := by
  cases x with
  | addState s =>
    obtain ⟨d, hd, rfl⟩ := addState_eq_ok hx
    have hstates := Diagram.states_addState hd
    obtain ⟨-, -, rfl⟩ := Diagram.addState_eq_ok hd
    constructor
    · rfl
    · simpa [Edit.erasedStates, Edit.addedStates] using hstates
    · apply (List.append_nil _).symm
    · rfl
    · intro s
      rfl
    · intro e
      rw [if_neg fun h => List.not_mem_nil h.1]
  | addEdge e =>
    obtain ⟨d, hd, rfl⟩ := addEdge_eq_ok hx
    obtain ⟨hedges, hstates, hpseudo⟩ := Diagram.addEdge_eq_ok hd
    constructor
    · apply hpseudo
    · simpa [Edit.erasedStates, Edit.addedStates] using hstates
    · apply hedges
    · rfl
    · intro s
      rfl
    · intro e'
      rw [if_neg fun h => List.not_mem_nil h.1]
  | removeEdge e =>
    obtain ⟨-, rfl⟩ := removeEdge_eq_ok hx
    constructor
    · apply pseudo_dropEdge
    · simpa [Edit.erasedStates, Edit.addedStates] using states_dropEdge m e
    · apply (edges_foldl_dropEdge m [e]).trans (List.append_nil _).symm
    · apply assembly_dropEdge
    · apply record_dropEdge
    · apply edgeRegion_foldl_dropEdge m [e]
  | removeState s =>
    obtain ⟨-, -, rfl⟩ := removeState_eq_ok hx
    constructor
    · apply pseudo_foldl_dropEdge
    · rw [Diagram.states_eraseState, states_foldl_dropEdge]
      simp [Edit.erasedStates, Edit.addedStates]
    · apply (edges_foldl_dropEdge m (m.diagram.touching s)).trans (List.append_nil _).symm
    · apply assembly_foldl_dropEdge
    · intro s'
      have hrecord := record_foldl_dropEdge m (m.diagram.touching s) s'
      apply (Cache.record_forgetState _ s s').trans
      rw [hrecord, Cache.bottom, assembly_foldl_dropEdge]
      apply if_congr (eq_comm.trans List.mem_singleton.symm) rfl rfl
    · apply edgeRegion_foldl_dropEdge m (m.diagram.touching s)

theorem pseudo_edit (hx : m.edit x = .ok m') :
  m'.diagram.pseudo = m.diagram.pseudo
  := (effect_of_edit hx).pseudo

/-- A state that goes was to be erased. -/
theorem Effect.mem_erasedStates (h : m.Effect x m') (hs : s ∈ m.diagram.states)
    (hs' : s ∉ m'.diagram.states) :
  s ∈ x.erasedStates
  := by
  rw [h.states] at hs'
  by_contra hne
  apply hs' (List.mem_append_left _ (List.mem_filter.mpr ⟨hs, decide_eq_true hne⟩))

/-- An edge of which nothing is left was to be erased. -/
theorem Effect.mem_erasedEdges (h : m.Effect x m') (he : e ∈ m.diagram.edges)
    (he' : e ∉ m'.diagram.edges) :
  e ∈ x.erasedEdges m.diagram
  := by
  rw [h.edges] at he'
  by_contra hne
  apply he' (List.mem_append_left _ (List.mem_diff_of_mem he hne))

/-- A state that is to be erased is there, and goes. -/
theorem notMem_states_of_mem_erasedStates (hx : m.edit x = .ok m') (hs : s ∈ x.erasedStates) :
  s ∈ m.diagram.states ∧ s ∉ m'.diagram.states
  := by
  cases x with
  | addState | addEdge | removeEdge => cases hs
  | removeState s' =>
    obtain rfl := List.mem_singleton.mp hs
    constructor
    · apply (removeState_eq_ok hx).2.1
    · rw [(effect_of_edit hx).states]
      simp [Edit.erasedStates, Edit.addedStates]

/-! ### What is forgotten at most -/

/-- The cache of one machine stores for each state and each edge what the cache of another one
does, where nothing that the other one has is missing, or else nothing. -/
structure Forgets (m m' : Machine) : Prop where
  assembly : m'.cache.assembly = m.cache.assembly
  record : ∀ s, (m'.cache.record s = m.cache.record s
      ∧ (s ∈ m.diagram.states → s ∈ m'.diagram.states))
    ∨ m'.cache.record s = ⟨m'.cache.bottom, ∅⟩
  edge : ∀ e, (m'.cache.edgeRegion e = m.cache.edgeRegion e
      ∧ (e ∈ m.diagram.edges → e ∈ m'.diagram.edges))
    ∨ m'.cache.edgeRegion e = m'.cache.bottom

theorem Forgets.bottom (h : m.Forgets m') :
  m'.cache.bottom = m.cache.bottom
  := congrArg Region.bottom h.assembly

theorem Forgets.refl (m : Machine) :
  m.Forgets m
  := ⟨rfl, fun _ => .inl ⟨rfl, id⟩, fun _ => .inl ⟨rfl, id⟩⟩

theorem Forgets.trans (h : m.Forgets m') (h' : m'.Forgets m'') :
  m.Forgets m''
  := by
  constructor
  · rw [h'.assembly, h.assembly]
  · intro s
    obtain ⟨hkept', hmem'⟩ | hlost' := h'.record s
    · obtain ⟨hkept, hmem⟩ | hlost := h.record s
      · left
        exact ⟨hkept'.trans hkept, fun hs => hmem' (hmem hs)⟩
      · right
        rw [hkept', hlost, h'.bottom]
    · right
      apply hlost'
  · intro e
    obtain ⟨hkept', hmem'⟩ | hlost' := h'.edge e
    · obtain ⟨hkept, hmem⟩ | hlost := h.edge e
      · left
        exact ⟨hkept'.trans hkept, fun he => hmem' (hmem he)⟩
      · right
        rw [hkept', hlost, h'.bottom]
    · right
      apply hlost'

/-- A change of the diagram forgets what it removes. -/
theorem forgets_edit (hx : m.edit x = .ok m') :
  m.Forgets m'
  := by
  have heffect := effect_of_edit hx
  have hbottom : m'.cache.bottom = m.cache.bottom := congrArg Region.bottom heffect.assembly
  constructor
  · apply heffect.assembly
  · intro s
    by_cases hs : s ∈ x.erasedStates
    · right
      rw [heffect.record, if_pos hs, hbottom]
    · left
      rw [heffect.record, if_neg hs]
      use rfl
      intro hmem
      by_contra hgone
      apply hs (heffect.mem_erasedStates hmem hgone)
  · intro e
    by_cases he : e ∈ x.erasedEdges m.diagram ∧ e ∈ m.diagram.edges
    · right
      rw [heffect.edgeRegion, if_pos he, hbottom]
    · left
      rw [heffect.edgeRegion, if_neg he]
      use rfl
      intro hmem
      by_contra hgone
      apply he ⟨heffect.mem_erasedEdges hmem hgone, hmem⟩

end Machine

end AssemblySemantics
