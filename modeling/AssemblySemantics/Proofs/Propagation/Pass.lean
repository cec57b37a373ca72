import AssemblySemantics.Proofs.Diagram.Order
import AssemblySemantics.Proofs.Propagation.Store
import Mathlib.Logic.Function.Iterate

/-!
# One pass

`passed` is the cache that a pass leaves. Every state has then the join of what its incoming
transitions reach, where those that come from earlier states read what the pass has stored
for their sources, and the others what was there before.
-/

namespace AssemblySemantics

namespace Cache

/-- The region and the exit zones that are stored for a state. -/
def record (c : Cache) (s : State) : StateRecord := ⟨c.stateRegion s, c.stateZones s⟩

theorem record_forgetState (c : Cache) (s s' : State) :
  (c.forgetState s).record s' = if s = s' then ⟨c.bottom, ∅⟩ else c.record s'
  := by
  rw [record, stateRegion_forgetState, stateZones_forgetState]
  split <;> rfl

end Cache

namespace Model

/-- What an edge reaches from what is stored for its source. -/
def reached (m : Model) (c : Cache) : Edge → Region
  | .link _ => m.bottom
  | .transition t =>
    t.reach (c.stateRegion t.source) (c.stateZones t.source).toList m.assembly m.config.basis

/-- The join of what the incoming edges of a state reach. -/
def joined (m : Model) (c : Cache) (s : State) : Region :=
  .unions m.assembly.id ((m.diagram.incoming s).map (m.reached c))

/-- The cache after the join was stored for a state. -/
def renew (m : Model) (c : Cache) (s : State) : Cache := m.stow c s (m.joined c s)

/-- The cache after a pass. -/
def passed (m : Model) (c : Cache) : Cache :=
  m.diagram.transitions.foldl m.fill
    (m.properStates.foldl m.renew (m.stow c m.diagram.pseudo m.assembly.initial))

/-- What a pass reads before it has stored it itself belongs to the assembly. -/
def Readable (m : Model) (c : Cache) : Prop :=
  ∀ t ∈ m.diagram.transitions,
    m.diagram.Precedes t.source t.target ∨ (c.stateRegion t.source).assembly = m.assembly.id

/-- The regions that are stored for the states belong to the assembly. -/
def Owns (m : Model) (c : Cache) : Prop :=
  ∀ s ∈ m.diagram.states, (c.stateRegion s).assembly = m.assembly.id

variable {m : Model} {c c' : Cache} {s s' : State} {t : Transition} {r : Region}
  {b : Configuration} {states before after : List State}

/-! ### What a pass joins -/

theorem mem_joined :
  b ∈ m.joined c s
    ↔ ∃ t, .transition t ∈ m.diagram.incoming s ∧ b ∈ m.reached c (.transition t)
  := by
  simp only [joined, Region.mem_unions, List.mem_map, exists_exists_and_eq_and]
  constructor
  · rintro ⟨e, he, hb⟩
    cases e with
    | link l => apply (Region.not_mem_bottom hb).elim
    | transition t => exact ⟨t, he, hb⟩
  · rintro ⟨t, ht, hb⟩
    exact ⟨.transition t, ht, hb⟩

/-- A transition reaches the same over two caches that store the same for its source. -/
theorem reached_congr (h : c.record t.source = c'.record t.source) :
  m.reached c (.transition t) = m.reached c' (.transition t)
  := by
  obtain ⟨hregion, hzones⟩ := StateRecord.mk.inj h
  rw [reached, reached, hregion, hzones]

/-- A state gets the same join from two caches that store the same for the sources of its
incoming transitions. -/
theorem joined_congr (hd : m.diagram.WellFormed) (hs : s ∈ m.diagram.states)
    (h : ∀ t ∈ m.diagram.transitions, t.target = s → c.record t.source = c'.record t.source) :
  m.joined c s = m.joined c' s
  := by
  apply congrArg (Region.unions m.assembly.id)
  apply List.map_congr_left
  intro e he
  cases e with
  | link l => rfl
  | transition t =>
    obtain ⟨ht, htarget⟩ := (hd.mem_incoming_iff hs).mp he
    apply reached_congr (h t ht htarget)

/-! ### What is stored after a pass -/

@[simp]
theorem record_stow :
  (m.stow c s r).record s' = if s = s' then ⟨r, r.zones m.assembly⟩ else c.record s'
  := by
  rw [Cache.record, stateRegion_stow, stateZones_stow]
  split <;> rfl

theorem record_foldl_fill (transitions : List Transition) :
  (transitions.foldl m.fill c).record s = c.record s
  := by
  rw [Cache.record, stateRegion_foldl_fill, stateZones_foldl_fill]
  rfl

/-- What is stored for a state stays when other states are renewed. -/
theorem record_foldl_renew_of_notMem (hs : s ∉ states) :
  (states.foldl m.renew c).record s = c.record s
  := by
  apply read_foldl_eq (·.record s)
  intro c' s' hs'
  apply record_stow.trans
  rw [if_neg]
  rintro rfl
  apply hs hs'

/-- When several states are renewed in order, each gets the join over the cache in which
those before it were renewed. -/
theorem record_foldl_renew (hs : s ∉ after) :
  ((before ++ s :: after).foldl m.renew c).record s =
    ⟨m.joined (before.foldl m.renew c) s, (m.joined (before.foldl m.renew c) s).zones m.assembly⟩
  := by
  rw [List.foldl_append, List.foldl_cons, record_foldl_renew_of_notMem hs, renew, record_stow,
    if_pos rfl]

/-- After a pass the pseudostate has the initial region. -/
theorem record_passed_pseudo (h : m.diagram.WellFormed) :
  (m.passed c).record m.diagram.pseudo =
    ⟨m.assembly.initial, m.assembly.initial.zones m.assembly⟩
  := by
  rw [passed, record_foldl_fill, record_foldl_renew_of_notMem (pseudo_not_mem_properStates h),
    record_stow, if_pos rfl]

/-- When a pass comes to a state, everything that comes before the state is as after the pass,
and everything else as before it. -/
theorem record_foldl_renew_before (h : m.diagram.WellFormed) (c : Cache)
    (hsplit : m.properStates = before ++ s :: after) (r : State) :
  (before.foldl m.renew (m.stow c m.diagram.pseudo m.assembly.initial)).record r =
    if m.diagram.Precedes r s then (m.passed c).record r else c.record r
  := by
  by_cases hr : m.diagram.Precedes r s
  · rw [if_pos hr, passed, record_foldl_fill, hsplit, List.foldl_append,
      record_foldl_renew_of_notMem (not_mem_cons_of_precedes h hsplit hr)]
  · obtain ⟨hne, hbefore⟩ := not_or.mp (mt (precedes_iff h hsplit).mpr hr)
    rw [if_neg hr, record_foldl_renew_of_notMem hbefore, record_stow, if_neg (Ne.symm hne)]

/-- After a pass a state has the join over a cache in which everything that comes before the
state is as after the pass, and everything else as before it. -/
theorem record_passed (h : m.diagram.WellFormed) (c : Cache) (hs : s ∈ m.properStates) :
  ∃ d : Cache,
    (m.passed c).record s = ⟨m.joined d s, (m.joined d s).zones m.assembly⟩
      ∧ ∀ r, d.record r =
        if m.diagram.Precedes r s then (m.passed c).record r else c.record r
  := by
  obtain ⟨before, after, hsplit⟩ := List.append_of_mem hs
  refine ⟨_, ?_, record_foldl_renew_before h c hsplit⟩
  rw [passed, record_foldl_fill, hsplit, record_foldl_renew (not_mem_after h hsplit)]

/-- A pass stores nothing for what is not a state of the diagram. -/
theorem record_passed_of_notMem (h : m.diagram.WellFormed) (c : Cache)
    (hs : s ∉ m.diagram.states) :
  (m.passed c).record s = c.record s
  := by
  rw [passed, record_foldl_fill, record_foldl_renew_of_notMem, record_stow, if_neg]
  · rintro rfl
    apply hs h.pseudo_mem
  · intro hproper
    apply hs (mem_properStates.mp hproper).1

/-- After a pass every state has a region of the assembly, with the exit zones of it. -/
theorem exists_record_passed (h : m.diagram.WellFormed) (c : Cache) (hs : s ∈ m.diagram.states) :
  ∃ r : Region, r.assembly = m.assembly.id ∧ (m.passed c).record s = ⟨r, r.zones m.assembly⟩
  := by
  obtain rfl | hs := eq_pseudo_or_mem_properStates h hs
  · exact ⟨_, m.assembly.assembly_initial, record_passed_pseudo h⟩
  · obtain ⟨d, hrecord, -⟩ := record_passed h c hs
    exact ⟨_, rfl, hrecord⟩

theorem assembly_stateRegion_passed (h : m.diagram.WellFormed) (c : Cache)
    (hs : s ∈ m.diagram.states) :
  ((m.passed c).stateRegion s).assembly = m.assembly.id
  := by
  obtain ⟨r, hr, hrecord⟩ := exists_record_passed h c hs
  rw [(StateRecord.mk.inj hrecord).1]
  apply hr

theorem stateZones_passed (h : m.diagram.WellFormed) (c : Cache) (hs : s ∈ m.diagram.states) :
  (m.passed c).stateZones s = ((m.passed c).stateRegion s).zones m.assembly
  := by
  obtain ⟨r, -, hrecord⟩ := exists_record_passed h c hs
  obtain ⟨hregion, hzones⟩ := StateRecord.mk.inj hrecord
  rw [hregion, hzones]

/-- After a pass a transition reaches its image of the region of its source. -/
theorem reached_passed (h : m.diagram.WellFormed) (c : Cache) (ht : t ∈ m.diagram.transitions) :
  m.reached (m.passed c) (.transition t) =
    t.image ((m.passed c).stateRegion t.source) m.assembly m.config.basis
  := by
  rw [reached, stateZones_passed h c (h.source_mem_states ht), Transition.image]

/-- After a pass every transition has its image of the region of its source. -/
theorem edgeRegion_passed (h : m.diagram.WellFormed) (c : Cache)
    (ht : t ∈ m.diagram.transitions) :
  (m.passed c).edgeRegion (.transition t) =
    t.image ((m.passed c).stateRegion t.source) m.assembly m.config.basis
  := by
  rw [← reached_passed h c ht, passed, edgeRegion_foldl_fill ht, reached, stateRegion_foldl_fill,
    stateZones_foldl_fill]

theorem Owns.readable (hc : m.Owns c) (h : m.diagram.WellFormed) :
  m.Readable c
  := by
  intro t ht
  right
  apply hc t.source (h.source_mem_states ht)

/-- Where nothing is stored, everything belongs to the assembly. -/
theorem owns_empty (m : Model) :
  m.Owns (.empty m.assembly.id)
  := fun _ _ => rfl

theorem owns_passed (h : m.diagram.WellFormed) (c : Cache) :
  m.Owns (m.passed c)
  := fun _ hs => assembly_stateRegion_passed h c hs

end Model

end AssemblySemantics
