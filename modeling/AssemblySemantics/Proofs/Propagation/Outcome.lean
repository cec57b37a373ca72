import AssemblySemantics.Proofs.Propagation.Pass

/-!
# The outcome of a pass

A pass may meet regions of other assemblies in the cache. It is refused exactly when the cache
is not `Passable`: a transition then reads such a region before the pass has stored another one
for its source. Whenever a pass succeeds it leaves the cache `passed`. It is never refused when
what it reads belongs to the assembly, and then neither is any number of passes after it.
-/

namespace AssemblySemantics

namespace Pass

variable {α β : Type} {p : Pass α} {f : α → Pass β} {x : α} {c c' : Cache} {fits : Prop}
  {Q : α → Cache → Prop} {R : β → Cache → Prop}

/-- A pass over a cache succeeds, and its result and the cache that it leaves satisfy a
condition; instead it may be refused, but only if something does not fit. -/
def Ensures (p : Pass α) (fits : Prop) (c : Cache) (Q : α → Cache → Prop) : Prop :=
  ∀ events,
    (∃ x c' events', p.run ⟨c, events⟩ = (.ok x, ⟨c', events'⟩) ∧ Q x c')
      ∨ (¬ fits ∧ ∃ e progress, p.run ⟨c, events⟩ = (.error e, progress))

theorem Yields.ensures (hp : p.Yields c x c') (hQ : Q x c') :
  p.Ensures fits c Q
  := by
  intro events
  left
  obtain ⟨events', hrun⟩ := hp events
  exact ⟨x, c', events', hrun, hQ⟩

/-- Where all fits, a pass yields the only result and the only cache that satisfy what it
ensures. -/
theorem Ensures.yields (hp : p.Ensures fits c Q) (hfits : fits)
    (hQ : ∀ y d, Q y d → y = x ∧ d = c') :
  p.Yields c x c'
  := by
  intro events
  obtain ⟨y, d, events', hrun, hy⟩ | ⟨hnot, -⟩ := hp events
  · obtain ⟨rfl, rfl⟩ := hQ y d hy
    exact ⟨events', hrun⟩
  · apply (hnot hfits).elim

/-- A pass that has succeeded has left what it ensures. -/
theorem Ensures.of_run (hp : p.Ensures fits c Q) {events : List Event} {progress : Progress}
    (hrun : p.run ⟨c, events⟩ = (.ok x, progress)) :
  Q x progress.cache
  := by
  obtain ⟨y, d, events', hrun', hy⟩ | ⟨-, e, progress', hrun'⟩ := hp events
  · rw [hrun] at hrun'
    cases hrun'
    apply hy
  · rw [hrun] at hrun'
    cases hrun'

theorem Ensures.weaken {Q' : α → Cache → Prop} (hp : p.Ensures fits c Q)
    (hQ : ∀ x c', Q x c' → Q' x c') :
  p.Ensures fits c Q'
  := by
  intro events
  obtain ⟨x, c', events', hrun, hx⟩ | hrefused := hp events
  · left
    exact ⟨x, c', events', hrun, hQ x c' hx⟩
  · right
    apply hrefused

theorem Ensures.bind (hp : p.Ensures fits c Q)
    (hf : ∀ x c', Q x c' → (f x).Ensures fits c' R) :
  (p >>= f).Ensures fits c R
  := by
  intro events
  obtain ⟨x, c', events', hrun, hQ⟩ | ⟨hnot, e, progress, hrun⟩ := hp events
  · rw [run_bind_of_ok hrun]
    apply hf x c' hQ
  · right
    exact ⟨hnot, e, progress, run_bind_of_error hrun⟩

theorem Yields.ensures_bind (hp : p.Yields c x c') (hf : (f x).Ensures fits c' R) :
  (p >>= f).Ensures fits c R
  := by
  intro events
  obtain ⟨events', hrun⟩ := hp events
  rw [run_bind_of_ok hrun]
  apply hf

theorem Ensures.ofExcept {e : Except RegionError α} (hok : ∀ x, e = .ok x → Q x c)
    (hfits : fits → ∃ x, e = .ok x) :
  (MonadExcept.ofExcept e : Pass α).Ensures fits c Q
  := by
  cases e with
  | ok x => apply (Yields.ofExcept rfl c).ensures (hok x rfl)
  | error e =>
    intro events
    right
    constructor
    · intro h
      obtain ⟨x, hx⟩ := hfits h
      cases hx
    · exact ⟨e, _, rfl⟩

end Pass

namespace Model

/-- What is stored for the source of a transition does not prevent that it is evaluated. -/
def Evaluates (m : Model) (c : Cache) (t : Transition) : Prop :=
  t.Reads (c.stateZones t.source).toList m.config.basis →
    (c.stateRegion t.source).assembly = m.assembly.id

/-- What a pass reads before it has stored it itself does not prevent that it is evaluated. -/
def Passable (m : Model) (c : Cache) : Prop :=
  ∀ t ∈ m.diagram.transitions, m.diagram.Precedes t.source t.target ∨ m.Evaluates c t

variable {m : Model} {c c' : Cache} {r : Region} {s : State} {t : Transition}
  {states before after : List State} {fits : Prop}

theorem evaluates_iff :
  m.Evaluates c t ↔ ∃ r, m.regionOver c t = .ok r
  := Transition.exists_contribution_iff.symm

/-- The region of a transition depends on what is stored for its source. -/
theorem regionOver_congr (h : c.record t.source = c'.record t.source) :
  m.regionOver c t = m.regionOver c' t
  := by
  obtain ⟨hregion, hzones⟩ := StateRecord.mk.inj h
  rw [regionOver, regionOver, hregion, hzones]

theorem evaluates_congr (h : c.record t.source = c'.record t.source) :
  m.Evaluates c t ↔ m.Evaluates c' t
  := by
  rw [evaluates_iff, evaluates_iff, regionOver_congr h]

theorem Readable.passable (h : m.Readable c) :
  m.Passable c
  := by
  intro t ht
  obtain hprecedes | htag := h t ht
  · left
    apply hprecedes
  · right
    intro _
    apply htag

/-- Evaluating a transition gives the configurations that it reaches, as a region of the
assembly. -/
theorem ensures_evaluate (hfits : fits → m.Evaluates c t) :
  (m.evaluate t).Ensures fits c fun u c' =>
    (u.assembly = m.assembly.id ∧ ∀ b, b ∈ u ↔ b ∈ m.reached c (.transition t))
      ∧ c' = c ∧ m.Evaluates c t
  := by
  rw [evaluate]
  apply (Pass.Yields.report t.notes c).ensures_bind
  apply (Pass.Yields.cache c).ensures_bind
  apply Pass.Ensures.ofExcept
  · intro u hu
    exact ⟨Transition.mem_contribution hu, rfl, evaluates_iff.mpr ⟨u, hu⟩⟩
  · intro h
    apply evaluates_iff.mp (hfits h)

/-- Joining one edge. -/
theorem ensures_joinEdge (hr : r.assembly = m.assembly.id) {e : Edge}
    (hfits : fits → ∀ t, e = .transition t → m.Evaluates c t) :
  (m.joinEdge s r e).Ensures fits c fun r' c' =>
    r' = r ∪ m.reached c e ∧ c' = c ∧ ∀ t, e = .transition t → m.Evaluates c t
  := by
  cases e with
  | link l =>
    have hunion : r ∪ m.reached c (.link l) = r :=
      Region.union_eq_left_iff.mpr Region.bottom_subset
    apply (Pass.Yields.bind (Pass.Yields.report _ c) (Pass.Yields.pure r c)).ensures
    refine ⟨hunion.symm, rfl, ?_⟩
    intro t ht
    cases ht
  | transition t =>
    apply (ensures_evaluate fun h => hfits h t rfl).bind
    rintro u c' ⟨⟨htag, hmem⟩, hc, hevaluates⟩
    apply (Pass.Yields.ofExcept (Region.join_of_eq (hr.trans htag.symm)) c').ensures
    refine ⟨?_, hc, ?_⟩
    · apply Region.ext (by rfl)
      intro b
      rw [Region.mem_union, Region.mem_union, hmem]
    · rintro t' ht'
      obtain rfl := Edge.transition.inj ht'
      apply hevaluates

theorem ensures_foldlM_joinEdge (hr : r.assembly = m.assembly.id) {edges : List Edge}
    (hfits : fits → ∀ t, .transition t ∈ edges → m.Evaluates c t) :
  (edges.foldlM (m.joinEdge s) r).Ensures fits c fun r' c' =>
    r' = r ∪ .unions m.assembly.id (edges.map (m.reached c)) ∧ c' = c
      ∧ ∀ t, .transition t ∈ edges → m.Evaluates c t
  := by
  induction edges generalizing r with
  | nil =>
    apply (Pass.Yields.pure r c).ensures
    rw [List.map_nil, Region.union_unions_nil]
    refine ⟨rfl, rfl, ?_⟩
    intro t ht
    cases ht
  | cons e edges ih =>
    rw [List.foldlM_cons, List.map_cons, Region.union_unions_cons]
    apply Pass.Ensures.bind
    · apply ensures_joinEdge hr
      rintro h t rfl
      apply hfits h t List.mem_cons_self
    · rintro r' c' ⟨rfl, hc, hhead⟩
      rw [hc]
      apply Pass.Ensures.weaken (ih (r := r ∪ m.reached c e) hr _)
      · rintro r'' c'' ⟨hr'', hc'', htail⟩
        refine ⟨hr'', hc'', ?_⟩
        intro t ht
        obtain heq | ht := List.mem_cons.mp ht
        · apply hhead t heq.symm
        · apply htail t ht
      · intro h t ht
        apply hfits h t (List.mem_cons_of_mem e ht)

/-- Computing the region of a state gives the join over its incoming edges, and stores the exit
zones of it. -/
theorem ensures_computeState (hs : s.isPseudo = false)
    (hfits : fits → ∀ t, .transition t ∈ m.diagram.incoming s → m.Evaluates c t) :
  (m.computeState s).Ensures fits c fun r' c' =>
    r' = m.joined c s ∧ c' = c.setStateZones s ((m.joined c s).zones m.assembly)
      ∧ ∀ t, .transition t ∈ m.diagram.incoming s → m.Evaluates c t
  := by
  have hjoin : ((m.diagram.incoming s).foldlM (m.joinEdge s) m.bottom).Ensures fits c
      fun r' c' => r' = m.joined c s ∧ c' = c
        ∧ ∀ t, .transition t ∈ m.diagram.incoming s → m.Evaluates c t := by
    rw [joined, ← Region.bottom_union_unions]
    apply ensures_foldlM_joinEdge rfl hfits
  rw [computeState, if_neg (by rw [hs]; apply Bool.false_ne_true)]
  apply hjoin.bind
  rintro r' c' ⟨rfl, hc, hevaluates⟩
  rw [hc]
  apply Pass.Yields.ensures _ ⟨rfl, rfl, hevaluates⟩
  apply Pass.Yields.bind (Pass.Yields.ofExcept (Region.exitZones_of_eq rfl) c)
  apply Pass.Yields.bind (Pass.Yields.update _ c)
  apply Pass.Yields.pure

/-- Storing the computed region of a state renews it. -/
theorem setStateRegion_joined (m : Model) (c : Cache) (s : State) :
  (c.setStateZones s ((m.joined c s).zones m.assembly)).setStateRegion s (m.joined c s) =
    m.renew c s
  := by
  rw [renew, stow, ← Cache.setStateRegion_setStateZones]

/-- Computing and storing the region of a state renews it. -/
theorem ensures_renew (hs : s.isPseudo = false)
    (hfits : fits → ∀ t, .transition t ∈ m.diagram.incoming s → m.Evaluates c t) :
  Pass.Ensures (do
    let r ← m.computeState s
    Pass.update (·.setStateRegion s r)) fits c fun _ c' =>
      c' = m.renew c s ∧ ∀ t, .transition t ∈ m.diagram.incoming s → m.Evaluates c t
  := by
  apply (ensures_computeState hs hfits).bind
  rintro r' c' ⟨rfl, rfl, hevaluates⟩
  apply (Pass.Yields.update _ _).ensures
  exact ⟨m.setStateRegion_joined c s, hevaluates⟩

/-- States are renewed in order. It fits that for each its incoming transitions are evaluated,
once those before it were renewed. -/
theorem ensures_forM_renew (hstates : ∀ s ∈ states, s.isPseudo = false)
    (hfits : fits → ∀ before s after, states = before ++ s :: after →
      ∀ t, .transition t ∈ m.diagram.incoming s → m.Evaluates (before.foldl m.renew c) t) :
  Pass.Ensures (states.forM fun s => do
    let r ← m.computeState s
    Pass.update (·.setStateRegion s r)) fits c fun _ c' => c' = states.foldl m.renew c
      ∧ ∀ before s after, states = before ++ s :: after →
        ∀ t, .transition t ∈ m.diagram.incoming s → m.Evaluates (before.foldl m.renew c) t
  := by
  induction states generalizing c with
  | nil =>
    apply (Pass.Yields.pure () c).ensures
    use rfl
    intro before s after hsplit
    cases before <;> cases hsplit
  | cons s states ih =>
    have hs : s.isPseudo = false := hstates s List.mem_cons_self
    apply (ensures_renew hs fun h => hfits h [] s states rfl).bind
    rintro _ _ ⟨rfl, hhead⟩
    apply Pass.Ensures.weaken (ih _ _)
    · rintro _ c' ⟨hc', htail⟩
      use hc'
      intro before s' after hsplit
      cases before with
      | nil =>
        obtain ⟨rfl, -⟩ := List.cons.inj hsplit
        apply hhead
      | cons s'' before =>
        obtain ⟨rfl, hrest⟩ := List.cons.inj hsplit
        apply htail before s' after hrest
    · intro s' hs'
      apply hstates s' (List.mem_cons_of_mem s hs')
    · intro h before s' after hsplit
      apply hfits h (s :: before) s' after
      rw [hsplit, List.cons_append]

/-- What a pass evaluates is a matter of the cache from which it starts: when it comes to a
state, what is stored for the sources of the incoming transitions is as before the pass or
belongs to the assembly. -/
theorem passable_iff (h : m.diagram.WellFormed) :
  m.Passable c ↔ ∀ before s after, m.properStates = before ++ s :: after →
    ∀ t, .transition t ∈ m.diagram.incoming s →
      m.Evaluates (before.foldl m.renew (m.stow c m.diagram.pseudo m.assembly.initial)) t
  := by
  have hsource : ∀ t ∈ m.diagram.transitions, ∀ before after,
      m.properStates = before ++ t.target :: after →
        (m.Evaluates (before.foldl m.renew (m.stow c m.diagram.pseudo m.assembly.initial)) t
          ↔ m.diagram.Precedes t.source t.target ∨ m.Evaluates c t) := by
    intro t ht before after hsplit
    have hrecord := record_foldl_renew_before h c hsplit t.source
    split at hrecord
    · rename_i hprecedes
      apply iff_of_true
      · apply (evaluates_congr hrecord).mpr
        intro _
        apply assembly_stateRegion_passed h c (h.source_mem_states ht)
      · left
        apply hprecedes
    · rename_i hlate
      rw [evaluates_congr hrecord, or_iff_right hlate]
  constructor
  · intro hc before s after hsplit t hincoming
    have hs : s ∈ m.properStates := by
      rw [hsplit]
      apply List.mem_append_right before List.mem_cons_self
    obtain ⟨ht, rfl⟩ := (h.mem_incoming_iff (mem_properStates.mp hs).1).mp hincoming
    apply (hsource t ht before after hsplit).mpr (hc t ht)
  · intro hc t ht
    have htarget := target_mem_properStates h ht
    obtain ⟨before, after, hsplit⟩ := List.append_of_mem htarget
    apply (hsource t ht before after hsplit).mp
    apply hc before _ after hsplit
    apply (h.mem_incoming_iff (mem_properStates.mp htarget).1).mpr ⟨ht, rfl⟩

/-- A pass leaves the cache `passed`, and it is refused exactly when something that it reads
prevents that it is evaluated. -/
theorem ensures_refresh_oneStep (h : m.diagram.WellFormed) (c : Cache) :
  (m.refresh .oneStep).Ensures (m.Passable c) c fun _ c' => c' = m.passed c ∧ m.Passable c
  := by
  have hsources : ∀ t ∈ m.diagram.transitions,
      ((m.properStates.foldl m.renew
        (m.stow c m.diagram.pseudo m.assembly.initial)).stateRegion t.source).assembly =
          m.assembly.id := by
    intro t ht
    have htag := assembly_stateRegion_passed h c (h.source_mem_states ht)
    rw [passed, stateRegion_foldl_fill] at htag
    apply htag
  rw [refresh, propagate]
  apply (Pass.Yields.report _ c).ensures_bind
  apply (m.yields_refreshPseudo c).ensures_bind
  apply Pass.Ensures.bind (ensures_forM_renew _ (passable_iff h).mp)
  · rintro _ _ ⟨rfl, hevaluates⟩
    apply (yields_refreshTransitions hsources).ensures_bind
    apply (Pass.Yields.report _ _).ensures ⟨rfl, (passable_iff h).mpr hevaluates⟩
  · intro s hs
    apply (mem_properStates.mp hs).2

end Model

namespace Machine

/-- The machine after a number of passes, if none is refused. -/
def passes : Nat → Machine → Except RegionError Machine
  | 0, m => .ok m
  | k + 1, m =>
    match m.run (·.refresh .oneStep) with
    | (.ok _, m', _) => passes k m'
    | (.error e, _, _) => .error e

variable {m m' : Machine} {events : List Event}

/-- A pass over a machine succeeds when nothing prevents that what it reads is evaluated. -/
theorem run_refresh_oneStep_of_passable (h : m.diagram.WellFormed) (hc : m.Passable m.cache) :
  ∃ events, m.run (·.refresh .oneStep) =
    (.ok (), { m with cache := m.passed m.cache }, events)
  := by
  apply run_of_yields
  apply (Model.ensures_refresh_oneStep h m.cache).yields hc
  rintro _ _ ⟨rfl, -⟩
  exact ⟨rfl, rfl⟩

/-- A pass over a machine succeeds when what it reads belongs to the assembly. -/
theorem run_refresh_oneStep (h : m.diagram.WellFormed) (hc : m.Readable m.cache) :
  ∃ events, m.run (·.refresh .oneStep) =
    (.ok (), { m with cache := m.passed m.cache }, events)
  := run_refresh_oneStep_of_passable h hc.passable

/-- A pass over a machine that has succeeded has left the cache `passed`, and nothing has
prevented it. -/
theorem cache_eq_passed_of_run (h : m.diagram.WellFormed)
    (hrun : m.run (·.refresh .oneStep) = (.ok (), m', events)) :
  m'.cache = m.passed m.cache ∧ m.Passable m.cache
  := by
  obtain ⟨progress, hpass, rfl⟩ := exists_progress_of_run hrun
  apply (Model.ensures_refresh_oneStep h m.cache).of_run hpass

/-- Passes from a cache that belongs to the assembly succeed. -/
theorem passes_eq (h : m.diagram.WellFormed) (hc : m.Owns m.cache) (k : Nat) :
  m.passes k = .ok { m with cache := m.passed^[k] m.cache }
  := by
  induction k generalizing m with
  | zero => rfl
  | succ k ih =>
    obtain ⟨events, hrun⟩ := run_refresh_oneStep h (hc.readable h)
    rw [passes, hrun]
    apply ih (m := { m with cache := m.passed m.cache }) h (Model.owns_passed h m.cache)

end Machine

end AssemblySemantics
