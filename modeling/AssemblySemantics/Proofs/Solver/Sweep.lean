import AssemblySemantics.Proofs.Contribution.Image
import AssemblySemantics.Solver

/-!
# A round of the solver

A round never fails, and what it does to the values does not depend on the exit zones that
are remembered: it is the `sweep`, which raises the value of every state, in order, by what
the incoming edges of the state offer under the present values. The round says whether the
sweep has changed the values.
-/

namespace AssemblySemantics

namespace Model

/-- The value of a state, the empty region if there is none. -/
def value (m : Model) (values : Table State Region) (s : State) : Region :=
  values.getD s m.bottom

/-- All values are regions of the assembly. -/
def Tagged (m : Model) (values : Table State Region) : Prop :=
  ∀ s r, values.get? s = some r → r.assembly = m.assembly.id

/-- What an edge offers to its target under given values. -/
def offer (m : Model) (basis : Basis) (values : Table State Region) : Edge → Region
  | .link _ => m.bottom
  | .transition t => t.image (m.value values t.source) m.assembly basis

/-- What the incoming edges of a state offer under given values. -/
def offered (m : Model) (basis : Basis) (values : Table State Region) (s : State) : Region :=
  .unions m.assembly.id ((m.diagram.incoming s).map (m.offer basis values))

/-- The values after a state has taken what is offered to it. -/
def raise (m : Model) (basis : Basis) (values : Table State Region) (s : State) :
    Table State Region :=
  let grown := m.value values s ∪ m.offered basis values s
  if grown = m.value values s then values else values.set s grown

/-- The values after every state has taken, in order, what is offered to it. -/
def sweep (m : Model) (basis : Basis) (values : Table State Region) : Table State Region :=
  m.properStates.foldl (m.raise basis) values

variable {m : Model} {basis : Basis} {v : Table State Region} {s : State} {c : Configuration}

/-! ### Raising values -/

theorem Tagged.assembly_value (h : m.Tagged v) (s : State) :
  (m.value v s).assembly = m.assembly.id
  := by
  rw [value, Table.getD]
  cases hr : v.get? s with
  | none => rfl
  | some r => apply h s r hr

/-- A state is offered the images of the values of the sources, under the transitions that
lead to it. -/
theorem mem_offered :
  c ∈ m.offered basis v s
    ↔ ∃ t, .transition t ∈ m.diagram.incoming s
      ∧ c ∈ t.image (m.value v t.source) m.assembly basis
  := by
  simp only [offered, Region.mem_unions, List.mem_map, exists_exists_and_eq_and]
  constructor
  · rintro ⟨e, he, hc⟩
    cases e with
    | link l => apply (Region.not_mem_bottom hc).elim
    | transition t => exact ⟨t, he, hc⟩
  · rintro ⟨t, ht, hc⟩
    exact ⟨.transition t, ht, hc⟩

/-- Raising a state adds to its value what is offered, and leaves the others alone. -/
theorem value_raise (s' : State) :
  m.value (m.raise basis v s) s' =
    if s = s' then m.value v s ∪ m.offered basis v s else m.value v s'
  := by
  rw [raise]
  split
  · rename_i heq
    split
    · rename_i h
      rw [← h, heq]
    · rfl
  · rw [value, Table.getD, Table.get?_set]
    split <;> rfl

theorem Tagged.raise (h : m.Tagged v) (s : State) :
  m.Tagged (m.raise basis v s)
  := by
  intro s' r hr
  rw [Model.raise] at hr
  split at hr
  · apply h s' r hr
  · rw [Table.get?_set] at hr
    split at hr
    · obtain rfl := Option.some.inj hr
      apply h.assembly_value
    · apply h s' r hr

/-- Values only grow. -/
theorem value_subset_raise (s s' : State) :
  m.value v s' ⊆ m.value (m.raise basis v s) s'
  := by
  rw [value_raise]
  split
  · rename_i h
    rw [h]
    apply Region.subset_union_left
  · apply Region.Subset.refl

/-- Raising a state changes nothing exactly when it has what is offered to it. -/
theorem raise_eq_self_iff :
  m.raise basis v s = v ↔ m.offered basis v s ⊆ m.value v s
  := by
  rw [← Region.union_eq_left_iff]
  constructor
  · intro h
    have hvalue : m.value (m.raise basis v s) s = _ := value_raise s
    rw [h, if_pos rfl] at hvalue
    apply hvalue.symm
  · intro h
    rw [raise, if_pos h]

/-- A state that has a value keeps having one. -/
theorem contains_raise (h : v.contains s = true) (s' : State) :
  (m.raise basis v s').contains s = true
  := by
  rw [raise]
  split
  · apply h
  · rw [Table.contains, Table.get?_set]
    split
    · rfl
    · apply h

/-! ### Sweeping -/

theorem Tagged.sweep (h : m.Tagged v) :
  m.Tagged (m.sweep basis v)
  := by
  apply List.foldlRecOn _ _ h
  intro v hv s _
  apply hv.raise s

theorem value_subset_foldl_raise (states : List State) (s : State) :
  m.value v s ⊆ m.value (states.foldl (m.raise basis) v) s
  := by
  apply List.foldlRecOn (motive := fun v' => m.value v s ⊆ m.value v' s) states
  · apply Region.Subset.refl
  · intro v' hv' s' _
    apply Region.Subset.trans hv' (value_subset_raise s' s)

theorem value_subset_sweep (s : State) :
  m.value v s ⊆ m.value (m.sweep basis v) s
  := value_subset_foldl_raise m.properStates s

/-- Raising several states one after the other changes nothing exactly when each of them has
what is offered to it. -/
theorem foldl_raise_eq_self_iff (states : List State) :
  states.foldl (m.raise basis) v = v ↔ ∀ s ∈ states, m.offered basis v s ⊆ m.value v s
  := by
  induction states with
  | nil => simp
  | cons s states ih =>
    rw [List.foldl_cons, List.forall_mem_cons]
    constructor
    · intro h
      -- what `s` takes is not lost when the rest is raised
      have hs : m.offered basis v s ⊆ m.value v s := by
        intro c hc
        rw [← h]
        apply value_subset_foldl_raise
        rw [value_raise, if_pos rfl]
        apply Region.subset_union_right c hc
      rw [raise_eq_self_iff.mpr hs] at h
      exact ⟨hs, ih.mp h⟩
    · rintro ⟨hs, h⟩
      rw [raise_eq_self_iff.mpr hs]
      apply ih.mpr h

theorem foldl_raise_cons_eq_self_iff {states : List State} :
  (s :: states).foldl (m.raise basis) v = v
    ↔ m.raise basis v s = v
      ∧ states.foldl (m.raise basis) (m.raise basis v s) = m.raise basis v s
  := by
  constructor
  · intro h
    have hs : m.raise basis v s = v :=
      raise_eq_self_iff.mpr ((foldl_raise_eq_self_iff _).mp h s List.mem_cons_self)
    rw [List.foldl_cons, hs] at h
    rw [hs]
    exact ⟨rfl, h⟩
  · rintro ⟨hs, h⟩
    rw [List.foldl_cons, h, hs]

/-- A sweep changes nothing exactly when every state has what is offered to it. -/
theorem sweep_eq_self_iff :
  m.sweep basis v = v ↔ ∀ s ∈ m.properStates, m.offered basis v s ⊆ m.value v s
  := foldl_raise_eq_self_iff m.properStates

/-! ### Steps of the solver -/

/-- The remembered exit zones are those of the values from which they were derived. -/
def Faithful (m : Model) (derived : Table State (Region × ZoneSet)) : Prop :=
  ∀ s base zones, derived.get? s = some (base, zones) → zones = base.zones m.assembly

/-- A step of the solver has a result and leads from values to values, whatever exit zones
are remembered, as long as they are remembered faithfully. -/
def Computes {α : Type} (m : Model) (p : Solving α) (v : Table State Region) (x : α)
    (v' : Table State Region) : Prop :=
  ∀ derived, m.Faithful derived →
    ∃ derived', m.Faithful derived' ∧ p.run ⟨v, derived⟩ = .ok (x, ⟨v', derived'⟩)

section Computes

variable {α β : Type} {p : Solving α} {f : α → Solving β} {x : α} {y : β}
  {v' v'' : Table State Region}

theorem Computes.pure (m : Model) (x : α) (v : Table State Region) :
  m.Computes (Pure.pure x) v x v
  := fun derived h => ⟨derived, h, rfl⟩

theorem Computes.bind (hp : m.Computes p v x v') (hf : m.Computes (f x) v' y v'') :
  m.Computes (p >>= f) v y v''
  := by
  intro derived h
  obtain ⟨derived', h', hrun⟩ := hp derived h
  obtain ⟨derived'', h'', hrun'⟩ := hf derived' h'
  use derived'', h''
  rw [StateT.run_bind, hrun]
  apply hrun'

/-- A computation outside the solver leaves the values alone. -/
theorem Computes.lift {e : Except RegionError α} (h : e = .ok x) :
  m.Computes (liftM e) v x v
  := by
  intro derived hd
  use derived, hd
  rw [h]
  rfl

/-- Reading the working state, in which the values are known and what is remembered is only
known to be faithful. -/
theorem Computes.get_bind {f : Working → Solving β}
    (h : ∀ derived, m.Faithful derived → m.Computes (f ⟨v, derived⟩) v y v') :
  m.Computes (get >>= f) v y v'
  := fun derived hd => h derived hd derived hd

end Computes

variable {r : Region}

theorem computes_deriveZones (h : r.assembly = m.assembly.id) :
  m.Computes (m.deriveZones s r) v (r.zones m.assembly) v
  := by
  rw [deriveZones]
  apply Computes.bind (Computes.lift (Region.exitZones_of_eq h))
  intro derived hd
  refine ⟨derived.set s (r, r.zones m.assembly), ?_, rfl⟩
  intro s' base zones hget
  rw [Table.get?_set] at hget
  split at hget
  · obtain ⟨rfl, rfl⟩ := Prod.mk.inj (Option.some.inj hget)
    rfl
  · apply hd s' base zones hget

/-- The exit zones of a value are its exit zones, remembered or not. -/
theorem computes_zonesOf (h : r.assembly = m.assembly.id) :
  m.Computes (m.zonesOf s r) v (r.zones m.assembly) v
  := by
  apply Computes.get_bind
  intro derived hd
  split
  · rename_i base zones hget
    split
    · rename_i hbase
      rw [hd s base zones hget, hbase]
      apply Computes.pure
    · apply computes_deriveZones h
  · apply computes_deriveZones h

/-- An edge contributes what it offers. -/
theorem computes_gatherEdge (hv : m.Tagged v) (hr : r.assembly = m.assembly.id) (e : Edge) :
  m.Computes (m.gatherEdge basis r e) v (r ∪ m.offer basis v e) v
  := by
  cases e with
  | link l =>
    have heq : r ∪ m.offer basis v (.link l) = r :=
      Region.union_eq_left_iff.mpr Region.bottom_subset
    rw [heq]
    apply Computes.pure
  | transition t =>
    apply Computes.get_bind
    intro derived _
    rw [offer, value, Table.getD]
    cases hget : v.get? t.source with
    | none =>
      -- the edge is skipped, and nothing is reached from the empty region
      have hempty : t.image m.bottom m.assembly basis ⊆ r := by
        intro c hc
        apply (Transition.not_mem_image_bottom hc).elim
      rw [Option.getD_none, Region.union_eq_left_iff.mpr hempty]
      apply Computes.pure
    | some source =>
      have hsource : source.assembly = m.assembly.id := hv t.source source hget
      apply Computes.bind (computes_zonesOf hsource)
      apply Computes.bind (Computes.lift (Transition.contribution_of_eq hsource))
      apply Computes.lift
      apply Region.join_of_eq
      rw [hr, Transition.assembly_reach hsource]

theorem computes_foldlM_gatherEdge (hv : m.Tagged v) (edges : List Edge)
    (hr : r.assembly = m.assembly.id) :
  m.Computes (edges.foldlM (m.gatherEdge basis) r) v
    (r ∪ .unions m.assembly.id (edges.map (m.offer basis v))) v
  := by
  induction edges generalizing r with
  | nil =>
    rw [List.map_nil, Region.union_unions_nil]
    apply Computes.pure
  | cons e edges ih =>
    rw [List.foldlM_cons, List.map_cons, Region.union_unions_cons]
    apply Computes.bind (computes_gatherEdge hv hr e)
    apply ih (r := r ∪ m.offer basis v e) hr

/-- A state gathers what is offered to it. -/
theorem computes_gather (hv : m.Tagged v) (s : State) :
  m.Computes (m.gather basis s) v (m.offered basis v s) v
  := by
  rw [offered, ← Region.bottom_union_unions]
  apply computes_foldlM_gatherEdge hv _ rfl

/-- A state grows by being raised, and says whether that has changed the values. -/
theorem computes_grow (hv : m.Tagged v) (s : State) :
  m.Computes (m.grow basis s) v (decide (m.raise basis v s ≠ v)) (m.raise basis v s)
  := by
  rw [grow]
  apply Computes.bind (computes_gather hv s)
  apply Computes.get_bind
  intro derived _
  have hjoin : (m.value v s).join (m.offered basis v s) =
      .ok (m.value v s ∪ m.offered basis v s) := Region.join_of_eq (hv.assembly_value s)
  apply Computes.bind (Computes.lift hjoin)
  change m.Computes (if m.value v s ∪ m.offered basis v s = m.value v s then _ else _) _ _ _
  split
  · rename_i h
    have hraise : m.raise basis v s = v := if_pos h
    rw [hraise, decide_eq_false (not_not_intro rfl)]
    apply Computes.pure
  · rename_i h
    have hraise : m.raise basis v s = v.set s (m.value v s ∪ m.offered basis v s) := if_neg h
    have hne : m.raise basis v s ≠ v := by
      rw [Ne, raise_eq_self_iff, ← Region.union_eq_left_iff]
      apply h
    rw [decide_eq_true hne, hraise]
    intro derived' hd'
    exact ⟨derived', hd', rfl⟩

theorem computes_foldlM_grow (hv : m.Tagged v) (states : List State) (changed : Bool) :
  m.Computes (states.foldlM (fun changed s => return (← m.grow basis s) || changed) changed) v
    (changed || decide (states.foldl (m.raise basis) v ≠ v)) (states.foldl (m.raise basis) v)
  := by
  induction states generalizing v changed with
  | nil =>
    rw [List.foldl_nil, decide_eq_false (not_not_intro rfl), Bool.or_false]
    apply Computes.pure
  | cons s states ih =>
    have hflag : (changed || decide ((s :: states).foldl (m.raise basis) v ≠ v)) =
        (decide (m.raise basis v s ≠ v) || changed ||
          decide (states.foldl (m.raise basis) (m.raise basis v s) ≠ m.raise basis v s)) := by
      rw [Bool.eq_iff_iff]
      simp only [Bool.or_eq_true, decide_eq_true_eq, Ne, foldl_raise_cons_eq_self_iff, not_and_or]
      rw [← or_assoc, or_comm (a := changed = true)]
    have hgrow : m.Computes (do return (← m.grow basis s) || changed) v
        (decide (m.raise basis v s ≠ v) || changed) (m.raise basis v s) :=
      Computes.bind (computes_grow hv s) (Computes.pure m _ _)
    rw [hflag]
    apply Computes.bind hgrow (ih (hv.raise s) _)

/-- A round is a sweep, and says whether that has changed the values. -/
theorem computes_round (hv : m.Tagged v) :
  m.Computes (m.round basis) v (decide (m.sweep basis v ≠ v)) (m.sweep basis v)
  := computes_foldlM_grow hv m.properStates false

end Model

end AssemblySemantics
