import AssemblySemantics.ExitZone
import AssemblySemantics.Proofs.Assembly.Space
import AssemblySemantics.Proofs.Proposition.Extent

/-!
# The exit zones of a region

A region of an assembly always has exit zones: they are those of the possible zones whose
source the region touches and whose target it does not. Zones are not monotone in the
region, but a zone survives the growth of the region as long as its target stays untouched.
-/

namespace AssemblySemantics

namespace Assembly

/-- The possible zones are those of the autonomous moves of registered components. -/
theorem mem_possibleZones {a : Assembly} {z : ExitZone} :
  z ∈ a.possibleZones
    ↔ ∃ d, a.component? d.id = some d ∧ ∃ m ∈ d.autonomousMoves, z = ExitZone.ofMove d m
  := by
  simp only [possibleZones, List.mem_flatMap, List.mem_map, component?_eq_some_iff, and_true]
  constructor
  · rintro ⟨d, hd, m, hm, rfl⟩
    exact ⟨d, hd, m, hm, rfl⟩
  · rintro ⟨d, hd, m, hm, rfl⟩
    exact ⟨d, hd, m, hm, rfl⟩

end Assembly

namespace Region

/-- Some configuration of the region, in the space of the assembly, has the placement. -/
def Touches (r : Region) (p : Placement) (a : Assembly) : Prop := ∃ c ∈ r, c ∈ a.statesWhere p

/-- Whether an exit zone is bound to leave a region, by operations on sets. -/
def exits (r : Region) (a : Assembly) (z : ExitZone) : Bool :=
  !(a.statesWhere z.source ∩ r).isEmpty && (a.statesWhere z.target ∩ r).isEmpty

/-- The exit zones of a region, selected from the possible ones. -/
def zones (r : Region) (a : Assembly) : ZoneSet :=
  .ofList (a.possibleZones.filter (r.exits a))

variable {a : Assembly} {r s : Region} {p : Placement} {z : ExitZone}

theorem Touches.mono (h : r.Touches p a) (hrs : r ⊆ s) :
  s.Touches p a
  := by
  obtain ⟨c, hc, hp⟩ := h
  use c, hrs c hc

theorem touches_iff :
  r.Touches p a ↔ ∃ c ∈ r, c ∈ a.space ∧ c.state? p.machine = some p.state
  := by
  simp only [Touches, Assembly.mem_statesWhere_iff_state?]

theorem isEmpty_inter_iff :
  (a.statesWhere p ∩ r).isEmpty = true ↔ ¬ r.Touches p a
  := by
  rw [isEmpty_iff]
  constructor
  · rintro h ⟨c, hc, hp⟩
    apply h c (mem_inter.mpr ⟨hp, hc⟩)
  · intro h c hc
    obtain ⟨hp, hc⟩ := mem_inter.mp hc
    apply h ⟨c, hc, hp⟩

theorem exits_eq_true_iff :
  r.exits a z = true ↔ r.Touches z.source a ∧ ¬ r.Touches z.target a
  := by
  rw [exits, Bool.and_eq_true, isEmpty_inter_iff, Bool.not_eq_true', ← Bool.not_eq_true,
    isEmpty_inter_iff, not_not]

/-- The exit zones are the possible zones whose source the region touches and whose target
it does not. -/
theorem mem_zones :
  z ∈ r.zones a ↔ z ∈ a.possibleZones ∧ r.Touches z.source a ∧ ¬ r.Touches z.target a
  := by
  rw [zones, Std.ExtTreeSet.mem_ofList, List.contains_iff_mem, List.mem_filter,
    exits_eq_true_iff]

theorem mem_toList_zones :
  z ∈ (r.zones a).toList ↔ z ∈ r.zones a
  := Std.ExtTreeSet.mem_toList

/-- Exit zones are possible zones. -/
theorem forall_mem_possibleZones (r : Region) (a : Assembly) :
  ∀ z ∈ (r.zones a).toList, z ∈ a.possibleZones
  := by
  intro z hz
  apply (mem_zones.mp (mem_toList_zones.mp hz)).1

/-- The source of an exit zone is the placement of its machine before its move. -/
theorem source_of_mem_zones (h : z ∈ r.zones a) :
  z.source = ⟨z.machine, z.move.source⟩
  := by
  obtain ⟨_, _, _, _, rfl⟩ := Assembly.mem_possibleZones.mp (mem_zones.mp h).1
  rfl

/-- The target of an exit zone is the placement of its machine after its move. -/
theorem target_of_mem_zones (h : z ∈ r.zones a) :
  z.target = ⟨z.machine, z.move.target⟩
  := by
  obtain ⟨_, _, _, _, rfl⟩ := Assembly.mem_possibleZones.mp (mem_zones.mp h).1
  rfl

theorem touches_of_eq (h : r.assembly = a.id) :
  r.touches p a = .ok (!(a.statesWhere p ∩ r).isEmpty)
  := by
  rw [touches, meet_of_eq h.symm]
  rfl

theorem leaves_of_eq (h : r.assembly = a.id) :
  r.leaves z a = .ok (r.exits a z)
  := by
  rw [leaves, touches_of_eq h, touches_of_eq h, exits]
  cases (a.statesWhere z.source ∩ r).isEmpty with
  | true => rfl
  | false => simp [bind, Except.bind, pure, Except.pure]

theorem collect_of_eq (h : r.assembly = a.id) (set : ZoneSet) :
  r.collect a set z = .ok (if r.exits a z then set.insert z else set)
  := by
  rw [collect, leaves_of_eq h]
  cases r.exits a z <;> rfl

/-- Selecting zones one by one adds those of the listed zones that are bound to leave the
region. -/
theorem foldlM_collect_eq (h : r.assembly = a.id) (listed : List ExitZone) (set : ZoneSet) :
  ∃ collected, listed.foldlM (r.collect a) set = .ok collected
    ∧ ∀ z, z ∈ collected ↔ z ∈ set ∨ (z ∈ listed ∧ r.exits a z = true)
  := by
  induction listed generalizing set with
  | nil => exact ⟨set, rfl, by simp⟩
  | cons y listed ih =>
    obtain ⟨collected, heq, hmem⟩ := ih (if r.exits a y then set.insert y else set)
    refine ⟨collected, ?_, ?_⟩
    · rw [List.foldlM_cons, collect_of_eq h]
      apply heq
    · intro z
      rw [hmem, List.mem_cons]
      cases hy : r.exits a y with
      | true =>
        rw [if_pos rfl, Std.ExtTreeSet.mem_insert, Std.LawfulEqCmp.compare_eq_iff_eq]
        constructor
        · rintro ((rfl | hz) | ⟨hz, hx⟩)
          · exact .inr ⟨.inl rfl, hy⟩
          · exact .inl hz
          · exact .inr ⟨.inr hz, hx⟩
        · rintro (hz | ⟨rfl | hz, hx⟩)
          · exact .inl (.inr hz)
          · exact .inl (.inl rfl)
          · exact .inr ⟨hz, hx⟩
      | false =>
        rw [if_neg Bool.false_ne_true]
        constructor
        · rintro (hz | ⟨hz, hx⟩)
          · exact .inl hz
          · exact .inr ⟨.inr hz, hx⟩
        · rintro (hz | ⟨rfl | hz, hx⟩)
          · exact .inl hz
          · rw [hy] at hx
            cases hx
          · exact .inr ⟨hz, hx⟩

/-- The exit zones of a region of the assembly are those selected. -/
theorem exitZones_of_eq (h : r.assembly = a.id) :
  r.exitZones a = .ok (r.zones a)
  := by
  obtain ⟨collected, heq, hmem⟩ := foldlM_collect_eq h a.possibleZones ∅
  rw [exitZones, heq]
  congr 1
  apply Std.ExtTreeSet.ext_mem
  intro z
  rw [hmem, mem_zones, exits_eq_true_iff]
  constructor
  · rintro (hz | hz)
    · apply (Std.ExtTreeSet.not_mem_empty hz).elim
    · apply hz
  · apply Or.inr

/-- A region of another assembly has no exit zones: any possible zone is refused. -/
theorem exitZones_of_ne (h : r.assembly ≠ a.id) (hz : a.possibleZones ≠ []) :
  r.exitZones a = .error (.mixed a.id r.assembly)
  := by
  obtain ⟨z, listed, hlisted⟩ := List.exists_cons_of_ne_nil hz
  have hmeet : (a.statesWhere z.source).meet r = .error (.mixed a.id r.assembly) :=
    if_neg (Ne.symm h)
  rw [exitZones, hlisted, List.foldlM_cons, collect, leaves, touches, hmeet]
  rfl

/-- Where no zone is possible, every region has its exit zones, namely none. -/
theorem exitZones_of_nil (hz : a.possibleZones = []) :
  r.exitZones a = .ok (r.zones a)
  := by
  rw [exitZones, zones, hz]
  rfl

/-- A region without configurations is left by nothing. -/
theorem zones_of_isEmpty (h : r.isEmpty = true) :
  r.zones a = ∅
  := by
  apply Std.ExtTreeSet.ext_mem
  intro z
  rw [mem_zones]
  constructor
  · rintro ⟨-, ⟨c, hc, -⟩, -⟩
    apply (isEmpty_iff.mp h c hc).elim
  · intro hz
    apply (Std.ExtTreeSet.not_mem_empty hz).elim

theorem zones_bottom (assembly : String) :
  (bottom assembly).zones a = ∅
  := zones_of_isEmpty (isEmpty_iff.mpr fun _ => not_mem_bottom)

/-- A zone survives the growth of its region as long as its target stays untouched. -/
theorem mem_zones_of_subset (h : z ∈ r.zones a) (hrs : r ⊆ s) (ht : ¬ s.Touches z.target a) :
  z ∈ s.zones a
  := by
  obtain ⟨hz, hsource, -⟩ := mem_zones.mp h
  apply mem_zones.mpr ⟨hz, hsource.mono hrs, ht⟩

end Region

end AssemblySemantics
