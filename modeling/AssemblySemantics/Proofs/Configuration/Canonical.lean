import AssemblySemantics.Configuration
import Mathlib.Tactic.Common

/-!
# The canonical form of configurations

A configuration is in canonical form when its placements are listed in order. Inserting a
placement keeps the form, and a configuration in this form is determined by its placements.
When no machine is placed twice the order is that of the machines alone, so that moving a
machine in place keeps the form.
-/

namespace AssemblySemantics

theorem Placement.compare_eq (p q : Placement) :
  compare p q = (compare p.machine q.machine).then (compare p.state q.state)
  := rfl

/-- Placements of different machines are compared by their machines. -/
theorem Placement.compare_of_ne {p q : Placement} (h : p.machine ≠ q.machine) :
  compare p q = compare p.machine q.machine
  := by
  rw [Placement.compare_eq]
  cases hc : compare p.machine q.machine with
  | lt => rfl
  | eq => apply (h (Std.LawfulEqOrd.eq_of_compare hc)).elim
  | gt => rfl

namespace Configuration

/-- The placements are listed in order. -/
def IsSorted (c : Configuration) : Prop := c.Pairwise fun p q => (compare p q).isLE

theorem add_perm (p : Placement) (c : Configuration) :
  (add p c).Perm (p :: c)
  := by
  induction c with
  | nil => rfl
  | cons q c ih =>
    rw [add]
    split
    · apply (ih.cons q).trans
      apply List.Perm.swap
    · rfl

/-- Inserting a placement keeps a configuration sorted. -/
theorem IsSorted.add {p : Placement} {c : Configuration} (h : c.IsSorted) :
  (add p c).IsSorted
  := by
  induction c with
  | nil => apply List.pairwise_singleton
  | cons q c ih =>
    obtain ⟨hq, hc⟩ := List.pairwise_cons.mp h
    rw [Configuration.add]
    split
    · rename_i hgt
      apply List.pairwise_cons.mpr
      refine ⟨?_, ih hc⟩
      intro r hr
      obtain rfl | hr := mem_add.mp hr
      · apply Ordering.isLE_of_eq_lt
        apply Std.OrientedOrd.eq_swap.trans
        rw [hgt]
        rfl
      · apply hq r hr
    · rename_i hle
      have hpq : (compare p q).isLE := Ordering.ne_gt_iff_isLE.mp hle
      apply List.pairwise_cons.mpr
      refine ⟨?_, h⟩
      intro r hr
      obtain rfl | hr := List.mem_cons.mp hr
      · apply hpq
      · apply Std.TransOrd.isLE_trans hpq (hq r hr)

/-- Sorted configurations with the same placements are equal. -/
theorem IsSorted.eq_of_perm {c d : Configuration} (hc : c.IsSorted) (hd : d.IsSorted)
    (h : c.Perm d) :
  c = d
  := by
  apply List.Perm.eq_of_pairwise _ hc hd h
  intro p q _ _ hpq hqp
  apply Std.LawfulEqOrd.eq_of_compare
  apply Std.OrientedCmp.isLE_antisymm hpq hqp

theorem isSorted_ofPlacements (placements : List Placement) :
  (ofPlacements placements).IsSorted
  := by
  induction placements with
  | nil => apply List.Pairwise.nil
  | cons p placements ih => apply ih.add

theorem ofPlacements_perm (placements : List Placement) :
  (ofPlacements placements).Perm placements
  := by
  induction placements with
  | nil => rfl
  | cons p placements ih => apply (add_perm p _).trans (ih.cons p)

/-- A sorted configuration is in canonical form. -/
theorem IsSorted.ofPlacements_eq {c : Configuration} (h : c.IsSorted) :
  ofPlacements c = c
  := (isSorted_ofPlacements c).eq_of_perm h (ofPlacements_perm c)

/-- When no machine is placed twice, a configuration is sorted exactly when its machines
are. -/
theorem isSorted_iff_of_nodup {c : Configuration} (h : (c.map Placement.machine).Nodup) :
  c.IsSorted ↔ (c.map Placement.machine).Pairwise fun m n => (compare m n).isLE
  := by
  have hne : c.Pairwise fun p q => p.machine ≠ q.machine := List.pairwise_map.mp h
  rw [List.pairwise_map]
  constructor
  · intro hc
    apply (hne.and hc).imp
    rintro p q ⟨hpq, hle⟩
    rw [← Placement.compare_of_ne hpq]
    apply hle
  · intro hc
    apply (hne.and hc).imp
    rintro p q ⟨hpq, hle⟩
    rw [Placement.compare_of_ne hpq]
    apply hle

/-- Moving a machine keeps a configuration sorted when no machine is placed twice. -/
theorem IsSorted.reassign {c : Configuration} (h : c.IsSorted)
    (hn : (c.map Placement.machine).Nodup) (machine state : String) :
  (c.reassign machine state).IsSorted
  := by
  have hn' : ((c.reassign machine state).map Placement.machine).Nodup := by
    rw [map_machine_reassign]
    apply hn
  apply (isSorted_iff_of_nodup hn').mpr
  rw [map_machine_reassign]
  apply (isSorted_iff_of_nodup hn).mp h

/-- When no machine is placed twice, the state of a machine is read off its placement. -/
theorem state?_eq_some_iff {c : Configuration} (hn : (c.map Placement.machine).Nodup)
    (p : Placement) :
  c.state? p.machine = some p.state ↔ p ∈ c
  := by
  induction c with
  | nil => simp
  | cons q c ih =>
    obtain ⟨hq, hn⟩ := List.nodup_cons.mp hn
    rw [state?_cons, List.mem_cons]
    split
    · rename_i hm
      have hp : p ∉ c := by
        intro hp
        apply hq
        rw [hm]
        apply List.mem_map_of_mem hp
      constructor
      · intro h
        obtain ⟨machine, state⟩ := q
        obtain rfl := hm
        obtain rfl := Option.some.inj h
        left
        rfl
      · rintro (rfl | h)
        · rfl
        · apply (hp h).elim
    · rename_i hm
      rw [ih hn]
      constructor
      · apply Or.inr
      · rintro (rfl | h)
        · apply (hm rfl).elim
        · apply h

/-! ### Moving a machine again -/

/-- Of two moves of one machine the second one counts. -/
@[simp]
theorem reassign_reassign (c : Configuration) (machine source target : String) :
  (c.reassign machine source).reassign machine target = c.reassign machine target
  := by
  simp only [reassign, List.map_map]
  apply List.map_congr_left
  intro p _
  by_cases h : p.machine = machine <;> simp [h]

/-- When no machine is placed twice, moving a machine to where it is changes nothing. -/
theorem reassign_of_state? {c : Configuration} {machine state : String}
    (hn : (c.map Placement.machine).Nodup) (h : c.state? machine = some state) :
  c.reassign machine state = c
  := by
  apply (List.map_congr_left _).trans c.map_id
  intro p hp
  split
  · rename_i hm
    obtain rfl := hm
    have hstate := (state?_eq_some_iff hn p).mpr hp
    rw [h] at hstate
    obtain rfl := Option.some.inj hstate
    rfl
  · rfl

/-! ### Inserting a placement of another machine -/

section Add

variable {machine other state : String} {c : Configuration}

/-- Inserting a placement leaves the states of other machines alone. -/
theorem state?_add (h : machine ≠ other) :
  (add ⟨machine, state⟩ c).state? other = c.state? other
  := by
  induction c with
  | nil => rw [add, state?_cons, if_neg h]
  | cons q c ih =>
    rw [add]
    split
    · rw [state?_cons, state?_cons, ih]
    · rw [state?_cons, if_neg h]

/-- Inserting a placement and moving another machine may be done in either order. -/
theorem reassign_add (h : machine ≠ other) (target : String) :
  (add ⟨machine, state⟩ c).reassign other target =
    add ⟨machine, state⟩ (c.reassign other target)
  := by
  induction c with
  | nil => simp [add, reassign, h]
  | cons q c ih =>
    -- the machine that moves keeps its place with respect to the new placement
    have hcompare : compare (Placement.mk machine state)
        (if q.machine = other then ⟨other, target⟩ else q) = compare ⟨machine, state⟩ q := by
      split
      · rename_i hq
        obtain rfl := hq
        rw [Placement.compare_of_ne h, Placement.compare_of_ne h]
      · rfl
    simp only [reassign, List.map_cons] at ih ⊢
    rw [add, add, hcompare]
    split
    · rw [List.map_cons, ih]
    · simp [h]

/-- What was inserted can be taken out again. -/
theorem filter_add (h : machine ∉ c.map Placement.machine) :
  (add ⟨machine, state⟩ c).filter (fun q => q.machine ≠ machine) = c
  := by
  induction c with
  | nil => simp [add]
  | cons q c ih =>
    rw [List.map_cons, List.mem_cons, not_or] at h
    rw [add]
    split
    · rw [List.filter_cons_of_pos (by simpa using Ne.symm h.1), ih h.2]
    · rw [List.filter_cons_of_neg (by simp), List.filter_eq_self]
      intro r hr
      apply decide_eq_true
      intro hrm
      obtain rfl | hr := List.mem_cons.mp hr
      · apply h.1 hrm.symm
      · apply h.2
        rw [← hrm]
        apply List.mem_map_of_mem hr

/-- What was inserted for a machine without a place can be told from the result. -/
theorem add_inj {state' : String} {c' : Configuration} (h : machine ∉ c.map Placement.machine)
    (h' : machine ∉ c'.map Placement.machine)
    (heq : add ⟨machine, state⟩ c = add ⟨machine, state'⟩ c') :
  state = state' ∧ c = c'
  := by
  constructor
  · have hmem : ⟨machine, state⟩ ∈ add ⟨machine, state'⟩ c' := by
      rw [← heq]
      apply mem_add.mpr (.inl rfl)
    obtain hp | hp := mem_add.mp hmem
    · injection hp
    · apply (h' (List.mem_map_of_mem hp)).elim
  · calc c
      _ = (add ⟨machine, state⟩ c).filter (fun q => q.machine ≠ machine) := (filter_add h).symm
      _ = (add ⟨machine, state'⟩ c').filter (fun q => q.machine ≠ machine) := by rw [heq]
      _ = c' := filter_add h'

end Add

/-- A placement after a move is the one moved to, or one of another machine from before. -/
theorem mem_reassign {p : Placement} {c : Configuration} {machine state : String}
    (h : p ∈ c.reassign machine state) :
  p = ⟨machine, state⟩ ∨ (p ∈ c ∧ p.machine ≠ machine)
  := by
  obtain ⟨q, hq, rfl⟩ := List.mem_map.mp h
  obtain hm | hm := eq_or_ne q.machine machine
  · rw [if_pos hm]
    left
    rfl
  · rw [if_neg hm]
    right
    exact ⟨hq, hm⟩

end Configuration

end AssemblySemantics
