import AssemblySemantics.Proofs.Configuration.Canonical
import Mathlib.Data.Finmap

/-!
# Configurations of assignments

An assignment is a finite mapping from machines to states, and its pairs may be listed in any
order. The configuration made of such a list depends on the assignment alone: the states of the
machines are read off it as they are assigned, two lists have one configuration exactly when they
list one assignment, and moving a machine in place gives the configuration of the changed
assignment, although nothing is brought into order again.
-/

namespace AssemblySemantics

/-- A finite mapping from machines to states. -/
abbrev Assignment := Finmap fun _ : String => String

/-- The pair of a machine and its state that an assignment has for a placement. -/
def Placement.pair (p : Placement) : Sigma fun _ : String => String := ⟨p.machine, p.state⟩

theorem Placement.pair_injective :
  Function.Injective Placement.pair
  := by
  rintro ⟨machine, state⟩ ⟨machine', state'⟩ h
  cases h
  rfl

namespace Configuration

/-- The placements are the pairs of an assignment, each once and in whatever order. -/
def Lists (placements : List Placement) (m : Assignment) : Prop :=
  m.entries = placements.map Placement.pair

instance (placements : List Placement) (m : Assignment) : Decidable (Lists placements m) :=
  inferInstanceAs (Decidable (m.entries = _))

variable {placements placements' : List Placement} {m m' : Assignment} {machine : String}

/-- Every assignment can be listed. -/
theorem exists_lists (m : Assignment) :
  ∃ placements, Lists placements m
  := by
  obtain ⟨entries, hentries⟩ := Quotient.exists_rep m.entries
  use entries.map fun e => ⟨e.1, e.2⟩
  rw [Lists, List.map_map, ← hentries]
  apply congrArg _ entries.map_id.symm

/-- A list of one assignment is a list of no other. -/
theorem Lists.unique (h : Lists placements m) (h' : Lists placements m') :
  m = m'
  := Finmap.ext (h.trans h'.symm)

/-- Two lists of one assignment differ in their order at most. -/
theorem Lists.perm (h : Lists placements m) (h' : Lists placements' m) :
  placements.Perm placements'
  := by
  apply (List.map_perm_map_iff Placement.pair_injective).mp
  apply Multiset.coe_eq_coe.mp
  apply h.symm.trans h'

theorem Lists.of_perm (h : Lists placements m) (hperm : placements'.Perm placements) :
  Lists placements' m
  := by
  apply h.trans
  apply Multiset.coe_eq_coe.mpr
  apply (hperm.map Placement.pair).symm

/-- An assignment is listed with no machine placed twice. -/
theorem Lists.nodup (h : Lists placements m) :
  (placements.map Placement.machine).Nodup
  := by
  have hkeys := m.nodupKeys.nodup_keys
  rw [h, Multiset.coe_keys, Multiset.coe_nodup, List.keys, List.map_map] at hkeys
  apply hkeys

/-- Exactly the placements that are assigned are listed. -/
theorem Lists.mem_iff (h : Lists placements m) (p : Placement) :
  p ∈ placements ↔ m.lookup p.machine = some p.state
  := by
  rw [Finmap.lookup_eq_some_iff, h, Multiset.mem_coe]
  apply (List.mem_map_of_injective Placement.pair_injective).symm

/-- The states are read off a list as they are assigned. -/
theorem Lists.state?_eq (h : Lists placements m) (machine : String) :
  state? placements machine = m.lookup machine
  := by
  ext state
  apply (state?_eq_some_iff h.nodup ⟨machine, state⟩).trans
  apply h.mem_iff

/-- Placements of distinct machines list the assignment whose states are read off them. -/
theorem lists_of_state? (hn : (placements.map Placement.machine).Nodup)
    (hstate : ∀ machine, state? placements machine = m.lookup machine) :
  Lists placements m
  := by
  obtain ⟨listed, hlisted⟩ := exists_lists m
  apply hlisted.of_perm
  apply (List.perm_ext_iff_of_nodup hn.of_map hlisted.nodup.of_map).mpr
  intro p
  rw [← state?_eq_some_iff hn, hstate, hlisted.mem_iff]

/-- Moving a machine that has a state lists the assignment with this state changed. -/
theorem Lists.reassign (h : Lists placements m) (hmachine : machine ∈ m) (state : String) :
  Lists (reassign placements machine state) (m.insert machine state)
  := by
  apply lists_of_state?
  · rw [map_machine_reassign]
    apply h.nodup
  · intro other
    rw [state?_reassign, h.state?_eq]
    split
    · rename_i hother
      obtain ⟨before, hbefore⟩ := Finmap.mem_iff.mp hmachine
      rw [hother, hbefore, Finmap.lookup_insert]
      rfl
    · rename_i hother
      rw [Finmap.lookup_insert_of_ne _ hother]

/-- The canonical configuration lists what it is made of. -/
theorem Lists.ofPlacements (h : Lists placements m) :
  Lists (ofPlacements placements) m
  := h.of_perm (ofPlacements_perm placements)

/-- There is one sorted configuration of an assignment. -/
theorem IsSorted.eq_ofPlacements {c : Configuration} (hc : c.IsSorted) (h : Lists c m)
    (h' : Lists placements m) :
  c = ofPlacements placements
  := hc.eq_of_perm (isSorted_ofPlacements placements) (h.perm h'.ofPlacements)

/-- The canonical configuration of an assignment, whose pairs may be listed in any order. Moving a
machine that is assigned a state, in place, gives the canonical configuration of the assignment
with this state changed, however that one is listed. The state of a machine is the assigned one,
and there is none for a machine without one. Two assignments, however they are listed, have one
configuration exactly when they are equal. -/
theorem ofPlacements_exact (h : Lists placements m) (h' : Lists placements' m') :
  (∀ machine ∈ m, ∀ state,
      Lists ((ofPlacements placements).reassign machine state) (m.insert machine state)
        ∧ ∀ updated, Lists updated (m.insert machine state) →
          (ofPlacements placements).reassign machine state = ofPlacements updated)
    ∧ (∀ machine, (ofPlacements placements).state? machine = m.lookup machine)
    ∧ (ofPlacements placements = ofPlacements placements' ↔ m = m')
  := by
  constructor
  · intro machine hmachine state
    have hlists := h.ofPlacements.reassign hmachine state
    constructor
    · apply hlists
    · intro updated hupdated
      -- the order of the machines is not touched, so that nothing has to be sorted
      have hsorted : ((ofPlacements placements).reassign machine state).IsSorted :=
        (isSorted_ofPlacements placements).reassign h.ofPlacements.nodup machine state
      apply hsorted.eq_ofPlacements hlists hupdated
  · constructor
    · apply h.ofPlacements.state?_eq
    · constructor
      · intro heq
        have hlists := h.ofPlacements
        rw [heq] at hlists
        apply hlists.unique h'.ofPlacements
      · rintro rfl
        apply (isSorted_ofPlacements placements).eq_ofPlacements h.ofPlacements h'

end Configuration

namespace Loop

/-- The light is on and the door is closed. -/
def dusk : Assignment := [⟨"light", "on"⟩, ⟨"door", "closed"⟩].toFinmap

end Loop

namespace Configuration

/-- The light may be listed before the door or after it, and be switched off in place. -/
theorem ofPlacements_exact_dusk :
  Lists [⟨"light", "on"⟩, ⟨"door", "closed"⟩] Loop.dusk
    ∧ Lists [⟨"door", "closed"⟩, ⟨"light", "on"⟩] Loop.dusk
    ∧ "light" ∈ Loop.dusk
    ∧ Lists [⟨"light", "off"⟩, ⟨"door", "closed"⟩] (Loop.dusk.insert "light" "off")
    ∧ (ofPlacements [⟨"light", "on"⟩, ⟨"door", "closed"⟩]).reassign "light" "off" =
      ofPlacements [⟨"light", "off"⟩, ⟨"door", "closed"⟩]
    ∧ (ofPlacements [⟨"light", "on"⟩, ⟨"door", "closed"⟩]).state? "door" = some "closed"
    ∧ (ofPlacements [⟨"light", "on"⟩, ⟨"door", "closed"⟩]).state? "lamp" = none
    ∧ ofPlacements [⟨"light", "on"⟩, ⟨"door", "closed"⟩] =
      ofPlacements [⟨"door", "closed"⟩, ⟨"light", "on"⟩]
  := by
  have hlight : Lists [⟨"light", "on"⟩, ⟨"door", "closed"⟩] Loop.dusk := by decide +kernel
  have hdoor : Lists [⟨"door", "closed"⟩, ⟨"light", "on"⟩] Loop.dusk := by decide +kernel
  have hmem : "light" ∈ Loop.dusk := by decide +kernel
  have hoff : Lists [⟨"light", "off"⟩, ⟨"door", "closed"⟩]
      (Loop.dusk.insert "light" "off") := by decide +kernel
  obtain ⟨hreassign, hstate, heq⟩ := ofPlacements_exact hlight hdoor
  use hlight, hdoor, hmem, hoff, (hreassign "light" hmem "off").2 _ hoff, hstate "door",
    hstate "lamp"
  apply heq.mpr rfl

end Configuration

end AssemblySemantics
