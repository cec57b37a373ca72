import AssemblySemantics.Configuration

/-!
# Regions

A region is a set of configurations of one assembly, whose id it carries. Regions of one
assembly form a lattice under `meet` and `join`, with `le` as its order and the empty
region `bottom` as its least element; regions of different assemblies do not combine. The
set is kept in the order of its configurations, so that a region has one form.
-/

namespace AssemblySemantics

/-- A set of configurations. -/
abbrev ConfigurationSet := Std.ExtTreeSet Configuration

/-- Why an operation on regions is refused. -/
inductive RegionError where
  /-- Two regions of different assemblies do not combine. -/
  | mixed (left right : String)
  /-- A region of one assembly is not transformed by the machines of another. -/
  | misplaced (region assembly : String)
deriving DecidableEq

/-- The text of a refusal. -/
def RegionError.message : RegionError → String
  | .mixed left right =>
    s!"Cannot combine semantics of assembly '{left}' with semantics of assembly '{right}'"
  | .misplaced region assembly =>
    s!"Semantics of assembly '{region}' cannot be transformed within assembly '{assembly}'"

/-- A set of configurations of one assembly. -/
structure Region where
  assembly : String
  configurations : ConfigurationSet
deriving DecidableEq

namespace Region

/-- The empty region of an assembly. -/
def bottom (assembly : String) : Region := ⟨assembly, ∅⟩

/-- The region of the given configurations, each as it is listed. -/
def ofConfigurations (assembly : String) (listed : List Configuration) : Region :=
  ⟨assembly, .ofList listed⟩

/-- The region of the given assignments, each brought into canonical form. -/
def ofAssignments (assembly : String) (listed : List (List Placement)) : Region :=
  ofConfigurations assembly (listed.map Configuration.ofPlacements)

instance : Membership Configuration Region := ⟨fun r c => c ∈ r.configurations⟩

instance (c : Configuration) (r : Region) : Decidable (c ∈ r) :=
  inferInstanceAs (Decidable (c ∈ r.configurations))

/-- Whether a region has no configuration. -/
def isEmpty (r : Region) : Bool := r.configurations.isEmpty

/-- The number of configurations of a region. -/
def size (r : Region) : Nat := r.configurations.size

/-- The configurations of a region in their order. -/
def toList (r : Region) : List Configuration := r.configurations.toList

/-- Combines the sets of two regions of one assembly. -/
def combine (f : ConfigurationSet → ConfigurationSet → ConfigurationSet) (r s : Region) :
    Except RegionError Region :=
  if r.assembly = s.assembly then .ok ⟨r.assembly, f r.configurations s.configurations⟩
  else .error (.mixed r.assembly s.assembly)

/-- The configurations in both of two regions. -/
def meet (r s : Region) : Except RegionError Region := combine (· ∩ ·) r s

/-- The configurations in either of two regions. -/
def join (r s : Region) : Except RegionError Region := combine (· ∪ ·) r s

/-- The configurations of the first region that are not in the second. -/
def diff (r s : Region) : Except RegionError Region := combine (· \ ·) r s

/-- Whether every configuration of the first region is in the second. -/
def le (r s : Region) : Except RegionError Bool :=
  if r.assembly = s.assembly then .ok (r.toList.all fun c => c ∈ s)
  else .error (.mixed r.assembly s.assembly)

/-- The part of a region whose configurations have a placement. -/
def having (r : Region) (p : Placement) : Region :=
  ⟨r.assembly, r.configurations.filter fun c => p ∈ c⟩

/-- A region as it is shown to a reader, one configuration to a line. -/
def describe (r : Region) : String :=
  if r.isEmpty then "<empty>"
  else String.intercalate "\n" (r.toList.map Configuration.display)

theorem mem_mk {c : Configuration} {assembly : String} {s : ConfigurationSet} :
  c ∈ (⟨assembly, s⟩ : Region) ↔ c ∈ s
  := Iff.rfl

/-- Two regions of one assembly with the same configurations are equal. -/
@[ext]
theorem ext {r s : Region} (ha : r.assembly = s.assembly) (hc : ∀ c, c ∈ r ↔ c ∈ s) :
  r = s
  := by
  obtain ⟨a, x⟩ := r
  obtain ⟨b, y⟩ := s
  obtain rfl : a = b := ha
  obtain rfl : x = y := Std.ExtTreeSet.ext_mem hc
  rfl

theorem mem_toList {c : Configuration} {r : Region} :
  c ∈ r.toList ↔ c ∈ r
  := Std.ExtTreeSet.mem_toList

@[simp]
theorem not_mem_bottom {c : Configuration} {assembly : String} :
  c ∉ bottom assembly
  := Std.ExtTreeSet.not_mem_empty

theorem mem_ofConfigurations {c : Configuration} {assembly : String}
    {listed : List Configuration} :
  c ∈ ofConfigurations assembly listed ↔ c ∈ listed
  := by
  simp [ofConfigurations, mem_mk]

theorem mem_having {c : Configuration} {r : Region} {p : Placement} :
  c ∈ r.having p ↔ c ∈ r ∧ p ∈ c
  := by
  unfold having
  rw [mem_mk, Std.ExtTreeSet.mem_filter]
  constructor
  · rintro ⟨h, hp⟩
    exact ⟨h, by simpa using hp⟩
  · rintro ⟨h, hp⟩
    exact ⟨h, by simpa using hp⟩

theorem combine_of_eq {f : ConfigurationSet → ConfigurationSet → ConfigurationSet}
    {r s : Region} (h : r.assembly = s.assembly) :
  combine f r s = .ok ⟨r.assembly, f r.configurations s.configurations⟩
  := if_pos h

/-- The meet of two regions exists exactly when they belong to one assembly, and then has
the configurations of both. -/
theorem meet_eq_ok_iff {r s u : Region} :
  r.meet s = .ok u ↔
    r.assembly = s.assembly ∧ u.assembly = r.assembly ∧ ∀ c, c ∈ u ↔ c ∈ r ∧ c ∈ s
  := by
  unfold meet combine
  split
  · rename_i h
    simp only [Except.ok.injEq, h, true_and]
    constructor
    · rintro rfl
      exact ⟨rfl, fun c => Std.ExtTreeSet.mem_inter_iff⟩
    · rintro ⟨ha, hc⟩
      exact Region.ext ha.symm fun c => Std.ExtTreeSet.mem_inter_iff.trans (hc c).symm
  · simp_all

/-- The join of two regions exists exactly when they belong to one assembly, and then has
the configurations of either. -/
theorem join_eq_ok_iff {r s u : Region} :
  r.join s = .ok u ↔
    r.assembly = s.assembly ∧ u.assembly = r.assembly ∧ ∀ c, c ∈ u ↔ c ∈ r ∨ c ∈ s
  := by
  unfold join combine
  split
  · rename_i h
    simp only [Except.ok.injEq, h, true_and]
    constructor
    · rintro rfl
      exact ⟨rfl, fun c => Std.ExtTreeSet.mem_union_iff⟩
    · rintro ⟨ha, hc⟩
      exact Region.ext ha.symm fun c => Std.ExtTreeSet.mem_union_iff.trans (hc c).symm
  · simp_all

/-- The difference of two regions exists exactly when they belong to one assembly, and then
has the configurations of the first that are not in the second. -/
theorem diff_eq_ok_iff {r s u : Region} :
  r.diff s = .ok u ↔
    r.assembly = s.assembly ∧ u.assembly = r.assembly ∧ ∀ c, c ∈ u ↔ c ∈ r ∧ c ∉ s
  := by
  unfold diff combine
  split
  · rename_i h
    simp only [Except.ok.injEq, h, true_and]
    constructor
    · rintro rfl
      exact ⟨rfl, fun c => Std.ExtTreeSet.mem_diff_iff⟩
    · rintro ⟨ha, hc⟩
      exact Region.ext ha.symm fun c => Std.ExtTreeSet.mem_diff_iff.trans (hc c).symm
  · simp_all

/-- Two regions are compared exactly when they belong to one assembly, and then by
inclusion. -/
theorem le_eq_ok_iff {r s : Region} {b : Bool} :
  r.le s = .ok b ↔ r.assembly = s.assembly ∧ (b = true ↔ ∀ c ∈ r, c ∈ s)
  := by
  have hall : (r.toList.all fun c => c ∈ s) = true ↔ ∀ c ∈ r, c ∈ s := by
    simp only [List.all_eq_true, decide_eq_true_eq, mem_toList]
  unfold le
  split
  · rename_i h
    simp only [Except.ok.injEq, h, true_and, ← hall]
    constructor
    · rintro rfl
      rfl
    · intro hb
      exact (Bool.eq_iff_iff.2 hb).symm
  · simp_all

end Region

end AssemblySemantics
