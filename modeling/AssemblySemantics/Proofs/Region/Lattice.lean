import AssemblySemantics.Region.Basic
import Mathlib.Data.List.Nodup
import Mathlib.Data.List.Perm.Subperm
import Mathlib.Tactic.Common

/-!
# Regions as sets

Regions of one assembly are combined as sets: `join`, `meet` and `diff` give the union, the
intersection and the difference, and joining one by one gives `unions`. Inclusion is a
preorder, and a region that lies in another one and misses one of its configurations is
smaller.
-/

namespace AssemblySemantics

namespace Region

variable {c : Configuration} {r s u : Region}

instance : Union Region := ⟨fun r s => ⟨r.assembly, r.configurations ∪ s.configurations⟩⟩

instance : Inter Region := ⟨fun r s => ⟨r.assembly, r.configurations ∩ s.configurations⟩⟩

instance : SDiff Region := ⟨fun r s => ⟨r.assembly, r.configurations \ s.configurations⟩⟩

/-- A region lies in another one when all its configurations do. -/
instance : HasSubset Region := ⟨fun r s => ∀ c ∈ r, c ∈ s⟩

@[simp]
theorem assembly_union (r s : Region) :
  (r ∪ s).assembly = r.assembly
  := rfl

@[simp]
theorem assembly_inter (r s : Region) :
  (r ∩ s).assembly = r.assembly
  := rfl

@[simp]
theorem assembly_sdiff (r s : Region) :
  (r \ s).assembly = r.assembly
  := rfl

@[simp]
theorem assembly_bottom (assembly : String) :
  (bottom assembly).assembly = assembly
  := rfl

@[simp]
theorem assembly_having (r : Region) (p : Placement) :
  (r.having p).assembly = r.assembly
  := rfl

theorem mem_union :
  c ∈ r ∪ s ↔ c ∈ r ∨ c ∈ s
  := Std.ExtTreeSet.mem_union_iff

theorem mem_inter :
  c ∈ r ∩ s ↔ c ∈ r ∧ c ∈ s
  := Std.ExtTreeSet.mem_inter_iff

theorem mem_sdiff :
  c ∈ r \ s ↔ c ∈ r ∧ c ∉ s
  := Std.ExtTreeSet.mem_diff_iff

/-- Regions of one assembly have a join, their union. -/
theorem join_of_eq (h : r.assembly = s.assembly) :
  r.join s = .ok (r ∪ s)
  := combine_of_eq h

/-- Regions of one assembly have a meet, their intersection. -/
theorem meet_of_eq (h : r.assembly = s.assembly) :
  r.meet s = .ok (r ∩ s)
  := combine_of_eq h

/-- Regions of one assembly have a difference. -/
theorem diff_of_eq (h : r.assembly = s.assembly) :
  r.diff s = .ok (r \ s)
  := combine_of_eq h

theorem isEmpty_iff :
  r.isEmpty = true ↔ ∀ c, c ∉ r
  := by
  rw [isEmpty, Std.ExtTreeSet.isEmpty_iff]
  constructor
  · intro h c hc
    have hc : c ∈ r.configurations := hc
    rw [h] at hc
    apply Std.ExtTreeSet.not_mem_empty hc
  · intro h
    apply Std.ExtTreeSet.ext_mem
    intro c
    constructor
    · intro hc
      apply (h c hc).elim
    · intro hc
      apply (Std.ExtTreeSet.not_mem_empty hc).elim

/-- A region of an assembly without configurations is the bottom one. -/
theorem eq_bottom {assembly : String} (h : r.assembly = assembly) (hr : ∀ c, c ∉ r) :
  r = bottom assembly
  := by
  apply Region.ext h
  intro c
  apply iff_of_false (hr c) not_mem_bottom

/-! ### Inclusion -/

theorem Subset.refl (r : Region) :
  r ⊆ r
  := fun _ hc => hc

theorem Subset.trans (h : r ⊆ s) (h' : s ⊆ u) :
  r ⊆ u
  := fun c hc => h' c (h c hc)

theorem bottom_subset {assembly : String} :
  bottom assembly ⊆ r
  := fun _ hc => (not_mem_bottom hc).elim

theorem subset_union_left :
  r ⊆ r ∪ s
  := fun _ hc => mem_union.mpr (.inl hc)

theorem subset_union_right :
  s ⊆ r ∪ s
  := fun _ hc => mem_union.mpr (.inr hc)

/-- Regions of one assembly are compared by inclusion. -/
theorem le_eq_ok_true_iff :
  r.le s = .ok true ↔ r.assembly = s.assembly ∧ r ⊆ s
  := by
  rw [le_eq_ok_iff]
  apply and_congr_right
  intro _
  apply iff_true_left rfl

/-- A region keeps its value in a union exactly when it contains the other part. -/
theorem union_eq_left_iff :
  r ∪ s = r ↔ s ⊆ r
  := by
  constructor
  · intro h c hc
    rw [← h]
    apply subset_union_right c hc
  · intro h
    apply Region.ext (assembly_union r s)
    intro c
    constructor
    · intro hc
      obtain hc | hc := mem_union.mp hc
      · apply hc
      · apply h c hc
    · apply subset_union_left

/-- A union is its second part when that contains the first one. -/
theorem union_eq_right (ha : r.assembly = s.assembly) (h : r ⊆ s) :
  r ∪ s = s
  := by
  apply Region.ext ((assembly_union r s).trans ha)
  intro c
  constructor
  · intro hc
    obtain hc | hc := mem_union.mp hc
    · apply h c hc
    · apply hc
  · apply subset_union_right

/-! ### Unions -/

/-- The union of several regions, as a region of an assembly. -/
def unions (assembly : String) (regions : List Region) : Region :=
  ofConfigurations assembly (regions.flatMap toList)

@[simp]
theorem assembly_unions (assembly : String) (regions : List Region) :
  (unions assembly regions).assembly = assembly
  := rfl

theorem mem_unions {assembly : String} {regions : List Region} :
  c ∈ unions assembly regions ↔ ∃ r ∈ regions, c ∈ r
  := by
  simp only [unions, mem_ofConfigurations, List.mem_flatMap, mem_toList]

theorem union_unions_nil (r : Region) (assembly : String) :
  r ∪ unions assembly [] = r
  := by
  apply union_eq_left_iff.mpr
  intro c hc
  obtain ⟨s, hs, -⟩ := mem_unions.mp hc
  apply (List.not_mem_nil hs).elim

/-- Joining several regions to a region is joining the first of them, and then the others. -/
theorem union_unions_cons (r s : Region) (assembly : String) (regions : List Region) :
  r ∪ unions assembly (s :: regions) = r ∪ s ∪ unions assembly regions
  := by
  apply Region.ext
  · rfl
  · intro c
    simp only [mem_union, mem_unions, List.mem_cons, exists_eq_or_imp, or_assoc]

theorem bottom_union_unions (assembly : String) (regions : List Region) :
  bottom assembly ∪ unions assembly regions = unions assembly regions
  := by
  apply Region.ext
  · rfl
  · intro c
    simp [mem_union]

/-- A loop in which every step joins a region joins all of them. -/
theorem foldlM_eq_union {α : Type} {assembly : String}
    {f : Region → α → Except RegionError Region} {g : α → Region} {listed : List α}
    (hf : ∀ (joined : Region), ∀ x ∈ listed,
      joined.assembly = assembly → f joined x = .ok (joined ∪ g x))
    (joined : Region) (h : joined.assembly = assembly) :
  listed.foldlM f joined = .ok (joined ∪ unions assembly (listed.map g))
  := by
  induction listed generalizing joined with
  | nil =>
    rw [List.map_nil, union_unions_nil]
    rfl
  | cons x listed ih =>
    rw [List.foldlM_cons, hf joined x List.mem_cons_self h, List.map_cons, union_unions_cons]
    apply ih _ (joined ∪ g x) h
    intro joined y hy
    apply hf joined y (List.mem_cons_of_mem x hy)

/-- A loop that starts from the empty region and joins a region in every step. -/
theorem foldlM_bottom_eq_unions {α : Type} {assembly : String}
    {f : Region → α → Except RegionError Region} {g : α → Region} {listed : List α}
    (hf : ∀ (joined : Region), ∀ x ∈ listed,
      joined.assembly = assembly → f joined x = .ok (joined ∪ g x)) :
  listed.foldlM f (bottom assembly) = .ok (unions assembly (listed.map g))
  := by
  rw [foldlM_eq_union hf (bottom assembly) rfl, bottom_union_unions]

/-- Joining regions of an assembly gives their union. -/
theorem foldlM_join_eq_unions {assembly : String} {regions : List Region}
    (h : ∀ r ∈ regions, r.assembly = assembly) :
  regions.foldlM join (bottom assembly) = .ok (unions assembly regions)
  := by
  have hjoin : ∀ (joined : Region), ∀ r ∈ regions,
      joined.assembly = assembly → joined.join r = .ok (joined ∪ id r) := by
    intro joined r hr hj
    apply join_of_eq (hj.trans (h r hr).symm)
  rw [foldlM_bottom_eq_unions hjoin, List.map_id]

/-! ### Size -/

theorem nodup_toList (r : Region) :
  r.toList.Nodup
  := by
  apply (Std.ExtTreeSet.distinct_toList (t := r.configurations)).imp
  intro b c hne heq
  apply hne
  rw [heq]
  apply Std.ReflOrd.compare_self

theorem length_toList (r : Region) :
  r.toList.length = r.size
  := Std.ExtTreeSet.length_toList

/-- Configurations that are listed once each are counted by the list. -/
theorem size_ofConfigurations {assembly : String} {listed : List Configuration}
    (h : listed.Nodup) :
  (ofConfigurations assembly listed).size = listed.length
  := by
  rw [← length_toList]
  apply List.Perm.length_eq
  apply (List.perm_ext_iff_of_nodup (nodup_toList _) h).mpr
  intro c
  rw [mem_toList, mem_ofConfigurations]

/-- A region that lies in another one is at most as large. -/
theorem size_le_of_subset (h : r ⊆ s) :
  r.size ≤ s.size
  := by
  rw [← length_toList, ← length_toList]
  apply (List.subperm_of_subset r.nodup_toList _).length_le
  intro c hc
  apply mem_toList.mpr (h c (mem_toList.mp hc))

/-- A region that lies in another one and misses one of its configurations is smaller. -/
theorem size_lt_of_subset (h : r ⊆ s) (hc : c ∈ s) (hn : c ∉ r) :
  r.size < s.size
  := by
  have hnd : (c :: r.toList).Nodup :=
    List.nodup_cons.mpr ⟨fun hm => hn (mem_toList.mp hm), r.nodup_toList⟩
  have hsub : c :: r.toList ⊆ s.toList := by
    intro b hb
    obtain rfl | hb := List.mem_cons.mp hb
    · apply mem_toList.mpr hc
    · apply mem_toList.mpr (h b (mem_toList.mp hb))
  have hlen := (List.subperm_of_subset hnd hsub).length_le
  rw [List.length_cons, length_toList, length_toList] at hlen
  apply hlen

end Region

end AssemblySemantics
