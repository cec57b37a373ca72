import AssemblySemantics.Proofs.Assembly.Space
import AssemblySemantics.Proofs.Region.Lattice
import AssemblySemantics.Region.Motion

/-!
# Motion, one configuration at a time

`Assembly.Reacts` says where one action may lead from one configuration, and
`Assembly.Performs` where a list of actions may lead. Performing actions on a region gives
the configurations to which those of the region lead: of a union, what it gives of the parts,
and nothing of a region only if there is nothing in it. Actions do not leave the space of the
assembly.
-/

namespace AssemblySemantics

namespace Assembly

/-- An action may lead from a configuration to another one: to itself, when the machine is
not registered or does not answer in its state, and otherwise along one of the moves that
the event fires. -/
inductive Reacts (a : Assembly) (x : Action) : Configuration → Configuration → Prop where
  | unregistered {c : Configuration} (h : a.component? x.machine = none) : Reacts a x c c
  | ignored {c : Configuration} {d : Component} (h : a.component? x.machine = some d)
      (hf : d.firedBy (c.state? x.machine) x.event = []) : Reacts a x c c
  | fired {c : Configuration} {d : Component} {m : Move}
      (h : a.component? x.machine = some d)
      (hf : m ∈ d.firedBy (c.state? x.machine) x.event) :
      Reacts a x c (c.reassign x.machine m.target)

/-- Actions, performed in order, may lead from a configuration to another one. -/
inductive Performs (a : Assembly) : List Action → Configuration → Configuration → Prop where
  | nil {c : Configuration} : Performs a [] c c
  | cons {x : Action} {xs : List Action} {b c d : Configuration} (hx : a.Reacts x b c)
      (hxs : Performs a xs c d) : Performs a (x :: xs) b d

/-- The configurations to which actions lead from one configuration. -/
def performed (a : Assembly) : List Action → Configuration → List Configuration
  | [], c => [c]
  | x :: xs, c => (a.outcomes x c).flatMap (a.performed xs)

variable {a : Assembly} {x : Action} {xs : List Action} {b c : Configuration}

/-- The outcomes of an action are the configurations to which it may lead. -/
theorem mem_outcomes :
  c ∈ a.outcomes x b ↔ a.Reacts x b c
  := by
  unfold outcomes
  constructor
  · intro h
    split at h
    · rename_i hnone
      obtain rfl := List.mem_singleton.mp h
      apply Reacts.unregistered hnone
    · rename_i d hd
      simp only at h
      split at h
      · rename_i hempty
        obtain rfl := List.mem_singleton.mp h
        apply Reacts.ignored hd (List.isEmpty_iff.mp hempty)
      · obtain ⟨m, hm, rfl⟩ := List.mem_map.mp h
        apply Reacts.fired hd hm
  · intro h
    cases h with
    | unregistered h =>
      rw [h]
      apply List.mem_singleton_self
    | ignored h hf =>
      rw [h]
      simp [hf]
    | @fired d m h hf =>
      have hne : (d.firedBy (b.state? x.machine) x.event).isEmpty = false := by
        rw [List.isEmpty_eq_false_iff]
        apply List.ne_nil_of_mem hf
      rw [h]
      simp only [hne]
      apply List.mem_map_of_mem hf

theorem mem_performed :
  c ∈ a.performed xs b ↔ a.Performs xs b c
  := by
  induction xs generalizing b with
  | nil =>
    rw [performed, List.mem_singleton]
    constructor
    · rintro rfl
      apply Performs.nil
    · intro h
      cases h
      rfl
  | cons x xs ih =>
    rw [performed, List.mem_flatMap]
    constructor
    · rintro ⟨d, hd, hc⟩
      apply Performs.cons (mem_outcomes.mp hd) (ih.mp hc)
    · intro h
      cases h with
      | @cons _ _ _ d _ hx hxs => exact ⟨d, mem_outcomes.mpr hx, ih.mpr hxs⟩

/-- Actions always lead somewhere. -/
theorem performed_ne_nil (a : Assembly) (xs : List Action) (b : Configuration) :
  a.performed xs b ≠ []
  := by
  induction xs generalizing b with
  | nil => apply List.cons_ne_nil
  | cons x xs ih =>
    intro h
    obtain ⟨d, hd⟩ := List.exists_mem_of_ne_nil _ (a.outcomes_ne_nil x b)
    apply ih d (List.flatMap_eq_nil_iff.mp h d hd)

/-- An action does not leave the space. -/
theorem Reacts.mem_space (h : a.Reacts x b c) (hb : b ∈ a.space) :
  c ∈ a.space
  := by
  cases h with
  | unregistered => apply hb
  | ignored => apply hb
  | @fired d m h hf =>
    apply reassign_mem_space hb h
    apply (d.ends_mem m (List.mem_filter.mp hf).1).2

/-- Actions do not leave the space. -/
theorem Performs.mem_space (h : a.Performs xs b c) (hb : b ∈ a.space) :
  c ∈ a.space
  := by
  induction h with
  | nil => apply hb
  | cons hx _ ih => apply ih (hx.mem_space hb)

end Assembly

namespace Region

variable {a : Assembly} {r : Region}

/-- Where actions lead, in a region of the assembly. -/
theorem perform_of_eq (xs : List Action) (h : r.assembly = a.id) :
  r.perform xs a = .ok (r.flatMap (a.performed xs))
  := by
  induction xs generalizing r with
  | nil =>
    rw [perform_nil]
    congr 1
    apply Region.ext
    · rfl
    · intro c
      rw [mem_flatMap]
      simp [Assembly.performed]
  | cons x xs ih =>
    rw [perform_cons, send_of_eq x h]
    apply Eq.trans (ih (r := r.flatMap (a.outcomes x)) h)
    congr 1
    apply Region.ext
    · rfl
    · intro c
      simp only [mem_flatMap, Assembly.performed, List.mem_flatMap]
      constructor
      · rintro ⟨d, ⟨b, hb, hd⟩, hc⟩
        exact ⟨b, hb, d, hd, hc⟩
      · rintro ⟨b, hb, d, hd, hc⟩
        exact ⟨d, ⟨b, hb, hd⟩, hc⟩

theorem bottom_flatMap (assembly : String) (f : Configuration → List Configuration) :
  (bottom assembly).flatMap f = bottom assembly
  := by
  apply eq_bottom rfl
  intro c hc
  obtain ⟨b, hb, -⟩ := mem_flatMap.mp hc
  apply not_mem_bottom hb

/-- The image of a union is the union of the images. -/
theorem union_flatMap (r s : Region) (f : Configuration → List Configuration) :
  (r ∪ s).flatMap f = r.flatMap f ∪ s.flatMap f
  := by
  apply Region.ext
  · rfl
  · intro c
    simp only [mem_flatMap, mem_union, or_and_right, exists_or]

/-- The image of a region is empty only if the region is, when every configuration leads
somewhere. -/
theorem isEmpty_flatMap {f : Configuration → List Configuration} (hf : ∀ b, f b ≠ []) :
  (r.flatMap f).isEmpty = r.isEmpty
  := by
  rw [Bool.eq_iff_iff, isEmpty_iff, isEmpty_iff]
  constructor
  · intro h b hb
    obtain ⟨c, hc⟩ := List.exists_mem_of_ne_nil _ (hf b)
    apply h c (mem_flatMap.mpr ⟨b, hb, hc⟩)
  · intro h c hc
    obtain ⟨b, hb, -⟩ := mem_flatMap.mp hc
    apply h b hb

/-- The image of a region grows with the region. -/
theorem flatMap_subset_flatMap {s : Region} (f : Configuration → List Configuration)
    (h : r ⊆ s) :
  r.flatMap f ⊆ s.flatMap f
  := by
  intro c hc
  obtain ⟨b, hb, hcb⟩ := mem_flatMap.mp hc
  apply mem_flatMap.mpr ⟨b, h b hb, hcb⟩

end Region

end AssemblySemantics
