import AssemblySemantics.Proofs.Assembly.Space
import AssemblySemantics.Proofs.Region.Lattice
import AssemblySemantics.Proposition

/-!
# The extent of a proposition

A proposition always has a region in an assembly, its extent, which lies in the space: the
lattice operations that lift the proposition only meet regions of that assembly. The extent
holds the configurations of the space of which the proposition is true.
-/

namespace AssemblySemantics

namespace Proposition

/-- The region of an assembly in which a proposition is true, by operations on sets. -/
def extent (a : Assembly) : Proposition → Region
  | basic p => a.statesWhere p
  | always => a.space
  | never => .bottom a.id
  | and l r => l.extent a ∩ r.extent a
  | or l r => l.extent a ∪ r.extent a
  | not f => a.space \ f.extent a

variable (a : Assembly)

@[simp]
theorem assembly_extent (f : Proposition) :
  (f.extent a).assembly = a.id
  := by
  induction f with
  | basic | always | never => rfl
  | and l r ihl _ => apply ihl
  | or l r ihl _ => apply ihl
  | not f _ => rfl

/-- Lifting a proposition gives its extent, however the questions for the space and its parts
come to their answers, and in whatever sense a computation gives a region. -/
theorem liftM_extent {m : Type → Type} [Monad m] [MonadLiftT (Except RegionError) m]
    {space : m Region} {statesWhere : Placement → m Region} (Gives : m Region → Region → Prop)
    (hpure : ∀ r, Gives (pure r) r)
    (hbind : ∀ {x : m Region} {g : Region → m Region} {r s},
      Gives x r → Gives (g r) s → Gives (x >>= g) s)
    (hlift : ∀ {x : Except RegionError Region} {r}, x = .ok r → Gives (monadLift x) r)
    (hspace : Gives space a.space) (hparts : ∀ p, Gives (statesWhere p) (a.statesWhere p))
    (f : Proposition) :
  Gives (f.liftM a.id space statesWhere) (f.extent a)
  := by
  induction f with
  | basic p => apply hparts
  | always => apply hspace
  | never => apply hpure
  | and l r ihl ihr =>
    have hmeet : (l.extent a).meet (r.extent a) = .ok (l.extent a ∩ r.extent a) := by
      apply Region.meet_of_eq
      rw [assembly_extent, assembly_extent]
    apply hbind ihl (hbind ihr (hlift hmeet))
  | or l r ihl ihr =>
    have hjoin : (l.extent a).join (r.extent a) = .ok (l.extent a ∪ r.extent a) := by
      apply Region.join_of_eq
      rw [assembly_extent, assembly_extent]
    apply hbind ihl (hbind ihr (hlift hjoin))
  | not f ih =>
    have hdiff : a.space.diff (f.extent a) = .ok (a.space \ f.extent a) := by
      apply Region.diff_of_eq
      rw [assembly_extent, Assembly.assembly_space]
    apply hbind hspace (hbind ih (hlift hdiff))

/-- Lifting a proposition gives its extent. -/
theorem lift_eq (f : Proposition) :
  f.lift a = .ok (f.extent a)
  := by
  apply liftM_extent a (fun (x : Except RegionError Region) r => x = .ok r)
  · intro r
    rfl
  · intro x g r s hx hg
    rw [hx]
    apply hg
  · intro x r hx
    apply hx
  · rfl
  · intro p
    rfl

variable {a}

/-- An extent holds the configurations of the space of which the proposition is true. -/
theorem mem_extent {f : Proposition} {c : Configuration} :
  c ∈ f.extent a ↔ c ∈ a.space ∧ f.Holds c
  := by
  induction f with
  | basic p => apply Assembly.mem_statesWhere_iff_state?
  | always => exact (and_iff_left trivial).symm
  | never =>
    constructor
    · intro hc
      apply (Region.not_mem_bottom hc).elim
    · rintro ⟨-, hc⟩
      apply hc.elim
  | and l r ihl ihr => rw [extent, Region.mem_inter, ihl, ihr, Holds, ← and_and_left]
  | or l r ihl ihr => rw [extent, Region.mem_union, ihl, ihr, Holds, and_or_left]
  | not f ih =>
    rw [extent, Region.mem_sdiff, ih, Holds]
    apply and_congr_right
    intro hc
    rw [not_and]
    exact ⟨fun h => h hc, fun h _ => h⟩

/-- An extent lies in the space. -/
theorem extent_subset_space (f : Proposition) :
  f.extent a ⊆ a.space
  := fun _ hc => (mem_extent.mp hc).1

/-- Whether a proposition is true of a configuration depends on the machines that it speaks
of. -/
theorem holds_congr {f : Proposition} {b c : Configuration}
    (h : ∀ p ∈ f.leaves, b.state? p.machine = c.state? p.machine) :
  f.Holds b ↔ f.Holds c
  := by
  induction f with
  | basic p => rw [Holds, Holds, h p List.mem_cons_self]
  | always | never => rfl
  | and l r ihl ihr =>
    have hl := ihl fun p hp => h p (List.mem_append_left _ hp)
    have hr := ihr fun p hp => h p (List.mem_append_right _ hp)
    rw [Holds, Holds, hl, hr]
  | or l r ihl ihr =>
    have hl := ihl fun p hp => h p (List.mem_append_left _ hp)
    have hr := ihr fun p hp => h p (List.mem_append_right _ hp)
    rw [Holds, Holds, hl, hr]
  | not f ih => rw [Holds, Holds, ih h]

end Proposition

end AssemblySemantics
