import AssemblySemantics.Component
import AssemblySemantics.Region.Basic

/-!
# Assemblies

An assembly is a list of component machines with distinct ids. Its `space` is the region of
all joint configurations, its `initial` region that of the configurations in which every
component is in a state where it may start, and `statesWhere` the part of the space with a
given placement.
-/

namespace AssemblySemantics

/-- Component machines, in the order of their registration, under distinct ids. -/
structure Assembly where
  uid : Nat
  id : String
  components : List Component
  id_ne_empty : id ≠ ""
  nodup_ids : (components.map Component.id).Nodup

namespace Assembly

/-- Assemblies are equal when their identities, ids and components are. -/
theorem eq_iff {a b : Assembly} :
  a = b ↔ a.uid = b.uid ∧ a.id = b.id ∧ a.components = b.components
  := by
  cases a
  cases b
  simp

instance : DecidableEq Assembly := fun _ _ => decidable_of_decidable_of_iff eq_iff.symm

/-- The id of an assembly for which none was chosen. -/
def defaultId : String := "Assembly"

/-- The assembly without components that is taken when none was chosen. -/
def standard (uid : Nat) : Assembly :=
  ⟨uid, defaultId, [], by decide, by simp⟩

/-- The assembly with one more component, if its id is new. -/
def register (a : Assembly) (c : Component) : Except AssemblyError Assembly :=
  if h : c.id ∈ a.components.map Component.id then .error (.alreadyRegistered c.id)
  else .ok { a with
    components := a.components ++ [c]
    nodup_ids := by
      rw [List.map_append, List.nodup_append]
      refine ⟨a.nodup_ids, by simp, ?_⟩
      intro x hx y hy hxy
      obtain rfl : y = c.id := by simpa using hy
      exact h (hxy ▸ hx) }

/-- The assembly of an id and components, registered one by one. -/
def make (uid : Nat) (id : String) (components : List Component) :
    Except AssemblyError Assembly :=
  if h : id = "" then .error .noAssemblyId
  else components.foldlM register ⟨uid, id, [], h, by simp⟩

/-- The component registered under an id. -/
def component? (a : Assembly) (id : String) : Option Component :=
  a.components.find? (·.id = id)

/-- Replaces the components of one identity by a version of the same id. -/
def revise (a : Assembly) (uid : Nat) (f : Component → Component)
    (hf : ∀ c, (f c).id = c.id) : Assembly :=
  { a with
    components := a.components.map fun c => if c.uid = uid then f c else c
    nodup_ids := by
      have h : (a.components.map fun c => if c.uid = uid then f c else c).map Component.id =
          a.components.map Component.id := by
        rw [List.map_map]
        apply List.map_congr_left
        intro c _
        by_cases hc : c.uid = uid <;> simp [hc, hf]
      rw [h]
      exact a.nodup_ids }

/-- The assembly after a component of the given identity has taken one more move. -/
def addMove (a : Assembly) (uid : Nat) (m : Move) : Assembly :=
  a.revise uid (fun c => (c.addMove m).toOption.getD c) (by
    intro c
    rcases h : c.addMove m with e | d
    · rfl
    · exact (Component.addMove_eq_ok h).2.1)

/-- Every way to place each machine in one of its states, in canonical form. -/
def jointConfigurations : List (String × List String) → List Configuration
  | [] => [[]]
  | (machine, states) :: rest =>
    states.flatMap fun s => (jointConfigurations rest).map (Configuration.add ⟨machine, s⟩)

/-- The region in which every component is in one of the states chosen for it. -/
def product (a : Assembly) (choice : Component → List String) : Region :=
  .ofConfigurations a.id (jointConfigurations (a.components.map fun c => (c.id, choice c)))

/-- All joint configurations of the components. -/
def space (a : Assembly) : Region := a.product Component.states

/-- The joint configurations in which every component may start. -/
def initial (a : Assembly) : Region := a.product Component.initialStates

/-- The joint configurations that have a placement. -/
def statesWhere (a : Assembly) (p : Placement) : Region := a.space.having p

/-- An assembly by its id and the ids of its components. -/
def inspect (a : Assembly) : String :=
  "Assembly(" ++ Text.quoted a.id ++ ", machines=" ++
    Text.quotedList (a.components.map Component.id) ++ ")"

@[simp]
theorem assembly_product (a : Assembly) (choice : Component → List String) :
  (a.product choice).assembly = a.id
  := rfl

@[simp]
theorem assembly_space (a : Assembly) :
  a.space.assembly = a.id
  := rfl

@[simp]
theorem assembly_initial (a : Assembly) :
  a.initial.assembly = a.id
  := rfl

@[simp]
theorem assembly_statesWhere (a : Assembly) (p : Placement) :
  (a.statesWhere p).assembly = a.id
  := rfl

/-- The configurations of `statesWhere` are those of the space that have the placement. -/
theorem mem_statesWhere {a : Assembly} {p : Placement} {c : Configuration} :
  c ∈ a.statesWhere p ↔ c ∈ a.space ∧ p ∈ c
  := Region.mem_having

end Assembly

end AssemblySemantics
