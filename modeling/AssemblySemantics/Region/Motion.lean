import AssemblySemantics.Assembly.Basic

/-!
# Motion of regions

A region moves when component machines move. `advance` takes one move of one machine: the
configurations that can take it are moved and the others are dropped. `send` sends an event
to a machine: a configuration goes to one configuration for each move that the event fires
in it, and stays where it is when the event fires none. `perform` sends events in order.
-/

namespace AssemblySemantics

/-- An event to be sent to a component machine. -/
structure Action where
  machine : String
  event : String
deriving DecidableEq

namespace Assembly

/-- The configurations to which an action leads from one configuration. -/
def outcomes (a : Assembly) (x : Action) (c : Configuration) : List Configuration :=
  match a.component? x.machine with
  | none => [c]
  | some d =>
    let fired := d.firedBy (c.state? x.machine) x.event
    if fired.isEmpty then [c] else fired.map fun m => c.reassign x.machine m.target

/-- An action always leads somewhere. -/
theorem outcomes_ne_nil (a : Assembly) (x : Action) (c : Configuration) :
  a.outcomes x c ≠ []
  := by
  unfold outcomes
  split
  · simp
  · simp only
    split
    · simp
    · rename_i h
      simpa using h

end Assembly

namespace Region

/-- The region of the same assembly whose configurations are those that `f` gives for the
configurations of the region. -/
def flatMap (r : Region) (f : Configuration → List Configuration) : Region :=
  .ofConfigurations r.assembly (r.toList.flatMap f)

/-- The region for which an operation was asked within an assembly, if it belongs there. -/
def within (r : Region) (a : Assembly) : Except RegionError Region :=
  if a.id = r.assembly then .ok r else .error (.misplaced r.assembly a.id)

/-- The configurations to which a machine's step from `source` to `target` leads; a source
of `none` stands for the configurations in which the machine has no place. -/
def advance (r : Region) (machine : String) (source : Option String) (target : String)
    (a : Assembly) : Except RegionError Region :=
  (r.within a).map (·.flatMap fun c =>
    if c.state? machine = source then [c.reassign machine target] else [])

/-- The configurations to which an action leads. -/
def send (r : Region) (x : Action) (a : Assembly) : Except RegionError Region :=
  (r.within a).map (·.flatMap (a.outcomes x))

/-- The configurations to which actions lead, performed in order. -/
def perform (r : Region) (actions : List Action) (a : Assembly) : Except RegionError Region :=
  actions.foldlM (fun r x => r.send x a) r

theorem mem_flatMap {c : Configuration} {r : Region}
    {f : Configuration → List Configuration} :
  c ∈ r.flatMap f ↔ ∃ b ∈ r, c ∈ f b
  := by
  simp only [flatMap, mem_ofConfigurations, List.mem_flatMap, mem_toList]

@[simp]
theorem assembly_flatMap (r : Region) (f : Configuration → List Configuration) :
  (r.flatMap f).assembly = r.assembly
  := rfl

theorem within_of_eq {r : Region} {a : Assembly} (h : r.assembly = a.id) :
  r.within a = .ok r
  := if_pos h.symm

theorem within_of_ne {r : Region} {a : Assembly} (h : r.assembly ≠ a.id) :
  r.within a = .error (.misplaced r.assembly a.id)
  := if_neg (Ne.symm h)

/-- What an action leads to, in a region of the assembly. -/
theorem send_of_eq {r : Region} {a : Assembly} (x : Action) (h : r.assembly = a.id) :
  r.send x a = .ok (r.flatMap (a.outcomes x))
  := by
  simp [send, within_of_eq h, Except.map]

@[simp]
theorem perform_nil (r : Region) (a : Assembly) :
  r.perform [] a = .ok r
  := rfl

theorem perform_cons (r : Region) (x : Action) (actions : List Action) (a : Assembly) :
  r.perform (x :: actions) a = (r.send x a).bind (·.perform actions a)
  := rfl

end Region

end AssemblySemantics
