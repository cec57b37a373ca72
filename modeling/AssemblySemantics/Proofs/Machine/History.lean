import AssemblySemantics.Machine
import AssemblySemantics.Proofs.Diagram.Structure
import Mathlib.Data.List.Count

/-!
# Histories of machines

`Machine.Reachable` holds of every machine that comes about by making one and then editing
its diagram, replacing or growing its assembly, replacing its settings, and storing whatever
in its cache. The diagram of a reachable machine is well-formed.
-/

namespace AssemblySemantics

namespace Machine

/-- A change of the diagram of a machine. -/
inductive Edit where
  | addState (s : State)
  | addEdge (e : Edge)
  | removeEdge (e : Edge)
  | removeState (s : State)

/-- The machine after a change of its diagram, if the change is not refused. -/
def edit (m : Machine) : Edit → Except DiagramError Machine
  | .addState s => m.addState s
  | .addEdge e => m.addEdge e
  | .removeEdge e => m.removeEdge e
  | .removeState s => m.removeState s

/-- The machine after changes of its diagram, of which the refused ones are left out. -/
def edited (m : Machine) : List Edit → Machine
  | [] => m
  | x :: xs => ((m.edit x).toOption.getD m).edited xs

/-- The machines that may come about. -/
inductive Reachable : Machine → Prop where
  | make {name : String} {a : Assembly} {config : SolverConfig} {uid : Nat} {m : Machine}
      (h : Machine.make name a config (.pseudo uid) = .ok m) : Reachable m
  | edit {m m' : Machine} {x : Edit} (hm : Reachable m) (h : m.edit x = .ok m') : Reachable m'
  /-- The components of the assembly are more, or have more moves, than before. -/
  | grow {m : Machine} (hm : Reachable m) (a : Assembly) :
      Reachable { m with assembly := a }
  | setAssembly {m : Machine} (hm : Reachable m) (a : Assembly) : Reachable (m.setAssembly a)
  | setConfig {m : Machine} (hm : Reachable m) (config : SolverConfig) :
      Reachable (m.setConfig config)
  /-- The cache holds what passes have left in it, or what was written into it. -/
  | cached {m : Machine} (hm : Reachable m) (c : Cache) : Reachable { m with cache := c }

variable {m m' : Machine} {s : State}

/-- A refused change leaves a machine as it is, so that a list of changes always leads to a
reachable machine. -/
theorem Reachable.edited (h : m.Reachable) (xs : List Edit) :
  (m.edited xs).Reachable
  := by
  induction xs generalizing m with
  | nil => apply h
  | cons x xs ih =>
    apply ih
    rcases hx : m.edit x with _ | m'
    · apply h
    · apply h.edit hx

/-- Reachability does not depend on what the cache holds. -/
theorem Reachable.of_toModel_eq (h : m.Reachable) (heq : m'.toModel = m.toModel) :
  m'.Reachable
  := by
  obtain ⟨model, c⟩ := m'
  obtain rfl : model = m.toModel := heq
  apply h.cached c

/-! ### What is made and what is changed -/

theorem make_eq_ok {name : String} {a : Assembly} {config : SolverConfig} {pseudo : State}
    (h : Machine.make name a config pseudo = .ok m) :
  m = ⟨⟨name, a, config, .initial pseudo⟩, .empty a.id⟩
  := by
  rw [Machine.make] at h
  split at h
  · cases h
  · symm
    apply Except.ok.inj h

theorem addState_eq_ok (h : m.addState s = .ok m') :
  ∃ d, m.diagram.addState s = .ok d ∧ m' = { m with diagram := d }
  := by
  rw [addState] at h
  rcases hd : m.diagram.addState s with _ | d
  · rw [hd] at h
    cases h
  · rw [hd] at h
    exact ⟨d, rfl, (Except.ok.inj h).symm⟩

theorem addEdge_eq_ok {e : Edge} (h : m.addEdge e = .ok m') :
  ∃ d, m.diagram.addEdge e = .ok d ∧ m' = { m with diagram := d }
  := by
  rw [addEdge] at h
  rcases hd : m.diagram.addEdge e with _ | d
  · rw [hd] at h
    cases h
  · rw [hd] at h
    exact ⟨d, rfl, (Except.ok.inj h).symm⟩

theorem removeEdge_eq_ok {e : Edge} (h : m.removeEdge e = .ok m') :
  e ∈ m.diagram.edges ∧ m' = m.dropEdge e
  := by
  rw [removeEdge] at h
  split at h
  · rename_i he
    exact ⟨he, (Except.ok.inj h).symm⟩
  · cases h

/-- A state is erased after the edges that touch it. -/
theorem removeState_eq_ok (h : m.removeState s = .ok m') :
  s ≠ m.diagram.pseudo ∧ s ∈ m.diagram.states
    ∧ m' = { (m.diagram.touching s).foldl dropEdge m with
        diagram := ((m.diagram.touching s).foldl dropEdge m).diagram.eraseState s
        cache := ((m.diagram.touching s).foldl dropEdge m).cache.forgetState s }
  := by
  rw [removeState] at h
  split at h
  · cases h
  · rename_i hp
    split at h
    · cases h
    · rename_i hs
      exact ⟨hp, not_not.mp hs, (Except.ok.inj h).symm⟩

/-! ### Erasing the edges at a state -/

theorem edges_dropEdge (m : Machine) (e : Edge) :
  (m.dropEdge e).diagram.edges = m.diagram.edges.erase e
  := by
  rw [dropEdge]
  split
  · rfl
  · rename_i he
    rw [List.erase_of_not_mem he]

theorem toModel_dropEdge (m : Machine) (e : Edge) :
  (m.dropEdge e).toModel = { m.toModel with diagram := (m.dropEdge e).diagram }
  := by
  rw [dropEdge]
  split <;> rfl

theorem pseudo_dropEdge (m : Machine) (e : Edge) :
  (m.dropEdge e).diagram.pseudo = m.diagram.pseudo
  := by
  rw [dropEdge]
  split <;> rfl

theorem wellFormed_dropEdge (h : m.diagram.WellFormed) (e : Edge) :
  (m.dropEdge e).diagram.WellFormed
  := by
  rw [dropEdge]
  split
  · apply h.eraseEdge
  · apply h

theorem edges_foldl_dropEdge (m : Machine) (edges : List Edge) :
  (edges.foldl dropEdge m).diagram.edges = m.diagram.edges.diff edges
  := by
  induction edges generalizing m with
  | nil => rfl
  | cons e edges ih => rw [List.foldl_cons, ih, edges_dropEdge, List.diff_cons]

theorem toModel_foldl_dropEdge (m : Machine) (edges : List Edge) :
  (edges.foldl dropEdge m).toModel =
    { m.toModel with diagram := (edges.foldl dropEdge m).diagram }
  := by
  induction edges generalizing m with
  | nil => rfl
  | cons e edges ih =>
    rw [List.foldl_cons, ih, toModel_dropEdge]

theorem pseudo_foldl_dropEdge (m : Machine) (edges : List Edge) :
  (edges.foldl dropEdge m).diagram.pseudo = m.diagram.pseudo
  := by
  induction edges generalizing m with
  | nil => rfl
  | cons e edges ih => rw [List.foldl_cons, ih, pseudo_dropEdge]

theorem wellFormed_foldl_dropEdge (h : m.diagram.WellFormed) (edges : List Edge) :
  (edges.foldl dropEdge m).diagram.WellFormed
  := by
  induction edges generalizing m with
  | nil => apply h
  | cons e edges ih => apply ih (wellFormed_dropEdge h e)

/-- Every copy of an edge at a state is among the edges that touch the state. -/
theorem count_le_count_touching (h : m.diagram.WellFormed) (hs : s ∈ m.diagram.states)
    {e : Edge} (he : e.source = .state s ∨ e.target = .state s) :
  m.diagram.edges.count e ≤ (m.diagram.touching s).count e
  := by
  rw [Diagram.touching, h.incoming_eq_filter hs, h.outgoing_eq_filter hs, List.count_append]
  obtain hsource | htarget := he
  · have heq := List.count_filter (p := fun e => e.source = .state s) (l := m.diagram.edges)
      (decide_eq_true hsource)
    omega
  · have heq := List.count_filter (p := fun e => e.target = .state s) (l := m.diagram.edges)
      (decide_eq_true htarget)
    omega

/-- Erasing the edges that touch a state, copy by copy, leaves none at the state. -/
theorem not_touching_foldl_dropEdge (h : m.diagram.WellFormed) (hs : s ∈ m.diagram.states) :
  ∀ e ∈ ((m.diagram.touching s).foldl dropEdge m).diagram.edges,
    e.source ≠ .state s ∧ e.target ≠ .state s
  := by
  intro e he
  rw [edges_foldl_dropEdge] at he
  have hcount := List.count_pos_iff.mpr he
  rw [List.count_diff] at hcount
  apply not_or.mp
  intro hor
  have hle := count_le_count_touching h hs hor
  omega

/-! ### Reachable machines -/

/-- A change keeps the diagram well-formed. -/
theorem wellFormed_edit {x : Edit} (h : m.diagram.WellFormed) (hx : m.edit x = .ok m') :
  m'.diagram.WellFormed
  := by
  cases x with
  | addState s =>
    obtain ⟨d, hd, rfl⟩ := addState_eq_ok hx
    apply h.addState hd
  | addEdge e =>
    obtain ⟨d, hd, rfl⟩ := addEdge_eq_ok hx
    apply h.addEdge hd
  | removeEdge e =>
    obtain ⟨-, rfl⟩ := removeEdge_eq_ok hx
    apply wellFormed_dropEdge h
  | removeState s =>
    obtain ⟨hp, hs, rfl⟩ := removeState_eq_ok hx
    apply (wellFormed_foldl_dropEdge h _).eraseState
    · rw [pseudo_foldl_dropEdge]
      apply hp
    · apply not_touching_foldl_dropEdge h hs

/-- A change concerns the diagram, and perhaps the cache, and leaves the rest of the model
alone. -/
theorem toModel_edit {x : Edit} (hx : m.edit x = .ok m') :
  m'.toModel = { m.toModel with diagram := m'.diagram }
  := by
  cases x with
  | addState s =>
    obtain ⟨d, -, rfl⟩ := addState_eq_ok hx
    rfl
  | addEdge e =>
    obtain ⟨d, -, rfl⟩ := addEdge_eq_ok hx
    rfl
  | removeEdge e =>
    obtain ⟨-, rfl⟩ := removeEdge_eq_ok hx
    apply toModel_dropEdge
  | removeState s =>
    obtain ⟨-, -, rfl⟩ := removeState_eq_ok hx
    have heq := congrArg (fun model : Model => { model with diagram := model.diagram.eraseState s })
      (toModel_foldl_dropEdge m (m.diagram.touching s))
    apply heq

theorem assembly_edit {x : Edit} (hx : m.edit x = .ok m') :
  m'.assembly = m.assembly
  := by
  rw [toModel_edit hx]

/-- The diagram of a reachable machine is well-formed. -/
theorem Reachable.wellFormed (h : m.Reachable) :
  m.diagram.WellFormed
  := by
  induction h with
  | make h =>
    obtain rfl := make_eq_ok h
    apply Diagram.wellFormed_initial rfl
  | edit _ h ih => apply wellFormed_edit ih h
  | grow _ _ ih => apply ih
  | setAssembly _ _ ih => apply ih
  | setConfig _ _ ih => apply ih
  | cached _ _ ih => apply ih

end Machine

/-! ### A loop

A machine over a light that goes on by itself or on request: from the pseudostate to a first
state, from there along a given transition to a second one, and back. -/

namespace Loop

/-- A light that is off at first. -/
def light : Component :=
  ⟨0, "light", ["off", "on"], some "off", [⟨"off", "on", none⟩, ⟨"off", "on", some "switch"⟩],
    by decide, by decide, by decide, by decide, by decide⟩

/-- The assembly of the light alone. -/
def assembly : Assembly := ⟨0, "room", [light], by decide, by decide⟩

/-- A door that is open or closed at first, and opens and closes by itself. -/
def door : Component :=
  ⟨1, "door", ["closed", "open"], none, [⟨"closed", "open", none⟩, ⟨"open", "closed", none⟩],
    by decide, by decide, by decide, by decide, by decide⟩

/-- The assembly of the light and the door. -/
def house : Assembly := ⟨0, "room", [light, door], by decide, by decide⟩

/-- The light with its states and moves in another order, and one move listed twice. -/
def turnedLight : Component :=
  ⟨7, "light", ["on", "off"], some "off",
    [⟨"off", "on", some "switch"⟩, ⟨"off", "on", none⟩, ⟨"off", "on", some "switch"⟩],
    by decide, by decide, by decide, by decide, by decide⟩

/-- The door with its states and moves in another order. -/
def turnedDoor : Component :=
  ⟨8, "door", ["open", "closed"], none, [⟨"open", "closed", none⟩, ⟨"closed", "open", none⟩],
    by decide, by decide, by decide, by decide, by decide⟩

/-- The door and the light, in another order. -/
def turnedHouse : Assembly := ⟨7, "room", [turnedDoor, turnedLight], by decide, by decide⟩

/-- The state to which the pseudostate leads. -/
def first : State := ⟨1, "first", false⟩

/-- The state to which the first one leads. -/
def second : State := ⟨2, "second", false⟩

/-- From the pseudostate to the first state. -/
def enter : Transition := ⟨3, "enter", .pseudo 0, first, .always, true, []⟩

/-- From the first state to the second one, by switching a light that is off. -/
def switch : Transition :=
  ⟨4, "switch", first, second, .basic ⟨"light", "off"⟩, true, [⟨"light", "switch"⟩]⟩

/-- From the first state to the second one, when the light has gone on by itself. -/
def await : Transition := ⟨5, "await", first, second, .basic ⟨"light", "on"⟩, false, []⟩

/-- From the second state to the first one. -/
def back : Transition := ⟨6, "back", second, first, .always, true, []⟩

/-- The loop with a given transition forward. -/
def machine (forward : Transition) : Machine :=
  Machine.edited ⟨⟨"loop", assembly, .standard, .initial (.pseudo 0)⟩, .empty assembly.id⟩
    [.addState first, .addState second, .addEdge (.transition enter),
      .addEdge (.transition forward), .addEdge (.transition back)]

theorem reachable_machine (forward : Transition) :
  (machine forward).Reachable
  := by
  have hmake : Machine.make "loop" assembly .standard (.pseudo 0) = .ok _ := if_neg (by decide)
  apply (Machine.Reachable.make hmake).edited

end Loop

/-! ### A detour

A machine over the same light that has no cycle: from the pseudostate to a hall, at once or
by way of a room where the light is on, and from the hall to a state that waits for the light
to go on by itself. Its states may be added in any order. -/

namespace Detour

/-- The state on the way to the hall. -/
def lit : State := ⟨1, "lit", false⟩

/-- The state to which both ways lead. -/
def hall : State := ⟨2, "hall", false⟩

/-- The state that waits for the light. -/
def awake : State := ⟨3, "awake", false⟩

/-- From the pseudostate to the hall. -/
def enter : Transition := ⟨4, "enter", .pseudo 0, hall, .always, true, []⟩

/-- From the pseudostate to the lit room, by switching the light on. -/
def turn : Transition := ⟨5, "turn", .pseudo 0, lit, .always, true, [⟨"light", "switch"⟩]⟩

/-- From the lit room to the hall. -/
def join : Transition := ⟨6, "join", lit, hall, .always, true, []⟩

/-- From the hall on, when the light has gone on by itself. -/
def await : Transition := ⟨7, "await", hall, awake, .basic ⟨"light", "on"⟩, false, []⟩

/-- The detour with its states in a given order. -/
def machine (states : List State) : Machine :=
  Machine.edited
    ⟨⟨"detour", Loop.assembly, .standard, .initial (.pseudo 0)⟩, .empty Loop.assembly.id⟩
    (states.map .addState ++ [.addEdge (.transition enter), .addEdge (.transition turn),
      .addEdge (.transition join), .addEdge (.transition await)])

theorem reachable_machine (states : List State) :
  (machine states).Reachable
  := by
  have hmake : Machine.make "detour" Loop.assembly .standard (.pseudo 0) = .ok _ :=
    if_neg (by decide)
  apply (Machine.Reachable.make hmake).edited

/-- The detour with its states in the order in which they are passed. -/
def ordered : Machine := machine [lit, hall, awake]

/-- The detour with the lit room after the hall to which it leads. -/
def shuffled : Machine := machine [hall, awake, lit]

theorem reachable_ordered :
  ordered.Reachable
  := reachable_machine _

theorem reachable_shuffled :
  shuffled.Reachable
  := reachable_machine _

end Detour

end AssemblySemantics
