import AssemblySemantics.Diagram.Edge
import AssemblySemantics.ExitZone
import AssemblySemantics.Table

/-!
# Caches

A cache stores what was computed for the states and edges of a diagram: a region and a set
of exit zones for a state, which share one record, and a region for an edge. What was never
stored, or was forgotten, reads as the empty region of the cache's assembly and the empty
set of zones.
-/

namespace AssemblySemantics

/-- The region and the exit zones stored for one state. -/
structure StateRecord where
  region : Region
  zones : ZoneSet
deriving DecidableEq

/-- Regions and exit zones stored for states and edges. -/
structure Cache where
  assembly : String
  states : Table State StateRecord
  edges : Table Edge Region
deriving DecidableEq

namespace Cache

/-- The cache that stores nothing. -/
def empty (assembly : String) : Cache := ⟨assembly, ∅, ∅⟩

/-- The region that unknown states and edges read as. -/
def bottom (c : Cache) : Region := .bottom c.assembly

/-- The region of a state. -/
def stateRegion (c : Cache) (s : State) : Region :=
  ((c.states.get? s).map StateRecord.region).getD c.bottom

/-- The exit zones of a state. -/
def stateZones (c : Cache) (s : State) : ZoneSet :=
  ((c.states.get? s).map StateRecord.zones).getD ∅

/-- The region of an edge. -/
def edgeRegion (c : Cache) (e : Edge) : Region := c.edges.getD e c.bottom

/-- Whether a state has a record. -/
def hasState (c : Cache) (s : State) : Bool := c.states.contains s

/-- Stores the region of a state; its zones stay. -/
def setStateRegion (c : Cache) (s : State) (r : Region) : Cache :=
  { c with states := c.states.set s ⟨r, c.stateZones s⟩ }

/-- Stores the exit zones of a state; its region stays. -/
def setStateZones (c : Cache) (s : State) (zones : ZoneSet) : Cache :=
  { c with states := c.states.set s ⟨c.stateRegion s, zones⟩ }

/-- Stores the region of an edge. -/
def setEdgeRegion (c : Cache) (e : Edge) (r : Region) : Cache :=
  { c with edges := c.edges.set e r }

/-- Drops the record of a state. -/
def forgetState (c : Cache) (s : State) : Cache := { c with states := c.states.erase s }

/-- Drops the region of an edge. -/
def forgetEdge (c : Cache) (e : Edge) : Cache := { c with edges := c.edges.erase e }

/-- Drops everything. -/
def clear (c : Cache) : Cache := empty c.assembly

/-- The stored regions of states, in the order in which the states came. -/
def snapshot (c : Cache) : Table State Region :=
  ⟨c.states.entries.map fun e => (e.1, e.2.region)⟩

/-- The regions of the given states, a repeated state once. -/
def snapshotOf (c : Cache) (states : List State) : Table State Region :=
  .ofList (states.map fun s => (s, c.stateRegion s))

@[simp]
theorem stateRegion_setStateRegion (c : Cache) (s t : State) (r : Region) :
  (c.setStateRegion s r).stateRegion t = if s = t then r else c.stateRegion t
  := by
  by_cases h : s = t <;> simp [stateRegion, setStateRegion, Table.get?_set, h, bottom]

@[simp]
theorem stateZones_setStateRegion (c : Cache) (s t : State) (r : Region) :
  (c.setStateRegion s r).stateZones t = c.stateZones t
  := by
  by_cases h : s = t <;> simp [stateZones, setStateRegion, Table.get?_set, h]

@[simp]
theorem edgeRegion_setStateRegion (c : Cache) (s : State) (e : Edge) (r : Region) :
  (c.setStateRegion s r).edgeRegion e = c.edgeRegion e
  := rfl

@[simp]
theorem stateRegion_setStateZones (c : Cache) (s t : State) (zones : ZoneSet) :
  (c.setStateZones s zones).stateRegion t = c.stateRegion t
  := by
  by_cases h : s = t <;> simp [stateRegion, setStateZones, Table.get?_set, h, bottom]

@[simp]
theorem stateZones_setStateZones (c : Cache) (s t : State) (zones : ZoneSet) :
  (c.setStateZones s zones).stateZones t = if s = t then zones else c.stateZones t
  := by
  by_cases h : s = t <;> simp [stateZones, setStateZones, Table.get?_set, h]

@[simp]
theorem edgeRegion_setStateZones (c : Cache) (s : State) (e : Edge) (zones : ZoneSet) :
  (c.setStateZones s zones).edgeRegion e = c.edgeRegion e
  := rfl

/-- The region and the exit zones of a state may be stored in any order. -/
theorem setStateRegion_setStateZones (c : Cache) (s : State) (r : Region) (zones : ZoneSet) :
  (c.setStateZones s zones).setStateRegion s r = (c.setStateRegion s r).setStateZones s zones
  := by
  have hzones : (c.setStateZones s zones).stateZones s = zones := by simp
  have hregion : (c.setStateRegion s r).stateRegion s = r := by simp
  calc (c.setStateZones s zones).setStateRegion s r
    _ = { c with
          states := (c.states.set s ⟨c.stateRegion s, zones⟩).set s
            ⟨r, (c.setStateZones s zones).stateZones s⟩ } := rfl
    _ = { c with states := c.states.set s ⟨r, zones⟩ } := by rw [hzones, Table.set_set]
    _ = { c with
          states := (c.states.set s ⟨r, c.stateZones s⟩).set s
            ⟨(c.setStateRegion s r).stateRegion s, zones⟩ } := by rw [hregion, Table.set_set]
    _ = (c.setStateRegion s r).setStateZones s zones := rfl

@[simp]
theorem stateRegion_setEdgeRegion (c : Cache) (e : Edge) (s : State) (r : Region) :
  (c.setEdgeRegion e r).stateRegion s = c.stateRegion s
  := rfl

@[simp]
theorem stateZones_setEdgeRegion (c : Cache) (e : Edge) (s : State) (r : Region) :
  (c.setEdgeRegion e r).stateZones s = c.stateZones s
  := rfl

@[simp]
theorem edgeRegion_setEdgeRegion (c : Cache) (e e' : Edge) (r : Region) :
  (c.setEdgeRegion e r).edgeRegion e' = if e = e' then r else c.edgeRegion e'
  := by
  by_cases h : e = e' <;>
    simp [edgeRegion, setEdgeRegion, Table.getD, Table.get?_set, h, bottom]

/-- A forgotten state reads as the empty region. -/
@[simp]
theorem stateRegion_forgetState (c : Cache) (s t : State) :
  (c.forgetState s).stateRegion t = if s = t then c.bottom else c.stateRegion t
  := by
  by_cases h : s = t <;> simp [stateRegion, forgetState, Table.get?_erase, h, bottom]

/-- A forgotten state has no exit zones. -/
@[simp]
theorem stateZones_forgetState (c : Cache) (s t : State) :
  (c.forgetState s).stateZones t = if s = t then ∅ else c.stateZones t
  := by
  by_cases h : s = t <;> simp [stateZones, forgetState, Table.get?_erase, h]

@[simp]
theorem edgeRegion_forgetState (c : Cache) (s : State) (e : Edge) :
  (c.forgetState s).edgeRegion e = c.edgeRegion e
  := rfl

@[simp]
theorem stateRegion_forgetEdge (c : Cache) (e : Edge) (s : State) :
  (c.forgetEdge e).stateRegion s = c.stateRegion s
  := rfl

@[simp]
theorem stateZones_forgetEdge (c : Cache) (e : Edge) (s : State) :
  (c.forgetEdge e).stateZones s = c.stateZones s
  := rfl

/-- A snapshot holds for a state what the cache stores for it, if it has a record. -/
theorem get?_snapshot (c : Cache) (s : State) :
  c.snapshot.get? s = if c.hasState s then some (c.stateRegion s) else none
  := by
  rw [snapshot, Table.get?_map_values, hasState, Table.contains, stateRegion]
  cases c.states.get? s <;> rfl

/-- A snapshot of given states holds for each of them what the cache stores. -/
theorem get?_snapshotOf (c : Cache) (states : List State) (s : State) :
  (c.snapshotOf states).get? s = if s ∈ states then some (c.stateRegion s) else none
  := Table.get?_ofList_map _ _ _

/-- A forgotten edge reads as the empty region. -/
@[simp]
theorem edgeRegion_forgetEdge (c : Cache) (e e' : Edge) :
  (c.forgetEdge e).edgeRegion e' = if e = e' then c.bottom else c.edgeRegion e'
  := by
  by_cases h : e = e' <;>
    simp [edgeRegion, forgetEdge, Table.getD, Table.get?_erase, h, bottom]

end Cache

end AssemblySemantics
