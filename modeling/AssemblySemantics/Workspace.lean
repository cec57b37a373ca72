import AssemblySemantics.Assembly.Registry
import AssemblySemantics.Machine

/-!
# Workspaces

A workspace holds components, assemblies, machines and caches under numbers, so that
several of them can share one: a component that takes a new move takes it in every assembly
that has it, machines over one assembly see it grow, and an engine works on a cache of its
own choice. A step of a session may be refused; what it has done until then stays.
-/

namespace AssemblySemantics

/-- A machine that refers to its assembly and its cache by their numbers. -/
structure MachineEntry where
  name : String
  assembly : Nat
  config : SolverConfig
  diagram : Diagram
  cache : Nat

/-- A machine, with the cache on which its passes work. -/
structure Engine where
  machine : Nat
  cache : Nat
deriving DecidableEq

/-- Numbered components, assemblies, machines and caches, and the events not yet read. -/
structure Workspace where
  next : Nat
  components : Table Nat Component
  registries : Table Nat Registry
  machines : Table Nat MachineEntry
  caches : Table Nat Cache
  events : List Event

/-- Why a step of a session is refused. -/
inductive Refusal where
  | region (e : RegionError)
  | assembly (e : AssemblyError)
  | diagram (machine : String) (e : DiagramError)
  | name (e : NameError)
  | config (e : ConfigError)
  /-- Nothing has the number that was given. -/
  | absent
deriving DecidableEq

/-- The text of a refusal. -/
def Refusal.message : Refusal → String
  | .region e => e.message
  | .assembly e => e.message
  | .diagram machine e => e.message machine
  | .name e => e.message
  | .config e => e.message
  | .absent => "Nothing has this number"

/-- A step that works on a workspace and may be refused. -/
abbrev Session := ExceptT Refusal (StateM Workspace)

namespace Workspace

/-- The workspace that holds nothing. -/
def empty : Workspace := ⟨0, ∅, ∅, ∅, ∅, []⟩

instance : Inhabited Workspace := ⟨empty⟩

end Workspace

namespace Session

/-- A result that may be refused, as a step. -/
def require {ε α : Type} (refuse : ε → Refusal) : Except ε α → Session α
  | .ok a => return a
  | .error e => throw (refuse e)

/-- A value that may be missing, as a step. -/
def present {α : Type} : Option α → Session α
  | some a => return a
  | none => throw .absent

/-- Adds events to those not yet read. -/
def report (events : List Event) : Session Unit :=
  modify fun w => { w with events := w.events ++ events }

/-- Takes the events not yet read. -/
def takeEvents : Session (List Event) := do
  let events := (← get).events
  modify fun w => { w with events := [] }
  return events

/-- A number that nothing has. -/
def fresh : Session Nat := do
  let n := (← get).next
  modify fun w => { w with next := n + 1 }
  return n

/-! ### Components and assemblies -/

/-- The component of a number, in its present form. -/
def component (uid : Nat) : Session Component := do
  present ((← get).components.get? uid)

/-- A new component. -/
def newComponent (id : String) (states : List String) (initial : Option String)
    (moves : List Move) : Session Component := do
  let uid ← fresh
  let c ← require .assembly (Component.make uid id states initial moves)
  modify fun w => { w with components := w.components.set uid c }
  return c

/-- Gives a component one more move, here and in every assembly that has it. -/
def addMove (uid : Nat) (m : Move) : Session Component := do
  let c ← component uid
  let c ← require .assembly (c.addMove m)
  modify fun w => { w with
    components := w.components.set uid c
    registries := ⟨w.registries.entries.map fun e => (e.1, e.2.addMove uid m)⟩ }
  return c

/-- The registry of a number. -/
def registry (uid : Nat) : Session Registry := do
  present ((← get).registries.get? uid)

/-- The assembly of a number, in its present form. -/
def assembly (uid : Nat) : Session Assembly := return (← registry uid).assembly

/-- Keeps a registry under a number. -/
def keepRegistry (uid : Nat) (r : Registry) : Session Unit :=
  modify fun w => { w with registries := w.registries.set uid r }

/-- A new assembly of an id and components. -/
def newAssembly (id : String) (components : List Component) : Session Assembly := do
  let uid ← fresh
  let a ← require .assembly (Assembly.make uid id components)
  keepRegistry uid (.ofAssembly a)
  return a

/-- Registers a component in an assembly. -/
def register (uid : Nat) (c : Component) : Session Assembly := do
  let r ← registry uid
  let r ← require .assembly (r.register c)
  keepRegistry uid r
  return r.assembly

/-- Asks a registry a question; it may remember the answer. -/
def ask {α : Type} (uid : Nat) (q : Query α) : Session α := do
  let r ← registry uid
  let (answer, r) ← require .region (q.run r)
  keepRegistry uid r
  return answer

/-! ### States and edges -/

/-- A new state. -/
def newState (name : String) (isPseudo : Bool) : Session State := do
  let uid ← fresh
  require .name (State.make uid name isPseudo)

/-- A new transition. -/
def newTransition (name : Option String) (source target : State) (guard : Proposition)
    (triggerable : Bool) (actions : List Action) : Session Transition := do
  let uid ← fresh
  return ⟨uid, Transition.nameFor name source target, source, target, guard, triggerable, actions⟩

/-- A new link. -/
def newLink (source target : Endpoint) : Session Link := do
  let uid ← fresh
  return ⟨uid, source, target⟩

/-! ### Caches -/

/-- The cache of a number. -/
def cache (uid : Nat) : Session Cache := do
  present ((← get).caches.get? uid)

/-- Keeps a cache under a number. -/
def keepCache (uid : Nat) (c : Cache) : Session Unit :=
  modify fun w => { w with caches := w.caches.set uid c }

/-- A new cache that stores nothing; gives its number. -/
def newCache (assembly : String) : Session Nat := do
  let uid ← fresh
  keepCache uid (.empty assembly)
  return uid

/-- Changes a cache. -/
def changeCache (uid : Nat) (f : Cache → Cache) : Session Unit := do
  keepCache uid (f (← cache uid))

/-! ### Machines and engines -/

/-- The entry of a machine. -/
def entry (uid : Nat) : Session MachineEntry := do
  present ((← get).machines.get? uid)

/-- Keeps the entry of a machine under a number. -/
def keepEntry (uid : Nat) (e : MachineEntry) : Session Unit :=
  modify fun w => { w with machines := w.machines.set uid e }

/-- The engine of a machine: the machine with its present cache. -/
def engineOf (uid : Nat) : Session Engine := return ⟨uid, (← entry uid).cache⟩

/-- The machine of an engine, with the engine's cache for its own. -/
def load (e : Engine) : Session Machine := do
  let m ← entry e.machine
  let a ← assembly m.assembly
  let c ← cache e.cache
  return ⟨⟨m.name, a, m.config, m.diagram⟩, c⟩

/-- Keeps the diagram and the settings of an engine's machine and the engine's cache. -/
def save (e : Engine) (m : Machine) : Session Unit := do
  let old ← entry e.machine
  keepEntry e.machine { old with diagram := m.diagram, config := m.config }
  keepCache e.cache m.cache

/-- The machine of a number, in its present form. -/
def machine (uid : Nat) : Session Machine := do
  load (← engineOf uid)

/-- A new machine over an assembly, or else over a new one without components; gives its
number. -/
def newMachine (name : String) (assembly? : Option Nat) (config : SolverConfig) :
    Session Nat := do
  let a : Assembly ←
    match assembly? with
    | some n => assembly n
    | none => pure (.standard (← fresh))
  let pseudo ← fresh
  let m ← require .name (Machine.make name a config (.pseudo pseudo))
  if assembly?.isNone then keepRegistry a.uid (.ofAssembly a)
  let uid ← fresh
  let cache ← fresh
  keepCache cache m.cache
  keepEntry uid ⟨m.name, a.uid, m.config, m.diagram, cache⟩
  return uid

/-- Refuses to add what is no state to a machine. -/
def refuseState {α : Type} (uid : Nat) (offered : NonState) : Session α := do
  throw (.diagram (← entry uid).name (.notState offered))

/-- Changes the diagram of a machine. -/
def change (uid : Nat) (f : Machine → Except DiagramError Machine) : Session Unit := do
  let e ← engineOf uid
  let m ← load e
  save e (← require (.diagram m.name) (f m))

/-- Puts a machine over another assembly, with a new cache. -/
def setAssembly (uid : Nat) (a : Assembly) : Session Unit := do
  let old ← entry uid
  let m := (← machine uid).setAssembly a
  let cache ← fresh
  keepCache cache m.cache
  keepEntry uid { old with assembly := a.uid, cache := cache }

/-- Gives a machine other settings. -/
def setConfig (uid : Nat) (config : SolverConfig) : Session Unit := do
  let e ← engineOf uid
  save e ((← load e).setConfig config)

/-- Runs a pass of an engine. What it has stored is kept, also when it is refused. -/
def run {α : Type} (e : Engine) (p : Model → Pass α) : Session α := do
  let m ← load e
  let (result, m, events) := m.run p
  save e m
  report events
  require .region result

/-- Runs the solver on a machine. -/
def solve (uid : Nat) (config : SolverConfig) : Session Solution := do
  let m ← machine uid
  let solution ← require .region (m.solve config)
  report (m.solverEvents config solution)
  return solution

/-- Computes what a transition contributes within an assembly. -/
def contribution (t : Transition) (source : Region) (zones : List ExitZone) (a : Assembly)
    (basis : Basis) : Session Region := do
  report t.notes
  require .region (t.contribution source zones a basis)

end Session

end AssemblySemantics
