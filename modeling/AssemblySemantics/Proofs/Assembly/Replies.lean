import AssemblySemantics.Proofs.Assembly.Memory
import AssemblySemantics.Proofs.Proposition.Truth
import AssemblySemantics.Proofs.Refusable
import AssemblySemantics.Workspace

/-!
# Replies that do not depend on memory

Components and assemblies are made, changed and asked in a workspace, call by call, and a call
that is refused does not end the session. Every assembly remembers answers, but no reply depends
on that: the replies are those of a workspace that forgets everything before each call.
-/

namespace AssemblySemantics

namespace Registry.Question

/-- What is asked for: where a proposition is true. -/
def proposition : Question → Proposition
  | space => .always
  | statesWhere p => .basic p
  | lift f => f

/-- The answer holds the joint states of the components of which the proposition is true. -/
theorem mem_answer {a : Assembly} {q : Question} {c : Configuration} :
  c ∈ q.answer a ↔ a.IsJointState c ∧ q.proposition.Holds c
  := by
  rw [← Assembly.mem_space_iff, ← Proposition.mem_extent]
  cases q <;> rfl

end Registry.Question

namespace Workspace

/-- A call on the components and the assemblies of a workspace. -/
inductive Call where
  | newComponent (id : String) (states : List String) (initial : Option String)
      (moves : List Move)
  | addMove (uid : Nat) (m : Move)
  | newAssembly (id : String) (components : List Component)
  | register (uid : Nat) (d : Component)
  | ask (uid : Nat) (q : Registry.Question)

/-- What a call gives back. -/
inductive Reply where
  | component (d : Component)
  | assembly (a : Assembly)
  | region (r : Region)
deriving DecidableEq

/-- The call as a step of a session. -/
def Call.session : Call → Session Reply
  | newComponent id states initial moves =>
    return .component (← Session.newComponent id states initial moves)
  | addMove uid m => return .component (← Session.addMove uid m)
  | newAssembly id components => return .assembly (← Session.newAssembly id components)
  | register uid d => return .assembly (← Session.register uid d)
  | ask uid q => return .region (← Session.ask uid q.query)

/-- What a call gives back, or why it is refused, and the workspace after it. -/
def call (w : Workspace) (x : Call) : Except Refusal Reply × Workspace :=
  ExceptT.run x.session w

/-- The workspace after calls, of which some may have been refused. -/
def after (w : Workspace) (xs : List Call) : Workspace :=
  xs.foldl (fun w x => (w.call x).2) w

/-- What calls give back, one after the other. -/
def replies (w : Workspace) : List Call → List (Except Refusal Reply)
  | [] => []
  | x :: xs => (w.call x).1 :: (w.call x).2.replies xs

/-- The workspace with assemblies that remember nothing. -/
def forget (w : Workspace) : Workspace :=
  { w with registries := ⟨w.registries.entries.map fun e => (e.1, .ofAssembly e.2.assembly)⟩ }

/-- What calls give back when everything is forgotten before each of them. -/
def repliesAfresh (w : Workspace) : List Call → List (Except Refusal Reply)
  | [] => []
  | x :: xs => (w.forget.call x).1 :: (w.forget.call x).2.repliesAfresh xs

/-- What the assemblies remember is true. -/
def Truthful (w : Workspace) : Prop :=
  ∀ n r, w.registries.get? n = some r → r.Truthful

variable {w w' : Workspace} {n : Nat} {r r' : Registry}

/-! ### Forgetting -/

theorem get?_forget (w : Workspace) (n : Nat) :
  w.forget.registries.get? n = (w.registries.get? n).map fun r => .ofAssembly r.assembly
  := Table.get?_map_values (fun r : Registry => Registry.ofAssembly r.assembly) w.registries n

/-- Keeping a registry under a number, and then forgetting what is remembered. -/
theorem forget_keep (w : Workspace) (n : Nat) (r : Registry) :
  ({ w with registries := w.registries.set n r } : Workspace).forget =
    { w.forget with registries := w.forget.registries.set n (.ofAssembly r.assembly) }
  := by
  have h := Table.map_put (fun r : Registry => Registry.ofAssembly r.assembly) n r
    w.registries.entries
  rw [forget, forget]
  simp only [Table.set, h]

theorem forget_forget (w : Workspace) :
  w.forget.forget = w.forget
  := by
  simp only [forget, List.map_map]
  rfl

theorem Truthful.keep (h : w.Truthful) (n : Nat) (hr : r.Truthful) :
  Truthful { w with registries := w.registries.set n r }
  := by
  intro n' r' hget
  rw [Table.get?_set] at hget
  split at hget
  · obtain rfl := Option.some.inj hget
    apply hr
  · apply h n' r' hget

/-- A move of a component is added to the assemblies, whatever they remember. -/
theorem forget_addMove (w : Workspace) (uid : Nat) (m : Move) (components : Table Nat Component) :
  ({ w with
    components := components
    registries := ⟨w.registries.entries.map fun e => (e.1, e.2.addMove uid m)⟩ } :
      Workspace).forget =
    { w.forget with
      components := components
      registries := ⟨w.forget.registries.entries.map fun e => (e.1, e.2.addMove uid m)⟩ }
  := by
  simp only [forget, List.map_map]
  rfl

theorem Truthful.addMove (h : w.Truthful) (uid : Nat) (m : Move)
    {components : Table Nat Component} :
  Truthful { w with
    components := components
    registries := ⟨w.registries.entries.map fun e => (e.1, e.2.addMove uid m)⟩ }
  := by
  intro n r hget
  have hmap := Table.get?_map_values (fun r : Registry => r.addMove uid m) w.registries n
  obtain ⟨r, hr, rfl⟩ := Option.map_eq_some_iff.1 (hmap.symm.trans hget)
  apply (h n r hr).addMove

/-! ### Steps that show no memory -/

/-- Two workspaces that differ at most in what their assemblies remember, and remember the
truth. -/
structure Indiscernible (w w' : Workspace) : Prop where
  forget : w.forget = w'.forget
  truthful : w.Truthful
  truthful' : w'.Truthful

/-- Two outcomes with the same result that leave behind the same but for what is remembered. -/
def Matching {α : Type} (x y : Except Refusal α × Workspace) : Prop :=
  x.1 = y.1 ∧ Indiscernible x.2 y.2

/-- A step does the same in workspaces that differ at most in what is remembered. -/
def Hides {α : Type} (p : Session α) : Prop :=
  ∀ w w' : Workspace, Indiscernible w w' → Matching (ExceptT.run p w) (ExceptT.run p w')

theorem truthful_forget (w : Workspace) :
  w.forget.Truthful
  := by
  intro n r h
  rw [get?_forget] at h
  obtain ⟨r, -, rfl⟩ := Option.map_eq_some_iff.1 h
  apply Registry.truthful_ofAssembly

theorem Indiscernible.next (h : Indiscernible w w') :
  w.next = w'.next
  := by
  have hnext : w.forget.next = w'.forget.next := by rw [h.forget]
  exact hnext

theorem Indiscernible.components (h : Indiscernible w w') :
  w.components = w'.components
  := by
  have hcomponents : w.forget.components = w'.forget.components := by rw [h.forget]
  exact hcomponents

theorem Indiscernible.forget_right (h : Indiscernible w w') :
  Indiscernible w w'.forget
  := ⟨h.forget.trans (forget_forget w').symm, h.truthful, truthful_forget w'⟩

/-- Both workspaces have the same assemblies. -/
theorem Indiscernible.get? (h : Indiscernible w w') (n : Nat) :
  (w.registries.get? n = none ∧ w'.registries.get? n = none)
    ∨ ∃ r r', w.registries.get? n = some r ∧ w'.registries.get? n = some r'
        ∧ r.assembly = r'.assembly
  := by
  have hget := congrArg (·.registries.get? n) h.forget
  simp only [get?_forget] at hget
  cases hr : w.registries.get? n with
  | none =>
    rw [hr] at hget
    left
    exact ⟨rfl, Option.map_eq_none_iff.1 hget.symm⟩
  | some r =>
    rw [hr] at hget
    obtain ⟨r', hr', heq⟩ := Option.map_eq_some_iff.1 hget.symm
    right
    exact ⟨r, r', rfl, hr', (congrArg Registry.assembly heq).symm⟩

/-- Keeping registries of one assembly in both. -/
theorem Indiscernible.keep (h : Indiscernible w w') (n : Nat) (hr : r.Truthful)
    (hr' : r'.Truthful) (ha : r.assembly = r'.assembly) :
  Indiscernible { w with registries := w.registries.set n r }
    { w' with registries := w'.registries.set n r' }
  := by
  refine ⟨?_, h.truthful.keep n hr, h.truthful'.keep n hr'⟩
  rw [forget_keep, forget_keep, h.forget, ha]

section Hides

variable {α β : Type} {p : Session α} {f : α → Session β}

theorem Hides.pure (x : α) :
  Hides (Pure.pure x : Session α)
  := fun _ _ h => ⟨rfl, h⟩

theorem Hides.throw (e : Refusal) :
  Hides (MonadExcept.throw e : Session α)
  := fun _ _ h => ⟨rfl, h⟩

theorem Hides.bind (hp : Hides p) (hf : ∀ x, Hides (f x)) :
  Hides (p >>= f)
  := by
  intro w w' h
  obtain ⟨hresult, hafter⟩ := hp w w' h
  rcases hw : ExceptT.run p w with ⟨result, v⟩
  rcases hw' : ExceptT.run p w' with ⟨result', v'⟩
  rw [hw, hw'] at hresult hafter
  obtain rfl : result = result' := hresult
  cases result with
  | error e =>
    rw [run_bind_of_error hw, run_bind_of_error hw']
    exact ⟨rfl, hafter⟩
  | ok x =>
    rw [run_bind_of_ok hw, run_bind_of_ok hw']
    apply hf x v v' hafter

theorem Hides.map (h : Hides p) (k : α → β) :
  Hides (do return k (← p))
  := h.bind fun x => Hides.pure (k x)

theorem hides_require {ε : Type} (refuse : ε → Refusal) (e : Except ε α) :
  Hides (Session.require refuse e)
  := by
  cases e with
  | error e => apply Hides.throw
  | ok x => apply Hides.pure

/-- A change that keeps what differs at most in memory so. -/
theorem hides_modify {g : Workspace → Workspace}
    (h : ∀ w w', Indiscernible w w' → Indiscernible (g w) (g w')) :
  Hides (modify g)
  := fun w w' hw => ⟨rfl, h w w' hw⟩

theorem hides_fresh :
  Hides Session.fresh
  := by
  intro w w' h
  refine ⟨congrArg Except.ok h.next, ?_, h.truthful, h.truthful'⟩
  exact congrArg (fun w : Workspace => { w with next := w.next + 1 }) h.forget

theorem hides_component (uid : Nat) :
  Hides (Session.component uid)
  := by
  intro w w' h
  have hrun : ∀ w : Workspace, ExceptT.run (Session.component uid) w =
      ((w.components.get? uid).elim (.error .absent) .ok, w) := by
    intro w
    change ExceptT.run (Session.present (w.components.get? uid)) w = _
    cases w.components.get? uid <;> rfl
  rw [hrun, hrun, h.components]
  exact ⟨rfl, h⟩

/-- A step that starts by looking up an assembly and what it remembers. -/
theorem Hides.registry_bind {f : Registry → Session β} (uid : Nat)
    (h : ∀ w w' r r', Indiscernible w w' → w.registries.get? uid = some r →
      w'.registries.get? uid = some r' → r.assembly = r'.assembly →
      Matching (ExceptT.run (f r) w) (ExceptT.run (f r') w')) :
  Hides (Session.registry uid >>= f)
  := by
  intro w w' hw
  change Matching (ExceptT.run (Session.present (w.registries.get? uid) >>= f) w)
    (ExceptT.run (Session.present (w'.registries.get? uid) >>= f) w')
  obtain ⟨hnone, hnone'⟩ | ⟨r, r', hr, hr', ha⟩ := hw.get? uid
  · rw [hnone, hnone']
    exact ⟨rfl, hw⟩
  · rw [hr, hr']
    apply h w w' r r' hw hr hr' ha

end Hides

theorem hides_newComponent (id : String) (states : List String) (initial : Option String)
    (moves : List Move) :
  Hides (Session.newComponent id states initial moves)
  := by
  apply hides_fresh.bind
  intro uid
  apply (hides_require _ _).bind
  intro d
  refine Hides.bind (hides_modify ?_) fun _ => Hides.pure d
  intro w w' h
  refine ⟨?_, h.truthful, h.truthful'⟩
  exact congrArg (fun w : Workspace => { w with components := w.components.set uid d }) h.forget

theorem hides_addMove (uid : Nat) (m : Move) :
  Hides (Session.addMove uid m)
  := by
  apply (hides_component uid).bind
  intro d
  apply (hides_require _ _).bind
  intro d
  refine Hides.bind (hides_modify ?_) fun _ => Hides.pure d
  intro w w' h
  refine ⟨?_, h.truthful.addMove uid m, h.truthful'.addMove uid m⟩
  rw [forget_addMove, forget_addMove, h.forget, h.components]

theorem hides_newAssembly (id : String) (components : List Component) :
  Hides (Session.newAssembly id components)
  := by
  apply hides_fresh.bind
  intro uid
  apply (hides_require _ _).bind
  intro a
  refine Hides.bind (hides_modify ?_) fun _ => Hides.pure a
  intro w w' h
  have ha := Registry.truthful_ofAssembly a
  apply h.keep uid ha ha rfl

/-- Whether a component is registered depends on the assembly alone, and so does what is known
afterwards. -/
theorem hides_register (uid : Nat) (d : Component) :
  Hides (Session.register uid d)
  := by
  apply Hides.registry_bind
  intro w w' r r' h hr hr' ha
  rw [Registry.register, Registry.register, ha]
  cases r'.assembly.register d with
  | error e => exact ⟨rfl, h⟩
  | ok a =>
    have ha := Registry.truthful_ofAssembly a
    exact ⟨rfl, h.keep uid ha ha rfl⟩

/-- An answer may add to the memory, but says the same with any. -/
theorem hides_ask (uid : Nat) (q : Registry.Question) :
  Hides (Session.ask uid q.query)
  := by
  apply Hides.registry_bind
  intro w w' r r' h hr hr' ha
  obtain ⟨s, hrun, hs, htrue⟩ := q.answered r.assembly r rfl (h.truthful uid r hr)
  obtain ⟨s', hrun', hs', htrue'⟩ := q.answered r.assembly r' ha.symm (h.truthful' uid r' hr')
  rw [hrun, hrun']
  exact ⟨rfl, h.keep uid htrue htrue' (hs.trans hs'.symm)⟩

/-! ### Sessions -/

theorem hides_session (x : Call) :
  Hides x.session
  := by
  cases x with
  | newComponent id states initial moves =>
    apply (hides_newComponent id states initial moves).map
  | addMove uid m => apply (hides_addMove uid m).map
  | newAssembly id components => apply (hides_newAssembly id components).map
  | register uid d => apply (hides_register uid d).map
  | ask uid q => apply (hides_ask uid q).map

/-- Workspaces that differ at most in what is remembered give the same replies, also when one of
them forgets before each call. -/
theorem Indiscernible.replies_eq (h : Indiscernible w w') (calls : List Call) :
  w.replies calls = w'.repliesAfresh calls
  := by
  induction calls generalizing w w' with
  | nil => rfl
  | cons x calls ih =>
    obtain ⟨hreply, hafter⟩ := hides_session x w w'.forget h.forget_right
    rw [replies, repliesAfresh]
    exact congrArg₂ List.cons hreply (ih hafter)

/-- Calls leave the truth behind, and only the truth. -/
theorem Truthful.after (h : w.Truthful) (calls : List Call) :
  (w.after calls).Truthful
  := by
  induction calls generalizing w with
  | nil => apply h
  | cons x calls ih =>
    apply ih
    exact (hides_session x w w ⟨rfl, h, h⟩).2.truthful

theorem after_concat (w : Workspace) (calls : List Call) (x : Call) :
  w.after (calls ++ [x]) = ((w.after calls).call x).2
  := by
  rw [after, List.foldl_append]
  rfl

/-- What a call gives back is put together when its step has ended. -/
theorem run_map {α β : Type} (p : Session α) (k : α → β) (w : Workspace) :
  ExceptT.run (do return k (← p)) w = ((ExceptT.run p w).1.map k, (ExceptT.run p w).2)
  := by
  rcases h : ExceptT.run p w with ⟨e | x, w'⟩
  · apply run_bind_of_error h
  · apply run_bind_of_ok h

/-- What an assembly is asked it answers from its present components. -/
theorem Truthful.call_ask (h : w.Truthful) (hr : w.registries.get? n = some r)
    (q : Registry.Question) :
  (w.call (.ask n q)).1 = .ok (.region (q.answer r.assembly))
  := by
  obtain ⟨s, hrun, -, -⟩ := q.answered r.assembly r rfl (h n r hr)
  have hask : ExceptT.run (Session.ask n q.query) w =
      (.ok (q.answer r.assembly), { w with registries := w.registries.set n s }) := by
    change ExceptT.run (Session.present (w.registries.get? n) >>= _) w = _
    rw [hr]
    change ExceptT.run (Session.require .region (q.query.run r) >>= _) w = _
    rw [hrun]
    rfl
  rw [call, Call.session, run_map, hask]
  rfl

/-- A component is registered under an id that is not taken, and refused otherwise. -/
theorem exists_get?_call_register (hr : w.registries.get? n = some r) (d : Component) :
  ∃ r', (w.call (.register n d)).2.registries.get? n = some r'
    ∧ r'.assembly.components =
      if d.id ∈ r.assembly.components.map Component.id then r.assembly.components
      else r.assembly.components ++ [d]
  := by
  have hrun : (w.call (.register n d)).2 =
      (ExceptT.run (Session.require .assembly (r.register d) >>= fun r => do
        Session.keepRegistry n r
        return r.assembly) w).2 := by
    rw [call, Call.session, run_map]
    change (ExceptT.run (Session.present (w.registries.get? n) >>= _) w).2 = _
    rw [hr]
    rfl
  rw [hrun, Registry.register, Assembly.register]
  split
  · exact ⟨r, hr, rfl⟩
  · exact ⟨_, Table.get?_set_self _ _ _, rfl⟩

/-- In every session, with or without refusals, the replies are those of a session in which
everything is forgotten before each call. Whatever was asked and registered so far, an assembly
answers each question, and the answer is the part of the space of the components registered by
now of which what is asked is true. A component that is registered under a new id is one of them
from then on, whatever was answered for this id before. -/
theorem replies_afresh (calls : List Call) :
  empty.replies calls = empty.repliesAfresh calls
    ∧ ∀ n r, (empty.after calls).registries.get? n = some r →
      (∀ q : Registry.Question,
        ((empty.after calls).call (.ask n q)).1 = .ok (.region (q.answer r.assembly))
          ∧ ∀ c, c ∈ q.answer r.assembly ↔ r.assembly.IsJointState c ∧ q.proposition.Holds c)
      ∧ ∀ d, ∃ r', (empty.after (calls ++ [.register n d])).registries.get? n = some r'
        ∧ r'.assembly.components =
          if d.id ∈ r.assembly.components.map Component.id then r.assembly.components
          else r.assembly.components ++ [d]
  := by
  have hempty : empty.Truthful := by
    intro n r h
    cases h
  constructor
  · apply Indiscernible.replies_eq ⟨rfl, hempty, hempty⟩
  · intro n r hr
    constructor
    · intro q
      constructor
      · apply (hempty.after calls).call_ask hr
      · intro c
        apply Registry.Question.mem_answer
    · intro d
      rw [after_concat]
      apply exists_get?_call_register hr

end Workspace

namespace Loop

/-- A room with a light is asked where its door is open before it has a door, which is then
registered, and to be registered again. -/
def doorCalls : List Workspace.Call :=
  [.newAssembly "room" [light], .ask 0 (.statesWhere ⟨"door", "open"⟩), .ask 0 .space,
    .register 0 door, .register 0 door]

end Loop

namespace Workspace

/-- Nowhere is the door open before it is registered. -/
theorem replies_afresh_door :
  ∃ r, (empty.after Loop.doorCalls).registries.get? 0 = some r
    ∧ r.assembly = Loop.house
    ∧ (empty.replies Loop.doorCalls)[1]? = some (.ok (.region (.bottom "room")))
    ∧ ((empty.after Loop.doorCalls).call (.ask 0 (.statesWhere ⟨"door", "open"⟩))).1 =
      .ok (.region (Loop.house.statesWhere ⟨"door", "open"⟩))
    ∧ (Loop.house.statesWhere ⟨"door", "open"⟩).toList =
      [[⟨"door", "open"⟩, ⟨"light", "off"⟩], [⟨"door", "open"⟩, ⟨"light", "on"⟩]]
  := by
  obtain ⟨-, hanswer⟩ := replies_afresh Loop.doorCalls
  have hassembly : ((empty.after Loop.doorCalls).registries.get? 0).map Registry.assembly =
      some Loop.house := by
    decide +kernel
  obtain ⟨r, hr, ha⟩ := Option.map_eq_some_iff.1 hassembly
  have hask := ((hanswer 0 r hr).1 (.statesWhere ⟨"door", "open"⟩)).1
  rw [ha] at hask
  refine ⟨r, hr, ha, ?_, hask, ?_⟩
  · decide +kernel
  · decide +kernel

end Workspace

end AssemblySemantics
