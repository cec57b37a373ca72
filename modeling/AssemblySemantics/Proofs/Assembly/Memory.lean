import AssemblySemantics.Assembly.Registry
import AssemblySemantics.Proofs.Assembly.Growth

/-!
# What registries remember

Whatever a registry remembers is true of its assembly, as it is at present: registering a
component drops what was true of the assembly before, more moves change neither the space nor
its parts, and what an answer adds to the memory is what was derived from the assembly. So the
answers do not depend on the questions that were asked before.
-/

namespace AssemblySemantics

theorem Assembly.statesWhere_addMove (a : Assembly) (uid : Nat) (m : Move) (p : Placement) :
  (a.addMove uid m).statesWhere p = a.statesWhere p
  := congrArg (Region.having · p) (a.space_addMove uid m)

namespace Registry

/-- The remembered answers are those that the assembly gives at present. -/
structure Truthful (r : Registry) : Prop where
  space : ∀ answer, r.space? = some answer → answer = r.assembly.space
  parts : ∀ p answer, r.parts.get? p = some answer → answer = r.assembly.statesWhere p

variable {a : Assembly} {r r' : Registry} {d : Component}

theorem truthful_ofAssembly (a : Assembly) :
  (ofAssembly a).Truthful
  := by
  constructor
  · intro answer h
    cases h
  · intro p answer h
    cases h

/-- Registering a component forgets everything. -/
theorem register_eq_ok (h : r.register d = .ok r') :
  ∃ a', r.assembly.register d = .ok a' ∧ r' = ofAssembly a'
  := by
  rw [register] at h
  cases ha : r.assembly.register d with
  | error e =>
    rw [ha] at h
    cases h
  | ok a' =>
    rw [ha] at h
    use a', rfl
    exact (Except.ok.inj h).symm

/-- What is remembered stays true when a component takes one more move. -/
theorem Truthful.addMove (h : r.Truthful) (uid : Nat) (m : Move) :
  (r.addMove uid m).Truthful
  := by
  constructor
  · intro answer hanswer
    apply (h.space answer hanswer).trans
    symm
    apply Assembly.space_addMove
  · intro p answer hanswer
    apply (h.parts p answer hanswer).trans
    symm
    apply Assembly.statesWhere_addMove

/-! ### Answers -/

/-- A question has an answer: this is what every registry of the assembly answers that
remembers the truth, and it still does so afterwards. -/
def Answered {α : Type} (a : Assembly) (q : Query α) (answer : α) : Prop :=
  ∀ r : Registry, r.assembly = a → r.Truthful →
    ∃ r', q.run r = .ok (answer, r') ∧ r'.assembly = a ∧ r'.Truthful

section Answered

variable {α β : Type} {q : Query α} {f : α → Query β} {x : α} {y : β}

theorem Answered.pure (a : Assembly) (x : α) :
  Answered a (Pure.pure x) x
  := fun r ha h => ⟨r, rfl, ha, h⟩

theorem Answered.bind (hq : Answered a q x) (hf : Answered a (f x) y) :
  Answered a (q >>= f) y
  := by
  intro r ha h
  obtain ⟨r', hrun, ha', h'⟩ := hq r ha h
  obtain ⟨r'', hrun', ha'', h''⟩ := hf r' ha' h'
  refine ⟨r'', ?_, ha'', h''⟩
  rw [StateT.run_bind, hrun]
  apply hrun'

/-- A computation on regions leaves the registry alone. -/
theorem Answered.ofExcept {e : Except RegionError α} (h : e = .ok x) :
  Answered a (liftM e) x
  := by
  intro r ha hr
  refine ⟨r, ?_, ha, hr⟩
  rw [h]
  rfl

/-- Reading a registry, of which only this is known. -/
theorem Answered.get_bind {f : Registry → Query β}
    (h : ∀ r : Registry, r.assembly = a → r.Truthful →
      ∃ r', (f r).run r = .ok (y, r') ∧ r'.assembly = a ∧ r'.Truthful) :
  Answered a (get >>= f) y
  := h

end Answered

/-- The space is remembered or derived. -/
theorem answered_space (a : Assembly) :
  Answered a space a.space
  := by
  apply Answered.get_bind
  rintro r rfl h
  cases hspace : r.space? with
  | some answer =>
    obtain rfl := h.space answer hspace
    exact ⟨r, rfl, rfl, h⟩
  | none =>
    refine ⟨{ r with space? := some r.assembly.space }, rfl, rfl, ?_, h.parts⟩
    rintro answer ⟨⟩
    rfl

/-- A part of the space is remembered, or selected from the space. -/
theorem answered_statesWhere (a : Assembly) (p : Placement) :
  Answered a (statesWhere p) (a.statesWhere p)
  := by
  apply Answered.get_bind
  intro r ha h
  cases hpart : r.parts.get? p with
  | some answer =>
    obtain rfl := h.parts p answer hpart
    exact ⟨r, by rw [ha]; rfl, ha, h⟩
  | none =>
    -- asking for the space may have added it to the memory by now
    obtain ⟨r', hrun, rfl, h'⟩ := answered_space a r ha h
    refine ⟨{ r' with parts := r'.parts.set p (r'.assembly.statesWhere p) }, ?_, rfl,
      h'.space, ?_⟩
    · rw [StateT.run_bind, hrun]
      rfl
    · intro p' answer hget
      rw [Table.get?_set] at hget
      split at hget
      · rename_i hp
        rw [← hp]
        exact (Option.some.inj hget).symm
      · apply h'.parts p' answer hget

/-- A proposition is lifted to its extent, whatever is remembered. -/
theorem answered_lift (a : Assembly) (f : Proposition) :
  Answered a (lift f) (f.extent a)
  := by
  have hlift : Answered a (f.liftM a.id space statesWhere) (f.extent a) := by
    apply Proposition.liftM_extent a (Answered a)
    · apply Answered.pure
    · apply Answered.bind
    · intro e r he
      apply Answered.ofExcept he
    · apply answered_space
    · apply answered_statesWhere
  apply Answered.get_bind
  rintro r rfl h
  apply hlift r rfl h

/-! ### Histories -/

/-- What a registry may be asked. -/
inductive Question where
  | space
  | statesWhere (p : Placement)
  | lift (f : Proposition)

namespace Question

/-- The question as it is put to a registry. -/
def query : Question → Query Region
  | space => Registry.space
  | statesWhere p => Registry.statesWhere p
  | lift f => Registry.lift f

/-- The answer to the question for an assembly of which nothing is remembered. -/
def answer (a : Assembly) : Question → Region
  | space => a.space
  | statesWhere p => a.statesWhere p
  | lift f => f.extent a

theorem answered (a : Assembly) (q : Question) :
  Answered a q.query (q.answer a)
  := by
  cases q with
  | space => apply answered_space
  | statesWhere p => apply answered_statesWhere
  | lift f => apply answered_lift

end Question

/-- The registries to which an assembly may come by registering components, giving them moves
and asking questions, in any order. -/
inductive Reachable : Registry → Prop where
  | opened (a : Assembly) : Reachable (ofAssembly a)
  | registered {r r' : Registry} {d : Component} (h : Reachable r)
      (hd : r.register d = .ok r') : Reachable r'
  | moved {r : Registry} (h : Reachable r) (uid : Nat) (m : Move) : Reachable (r.addMove uid m)
  | asked {r r' : Registry} {q : Question} {answer : Region} (h : Reachable r)
      (hq : q.query.run r = .ok (answer, r')) : Reachable r'

/-- Whatever has happened to a registry, it remembers the truth. -/
theorem Reachable.truthful (h : r.Reachable) :
  r.Truthful
  := by
  induction h with
  | opened a => apply truthful_ofAssembly
  | registered _ hd _ =>
    obtain ⟨a', -, rfl⟩ := register_eq_ok hd
    apply truthful_ofAssembly
  | moved _ uid m ih => apply ih.addMove
  | @asked r r' q answer _ hq ih =>
    obtain ⟨s, hrun, -, hs⟩ := q.answered r.assembly r rfl ih
    rw [hq] at hrun
    obtain ⟨-, rfl⟩ := Prod.mk.inj (Except.ok.inj hrun)
    apply hs

/-- A registry answers every question, and answers it as if nothing were remembered. -/
theorem Reachable.run_query (h : r.Reachable) (q : Question) :
  ∃ r', q.query.run r = .ok (q.answer r.assembly, r') ∧ r'.assembly = r.assembly ∧ r'.Reachable
  := by
  obtain ⟨r', hrun, ha, -⟩ := q.answered r.assembly r rfl h.truthful
  exact ⟨r', hrun, ha, h.asked hrun⟩

end Registry

end AssemblySemantics
