import AssemblySemantics.Cache
import Mathlib.Data.List.Induction

/-!
# The slots of a cache

A cache keeps the region and the exit zones of a state in one record, which is made by whichever of
the two is stored first and dropped with both. Its readings are those of independent slots all the
same, one for the region and one for the exit zones of each state, and one for the region of each
edge: a slot reads as what was written to it last, whatever was written elsewhere, until its entity
is forgotten or the cache is cleared.
-/

namespace AssemblySemantics

namespace Cache

/-- What values are stored for. -/
inductive Entity where
  | state (s : State)
  | edge (e : Edge)
deriving DecidableEq

/-- The place of one value in a cache. -/
inductive Slot where
  | stateRegion (s : State)
  | stateZones (s : State)
  | edgeRegion (e : Edge)
deriving DecidableEq

namespace Slot

/-- The entity to which a slot belongs. -/
def entity : Slot → Entity
  | stateRegion s => .state s
  | stateZones s => .state s
  | edgeRegion e => .edge e

/-- What is stored in a slot. -/
def Value : Slot → Type
  | stateRegion _ => Region
  | stateZones _ => ZoneSet
  | edgeRegion _ => Region

/-- The empty region of an assembly, or the empty set of zones. -/
def blank (assembly : String) : (k : Slot) → k.Value
  | stateRegion _ => Region.bottom assembly
  | stateZones _ => (∅ : ZoneSet)
  | edgeRegion _ => Region.bottom assembly

end Slot

/-- What is read from a slot. -/
def read (c : Cache) : (k : Slot) → k.Value
  | .stateRegion s => c.stateRegion s
  | .stateZones s => c.stateZones s
  | .edgeRegion e => c.edgeRegion e

/-- Stores a value in a slot. -/
def write (c : Cache) : (k : Slot) → k.Value → Cache
  | .stateRegion s, r => c.setStateRegion s r
  | .stateZones s, zones => c.setStateZones s zones
  | .edgeRegion e, r => c.setEdgeRegion e r

/-- Drops what is stored for an entity. -/
def forget (c : Cache) : Entity → Cache
  | .state s => c.forgetState s
  | .edge e => c.forgetEdge e

/-- A call that changes a cache. -/
inductive Call where
  | write (k : Slot) (v : k.Value)
  | forget (x : Entity)
  | clear

/-- The cache after a call. -/
def call (c : Cache) : Call → Cache
  | .write k v => c.write k v
  | .forget x => c.forget x
  | .clear => c.clear

/-- The cache after calls, one after the other. -/
def after (c : Cache) (calls : List Call) : Cache := calls.foldl call c

/-- A call writes to a slot or drops what is in it. -/
def Call.Touches (k : Slot) : Call → Prop
  | write k' _ => k' = k
  | forget x => k.entity = x
  | clear => True

instance (k : Slot) : (x : Call) → Decidable (x.Touches k)
  | .write k' _ => inferInstanceAs (Decidable (k' = k))
  | .forget x => inferInstanceAs (Decidable (k.entity = x))
  | .clear => inferInstanceAs (Decidable True)

/-- A value was written to a slot, and no later call has written to the slot or dropped what is
in it. -/
def LastWritten (calls : List Call) (k : Slot) (v : k.Value) : Prop :=
  ∃ before later, calls = before ++ .write k v :: later ∧ ∀ x ∈ later, ¬ x.Touches k

variable {k k' : Slot} {v : k.Value} {x : Call} {calls : List Call}

/-! ### One call -/

theorem read_empty (assembly : String) (k : Slot) :
  (empty assembly).read k = k.blank assembly
  := by
  cases k <;> rfl

theorem assembly_call (c : Cache) (x : Call) :
  (c.call x).assembly = c.assembly
  := by
  cases x with
  | write k v => cases k <;> rfl
  | forget x => cases x <;> rfl
  | clear => rfl

/-- What is written to a slot is read from it. -/
theorem read_write_self (c : Cache) (k : Slot) (v : k.Value) :
  (c.write k v).read k = v
  := by
  cases k with
  | stateRegion s => apply (stateRegion_setStateRegion c s s v).trans (if_pos rfl)
  | stateZones s => apply (stateZones_setStateZones c s s v).trans (if_pos rfl)
  | edgeRegion e => apply (edgeRegion_setEdgeRegion c e e v).trans (if_pos rfl)

/-- What is written to one slot changes no other slot. -/
theorem read_write_of_ne (c : Cache) (v : k'.Value) (h : k' ≠ k) :
  (c.write k' v).read k = c.read k
  := by
  cases k' with
  | stateRegion s =>
    cases k with
    | stateRegion s' =>
      apply (stateRegion_setStateRegion c s s' v).trans
      apply if_neg (mt (congrArg _) h)
    | stateZones s' => apply stateZones_setStateRegion
    | edgeRegion e => apply edgeRegion_setStateRegion
  | stateZones s =>
    cases k with
    | stateRegion s' => apply stateRegion_setStateZones
    | stateZones s' =>
      apply (stateZones_setStateZones c s s' v).trans
      apply if_neg (mt (congrArg _) h)
    | edgeRegion e => apply edgeRegion_setStateZones
  | edgeRegion e =>
    cases k with
    | stateRegion s => apply stateRegion_setEdgeRegion
    | stateZones s => apply stateZones_setEdgeRegion
    | edgeRegion e' =>
      apply (edgeRegion_setEdgeRegion c e e' v).trans
      apply if_neg (mt (congrArg _) h)

/-- Nothing is left in the slots of an entity that is forgotten. -/
theorem read_forget_entity (c : Cache) (k : Slot) :
  (c.forget k.entity).read k = k.blank c.assembly
  := by
  cases k with
  | stateRegion s => apply (stateRegion_forgetState c s s).trans (if_pos rfl)
  | stateZones s => apply (stateZones_forgetState c s s).trans (if_pos rfl)
  | edgeRegion e => apply (edgeRegion_forgetEdge c e e).trans (if_pos rfl)

/-- Forgetting an entity changes no slot of another one. -/
theorem read_forget_of_ne (c : Cache) {x : Entity} (h : k.entity ≠ x) :
  (c.forget x).read k = c.read k
  := by
  cases x with
  | state s =>
    cases k with
    | stateRegion s' =>
      apply (stateRegion_forgetState c s s').trans
      apply if_neg (mt (congrArg Entity.state) h.symm)
    | stateZones s' =>
      apply (stateZones_forgetState c s s').trans
      apply if_neg (mt (congrArg Entity.state) h.symm)
    | edgeRegion e => apply edgeRegion_forgetState
  | edge e =>
    cases k with
    | stateRegion s => apply stateRegion_forgetEdge
    | stateZones s => apply stateZones_forgetEdge
    | edgeRegion e' =>
      apply (edgeRegion_forgetEdge c e e').trans
      apply if_neg (mt (congrArg Entity.edge) h.symm)

theorem read_clear (c : Cache) (k : Slot) :
  c.clear.read k = k.blank c.assembly
  := read_empty c.assembly k

/-- A call that does not touch a slot leaves it as it is. -/
theorem read_call_of_not_touches (c : Cache) (h : ¬ x.Touches k) :
  (c.call x).read k = c.read k
  := by
  cases x with
  | write k' v => apply read_write_of_ne c v h
  | forget x => apply read_forget_of_ne c h
  | clear => apply (h trivial).elim

/-- A call that touches a slot either writes to it or leaves nothing in it. -/
theorem exists_write_or_read_call_eq_blank (c : Cache) (h : x.Touches k) :
  (∃ v, x = .write k v) ∨ (c.call x).read k = k.blank c.assembly
  := by
  cases x with
  | write k' v =>
    obtain rfl : k' = k := h
    left
    use v
  | forget x =>
    obtain rfl : k.entity = x := h
    right
    apply read_forget_entity
  | clear =>
    right
    apply read_clear

/-! ### Calls one after the other -/

theorem assembly_after (c : Cache) (calls : List Call) :
  (c.after calls).assembly = c.assembly
  := by
  induction calls generalizing c with
  | nil => rfl
  | cons x calls ih => apply (ih (c.call x)).trans (assembly_call c x)

theorem after_append (c : Cache) (calls calls' : List Call) :
  c.after (calls ++ calls') = (c.after calls).after calls'
  := List.foldl_append

/-- Calls of which none touches a slot leave it as it is. -/
theorem read_after_of_not_touches (c : Cache) (h : ∀ x ∈ calls, ¬ x.Touches k) :
  (c.after calls).read k = c.read k
  := by
  induction calls generalizing c with
  | nil => rfl
  | cons x calls ih =>
    obtain ⟨hx, hcalls⟩ := List.forall_mem_cons.mp h
    apply (ih (c.call x) hcalls).trans
    apply read_call_of_not_touches c hx

theorem lastWritten_concat_write (calls : List Call) (k : Slot) (v : k.Value) :
  LastWritten (calls ++ [.write k v]) k v
  := ⟨calls, [], rfl, nofun⟩

/-- A value stays the last one until the slot is touched again. -/
theorem LastWritten.concat (h : LastWritten calls k v) (hx : ¬ x.Touches k) :
  LastWritten (calls ++ [x]) k v
  := by
  obtain ⟨before, later, rfl, hlater⟩ := h
  use before, later ++ [x]
  constructor
  · rw [List.append_assoc, List.cons_append]
  · intro y hy
    obtain hy | hy := List.mem_append.mp hy
    · apply hlater y hy
    · rw [List.mem_singleton.mp hy]
      apply hx

/-- The value that was written last is read. -/
theorem LastWritten.read_eq (h : LastWritten calls k v) (c : Cache) :
  (c.after calls).read k = v
  := by
  obtain ⟨before, later, rfl, hlater⟩ := h
  rw [after_append]
  apply (read_after_of_not_touches _ hlater).trans
  apply read_write_self

/-- A slot without a last value has nothing in it. -/
theorem read_eq_blank (assembly : String) (h : ∀ v, ¬ LastWritten calls k v) :
  ((empty assembly).after calls).read k = k.blank assembly
  := by
  induction calls using List.reverseRecOn with
  | nil => apply read_empty
  | append_singleton calls x ih =>
    rw [after_append]
    by_cases hx : x.Touches k
    · obtain ⟨v, rfl⟩ | hblank := exists_write_or_read_call_eq_blank ((empty assembly).after calls) hx
      · apply (h v (lastWritten_concat_write calls k v)).elim
      · rw [assembly_after] at hblank
        apply hblank
    · apply (read_call_of_not_touches _ hx).trans
      apply ih
      intro v hv
      apply h v (hv.concat hx)

/-- After whatever calls on a new cache, each slot reads as the value that was written to it last
since its entity was forgotten or the cache was cleared, or as empty when there is none. Writing to
a slot changes no other slot, of the same entity or of another one. A snapshot of states has for
each of them the region that is read for it, and nothing else. -/
theorem read_after (assembly : String) (calls : List Call) (k : Slot) :
  (∀ v, LastWritten calls k v → ((empty assembly).after calls).read k = v)
    ∧ ((∀ v, ¬ LastWritten calls k v) →
      ((empty assembly).after calls).read k = k.blank assembly)
    ∧ (∀ k' v, k' ≠ k → ((empty assembly).after (calls ++ [.write k' v])).read k =
      ((empty assembly).after calls).read k)
    ∧ ∀ states s, (((empty assembly).after calls).snapshotOf states).get? s =
      if s ∈ states then some (((empty assembly).after calls).stateRegion s) else none
  := by
  constructor
  · intro v hv
    apply hv.read_eq
  constructor
  · apply read_eq_blank
  constructor
  · intro k' v hne
    rw [after_append]
    apply read_write_of_ne _ v hne
  · apply get?_snapshotOf

end Cache

namespace Stairs

/-- One of two landings. -/
def upper : State := ⟨1, "landing", false⟩

/-- The other landing. -/
def lower : State := ⟨2, "landing", false⟩

/-- The light is off. -/
def unlit : Region := .ofAssignments "stairs" [[⟨"light", "off"⟩]]

/-- The light goes on by itself. -/
def glow : ZoneSet :=
  (∅ : ZoneSet).insert ⟨"light", ⟨"off", "on", none⟩, ⟨"light", "off"⟩, ⟨"light", "on"⟩⟩

/-- The upper landing gets its zones and then its region. The lower one gets its region and is
forgotten before it gets its zones. -/
def calls : List Cache.Call :=
  [.write (.stateZones upper) glow, .write (.stateRegion lower) unlit, .forget (.state lower),
    .write (.stateZones lower) glow, .write (.stateRegion upper) unlit]

end Stairs

namespace Cache

/-- Of two landings of one name the upper one keeps its zones, and the lower one, which is forgotten
in between, has no region any more. -/
theorem read_after_stairs :
  LastWritten Stairs.calls (.stateZones Stairs.upper) Stairs.glow
    ∧ ((empty "stairs").after Stairs.calls).stateZones Stairs.upper = Stairs.glow
    ∧ (∀ v, ¬ LastWritten Stairs.calls (.stateRegion Stairs.lower) v)
    ∧ ((empty "stairs").after Stairs.calls).stateRegion Stairs.lower = .bottom "stairs"
    ∧ ((empty "stairs").after Stairs.calls).hasState Stairs.lower = true
  := by
  have hupper : LastWritten Stairs.calls (.stateZones Stairs.upper) Stairs.glow := by
    use [], Stairs.calls.tail
    exact ⟨rfl, by decide +kernel⟩
  have hlower : ∀ v, ¬ LastWritten Stairs.calls (.stateRegion Stairs.lower) v := by
    rintro v ⟨before, later, heq, hlater⟩
    -- the region is written in the second call alone, and forgotten in the third
    match before with
    | [] => cases heq
    | [_] =>
      cases heq
      apply hlater (.forget (.state Stairs.lower)) List.mem_cons_self rfl
    | _ :: _ :: before =>
      have hmem : Call.write (.stateRegion Stairs.lower) v ∈ Stairs.calls.drop 2 := by
        rw [heq]
        apply List.mem_append_right _ List.mem_cons_self
      nomatch hmem
  obtain ⟨hzones, -⟩ := read_after "stairs" Stairs.calls (.stateZones Stairs.upper)
  obtain ⟨-, hregion, -⟩ := read_after "stairs" Stairs.calls (.stateRegion Stairs.lower)
  use hupper, hzones _ hupper, hlower, hregion hlower
  decide +kernel

end Cache

end AssemblySemantics
