import AssemblySemantics.Proofs.Contribution.Image
import AssemblySemantics.Proofs.Machine.History

/-!
# What exit zones promise

The exit zones of a region, one configuration at a time: they are the autonomous moves of
registered components that some configuration of the region, in the space, is ready for, and
into whose target none is placed. Following such a zone keeps its promise for every region of
the space: it leads somewhere, in the space, and out of the region.
-/

namespace AssemblySemantics

namespace Region

variable {a : Assembly} {r : Region} {z : ExitZone} {c : Configuration}

/-- The exit zones are the moves that can start from the region and end outside it. -/
theorem mem_zones_iff_exists_move :
  z ∈ r.zones a
    ↔ ∃ d, a.component? d.id = some d ∧ ∃ x ∈ d.autonomousMoves,
      z = ⟨d.id, x, ⟨d.id, x.source⟩, ⟨d.id, x.target⟩⟩
      ∧ (∃ b ∈ r, b ∈ a.space ∧ b.state? d.id = some x.source)
      ∧ ∀ b ∈ r, b ∈ a.space → b.state? d.id ≠ some x.target
  := by
  rw [mem_zones, Assembly.mem_possibleZones, touches_iff, touches_iff]
  constructor
  · rintro ⟨⟨d, hd, x, hx, rfl⟩, hsource, htarget⟩
    refine ⟨d, hd, x, hx, rfl, hsource, ?_⟩
    intro b hb hspace hstate
    apply htarget ⟨b, hb, hspace, hstate⟩
  · rintro ⟨d, hd, x, hx, rfl, hsource, htarget⟩
    refine ⟨⟨d, hd, x, hx, rfl⟩, hsource, ?_⟩
    rintro ⟨b, hb, hspace, hstate⟩
    apply htarget b hb hspace hstate

/-- Following a zone places its machine into the target of its move. -/
theorem state?_of_mem_stepped (hc : c ∈ r.stepped z) :
  c.state? z.machine = some z.move.target
  := by
  obtain ⟨b, -, hsource, rfl⟩ := mem_stepped.mp hc
  rw [Configuration.state?_reassign, if_pos rfl, hsource]
  rfl

/-- An exit zone can be followed from its region. -/
theorem exists_mem_stepped (hz : z ∈ r.zones a) :
  ∃ c, c ∈ r.stepped z
  := by
  obtain ⟨d, -, x, -, rfl, ⟨b, hb, -, hstate⟩, -⟩ := mem_zones_iff_exists_move.mp hz
  exact ⟨_, mem_stepped.mpr ⟨b, hb, hstate, rfl⟩⟩

/-- Following an exit zone of a region in the space leads out of the region. -/
theorem not_mem_of_mem_stepped (hr : r ⊆ a.space) (hz : z ∈ r.zones a) (hc : c ∈ r.stepped z) :
  c ∉ r
  := by
  obtain ⟨d, -, x, -, rfl, -, htarget⟩ := mem_zones_iff_exists_move.mp hz
  intro hmem
  apply htarget c hmem (hr c hmem) (state?_of_mem_stepped hc)

/-- The move of an exit zone changes the state of its machine. -/
theorem source_ne_target_of_mem_zones (hz : z ∈ r.zones a) :
  z.move.source ≠ z.move.target
  := by
  obtain ⟨d, -, x, -, rfl, ⟨b, hb, hspace, hstate⟩, htarget⟩ := mem_zones_iff_exists_move.mp hz
  intro heq
  apply htarget b hb hspace
  rw [← heq]
  apply hstate

/-- A region of the assembly always has exit zones, and these are exactly the moves that are
bound to leave it: autonomous moves of registered components that start from some
configuration of the region in the space and end in none. Over a region of the space every one
of them leads somewhere, into the space and out of the region. None is a move from a state to
itself, and the empty region has none. -/
theorem exitZones_exact (h : r.assembly = a.id) :
  ∃ zones, r.exitZones a = .ok zones
    ∧ (∀ z, z ∈ zones ↔ ∃ d, a.component? d.id = some d ∧ ∃ x ∈ d.autonomousMoves,
      z = ⟨d.id, x, ⟨d.id, x.source⟩, ⟨d.id, x.target⟩⟩
      ∧ (∃ b ∈ r, b ∈ a.space ∧ b.state? d.id = some x.source)
      ∧ ∀ b ∈ r, b ∈ a.space → b.state? d.id ≠ some x.target)
    ∧ (r.le a.space = .ok true → ∀ z ∈ zones,
      ∃ s, r.advance z.machine (some z.move.source) z.move.target a = .ok s
        ∧ s.isEmpty = false ∧ s.le a.space = .ok true ∧ ∀ c ∈ s, c ∉ r)
    ∧ (∀ z ∈ zones, z.move.source ≠ z.move.target)
    ∧ (r.isEmpty = true → zones = ∅)
  := by
  refine ⟨r.zones a, exitZones_of_eq h, ?_, ?_, ?_, zones_of_isEmpty⟩
  · intro z
    apply mem_zones_iff_exists_move
  · intro hle z hz
    obtain ⟨-, hr⟩ := le_eq_ok_true_iff.mp hle
    refine ⟨r.stepped z, follow_of_eq h z, ?_, ?_, ?_⟩
    · rw [← Bool.not_eq_true, isEmpty_iff, not_forall_not]
      apply exists_mem_stepped hz
    · apply le_eq_ok_true_iff.mpr ⟨h, stepped_subset_space hr (mem_zones.mp hz).1⟩
    · intro c hc
      apply not_mem_of_mem_stepped hr hz hc
  · intro z hz
    apply source_ne_target_of_mem_zones hz

end Region

/-! ### A lamp

A lamp beside a door. Of its own accord the lamp goes on, whether it is off or dim, grows dim
when it is off, and stays on; a push turns it off or dims it. -/

namespace Lamp

/-- A lamp that is off at first. -/
def lamp : Component :=
  ⟨2, "lamp", ["off", "dim", "on"], some "off",
    [⟨"off", "on", none⟩, ⟨"dim", "on", none⟩, ⟨"off", "dim", none⟩, ⟨"on", "on", none⟩,
      ⟨"on", "off", some "push"⟩, ⟨"on", "dim", some "push"⟩],
    by decide, by decide, by decide, by decide, by decide⟩

/-- The assembly of the door and the lamp. -/
def porch : Assembly := ⟨0, "porch", [Loop.door, lamp], by decide, by decide⟩

/-- The door is closed, and the lamp is not on. -/
def dark : Region :=
  .ofConfigurations "porch"
    [[⟨"door", "closed"⟩, ⟨"lamp", "dim"⟩], [⟨"door", "closed"⟩, ⟨"lamp", "off"⟩]]

end Lamp

namespace Region

/-- In the dark, the door is bound to open and the lamp to go on, along either of two moves.
That the lamp grows dim is no exit, since it may be dim in the dark already. -/
theorem exitZones_exact_dark :
  Lamp.dark.assembly = Lamp.porch.id ∧ Lamp.dark.le Lamp.porch.space = .ok true
    ∧ ∃ zones, Lamp.dark.exitZones Lamp.porch = .ok zones
      ∧ zones.toList.map ExitZone.display =
        ["door: door.closed -> door.open", "lamp: lamp.dim -> lamp.on",
          "lamp: lamp.off -> lamp.on"]
      ∧ ∀ z ∈ zones, ∃ s,
        Lamp.dark.advance z.machine (some z.move.source) z.move.target Lamp.porch = .ok s
          ∧ s.isEmpty = false ∧ s.le Lamp.porch.space = .ok true ∧ ∀ c ∈ s, c ∉ Lamp.dark
  := by
  have hle : Lamp.dark.le Lamp.porch.space = .ok true := by decide +kernel
  obtain ⟨zones, hzones, -, hadvance, -, -⟩ :=
    exitZones_exact (r := Lamp.dark) (a := Lamp.porch) rfl
  have hlisted : (Lamp.dark.exitZones Lamp.porch).map (·.toList.map ExitZone.display) =
      .ok ["door: door.closed -> door.open", "lamp: lamp.dim -> lamp.on",
        "lamp: lamp.off -> lamp.on"] := by
    decide +kernel
  rw [hzones] at hlisted
  exact ⟨rfl, hle, zones, hzones, Except.ok.inj hlisted, hadvance hle⟩

end Region

end AssemblySemantics
