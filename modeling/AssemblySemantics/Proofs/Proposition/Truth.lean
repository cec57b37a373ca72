import AssemblySemantics.Proofs.Assembly.Joint
import AssemblySemantics.Proofs.Assembly.Memory

/-!
# Pointwise truth

A proposition is a Boolean formula over placements, and a configuration tells which placements
are true. Lifting a proposition selects from the space the configurations in which the formula
evaluates to true, so that propositions that agree on the space, and above all those that are
equivalent as formulas, are lifted to the same region.
-/

namespace AssemblySemantics

/-- Which placements a configuration makes true. -/
def Configuration.truth (c : Configuration) (p : Placement) : Bool :=
  c.state? p.machine = some p.state

namespace Proposition

/-- The truth value of a proposition, from those of placements. -/
def eval (truth : Placement → Bool) : Proposition → Bool
  | basic p => truth p
  | always => true
  | never => false
  | and l r => l.eval truth && r.eval truth
  | or l r => l.eval truth || r.eval truth
  | not f => !f.eval truth

variable {a : Assembly} {f g : Proposition} {p : Placement} {c : Configuration}

/-- A proposition is true of a configuration when it evaluates to true there. -/
theorem holds_iff_eval :
  f.Holds c ↔ f.eval c.truth = true
  := by
  induction f with
  | basic p => rw [Holds, eval, Configuration.truth, decide_eq_true_iff]
  | always => exact iff_of_true trivial rfl
  | never => exact iff_of_false id Bool.false_ne_true
  | and l r ihl ihr => rw [Holds, eval, Bool.and_eq_true, ihl, ihr]
  | or l r ihl ihr => rw [Holds, eval, Bool.or_eq_true, ihl, ihr]
  | not f ih => rw [Holds, eval, Bool.not_eq_true', ih, Bool.not_eq_true]

/-- An extent holds the configurations of the space in which the proposition evaluates to
true. -/
theorem mem_extent_iff_eval :
  c ∈ f.extent a ↔ c ∈ a.space ∧ f.eval c.truth = true
  := by
  rw [mem_extent, holds_iff_eval]

/-- Propositions have the same extent if and only if they evaluate alike everywhere in the
space. -/
theorem extent_eq_iff :
  f.extent a = g.extent a ↔ ∀ c ∈ a.space, f.eval c.truth = g.eval c.truth
  := by
  constructor
  · intro h c hc
    apply Bool.eq_iff_iff.mpr
    have hmem : c ∈ f.extent a ↔ c ∈ g.extent a := by rw [h]
    rw [mem_extent_iff_eval, mem_extent_iff_eval, and_iff_right hc, and_iff_right hc] at hmem
    apply hmem
  · intro h
    apply Region.ext
    · rw [assembly_extent, assembly_extent]
    · intro c
      rw [mem_extent_iff_eval, mem_extent_iff_eval]
      apply and_congr_right
      intro hc
      rw [h c hc]

/-- A placement that no component can have is true nowhere in the space. -/
theorem truth_eq_false (hp : ∀ d ∈ a.components, d.id = p.machine → p.state ∉ d.states)
    (hc : c ∈ a.space) :
  c.truth p = false
  := by
  apply decide_eq_false
  intro hstate
  have hn := Assembly.nodup_machines_of_mem_space hc
  have hmem := (Configuration.state?_eq_some_iff hn p).mp hstate
  obtain ⟨d, hd, hid, hs⟩ := (Assembly.mem_space_iff.mp hc).states p hmem
  apply hp d hd hid hs

/-- Lifting a proposition is pointwise truth. Every proposition is lifted, to the region of the
configurations of the space in which it evaluates to true, and a registry of the assembly gives
the same region, whatever has happened to it before. Propositions are lifted to the same region
if and only if they evaluate alike everywhere in the space, as equivalent ones do. A placement of
a machine or in a state that does not exist is true nowhere, and its negation everywhere. -/
theorem lift_exact (a : Assembly) :
  (∀ f : Proposition, ∃ held, f.lift a = .ok held ∧ held.assembly = a.id
      ∧ (∀ c, c ∈ held ↔ c ∈ a.space ∧ f.eval c.truth = true)
      ∧ ∀ r : Registry, r.Reachable → r.assembly = a →
        ∃ r', (Registry.lift f).run r = .ok (held, r') ∧ r'.assembly = a)
    ∧ (∀ f g : Proposition, f.lift a = g.lift a
      ↔ ∀ c ∈ a.space, f.eval c.truth = g.eval c.truth)
    ∧ (∀ f g : Proposition, (∀ truth, f.eval truth = g.eval truth) → f.lift a = g.lift a)
    ∧ ∀ p, (∀ d ∈ a.components, d.id = p.machine → p.state ∉ d.states) →
      (basic p).lift a = .ok (.bottom a.id) ∧ (not (basic p)).lift a = .ok a.space
  := by
  have hlift : ∀ f g : Proposition, f.lift a = g.lift a
      ↔ ∀ c ∈ a.space, f.eval c.truth = g.eval c.truth := by
    intro f g
    rw [lift_eq, lift_eq, Except.ok.injEq, extent_eq_iff]
  refine ⟨?_, hlift, ?_, ?_⟩
  · intro f
    refine ⟨f.extent a, lift_eq a f, assembly_extent a f, fun c => mem_extent_iff_eval, ?_⟩
    rintro r hr rfl
    obtain ⟨r', hrun, ha, -⟩ := hr.run_query (.lift f)
    exact ⟨r', hrun, ha⟩
  · intro f g h
    apply (hlift f g).mpr
    intro c _
    apply h
  · intro p hp
    constructor
    · apply (hlift (basic p) never).mpr
      intro c hc
      apply truth_eq_false hp hc
    · apply (hlift (not (basic p)) always).mpr
      intro c hc
      simp only [eval, truth_eq_false hp hc, Bool.not_false]

end Proposition

namespace Loop

/-- The door is not open while the light is on. -/
def thrifty : Proposition := .not (.and (.basic ⟨"door", "open"⟩) (.basic ⟨"light", "on"⟩))

/-- The door is not open, or the light is not on. -/
def frugal : Proposition := .or (.not (.basic ⟨"door", "open"⟩)) (.not (.basic ⟨"light", "on"⟩))

end Loop

namespace Proposition

/-- The second of two equivalent propositions is lifted by means of what is remembered from the
first one. The door is never locked, and there is no lamp. -/
theorem lift_exact_house :
  ∃ held r r', (Registry.lift Loop.thrifty).run (.ofAssembly Loop.house) = .ok (held, r)
    ∧ (Registry.lift Loop.frugal).run r = .ok (held, r')
    ∧ held.toList = [[⟨"door", "closed"⟩, ⟨"light", "off"⟩],
      [⟨"door", "closed"⟩, ⟨"light", "on"⟩], [⟨"door", "open"⟩, ⟨"light", "off"⟩]]
    ∧ (not (basic ⟨"door", "locked"⟩)).lift Loop.house = .ok Loop.house.space
    ∧ (basic ⟨"lamp", "on"⟩).lift Loop.house = .ok (.bottom "room")
  := by
  obtain ⟨hheld, -, hequivalent, habsent⟩ := lift_exact Loop.house
  obtain ⟨held, hlift, -, -, hregistry⟩ := hheld Loop.thrifty
  obtain ⟨held', hlift', -, -, hregistry'⟩ := hheld Loop.frugal
  have hsame : Loop.thrifty.lift Loop.house = Loop.frugal.lift Loop.house := by
    apply hequivalent
    intro truth
    apply Bool.not_and
  obtain rfl : held = held' := by
    rw [hlift, hlift'] at hsame
    apply Except.ok.inj hsame
  have hopened := Registry.Reachable.opened Loop.house
  obtain ⟨r, hrun, ha⟩ := hregistry _ hopened rfl
  obtain ⟨r', hrun', -⟩ := hregistry' r (hopened.asked (q := .lift Loop.thrifty) hrun) ha
  have hvalue : (Loop.thrifty.lift Loop.house).map Region.toList =
      .ok [[⟨"door", "closed"⟩, ⟨"light", "off"⟩], [⟨"door", "closed"⟩, ⟨"light", "on"⟩],
        [⟨"door", "open"⟩, ⟨"light", "off"⟩]] := by
    decide +kernel
  rw [hlift] at hvalue
  refine ⟨held, r, r', hrun, hrun', Except.ok.inj hvalue, ?_, ?_⟩
  · apply (habsent ⟨"door", "locked"⟩ (by decide)).2
  · apply (habsent ⟨"lamp", "on"⟩ (by decide)).1

end Proposition

end AssemblySemantics
