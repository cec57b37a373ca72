import AssemblySemantics.Proofs.Contribution.Exits

/-!
# Actions on different machines

An action reads and changes the place of its own machine only. Actions on different machines
may therefore be performed in either order, and where a list of actions leads depends on what
is addressed to each machine: lists that address the same actions to every machine, in the
same order for each of them, lead to the same region however they are interleaved.
-/

namespace AssemblySemantics

/-- The actions of a list that are addressed to a machine, in their order. -/
def Action.addressed (machine : String) (xs : List Action) : List Action :=
  xs.filter fun x => x.machine = machine

namespace Configuration

/-- The configuration with a machine moved to a state, or left where it is. -/
def moveTo (c : Configuration) (machine : String) : Option String → Configuration
  | none => c
  | some state => c.reassign machine state

variable {machine other : String}

/-- Different machines may be moved in either order. -/
theorem reassign_comm (h : machine ≠ other) (c : Configuration) (state target : String) :
  (c.reassign machine state).reassign other target =
    (c.reassign other target).reassign machine state
  := by
  simp only [reassign, List.map_map]
  apply List.map_congr_left
  intro p _
  by_cases hm : p.machine = machine
  · have ho : p.machine ≠ other := hm.trans_ne h
    simp [hm, h]
  · by_cases ho : p.machine = other <;> simp [hm, ho, h.symm]

theorem moveTo_comm (h : machine ≠ other) (c : Configuration) (state target : Option String) :
  (c.moveTo machine state).moveTo other target = (c.moveTo other target).moveTo machine state
  := by
  cases state with
  | none => rfl
  | some state =>
    cases target with
    | none => rfl
    | some target => apply reassign_comm h

/-- Moving a machine leaves the others where they are. -/
theorem state?_moveTo_of_ne (h : machine ≠ other) (c : Configuration) (state : Option String) :
  (c.moveTo other state).state? machine = c.state? machine
  := by
  cases state with
  | none => rfl
  | some state =>
    rw [moveTo, state?_reassign, if_neg h]

end Configuration

namespace Assembly

variable {a : Assembly} {x y : Action} {xs ys us vs : List Action} {b c d : Configuration}

/-! ### One action after another -/

/-- How a machine in a state, or in none, may answer an action: it stays where it is when it
is not registered or no move is fired, and otherwise it goes to the target of one of the moves
that the event fires. -/
inductive Answers (a : Assembly) (x : Action) (state : Option String) : Option String → Prop where
  | unregistered (h : a.component? x.machine = none) : Answers a x state none
  | ignored {d : Component} (h : a.component? x.machine = some d)
      (hf : d.firedBy state x.event = []) : Answers a x state none
  | fired {d : Component} {m : Move} (h : a.component? x.machine = some d)
      (hf : m ∈ d.firedBy state x.event) : Answers a x state (some m.target)

/-- An action reads the state of its machine and moves this machine. -/
theorem reacts_iff_exists_answer :
  a.Reacts x b c
    ↔ ∃ answer, a.Answers x (b.state? x.machine) answer ∧ c = b.moveTo x.machine answer
  := by
  constructor
  · intro h
    cases h with
    | unregistered h => exact ⟨none, .unregistered h, rfl⟩
    | ignored h hf => exact ⟨none, .ignored h hf, rfl⟩
    | fired h hf => exact ⟨_, .fired h hf, rfl⟩
  · rintro ⟨answer, h, rfl⟩
    cases h with
    | unregistered h => apply Reacts.unregistered h
    | ignored h hf => apply Reacts.ignored h hf
    | fired h hf => apply Reacts.fired h hf

/-- Two actions on different machines may be performed in either order. -/
theorem Reacts.swap (h : x.machine ≠ y.machine) (hx : a.Reacts x b c) (hy : a.Reacts y c d) :
  ∃ e, a.Reacts y b e ∧ a.Reacts x e d
  := by
  obtain ⟨answer, hanswer, rfl⟩ := reacts_iff_exists_answer.mp hx
  obtain ⟨answer', hanswer', rfl⟩ := reacts_iff_exists_answer.mp hy
  rw [Configuration.state?_moveTo_of_ne h.symm] at hanswer'
  rw [← Configuration.state?_moveTo_of_ne h b answer'] at hanswer
  refine ⟨b.moveTo y.machine answer', reacts_iff_exists_answer.mpr ⟨answer', hanswer', rfl⟩,
    reacts_iff_exists_answer.mpr ⟨answer, hanswer, ?_⟩⟩
  apply Configuration.moveTo_comm h

theorem Performs.swap (h : x.machine ≠ y.machine) (hxs : a.Performs (x :: y :: xs) b c) :
  a.Performs (y :: x :: xs) b c
  := by
  cases hxs with
  | cons hx hxs =>
    cases hxs with
    | cons hy hxs =>
      obtain ⟨e, hy, hx⟩ := hx.swap h hy
      apply Performs.cons hy (Performs.cons hx hxs)

/-! ### Interleavings -/

/-- An action may be put off until others have been performed, on other machines. -/
theorem Performs.defer (hus : ∀ y ∈ us, y.machine ≠ x.machine)
    (h : a.Performs (x :: (us ++ vs)) b c) :
  a.Performs (us ++ x :: vs) b c
  := by
  induction us generalizing b with
  | nil => apply h
  | cons y us ih =>
    obtain ⟨hy, hus⟩ := List.forall_mem_cons.mp hus
    cases h.swap hy.symm with
    | cons hb hrest => apply Performs.cons hb (ih hus hrest)

/-- If a list begins with an action and another list addresses the same actions to every
machine, then the other list has this action after some on other machines, and the remaining
actions are the same for every machine again. -/
theorem exists_addressed_eq_cons
    (h : ∀ machine, Action.addressed machine (x :: xs) = Action.addressed machine ys) :
  ∃ us vs, ys = us ++ x :: vs ∧ (∀ y ∈ us, y.machine ≠ x.machine)
    ∧ ∀ machine, Action.addressed machine xs = Action.addressed machine (us ++ vs)
  := by
  have hx : x :: Action.addressed x.machine xs = Action.addressed x.machine ys := by
    rw [← h, Action.addressed, Action.addressed, List.filter_cons_of_pos (by simp)]
  obtain ⟨us, vs, rfl, hus, -, hvs⟩ := List.filter_eq_cons_iff.mp hx.symm
  have hus : ∀ y ∈ us, y.machine ≠ x.machine := by
    intro y hy
    simpa using hus y hy
  refine ⟨us, vs, rfl, hus, ?_⟩
  intro machine
  by_cases hm : x.machine = machine
  · subst hm
    have hnil : us.filter (fun y => y.machine = x.machine) = [] := by
      apply List.filter_eq_nil_iff.mpr
      intro y hy
      simpa using hus y hy
    rw [Action.addressed, Action.addressed, List.filter_append, hnil, List.nil_append, hvs,
      Action.addressed]
  · have hrest := h machine
    simp only [Action.addressed, List.filter_append] at hrest ⊢
    rw [List.filter_cons_of_neg (by simpa using hm),
      List.filter_cons_of_neg (by simpa using hm)] at hrest
    apply hrest

/-- Where actions lead depends on what is addressed to each machine. -/
theorem Performs.of_addressed_eq
    (h : ∀ machine, Action.addressed machine xs = Action.addressed machine ys)
    (hxs : a.Performs xs b c) :
  a.Performs ys b c
  := by
  induction hxs generalizing ys with
  | nil =>
    -- an action of the other list would be addressed to its machine
    cases ys with
    | nil => apply Performs.nil
    | cons y ys =>
      have hy := h y.machine
      rw [Action.addressed, Action.addressed, List.filter_cons_of_pos (by simp)] at hy
      cases hy
  | cons hx _ ih =>
    -- the other list begins with actions on other machines, behind which the first one is put off
    obtain ⟨us, vs, rfl, hus, hrest⟩ := exists_addressed_eq_cons h
    apply Performs.defer hus (Performs.cons hx (ih hrest))

end Assembly

namespace Region

/-- Actions on different machines commute: performing two lists of actions on a region of the
assembly gives the same region whenever, for every machine, they address the same actions to it
in the same order. The machines may be registered or not, they may take or ignore the events,
and the configurations may place them in full or in part. -/
theorem perform_eq_of_addressed_eq {a : Assembly} {r : Region} {xs ys : List Action}
    (h : r.assembly = a.id)
    (hxs : ∀ machine, Action.addressed machine xs = Action.addressed machine ys) :
  ∃ s, r.perform xs a = .ok s ∧ r.perform ys a = .ok s
  := by
  refine ⟨r.flatMap (a.performed xs), perform_of_eq xs h, ?_⟩
  rw [perform_of_eq ys h]
  congr 1
  apply Region.ext
  · rfl
  · intro c
    simp only [mem_flatMap, Assembly.mem_performed]
    apply exists_congr
    intro b
    apply and_congr_right
    intro _
    exact ⟨.of_addressed_eq fun machine => (hxs machine).symm, .of_addressed_eq hxs⟩

end Region

/-! ### A lamp and a light -/

namespace Lamp

/-- The assembly of the lamp and a light that can be switched on. -/
def landing : Assembly := ⟨0, "landing", [lamp, Loop.light], by decide, by decide⟩

/-- The lamp is on, or has no place, or two; the light is off. -/
def evening : Region :=
  .ofConfigurations "landing"
    [[⟨"lamp", "on"⟩, ⟨"light", "off"⟩], [⟨"light", "off"⟩],
      [⟨"light", "off"⟩, ⟨"lamp", "on"⟩, ⟨"lamp", "off"⟩]]

/-- Two pushes at the lamp among other actions, at the light and at a bell that is not
there. -/
def hasty : List Action :=
  [⟨"lamp", "push"⟩, ⟨"light", "switch"⟩, ⟨"bell", "ring"⟩, ⟨"lamp", "push"⟩, ⟨"light", "switch"⟩]

/-- The same actions, first at the bell, then at the light and then at the lamp. -/
def tidy : List Action :=
  [⟨"bell", "ring"⟩, ⟨"light", "switch"⟩, ⟨"light", "switch"⟩, ⟨"lamp", "push"⟩, ⟨"lamp", "push"⟩]

theorem addressed_hasty (machine : String) :
  Action.addressed machine hasty = Action.addressed machine tidy
  := by
  simp only [Action.addressed, hasty, tidy, List.filter_cons, List.filter_nil]
  by_cases hlamp : "lamp" = machine
  · subst hlamp
    decide
  · by_cases hlight : "light" = machine
    · subst hlight
      decide
    · simp [hlamp, hlight]

end Lamp

namespace Region

/-- The first push turns the lamp off or dims it, and the second one is ignored, whenever the
light is switched on. -/
theorem perform_eq_of_addressed_eq_hasty :
  Lamp.evening.assembly = Lamp.landing.id
    ∧ (∀ machine, Action.addressed machine Lamp.hasty = Action.addressed machine Lamp.tidy)
    ∧ ∃ s, Lamp.evening.perform Lamp.hasty Lamp.landing = .ok s
      ∧ Lamp.evening.perform Lamp.tidy Lamp.landing = .ok s
      ∧ s.toList =
        [[⟨"lamp", "dim"⟩, ⟨"light", "on"⟩], [⟨"lamp", "off"⟩, ⟨"light", "on"⟩],
          [⟨"light", "on"⟩], [⟨"light", "on"⟩, ⟨"lamp", "dim"⟩, ⟨"lamp", "dim"⟩],
          [⟨"light", "on"⟩, ⟨"lamp", "off"⟩, ⟨"lamp", "off"⟩]]
  := by
  obtain ⟨s, hhasty, htidy⟩ :=
    perform_eq_of_addressed_eq (r := Lamp.evening) (a := Lamp.landing) rfl Lamp.addressed_hasty
  have hlisted : (Lamp.evening.perform Lamp.hasty Lamp.landing).map toList =
      .ok [[⟨"lamp", "dim"⟩, ⟨"light", "on"⟩], [⟨"lamp", "off"⟩, ⟨"light", "on"⟩],
        [⟨"light", "on"⟩], [⟨"light", "on"⟩, ⟨"lamp", "dim"⟩, ⟨"lamp", "dim"⟩],
        [⟨"light", "on"⟩, ⟨"lamp", "off"⟩, ⟨"lamp", "off"⟩]] := by
    decide +kernel
  rw [hhasty] at hlisted
  exact ⟨rfl, Lamp.addressed_hasty, s, hhasty, htidy, Except.ok.inj hlisted⟩

end Region

end AssemblySemantics
