import EnumNames.Proofs.EnumUnit.Observation
import Mathlib.Data.List.Induction

/-!
The machine fed with any steps, also after a failure. Main statement: the names are given out in
their order and never run short, the machine always knows the place of the name that it waits with,
and a failure leaves it as it was.
-/

namespace EnumNames

/-- A substitution gives out a name, and nothing else does. -/
def Action.names : Action → List String
  | .forward => []
  | .substitute name => [name]

namespace Construction

/-- The fields of the machine are changed where it stands. -/
def setPhase (phase : Phase) : EStateM Failure Construction Unit :=
  modify fun machine => { machine with phase }

def useName : EStateM Failure Construction Unit :=
  modify fun machine =>
    { machine with consumed := machine.consumed + 1, remaining := machine.remaining.tail }

/-- This is the machine in place: a failure comes with the machine as the step has left it. -/
def feed (step : Step) : EStateM Failure Construction Action := do
  let machine ← get
  match machine.phase, step with
  | .idle, .allocate className =>
    match machine.remaining with
    | name :: _ =>
      setPhase (.awaitingLiteral name)
      return .forward
    | [] =>
      if className = machine.unit.name then
        throw (.constructionCountMismatch machine.unit.name machine.unit.constants.length
          (machine.consumed + 1))
      else
        return .forward
  | .awaitingLiteral name, .load (.string _) =>
    setPhase (.awaitingStore name)
    useName
    return .substitute name
  | .awaitingLiteral _, .load (.other description) =>
    throw (.nonStringLiteral machine.unit.name description)
  | .awaitingStore name, .store field =>
    if machine.storesInto name field then
      setPhase .idle
      return .forward
    else
      return .forward
  | _, _ => return .forward

/-- The machine in place answers as the observed machine does, and a failure leaves it alone. -/
theorem feed_eq (step : Step) (machine : Construction) :
    feed step machine = match machine.observe step with
      | .ok (next, action) => .ok action next
      | .error failure => .error failure machine := by
  obtain ⟨unit, consumed, remaining, phase⟩ := machine
  cases phase with
  | idle =>
    cases step with
    | allocate className =>
      cases remaining with
      | cons name rest => rfl
      | nil =>
        by_cases own : className = unit.name
        · have refused : observe ⟨unit, consumed, [], .idle⟩ (.allocate className) =
              mismatch ⟨unit, consumed, [], .idle⟩ (consumed + 1) := if_pos own
          rw [refused]
          exact congrFun (if_pos own) _
        · have passed : observe ⟨unit, consumed, [], .idle⟩ (.allocate className) =
              .ok (⟨unit, consumed, [], .idle⟩, .forward) := if_neg own
          rw [passed]
          exact congrFun (if_neg own) _
    | load literal => rfl
    | store field => rfl
    | other => rfl
  | awaitingLiteral name =>
    cases step with
    | load literal => cases literal <;> rfl
    | allocate className => rfl
    | store field => rfl
    | other => rfl
  | awaitingStore name =>
    cases step with
    | store field =>
      let machine : Construction := ⟨unit, consumed, remaining, .awaitingStore name⟩
      by_cases own : machine.storesInto name field
      · have stored : machine.observe (.store field) =
            .ok ({ machine with phase := .idle }, .forward) := if_pos own
        rw [stored]
        exact congrFun (if_pos own) machine
      · have passed : machine.observe (.store field) = .ok (machine, .forward) := if_neg own
        rw [passed]
        exact congrFun (if_neg own) machine
    | allocate className => rfl
    | load literal => rfl
    | other => rfl

variable {unit : EnumUnit} {machine next : Construction} {step : Step} {action : Action}
  {failure : Failure}

theorem feed_eq_ok :
    feed step machine = .ok action next ↔ machine.observe step = .ok (next, action) := by
  rw [feed_eq]
  cases machine.observe step with
  | ok result =>
    constructor
    · intro done
      cases done
      rfl
    · intro done
      cases done
      rfl
  | error other => simp

theorem feed_eq_error : feed step machine = .error failure next ↔
    next = machine ∧ machine.observe step = .error failure := by
  rw [feed_eq]
  cases machine.observe step with
  | ok result => simp
  | error other =>
    constructor
    · intro failed
      cases failed
      exact ⟨rfl, rfl⟩
    · rintro ⟨rfl, failed⟩
      cases failed
      rfl

/-- A step starts a group, loads its name, ends it, or changes nothing. -/
theorem observe_cases (observed : machine.observe step = .ok (next, action)) :
    (∃ name rest, machine.remaining = name :: rest ∧ action = .forward ∧
      next = { machine with phase := .awaitingLiteral name }) ∨
    (∃ name, machine.phase = .awaitingLiteral name ∧ action = .substitute name ∧
      next = { machine with
        consumed := machine.consumed + 1
        remaining := machine.remaining.tail
        phase := .awaitingStore name }) ∨
    (action = .forward ∧ next = { machine with phase := .idle }) ∨
    (action = .forward ∧ next = machine) := by
  unfold observe at observed
  split at observed
  · split at observed
    · rename_i name rest remaining
      cases observed
      exact .inl ⟨name, rest, remaining, rfl, rfl⟩
    · split at observed
      · cases observed
      · cases observed
        exact .inr (.inr (.inr ⟨rfl, rfl⟩))
  · rename_i name _ waiting
    cases observed
    exact .inr (.inl ⟨name, waiting, rfl, rfl⟩)
  · cases observed
  · split at observed
    · cases observed
      exact .inr (.inr (.inl ⟨rfl, rfl⟩))
    · cases observed
      exact .inr (.inr (.inr ⟨rfl, rfl⟩))
  · cases observed
    exact .inr (.inr (.inr ⟨rfl, rfl⟩))

/-- What is true of the machine between two steps. A name that is awaited is known by its place, so
no place is ever looked up behind the last name. -/
structure Holds (unit : EnumUnit) (machine : Construction) : Prop where
  same : machine.unit = unit
  bounded : machine.consumed ≤ unit.constants.length
  remaining : machine.remaining = unit.constants.drop machine.consumed
  literal : ∀ name, machine.phase = .awaitingLiteral name →
    machine.consumed < unit.constants.length ∧ unit.constants[machine.consumed]? = some name
  store : ∀ name, machine.phase = .awaitingStore name →
    ∃ place, unit.constants[place]? = some name ∧ place + 1 = machine.consumed

theorem holds_start (unit : EnumUnit) : Holds unit (start unit) where
  same := rfl
  bounded := Nat.zero_le _
  remaining := rfl
  literal := by
    intro name waiting
    cases waiting
  store := by
    intro name waiting
    cases waiting

/-- The place of the next name is the number of names given out so far. -/
theorem Holds.head? {name : String} (holds : Holds unit machine)
    (first : machine.remaining.head? = some name) :
    machine.consumed < unit.constants.length ∧ unit.constants[machine.consumed]? = some name := by
  rw [holds.remaining, List.head?_drop] at first
  exact ⟨(List.getElem?_eq_some_iff.mp first).1, first⟩

/-- What a step gives out is the next name, and the step looks it up where it stands. -/
theorem Holds.observe (holds : Holds unit machine)
    (observed : machine.observe step = .ok (next, action)) :
    Holds unit next ∧ machine.consumed ≤ next.consumed ∧
      unit.constants.take next.consumed = unit.constants.take machine.consumed ++ action.names := by
  rcases observe_cases observed with ⟨name, rest, first, rfl, rfl⟩ | ⟨name, waiting, rfl, rfl⟩ |
    ⟨rfl, rfl⟩ | ⟨rfl, rfl⟩
  · refine ⟨{ holds with literal := ?_, store := ?_ }, Nat.le_refl _, (List.append_nil _).symm⟩
    · intro other waiting
      cases waiting
      exact holds.head? (by rw [first]; rfl)
    · intro other waiting
      cases waiting
  · obtain ⟨inside, found⟩ := holds.literal name waiting
    refine ⟨⟨holds.same, inside, ?_, ?_, ?_⟩, Nat.le_succ _, ?_⟩
    · change machine.remaining.tail = _
      rw [holds.remaining, List.tail_drop]
    · intro other waiting
      cases waiting
    · intro other waiting
      cases waiting
      exact ⟨machine.consumed, found, rfl⟩
    · change unit.constants.take (machine.consumed + 1) = _
      rw [List.take_add_one, found]
      rfl
  · refine ⟨{ holds with literal := ?_, store := ?_ }, Nat.le_refl _, (List.append_nil _).symm⟩
    · intro other waiting
      cases waiting
    · intro other waiting
      cases waiting
  · exact ⟨holds, Nat.le_refl _, (List.append_nil _).symm⟩

end Construction

/-- The answers that a machine has given so far, and the machine itself. -/
structure Feeding where
  answers : List (Except Failure Action)
  machine : Construction

namespace Feeding

def start (unit : EnumUnit) : Feeding := ⟨[], Construction.start unit⟩

/-- The next step is fed to the machine as the last one has left it, be it with a failure. -/
def next (feeding : Feeding) (step : Step) : Feeding :=
  match Construction.feed step feeding.machine with
  | .ok action machine => ⟨feeding.answers ++ [.ok action], machine⟩
  | .error failure machine => ⟨feeding.answers ++ [.error failure], machine⟩

def ofSteps (unit : EnumUnit) (steps : List Step) : Feeding := steps.foldl next (start unit)

/-- The names that have been given out so far. -/
def names (feeding : Feeding) : List String :=
  feeding.answers.flatMap fun
    | .ok action => action.names
    | .error _ => []

variable {unit : EnumUnit} {feeding : Feeding}

/-- A failed step gives out nothing and leaves the machine in the state it was in. -/
theorem next_holds (holds : feeding.machine.Holds unit)
    (given : feeding.names = unit.constants.take feeding.machine.consumed) (step : Step) :
    (feeding.next step).machine.Holds unit ∧
      (feeding.next step).names = unit.constants.take (feeding.next step).machine.consumed ∧
      feeding.machine.consumed ≤ (feeding.next step).machine.consumed := by
  unfold next
  cases fed : Construction.feed step feeding.machine with
  | ok action machine =>
    obtain ⟨after, forward, taken⟩ := holds.observe (Construction.feed_eq_ok.mp fed)
    refine ⟨after, ?_, forward⟩
    rw [taken, ← given]
    simp [names]
  | error failure machine =>
    obtain ⟨rfl, _⟩ := Construction.feed_eq_error.mp fed
    refine ⟨holds, ?_, Nat.le_refl _⟩
    rw [← given]
    simp [names]

/-- The induction is on the steps from behind: the last one is fed to what the others have left. -/
theorem ofSteps_holds (unit : EnumUnit) (steps : List Step) :
    (ofSteps unit steps).machine.Holds unit ∧
      (ofSteps unit steps).names = unit.constants.take (ofSteps unit steps).machine.consumed := by
  induction steps using List.reverseRecOn with
  | nil => exact ⟨Construction.holds_start unit, rfl⟩
  | append_singleton earlier step inductionHypothesis =>
    obtain ⟨holds, given, _⟩ := next_holds inductionHypothesis.1 inductionHypothesis.2 step
    rw [ofSteps, List.foldl_concat]
    exact ⟨holds, given⟩

/-- Whatever was fed before, and whatever failed: the names given out are the first ones, and the
machine holds the place of the name it waits with. One step more never takes a name back, and when
it fails it leaves the machine alone and fails again. -/
theorem ofSteps_gives_first_names (unit : EnumUnit) (earlier : List Step) (step : Step) :
    let feeding := ofSteps unit earlier
    feeding.machine.Holds unit ∧
      feeding.names = unit.constants.take feeding.machine.consumed ∧
      (∀ action next, Construction.feed step feeding.machine = .ok action next →
        feeding.machine.observe step = .ok (next, action) ∧
          feeding.machine.consumed ≤ next.consumed) ∧
      ∀ failure next, Construction.feed step feeding.machine = .error failure next →
        feeding.machine.observe step = .error failure ∧ next = feeding.machine ∧
          Construction.feed step next = .error failure next := by
  intro feeding
  obtain ⟨holds, given⟩ := ofSteps_holds unit earlier
  refine ⟨holds, given, fun action next fed => ?_, fun failure next failed => ?_⟩
  · have observed := Construction.feed_eq_ok.mp fed
    exact ⟨observed, (holds.observe observed).2.1⟩
  · obtain ⟨rfl, observed⟩ := Construction.feed_eq_error.mp failed
    exact ⟨observed, rfl, failed⟩

/-- After the first group a number in place of the second name is refused, and refused again. -/
theorem ofSteps_gives_first_names_example :
    let unit : EnumUnit := ⟨"Color", ["RED", "GREEN"]⟩
    let number : Step := .load (.other "int 7")
    let stored : Step := .store ⟨"Color", "RED", "LColor;"⟩
    let feeding := ofSteps unit
      [.allocate "Color", .load (.string "R"), stored, .allocate "Color$1", number]
    feeding.machine.phase = .awaitingLiteral "GREEN" ∧ feeding.machine.Holds unit ∧
      feeding.names = unit.constants.take feeding.machine.consumed ∧
      Construction.feed number feeding.machine =
        .error (.nonStringLiteral "Color" "int 7") feeding.machine := by
  intro unit number stored feeding
  obtain ⟨holds, given, _, refused⟩ := ofSteps_gives_first_names unit
    [.allocate "Color", .load (.string "R"), stored, .allocate "Color$1", number] number
  have waiting : feeding.machine.phase = .awaitingLiteral "GREEN" := by decide +kernel
  have failed : Construction.feed number feeding.machine =
      .error (.nonStringLiteral "Color" "int 7") feeding.machine := rfl
  exact ⟨waiting, holds, given, (refused _ _ failed).2.2⟩

end Feeding

end EnumNames
