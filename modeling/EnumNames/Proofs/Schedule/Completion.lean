import EnumNames.Proofs.Schedule.Chronicle

/-!
Workers come to an end. A worker takes only finitely many steps for a job, whatever the others do to
the shared state in between. Main statements: whatever the owner is going to do, all jobs end under
every schedule, and an owner who waits for all workers finds a failure in the slot that was there
before.
-/

namespace EnumNames

variable {σ α β : Type}

/-- One item of a list has been replaced by one that is less. -/
def Lessens {ι : Type} (less : ι → ι → Prop) (next items : List ι) : Prop :=
  ∃ number item value, items[number]? = some item ∧ less value item ∧ next = items.set number value

/-- The first item of a list and the rest of it are lessened independently of each other. -/
theorem acc_lessens_cons {ι : Type} {less : ι → ι → Prop} {head : ι} {rest : List ι}
    (first : Acc less head) (others : Acc (Lessens less) rest) : Acc (Lessens less) (head :: rest) := by
  induction first generalizing rest with
  | intro head _ headHypothesis =>
    induction others with
    | intro rest others restHypothesis =>
      refine .intro _ ?_
      rintro _ ⟨_ | number, item, value, found, lower, rfl⟩
      · obtain rfl := Option.some.inj found
        exact headHypothesis value lower (.intro rest others)
      · exact restHypothesis _ ⟨number, item, value, found, lower, rfl⟩

theorem acc_lessens {ι : Type} {less : ι → ι → Prop} (each : ∀ item, Acc less item)
    (items : List ι) : Acc (Lessens less) items := by
  induction items with
  | nil =>
    refine .intro _ ?_
    rintro _ ⟨number, item, value, found, _⟩
    cases found
  | cons head rest inductionHypothesis => exact acc_lessens_cons (each head) inductionHypothesis

namespace Cell

/-- The cell behind one more step of its worker, whatever the shared state is by then. -/
def Follows (next cell : Cell σ α) : Prop :=
  cell.stage.isEnded = false ∧ ∃ shared, next = (cell.work shared).2.1

theorem acc_of_ended {cell : Cell σ α} (ended : cell.stage = .ended) : Acc Follows cell := by
  refine .intro _ ?_
  rintro _ ⟨active, _⟩
  rw [ended] at active
  cases active

theorem acc_of_leaving {cell : Cell σ α} (leaving : cell.stage = .leaving) : Acc Follows cell := by
  refine .intro _ ?_
  rintro _ ⟨_, shared, rfl⟩
  refine acc_of_ended ?_
  rw [work, leaving]

theorem acc_of_offering {cell : Cell σ α} {cause : Failure} (offering : cell.stage = .offering cause) :
    Acc Follows cell := by
  refine .intro _ ?_
  rintro _ ⟨_, shared, rfl⟩
  refine acc_of_leaving ?_
  rw [work, offering]

/-- The induction is on the job, which gets smaller by one step at a time. -/
theorem acc_of_running {cell : Cell σ α} {job : Process σ (Outcome α)}
    (running : cell.stage = .running job) : Acc Follows cell := by
  induction job generalizing cell with
  | done outcome =>
    refine .intro _ ?_
    rintro _ ⟨_, shared, rfl⟩
    have finish : (cell.work shared).2.1 = cell.finish outcome := by rw [work, running]
    rw [finish]
    rcases cell.stage_finish outcome with leaving | ⟨cause, offering⟩
    · exact acc_of_leaving leaving
    · exact acc_of_offering offering
  | act change next inductionHypothesis =>
    refine .intro _ ?_
    rintro _ ⟨_, shared, rfl⟩
    refine inductionHypothesis shared ?_
    rw [work, running]

theorem acc_follows (cell : Cell σ α) : Acc Follows cell := by
  cases same : cell.stage with
  | queued job =>
    refine .intro _ ?_
    rintro _ ⟨_, shared, rfl⟩
    have running : (cell.work shared).2.1.stage = .running job := by rw [work, same]
    exact acc_of_running running
  | running job => exact acc_of_running same
  | offering cause => exact acc_of_offering same
  | leaving => exact acc_of_leaving same
  | ended => exact acc_of_ended same

end Cell

namespace Crew

/-- The workers cannot go on forever. -/
theorem acc_step (crew : Crew σ α) : Acc (fun next crew : Crew σ α => crew.Step next) crew := by
  have below (next crew : Crew σ α) (step : crew.Step next) :
      Lessens Cell.Follows next.cells crew.cells := by
    obtain ⟨found, allowed⟩ := step
    exact ⟨_, _, _, found, ⟨allowed.1, _, rfl⟩, cells_work⟩
  exact Subrelation.accessible (below _ _)
    (InvImage.accessible cells (acc_lessens Cell.acc_follows crew.cells))

/-- Workers who have stopped do nothing any more. -/
theorem not_step {crew next : Crew σ α} (idle : crew.isIdle = true) : ¬ crew.Step next := by
  rintro ⟨found, allowed⟩
  have ended := List.all_eq_true.mp idle _ (List.mem_of_getElem? found)
  cases ended.symm.trans allowed.1

/-- What is in the slot stays there as long as only the workers do something. -/
theorem held_step {crew next : Crew σ α} {origin : String} {cause : Failure} (step : crew.Step next)
    (held : crew.pending.held = some (origin, cause)) : next.pending.held = some (origin, cause) := by
  obtain @⟨number, cell, found, allowed⟩ := step
  rw [work_tends.2.2]
  unfold Cell.deed?
  split
  · exact held
  · change (crew.pending.recordAny _).held = _
    rw [PendingFailure.held_recordAny, held]
    rfl
  · exact held

end Crew

theorem PendingFailure.check_of_held {slot : PendingFailure} {origin : String} {cause : Failure}
    (held : slot.held = some (origin, cause)) :
    slot.check = (.error (.uncaught origin cause), .empty) := by
  obtain ⟨found⟩ := slot
  cases held
  rfl

namespace Situation

variable {crew : Crew σ α}

/-- The owner and the workers have done everything they can. -/
structure IsAtRest (situation : Situation σ α β) : Prop where
  idle : situation.crew.isIdle = true
  stopped : situation.plan.next? situation.crew = none

/-- Workers take finitely many steps before the owner goes on, and while some job has not ended there
is always a step to take. -/
theorem inevitable_of_moves {plan : Plan σ α β}
    (each : ∀ (crew after : Crew σ α) deed? next, 0 < crew.size →
      plan.Moves crew deed? next after → Inevitable Step IsAtRest ⟨next, after⟩)
    (positive : 0 < crew.size) : Inevitable Step IsAtRest ⟨plan, crew⟩ := by
  induction crew.acc_step with
  | intro crew _ inductionHypothesis =>
    have steps (situation : Situation σ α β) (step : Step ⟨plan, crew⟩ situation) :
        Inevitable Step IsAtRest situation := by
      cases step with
      | owner moves =>
        obtain ⟨deed?, moves⟩ := Plan.moves_iff.mp moves
        exact each _ _ _ _ positive moves
      | worker step =>
        refine inductionHypothesis _ step ?_
        cases step
        exact Crew.size_work.symm ▸ positive
    cases idle : crew.isIdle with
    | false =>
      obtain ⟨next, step⟩ := Crew.exists_step positive idle
      exact .ahead ⟨_, .worker step⟩ steps
    | true =>
      cases moves : plan.next? crew with
      | none => exact .reached ⟨idle, moves⟩
      | some next => exact .ahead ⟨_, .owner moves⟩ steps

/-- Whatever the owner is going to do and whatever the jobs are, all of them end. -/
theorem inevitable_rest (plan : Plan σ α β) (positive : 0 < crew.size) :
    Inevitable Step IsAtRest ⟨plan, crew⟩ := by
  induction plan generalizing crew with
  | done value => exact inevitable_of_moves (fun _ _ _ _ _ moves => nomatch moves) positive
  | act change next inductionHypothesis =>
    refine inevitable_of_moves (fun _ _ _ _ positive moves => ?_) positive
    cases moves
    exact inductionHypothesis _ positive
  | submit origin job next inductionHypothesis =>
    refine inevitable_of_moves (fun _ _ _ _ positive moves => ?_) positive
    cases moves
    exact inductionHypothesis _ positive
  | receive task next inductionHypothesis =>
    refine inevitable_of_moves (fun _ _ _ _ positive moves => ?_) positive
    cases moves
    exact inductionHypothesis _ positive
  | collect task next inductionHypothesis =>
    refine inevitable_of_moves (fun _ _ _ _ positive moves => ?_) positive
    cases moves
    exact inductionHypothesis ((Forecast.size_collect ..).symm ▸ positive)
  | close task next inductionHypothesis =>
    refine inevitable_of_moves (fun _ _ _ _ positive moves => ?_) positive
    cases moves
    exact inductionHypothesis positive
  | join next inductionHypothesis =>
    refine inevitable_of_moves (fun _ _ _ _ positive moves => ?_) positive
    cases moves
    exact inductionHypothesis positive
  | check next inductionHypothesis =>
    refine inevitable_of_moves (fun _ _ _ _ positive moves => ?_) positive
    cases moves
    exact inductionHypothesis _ positive

/-- An owner who shuts the crew down while a failure is in the slot is told of this failure, however
many jobs the workers still have to end. -/
theorem inevitable_uncaught {next : Except Failure Unit → Plan σ α β} {origin : String}
    {cause : Failure} (positive : 0 < crew.size)
    (held : crew.pending.held = some (origin, cause)) :
    Inevitable Step (·.plan = next (.error (.uncaught origin cause))) ⟨.join (.check next), crew⟩ := by
  induction crew.acc_step with
  | intro crew _ inductionHypothesis =>
    have told (idle : crew.isIdle = true) :
        Inevitable Step (·.plan = next (.error (.uncaught origin cause))) ⟨.check next, crew⟩ := by
      refine .ahead ⟨_, .owner rfl⟩ fun situation step => ?_
      cases step with
      | owner moves =>
        cases moves
        exact .reached (congrArg (fun result => next result.1) (PendingFailure.check_of_held held))
      | worker step => exact absurd step (Crew.not_step idle)
    have each (situation : Situation σ α β) (step : Step ⟨.join (.check next), crew⟩ situation) :
        Inevitable Step (·.plan = next (.error (.uncaught origin cause))) situation := by
      cases step with
      | owner moves =>
        obtain ⟨idle, moves⟩ := Option.ite_none_right_eq_some.mp moves
        cases moves
        exact told idle
      | worker step =>
        refine inductionHypothesis _ step ?_ (Crew.held_step step held)
        cases step
        exact Crew.size_work.symm ▸ positive
    refine .ahead ?_ each
    cases idle : crew.isIdle with
    | false =>
      obtain ⟨after, step⟩ := Crew.exists_step positive idle
      exact ⟨_, .worker step⟩
    | true => exact ⟨_, .owner (if_pos idle)⟩

end Situation

end EnumNames
