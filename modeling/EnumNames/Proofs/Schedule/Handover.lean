import EnumNames.Proofs.Schedule.Forecast
import Mathlib.Logic.Relation

/-!
A failure on its way from a worker to an owner who drops the task. The worker sends the failure, and
the owner looks into the channel and closes it afterwards. Main statement: the failure is offered
once in every order of these three steps but one; when it is sent between the look and the closing,
nobody ever hears of it.
-/

namespace EnumNames

variable {σ α β : Type}

/-- This is what becomes of the failure of one task. -/
inductive Event where
  | sent (cause : Failure)
  | offered (origin : String) (cause : Failure)
  | collected
  | closed
  deriving DecidableEq, Repr

namespace Event

def offer? : Event → Option (String × Failure)
  | .offered origin cause => some (origin, cause)
  | _ => none

/-- The events of a task among those of all tasks. -/
def ofTask (task : Nat) (events : List (Nat × Event)) : List Event :=
  events.filterMap fun (number, event) => if number = task then some event else none

theorem ofTask_append (task : Nat) (first second : List (Nat × Event)) :
    ofTask task (first ++ second) = ofTask task first ++ ofTask task second :=
  List.filterMap_append

theorem ofTask_same (task : Nat) (events : List Event) :
    ofTask task (events.map (task, ·)) = events := by
  simp [ofTask, List.filterMap_map]

theorem ofTask_other {task number : Nat} (different : number ≠ task) (events : List Event) :
    ofTask task (events.map (number, ·)) = [] := by
  simp [ofTask, List.filterMap_map, different]

end Event

namespace Cell

/-- What happens at the next step of the worker. -/
def events (cell : Cell σ α) : List Event :=
  match cell.stage with
  | .running (.done (.failed cause)) => [.sent cause]
  | .offering cause => [.offered cell.origin cause]
  | _ => []

/-- What happens when the owner looks into the channel. -/
def collectEvents (cell : Cell σ α) : List Event :=
  match cell.channel.message with
  | some (.error cause) => [.collected, .offered cell.origin cause]
  | _ => [.collected]

end Cell

/-- What happens at the next step of the owner. -/
def Plan.events (plan : Plan σ α β) (crew : Crew σ α) : List (Nat × Event) :=
  match plan with
  | .collect task _ =>
    match crew.cells[task]? with
    | some cell => cell.collectEvents.map (task, ·)
    | none => []
  | .close task _ => [(task, .closed)]
  | _ => []

namespace Situation

/-- Steps that lead from the first situation to another one, and what happens at them. -/
inductive History (first : Situation σ α β) : List (Nat × Event) → Situation σ α β → Prop
  | start : History first [] first
  | owner {events : List (Nat × Event)} {before : Situation σ α β} {plan : Plan σ α β}
      {crew : Crew σ α} (earlier : History first events before)
      (moves : before.plan.next? before.crew = some (plan, crew)) :
      History first (events ++ before.plan.events before.crew) ⟨plan, crew⟩
  | worker {events : List (Nat × Event)} {before : Situation σ α β} {number : Nat} {cell : Cell σ α}
      (earlier : History first events before) (found : before.crew.cells[number]? = some cell)
      (allowed : before.crew.MayWork number cell) :
      History first (events ++ cell.events.map (number, ·))
        ⟨before.plan, before.crew.work number cell⟩

/-- Every schedule has a history, and every history belongs to a schedule. -/
theorem exists_history {first last : Situation σ α β} :
    (∃ events, first.History events last) ↔ Relation.ReflTransGen Step first last := by
  constructor
  · rintro ⟨events, history⟩
    induction history with
    | start => exact .refl
    | owner earlier moves inductionHypothesis => exact inductionHypothesis.tail (.owner moves)
    | worker earlier found allowed inductionHypothesis =>
      exact inductionHypothesis.tail (.worker (.work found allowed))
  · intro steps
    induction steps with
    | refl => exact ⟨[], .start⟩
    | tail _ step inductionHypothesis =>
      obtain ⟨events, history⟩ := inductionHypothesis
      cases step with
      | owner moves => exact ⟨_, history.owner moves⟩
      | worker moves =>
        obtain ⟨found, allowed⟩ := moves
        exact ⟨_, history.worker found allowed⟩

end Situation

theorem Crew.offers_work {crew : Crew σ α} {number : Nat} {cell : Cell σ α} :
    (crew.work number cell).offers = crew.offers ++ cell.events.filterMap Event.offer? := by
  obtain ⟨origin, stage, channel⟩ := cell
  rcases stage with job | (⟨_ | _ | _⟩ | _) | cause | _ | _ <;>
    simp [work, Cell.work, Cell.events, offerAny, offer, replace, Event.offer?]

theorem Crew.offers_collect {crew : Crew σ α} {number : Nat} {cell : Cell σ α} :
    (crew.collect number cell).offers =
      crew.offers ++ cell.collectEvents.filterMap Event.offer? := by
  unfold collect Cell.collectEvents
  rcases cell.channel.message with _ | cause | value
  · exact (List.append_nil _).symm
  · rfl
  · exact (List.append_nil _).symm

theorem Plan.offers_next {plan next : Plan σ α β} {crew after : Crew σ α}
    (moves : plan.next? crew = some (next, after)) :
    after.offers = crew.offers ++ (plan.events crew).filterMap (·.2.offer?) := by
  cases plan with
  | done value => cases moves
  | collect task onward =>
    obtain ⟨cell, found, moves⟩ := Option.bind_eq_some_iff.mp moves
    cases moves
    have happens : (collect task next).events crew = cell.collectEvents.map (task, ·) := by
      simp only [events, found]
    rw [happens, Crew.offers_collect, List.filterMap_map]
    rfl
  | receive task onward =>
    obtain ⟨cell, _, moves⟩ := Option.bind_eq_some_iff.mp moves
    obtain ⟨result, _, moves⟩ := Option.bind_eq_some_iff.mp moves
    cases moves
    exact (List.append_nil _).symm
  | close task onward =>
    obtain ⟨cell, _, moves⟩ := Option.bind_eq_some_iff.mp moves
    cases moves
    exact (List.append_nil _).symm
  | join onward =>
    rw [next?] at moves
    split at moves
    · cases moves
      exact (List.append_nil _).symm
    · cases moves
  | act change onward =>
    cases moves
    exact (List.append_nil _).symm
  | submit origin job onward =>
    cases moves
    exact (List.append_nil _).symm
  | check onward =>
    cases moves
    exact (List.append_nil _).symm

/-- Nothing else offers a failure. -/
theorem Situation.History.offers {first last : Situation σ α β} {events : List (Nat × Event)}
    (history : first.History events last) :
    last.crew.offers = first.crew.offers ++ events.filterMap (·.2.offer?) := by
  induction history with
  | start => simp
  | owner earlier moves inductionHypothesis =>
    rw [Plan.offers_next moves, inductionHypothesis, List.filterMap_append, List.append_assoc]
  | worker earlier found allowed inductionHypothesis =>
    rw [Crew.offers_work, inductionHypothesis, List.filterMap_append, List.append_assoc,
      List.filterMap_map]
    rfl

/-- The job has not ended, and the channel is empty. -/
structure Cell.IsUnsent (cell : Cell σ α) (hasReceiver : Bool) : Prop where
  works : cell.stage.job?.isSome = true
  message : cell.channel.message = none
  receiver : cell.channel.hasReceiver = hasReceiver

/-- The worker has done everything but leave. -/
def Stage.IsSpent (stage : Stage σ α) : Prop := stage = .leaving ∨ stage = .ended

/-- Every failure is in one of these lists of events once its job has ended and its task has been
dropped. In the last of them it is never offered. -/
inductive Handover (origin : String) (cause : Failure) : List Event → Prop
  | found : Handover origin cause [.sent cause, .collected, .offered origin cause, .closed]
  | returned : Handover origin cause [.collected, .closed, .sent cause, .offered origin cause]
  | lost : Handover origin cause [.collected, .sent cause, .closed]

theorem Handover.cause_eq {origin : String} {cause other : Failure} {events : List Event}
    (handover : Handover origin other events) (sent : .sent cause ∈ events) : other = cause := by
  cases handover <;> simpa [eq_comm] using sent

/-- How far a task has come that its owner drops. -/
inductive Dropping (task : Nat) (origin : String) : List Event → Plan σ α Unit → Cell σ α → Prop
  | unsent {cell : Cell σ α} (unsent : cell.IsUnsent true) :
      Dropping task origin [] (.drop task) cell
  | sent {cell : Cell σ α} {cause : Failure} (spent : cell.stage.IsSpent)
      (message : cell.channel.message = some (.error cause)) :
      Dropping task origin [.sent cause] (.drop task) cell
  | collected {cell : Cell σ α} (unsent : cell.IsUnsent true) :
      Dropping task origin [.collected] (.close task (.done ())) cell
  | found {cell : Cell σ α} {cause : Failure} (spent : cell.stage.IsSpent) :
      Dropping task origin [.sent cause, .collected, .offered origin cause]
        (.close task (.done ())) cell
  | missed {cell : Cell σ α} {cause : Failure} (spent : cell.stage.IsSpent) :
      Dropping task origin [.collected, .sent cause] (.close task (.done ())) cell
  | closed {cell : Cell σ α} (unsent : cell.IsUnsent false) :
      Dropping task origin [.collected, .closed] (.done ()) cell
  | returned {cell : Cell σ α} {cause : Failure} (offering : cell.stage = .offering cause) :
      Dropping task origin [.collected, .closed, .sent cause] (.done ()) cell
  | handedOver {cell : Cell σ α} {cause : Failure} {events : List Event}
      (handover : Handover origin cause events) (spent : cell.stage.IsSpent) :
      Dropping task origin events (.done ()) cell
  | other {cell : Cell σ α} {events : List Event} {plan : Plan σ α Unit}
      (drops : plan = .drop task ∨ plan = .close task (.done ()) ∨ plan = .done ())
      (idle : cell.stage.job? = none) (unsent : ∀ cause, .sent cause ∉ events) :
      Dropping task origin events plan cell

namespace Cell

variable {cell : Cell σ α} {hasReceiver : Bool}

theorem origin_work (cell : Cell σ α) (shared : σ) : (cell.work shared).2.1.origin = cell.origin := by
  obtain ⟨name, stage, message, hasSender, hasReceiver⟩ := cell
  rcases stage with job | (⟨value | cause | payload⟩ | _) | cause | _ | _
  · rfl
  · cases hasReceiver <;> rfl
  · cases hasReceiver <;> rfl
  · rfl
  · rfl
  · rfl
  · rfl
  · rfl

theorem isSpent_work (spent : cell.stage.IsSpent) (shared : σ) :
    (cell.work shared).2.1.stage.IsSpent ∧
      (cell.work shared).2.1.channel.message = cell.channel.message ∧ cell.events = [] := by
  obtain ⟨name, stage, channel⟩ := cell
  rcases spent with rfl | rfl
  · exact ⟨.inr rfl, rfl, rfl⟩
  · exact ⟨.inr rfl, rfl, rfl⟩

theorem idle_work (idle : cell.stage.job? = none) (shared : σ) :
    (cell.work shared).2.1.stage.job? = none ∧ ∀ cause, .sent cause ∉ cell.events := by
  obtain ⟨name, stage, channel⟩ := cell
  cases stage with
  | queued job => cases idle
  | running job => cases idle
  | offering cause => exact ⟨rfl, by simp [events]⟩
  | leaving => exact ⟨rfl, by simp [events]⟩
  | ended => exact ⟨rfl, by simp [events]⟩

/-- A failure arrives in the channel as long as there is a receiver. -/
theorem send_work (unsent : cell.IsUnsent hasReceiver) (shared : σ) :
    (cell.events = [] ∧ (cell.work shared).2.1.IsUnsent hasReceiver) ∨
    (cell.events = [] ∧ (cell.work shared).2.1.stage.job? = none) ∨
    ∃ cause, cell.events = [.sent cause] ∧ match hasReceiver with
      | true => (cell.work shared).2.1.stage.IsSpent ∧
          (cell.work shared).2.1.channel.message = some (.error cause)
      | false => (cell.work shared).2.1.stage = .offering cause := by
  obtain ⟨name, stage, message, hasSender, receiver⟩ := cell
  obtain ⟨works, empty, same⟩ := unsent
  cases same
  cases empty
  cases stage with
  | queued job => exact .inl ⟨rfl, rfl, rfl, rfl⟩
  | running job =>
    rcases job with ⟨value | cause | payload⟩ | ⟨change, next⟩
    · refine .inr (.inl ⟨rfl, ?_⟩)
      cases receiver <;> rfl
    · refine .inr (.inr ⟨cause, rfl, ?_⟩)
      cases receiver
      · exact rfl
      · exact ⟨.inl rfl, rfl⟩
    · exact .inr (.inl ⟨rfl, rfl⟩)
    · exact .inl ⟨rfl, rfl, rfl, rfl⟩
  | offering cause => cases works
  | leaving => cases works
  | ended => cases works

end Cell

namespace Dropping

variable {task : Nat} {origin : String} {events : List Event} {plan : Plan σ α Unit} {cell : Cell σ α}

/-- The worker of the task takes a step. -/
theorem work (dropping : Dropping task cell.origin events plan cell) (shared : σ) :
    Dropping task cell.origin (events ++ cell.events) plan (cell.work shared).2.1 := by
  cases dropping with
  | unsent unsent =>
    rcases Cell.send_work unsent shared with ⟨silent, still⟩ | ⟨silent, idle⟩ | ⟨cause, sent, spent, message⟩
    · rw [silent]
      exact .unsent still
    · rw [silent]
      exact .other (.inl rfl) idle (by simp)
    · rw [sent]
      exact .sent spent message
  | collected unsent =>
    rcases Cell.send_work unsent shared with ⟨silent, still⟩ | ⟨silent, idle⟩ | ⟨cause, sent, spent, _⟩
    · rw [silent]
      exact .collected still
    · rw [silent]
      exact .other (.inr (.inl rfl)) idle (by simp)
    · rw [sent]
      exact .missed spent
  | closed unsent =>
    rcases Cell.send_work unsent shared with ⟨silent, still⟩ | ⟨silent, idle⟩ | ⟨cause, sent, offering⟩
    · rw [silent]
      exact .closed still
    · rw [silent]
      exact .other (.inr (.inr rfl)) idle (by simp)
    · rw [sent]
      exact .returned offering
  | sent spent message =>
    obtain ⟨still, same, silent⟩ := Cell.isSpent_work spent shared
    rw [silent]
    exact .sent still (same.trans message)
  | found spent =>
    obtain ⟨still, _, silent⟩ := Cell.isSpent_work spent shared
    rw [silent]
    exact .found still
  | missed spent =>
    obtain ⟨still, _, silent⟩ := Cell.isSpent_work spent shared
    rw [silent]
    exact .missed still
  | returned offering =>
    obtain ⟨name, stage, channel⟩ := cell
    cases offering
    exact .handedOver .returned (.inl rfl)
  | handedOver handover spent =>
    obtain ⟨still, _, silent⟩ := Cell.isSpent_work spent shared
    rw [silent, List.append_nil]
    exact .handedOver handover still
  | other drops idle unsent =>
    obtain ⟨still, silent⟩ := Cell.idle_work idle shared
    refine .other drops still fun cause member => ?_
    exact (List.mem_append.mp member).elim (unsent cause) (silent cause)

theorem collect (dropping : Dropping task cell.origin events (.drop task) cell) :
    Dropping task cell.origin (events ++ cell.collectEvents) (.close task (.done ()))
      { cell with channel := cell.channel.take.2 } := by
  cases dropping with
  | unsent unsent =>
    rw [Cell.collectEvents, unsent.message]
    exact .collected ⟨unsent.works, rfl, unsent.receiver⟩
  | sent spent message =>
    rw [Cell.collectEvents, message]
    exact .found spent
  | other drops idle unsent =>
    refine .other (.inr (.inl rfl)) idle fun cause member => ?_
    rcases List.mem_append.mp member with member | member
    · exact unsent cause member
    · unfold Cell.collectEvents at member
      split at member <;> simp at member

theorem close (dropping : Dropping task cell.origin events (.close task (.done ())) cell) :
    Dropping task cell.origin (events ++ [.closed]) (.done ())
      { cell with channel := cell.channel.closeReceiver } := by
  cases dropping with
  | collected unsent => exact .closed ⟨unsent.works, rfl, rfl⟩
  | found spent => exact .handedOver .found spent
  | missed spent => exact .handedOver .lost spent
  | other drops idle unsent =>
    refine .other (.inr (.inr rfl)) idle fun cause member => ?_
    rcases List.mem_append.mp member with member | member
    · exact unsent cause member
    · simp at member

theorem plan_eq (dropping : Dropping task origin events plan cell) :
    plan = .drop task ∨ plan = .close task (.done ()) ∨ plan = .done () := by
  cases dropping with
  | unsent | sent => exact .inl rfl
  | collected | found | missed => exact .inr (.inl rfl)
  | closed | returned | handedOver => exact .inr (.inr rfl)
  | other drops => exact drops

/-- The task of the crew has come this far. -/
def Holds (task : Nat) (origin : String) (events : List (Nat × Event))
    (situation : Situation σ α Unit) : Prop :=
  ∃ cell, situation.crew.cells[task]? = some cell ∧ cell.origin = origin ∧
    Dropping task origin (Event.ofTask task events) situation.plan cell

variable {before : Situation σ α Unit} {history : List (Nat × Event)}

theorem holds_owner {next : Plan σ α Unit} {crew : Crew σ α} (holds : Holds task origin history before)
    (moves : before.plan.next? before.crew = some (next, crew)) :
    Holds task origin (history ++ before.plan.events before.crew) ⟨next, crew⟩ := by
  obtain ⟨plan, crew⟩ := before
  obtain ⟨cell, found, rfl, dropping⟩ := holds
  have inside : task < crew.cells.length := (List.getElem?_eq_some_iff.mp found).1
  rcases dropping.plan_eq with same | same | same
  · cases same
    obtain ⟨other, again, moves⟩ := Option.bind_eq_some_iff.mp moves
    obtain rfl := Option.some.inj (found.symm.trans again)
    cases moves
    have happens : (Plan.drop task : Plan σ α Unit).events crew = cell.collectEvents.map (task, ·) := by
      simp only [Plan.events, Plan.drop, found]
    have cells : (crew.collect task cell).cells =
        crew.cells.set task { cell with channel := cell.channel.take.2 } := by
      unfold Crew.collect
      split <;> rfl
    refine ⟨{ cell with channel := cell.channel.take.2 }, ?_, rfl, ?_⟩
    · exact cells ▸ List.getElem?_set_self inside
    · change Dropping task cell.origin
        (Event.ofTask task (history ++ (Plan.drop task : Plan σ α Unit).events crew)) _ _
      rw [happens, Event.ofTask_append, Event.ofTask_same]
      exact dropping.collect
  · cases same
    obtain ⟨other, again, moves⟩ := Option.bind_eq_some_iff.mp moves
    obtain rfl := Option.some.inj (found.symm.trans again)
    cases moves
    refine ⟨_, List.getElem?_set_self inside, rfl, ?_⟩
    rw [Event.ofTask_append]
    change Dropping task cell.origin (_ ++ Event.ofTask task ([Event.closed].map (task, ·))) _ _
    rw [Event.ofTask_same]
    exact dropping.close
  · cases same
    cases moves

theorem holds_worker {number : Nat} {other : Cell σ α} (holds : Holds task origin history before)
    (found : before.crew.cells[number]? = some other) :
    Holds task origin (history ++ other.events.map (number, ·))
      ⟨before.plan, before.crew.work number other⟩ := by
  obtain ⟨cell, there, rfl, dropping⟩ := holds
  have inside : task < before.crew.cells.length := (List.getElem?_eq_some_iff.mp there).1
  by_cases same : number = task
  · subst same
    obtain rfl := Option.some.inj (there.symm.trans found)
    refine ⟨(cell.work before.crew.shared).2.1, ?_, ?_, ?_⟩
    · rw [Crew.cells_work, List.getElem?_set_self inside]
    · exact Cell.origin_work cell before.crew.shared
    · rw [Event.ofTask_append, Event.ofTask_same]
      exact dropping.work before.crew.shared
  · refine ⟨cell, ?_, rfl, ?_⟩
    · rw [Crew.cells_work, List.getElem?_set_ne same]
      exact there
    · rw [Event.ofTask_append, Event.ofTask_other same, List.append_nil]
      exact dropping

end Dropping

namespace Situation

variable {crew : Crew σ α} {task : Nat} {cell : Cell σ α} {events : List (Nat × Event)}
  {last : Situation σ α Unit}

/-- Whatever steps the owner and all the workers have taken, the task has come this far. -/
theorem History.dropping (history : History ⟨.drop task, crew⟩ events last)
    (found : crew.cells[task]? = some cell) (unsent : cell.IsUnsent true) :
    Dropping.Holds task cell.origin events last := by
  induction history with
  | start => exact ⟨cell, found, rfl, .unsent unsent⟩
  | owner earlier moves inductionHypothesis => exact Dropping.holds_owner inductionHypothesis moves
  | worker earlier there allowed inductionHypothesis =>
    exact Dropping.holds_worker inductionHypothesis there

end Situation

/-- A failure of a dropped task is offered exactly once when it is sent before the owner looks into
the channel or after the owner has closed it. In the one order between these it is never offered.
Nothing but these offers reaches the failure slot. -/
theorem Situation.dropped_failure {crew : Crew σ α} {task : Nat} {cell last : Cell σ α}
    {cause : Failure} {events : List (Nat × Event)} {situation : Situation σ α Unit}
    (found : crew.cells[task]? = some cell) (works : cell.stage.job?.isSome = true)
    (opened : cell.channel = .opened) (history : History ⟨.drop task, crew⟩ events situation)
    (dropped : situation.plan = .done ()) (there : situation.crew.cells[task]? = some last)
    (ended : last.stage.isEnded = true) (failed : (task, .sent cause) ∈ events) :
    situation.crew.offers = crew.offers ++ events.filterMap (·.2.offer?) ∧
    Handover cell.origin cause (Event.ofTask task events) ∧
    (Event.ofTask task events).filterMap Event.offer? =
      if Event.ofTask task events = [.collected, .sent cause, .closed] then []
      else [(cell.origin, cause)] := by
  have sent : .sent cause ∈ Event.ofTask task events :=
    List.mem_filterMap.mpr ⟨_, failed, if_pos rfl⟩
  have handover : Handover cell.origin cause (Event.ofTask task events) := by
    obtain ⟨now, again, origin, dropping⟩ :=
      history.dropping found ⟨works, opened ▸ rfl, opened ▸ rfl⟩
    obtain rfl := Option.some.inj (there.symm.trans again)
    rw [dropped] at dropping
    generalize Event.ofTask task events = own at dropping sent
    cases dropping with
    | closed unsent => simp at sent
    | returned offering => simp [offering, Stage.isEnded] at ended
    | handedOver handover spent => exact handover.cause_eq sent ▸ handover
    | other drops idle unsent => exact absurd sent (unsent cause)
  refine ⟨history.offers, handover, ?_⟩
  generalize Event.ofTask task events = own at handover
  cases handover with
  | found => exact (if_neg (by simp)).symm
  | returned => exact (if_neg (by simp)).symm
  | lost => exact (if_pos rfl).symm

/-- One worker has this one job, which fails. -/
def exampleCrew : Crew Unit Unit :=
  (Crew.start 1 ()).submit "Color.class" (.done (.failed (.incompleteConstruction "Color" "idle")))

/-- The only worker goes on with the only job. -/
theorem Situation.History.goesOn {first before : Situation Unit Unit Unit} {events : List (Nat × Event)}
    {cell : Cell Unit Unit} (earlier : first.History events before)
    (found : before.crew.cells[0]? = some cell) (active : cell.stage.isEnded = false)
    (free : before.crew.cells.countP (·.stage.isBusy) < before.crew.size ∨
      cell.stage.isQueued = false) :
    first.History (events ++ cell.events.map (0, ·)) ⟨before.plan, before.crew.work 0 cell⟩ := by
  refine earlier.worker found ⟨active, fun queued => ⟨by simp, ?_⟩⟩
  exact free.resolve_right (by simp [queued])

/-- The worker sends the failure before the owner drops the task. -/
theorem Situation.dropped_failure_example :
    let failure : Failure := .incompleteConstruction "Color" "idle"
    ∃ (events : List (Nat × Event)) (situation : Situation Unit Unit Unit),
      History ⟨.drop 0, exampleCrew⟩ events situation ∧ situation.plan = .done () ∧
      situation.crew.isIdle = true ∧
      Event.ofTask 0 events = [.sent failure, .collected, .offered "Color.class" failure, .closed] ∧
      situation.crew.offers = [("Color.class", failure)] := by
  intro failure
  have taken := (History.start : History ⟨.drop 0, exampleCrew⟩ [] _).goesOn rfl rfl (.inl (by decide))
  have sent := taken.goesOn rfl rfl (.inr rfl)
  have left := sent.goesOn rfl rfl (.inr rfl)
  have looked := left.owner rfl
  have closed := looked.owner rfl
  have offered := dropped_failure rfl rfl rfl closed rfl rfl rfl
    (List.mem_of_getElem? (rfl : _[0]? = some (0, Event.sent failure)))
  exact ⟨_, _, closed, rfl, rfl, rfl, offered.1⟩

/-- The worker sends the failure while the owner drops the task. Nothing is offered then, and the
failure slot stays empty. -/
theorem Situation.dropped_failure_lost :
    let failure : Failure := .incompleteConstruction "Color" "idle"
    ∃ (events : List (Nat × Event)) (situation : Situation Unit Unit Unit),
      History ⟨.drop 0, exampleCrew⟩ events situation ∧ situation.plan = .done () ∧
      situation.crew.isIdle = true ∧
      Event.ofTask 0 events = [.collected, .sent failure, .closed] ∧
      situation.crew.offers = [] ∧ situation.crew.pending.check.1 = .ok () := by
  intro failure
  have taken := (History.start : History ⟨.drop 0, exampleCrew⟩ [] _).goesOn rfl rfl (.inl (by decide))
  have looked := taken.owner rfl
  have sent := looked.goesOn rfl rfl (.inr rfl)
  have closed := sent.owner rfl
  have left := closed.goesOn rfl rfl (.inr rfl)
  exact ⟨_, _, left, rfl, rfl, rfl, rfl, rfl⟩

end EnumNames
