import EnumNames.Proofs.Schedule.Forecast

/-!
What a plan is sure to reach. A plan ensures something under a forecast when following it step by
step, with what is foreseen in place of what the workers deliver, leads there. Main statement: a plan
that ensures something reaches it under every schedule, and no schedule goes on forever or gets
stuck.
-/

namespace EnumNames

variable {σ α β γ : Type}

namespace Activity

/-- No job changes the shared state. -/
def isCalm : Activity σ → Bool
  | .changing _ _ => false
  | _ => true

/-- One more job is at work that leaves the shared state alone. -/
def withReader : Activity σ → Activity σ
  | .resting => .reading
  | activity => activity

end Activity

namespace Stage

variable {stage : Stage σ α} {shared : σ} {task : Expected α} {channel : Channel α}

theorem isStill_of_isEnded (ended : stage.isEnded = true) : stage.IsStill := by
  cases stage with
  | ended => exact fun job same => nomatch same
  | _ => cases ended

/-- A message is what the job has come to. -/
theorem Fits.sent (fits : stage.Fits shared task channel) {message : Except Failure α}
    (there : channel.message = some message) : task.outcome.message? = some message := by
  cases fits with
  | leaving settled sender => exact settled.sent message there
  | ended settled sender => exact settled.sent message there
  | queued comes silent => cases silent.message.symm.trans there
  | running comes silent => cases silent.message.symm.trans there
  | panicked comes silent => cases silent.message.symm.trans there
  | unheard comes silent alone => cases silent.message.symm.trans there

/-- Whoever waits for a task gets what the task comes to, and a lost task has panicked. -/
theorem Fits.receive (fits : stage.Fits shared task channel) (owned : task.isOwned = true)
    {origin : String} {result : Except Failure α} (received : channel.receive origin = some result) :
    result = task.outcome.awaited origin := by
  have waits (silent : channel.Awaits task) : channel.receive origin = none := by
    simp [Channel.receive, silent.message, silent.sender]
  unfold Channel.receive at received
  split at received
  · rename_i message there
    obtain rfl := Option.some.inj received
    exact (Outcome.awaited_of_message? (fits.sent there) origin).symm
  · rename_i empty
    split at received
    · cases received
    · rename_i alone
      obtain rfl := Option.some.inj received
      cases fits with
      | ended settled sender =>
        exact (Outcome.awaited_of_silent ((settled.untouched owned).symm.trans empty) origin).symm
      | leaving settled sender => exact absurd sender alone
      | queued comes silent => exact absurd silent.sender alone
      | running comes silent => exact absurd silent.sender alone
      | panicked comes silent => exact absurd silent.sender alone
      | unheard comes silent unowned => exact absurd silent.sender alone

/-- Nobody waits for a job that has ended. -/
theorem Fits.isSome_receive (fits : stage.Fits shared task channel) (ended : stage.isEnded = true)
    (origin : String) : (channel.receive origin).isSome = true := by
  cases fits with
  | ended settled sender =>
    unfold Channel.receive
    split
    · rfl
    · rw [sender]
      rfl
  | _ => cases ended

/-- A channel that its owner has emptied fits a task that nobody owns. -/
theorem Fits.letGo (fits : stage.Fits shared task channel) {emptied : Channel α}
    (empty : emptied.message = none) (same : emptied.hasSender = channel.hasSender) :
    stage.Fits shared { task with isOwned := false } emptied := by
  have silent (before : channel.Awaits task) : emptied.Awaits { task with isOwned := false } :=
    ⟨empty, same.trans before.sender, fun owned => nomatch owned⟩
  have settled : emptied.Settled { task with isOwned := false } :=
    ⟨(fun owned => nomatch owned), fun message there => nomatch empty.symm.trans there⟩
  cases fits with
  | queued comes before => exact .queued comes (silent before)
  | running comes before => exact .running comes (silent before)
  | panicked comes before => exact .panicked comes (silent before)
  | unheard comes before alone => exact .unheard comes (silent before) rfl
  | leaving before sender => exact .leaving settled (same.trans sender)
  | ended before sender => exact .ended settled (same.trans sender)

end Stage

/-- An item of an extended list is an item of the list or the new one at its end. -/
theorem getElem?_concat {ι : Type} {items : List ι} {place : Nat} {value item : ι}
    (there : (items ++ [value])[place]? = some item) :
    items[place]? = some item ∨ place = items.length ∧ item = value := by
  rw [List.getElem?_append] at there
  split at there
  · exact .inl there
  · rw [List.getElem?_singleton] at there
    split at there
    · rename_i behind last
      exact .inr ⟨by omega, (Option.some.inj there).symm⟩
    · cases there

namespace Forecast

def release (forecast : Forecast σ α) (task : Nat) : Forecast σ α :=
  { forecast with
    tasks := forecast.tasks.modify task fun expected => { expected with isOwned := false } }

def expect (forecast : Forecast σ α) (origin : String) (outcome : Outcome α) : Forecast σ α :=
  { forecast with
    tasks := forecast.tasks ++ [⟨origin, outcome, true⟩]
    activity := forecast.activity.withReader }

/-- One job may change the shared state while others leave it alone. -/
def change (forecast : Forecast σ α) (origin : String) (job : Process σ (Outcome α)) :
    Forecast σ α where
  tasks := forecast.tasks ++ [⟨origin, (job.run forecast.last).1, true⟩]
  last := (job.run forecast.last).2
  activity := .changing forecast.tasks.length (job.Visits forecast.last)

inductive Admits (forecast : Forecast σ α) (origin : String) :
    Process σ (Outcome α) → Forecast σ α → Prop
  | reader (outcome : Outcome α) :
      forecast.Admits origin (.done outcome) (forecast.expect origin outcome)
  | changer {job : Process σ (Outcome α)} (calm : forecast.activity.isCalm = true) :
      forecast.Admits origin job (forecast.change origin job)

variable {forecast : Forecast σ α} {crew : Crew σ α} {number : Nat} {cell : Cell σ α}

theorem Fits.calm (fits : forecast.Fits crew) (calm : forecast.activity.isCalm = true) :
    (∀ cell ∈ crew.cells, cell.stage.IsStill) ∧ crew.shared = forecast.last := by
  obtain ⟨tasks, last, activity⟩ := forecast
  cases activity with
  | resting =>
    exact ⟨fun cell member => Stage.isStill_of_isEnded (fits.activity.1 cell member), fits.activity.2⟩
  | reading => exact fits.activity
  | changing task seen => cases calm

/-- The owner may change the state when no job does. -/
theorem Fits.change (fits : forecast.Fits crew) (calm : forecast.activity.isCalm = true)
    (operation : σ → σ) : Fits { forecast with last := operation forecast.last }
      { crew with shared := operation crew.shared } := by
  obtain ⟨still, same⟩ := fits.calm calm
  refine ⟨fits.length, fun place other task there foreseen => ?_, fits.quiet, ?_⟩
  · exact Cell.fits_of_isStill (still other (List.mem_of_getElem? there))
      (fits.cells place other task there foreseen) _
  · obtain ⟨tasks, last, activity⟩ := forecast
    cases activity with
    | resting => exact ⟨fits.activity.1, congrArg operation same⟩
    | reading => exact ⟨fits.activity.1, congrArg operation same⟩
    | changing task seen => cases calm

/-- The new cell fits the new task, and all other cells fit as before. -/
theorem Fits.cells_submit (fits : forecast.Fits crew) {origin : String}
    {job : Process σ (Outcome α)} {outcome : Outcome α} (comes : (job.run crew.shared).1 = outcome)
    {place : Nat} {other : Cell σ α} {task : Expected α}
    (there : (crew.submit origin job).cells[place]? = some other)
    (foreseen : (forecast.tasks ++ [⟨origin, outcome, true⟩])[place]? = some task) :
    other.Fits crew.shared task := by
  rcases getElem?_concat there with there | ⟨last, rfl⟩ <;>
    rcases getElem?_concat foreseen with foreseen | ⟨also, rfl⟩
  · exact fits.cells place other task there foreseen
  · have inside := (List.getElem?_eq_some_iff.mp there).1
    rw [fits.length] at inside
    omega
  · have inside := (List.getElem?_eq_some_iff.mp foreseen).1
    rw [← fits.length] at inside
    omega
  · subst comes
    exact Cell.fits_submitted origin

theorem Activity.Fits.submitReader {activity : Activity σ} {last : σ}
    (fits : activity.Fits crew last) (origin : String) (outcome : Outcome α) :
    activity.withReader.Fits (crew.submit origin (.done outcome)) last := by
  have reader : (Cell.submitted (σ := σ) origin (.done outcome)).stage.IsStill := by
    intro job same
    exact ⟨outcome, (Option.some.inj same).symm⟩
  have onlyReaders (still : ∀ cell ∈ crew.cells, cell.stage.IsStill) :
      ∀ cell ∈ (crew.submit origin (.done outcome)).cells, cell.stage.IsStill := by
    intro cell member
    rcases List.mem_append.mp member with member | member
    · exact still cell member
    · obtain rfl := List.mem_singleton.mp member
      exact reader
  cases activity with
  | resting => exact ⟨onlyReaders fun cell member => Stage.isStill_of_isEnded (fits.1 cell member), fits.2⟩
  | reading => exact ⟨onlyReaders fits.1, fits.2⟩
  | changing task seen =>
    obtain ⟨still, changer, there, future, visits⟩ := fits
    refine ⟨fun place cell different found => ?_, changer, ?_, future, visits⟩
    · rcases getElem?_concat found with found | ⟨_, rfl⟩
      · exact still place cell different found
      · exact reader
    · exact (List.getElem?_append_left (List.getElem?_eq_some_iff.mp there).1).trans there

theorem Fits.submit (fits : forecast.Fits crew) {origin : String} {job : Process σ (Outcome α)}
    {after : Forecast σ α} (admits : forecast.Admits origin job after) :
    after.Fits (crew.submit origin job) := by
  have length (task : Expected α) :
      (crew.submit origin job).cells.length = (forecast.tasks ++ [task]).length := by
    simp [Crew.submit, fits.length]
  have quiet {task : Expected α}
      (finished : ∀ other ∈ forecast.tasks ++ [task], other.outcome.isFinished = true) :
      crew.pending = .empty :=
    fits.quiet fun other member => finished other (List.mem_append_left _ member)
  cases admits with
  | reader outcome =>
    refine ⟨length _, fun place other task there foreseen => fits.cells_submit rfl there foreseen,
      quiet, ?_⟩
    exact Activity.Fits.submitReader fits.activity origin outcome
  | changer calm =>
    obtain ⟨still, same⟩ := fits.calm calm
    refine ⟨length _, fun place other task there foreseen => ?_, quiet, ?_, ?_⟩
    · exact fits.cells_submit (congrArg (fun state => (job.run state).1) same) there foreseen
    · intro place cell different found
      rcases getElem?_concat found with found | ⟨last, _⟩
      · exact still cell (List.mem_of_getElem? found)
      · exact absurd (last.trans fits.length) different
    · refine ⟨.submitted origin job, ?_, ?_, fun state visited => ?_⟩
      · rw [← fits.length]
        exact List.getElem?_concat_length
      · exact congrArg (fun state => (job.run state).2) same
      · rw [← same]
        exact visited

/-- Another channel changes no stage. -/
theorem stage_of_replace (found : crew.cells[number]? = some cell) {channel : Channel α}
    {place : Nat} {other : Cell σ α}
    (there : (crew.replace number { cell with channel }).cells[place]? = some other) :
    ∃ before, crew.cells[place]? = some before ∧ before.stage = other.stage := by
  rw [Crew.replace, List.getElem?_set] at there
  split at there
  · rename_i same
    subst same
    split at there
    · obtain rfl := Option.some.inj there
      exact ⟨cell, found, rfl⟩
    · cases there
  · exact ⟨other, there, rfl⟩

/-- Whether the owner has let go of a task does not matter to what the jobs do to the state. -/
theorem Activity.Fits.replace {activity : Activity σ} {last : σ} (fits : activity.Fits crew last)
    (found : crew.cells[number]? = some cell) (channel : Channel α) :
    activity.Fits (crew.replace number { cell with channel }) last := by
  have inside : number < crew.cells.length := (List.getElem?_eq_some_iff.mp found).1
  have each (holds : Stage σ α → Prop) (all : ∀ cell ∈ crew.cells, holds cell.stage) :
      ∀ other ∈ (crew.replace number { cell with channel }).cells, holds other.stage := by
    intro other member
    obtain ⟨place, there⟩ := List.mem_iff_getElem?.mp member
    obtain ⟨before, there, same⟩ := stage_of_replace found there
    exact same ▸ all before (List.mem_of_getElem? there)
  cases activity with
  | resting => exact ⟨each (fun stage => stage.isEnded = true) fits.1, fits.2⟩
  | reading => exact ⟨each Stage.IsStill fits.1, fits.2⟩
  | changing task seen =>
    obtain ⟨still, changer, there, future, visits⟩ := fits
    refine ⟨fun place other different at_ => ?_, ?_⟩
    · obtain ⟨before, at_, same⟩ := stage_of_replace found at_
      exact same ▸ still place before different at_
    · by_cases same : number = task
      · subst same
        obtain rfl := Option.some.inj (found.symm.trans there)
        exact ⟨_, List.getElem?_set_self inside, future, visits⟩
      · exact ⟨changer, (List.getElem?_set_ne same).trans there, future, visits⟩

theorem getElem?_release {place : Nat} {task : Expected α} :
    (forecast.release number).tasks[place]? = some task ↔ ∃ before,
      forecast.tasks[place]? = some before ∧
      task = if number = place then { before with isOwned := false } else before := by
  simp only [release, List.getElem?_modify, Option.map_eq_map, Option.map_eq_some_iff]
  constructor
  · rintro ⟨before, there, rfl⟩
    exact ⟨before, there, by split <;> rfl⟩
  · rintro ⟨before, there, rfl⟩
    exact ⟨before, there, by split <;> rfl⟩

theorem finished_of_release
    (finished : ∀ task ∈ (forecast.release number).tasks, task.outcome.isFinished = true) :
    ∀ task ∈ forecast.tasks, task.outcome.isFinished = true := by
  intro task member
  obtain ⟨place, there⟩ := List.mem_iff_getElem?.mp member
  have released : (forecast.release number).tasks[place]? = some _ :=
    getElem?_release.mpr ⟨task, there, rfl⟩
  have done := finished _ (List.mem_of_getElem? released)
  split at done <;> exact done

/-- When all jobs have ended, the shared state is the last one. -/
theorem Fits.rest (fits : forecast.Fits crew) (idle : crew.isIdle = true) :
    Fits { forecast with activity := .resting } crew := by
  have ended := List.all_eq_true.mp idle
  refine ⟨fits.length, fits.cells, fits.quiet, ended, ?_⟩
  obtain ⟨tasks, last, activity⟩ := forecast
  cases activity with
  | resting => exact fits.activity.2
  | reading => exact fits.activity.2
  | changing task seen =>
    obtain ⟨still, changer, there, future, visits⟩ := fits.activity
    have finished := ended changer (List.mem_of_getElem? there)
    cases same : changer.stage with
    | ended =>
      rw [same] at future
      exact future
    | _ =>
      rw [same] at finished
      cases finished

/-- A task whose channel the owner empties is no longer owned. -/
theorem Fits.letGo (fits : forecast.Fits crew) (found : crew.cells[number]? = some cell)
    {channel : Channel α} (empty : channel.message = none)
    (same : channel.hasSender = cell.channel.hasSender) :
    (forecast.release number).Fits (crew.replace number { cell with channel }) := by
  refine ⟨?_, fun place other task there foreseen => ?_, ?_, ?_⟩
  · simp [Crew.replace, release, fits.length]
  · obtain ⟨before, expected, rfl⟩ := getElem?_release.mp foreseen
    rw [Crew.replace, List.getElem?_set] at there
    split at there
    · rename_i here
      subst here
      split at there
      · obtain rfl := Option.some.inj there
        have fit := fits.cells number cell before found expected
        rw [if_pos rfl]
        exact ⟨fit.origin, fit.stage.letGo empty same⟩
      · cases there
    · rename_i elsewhere
      rw [if_neg elsewhere]
      exact fits.cells place other before there expected
  · exact fun finished => fits.quiet (finished_of_release finished)
  · exact Activity.Fits.replace fits.activity found channel

@[simp] theorem size_collect (crew : Crew σ α) (number : Nat) (cell : Cell σ α) :
    (crew.collect number cell).size = crew.size := by
  unfold Crew.collect
  split <;> rfl

/-- What the owner collects is only offered when it is a failure. -/
theorem Fits.collect (fits : forecast.Fits crew) (found : crew.cells[number]? = some cell) :
    (forecast.release number).Fits (crew.collect number cell) := by
  have taken : (forecast.release number).Fits (crew.take number cell) := fits.letGo found rfl rfl
  unfold Crew.collect
  split
  · rename_i cause there
    refine ⟨taken.length, taken.cells, fun finished => ?_, ?_⟩
    · obtain ⟨task, foreseen, fit⟩ := fits.exists_task found
      have sent := fit.stage.sent there
      have done := finished_of_release finished task (List.mem_of_getElem? foreseen)
      obtain ⟨origin, outcome, owned⟩ := task
      cases outcome with
      | finished value => cases sent
      | failed found => cases done
      | panicked payload => cases done
    · exact Activity.Fits.replace fits.activity found _
  · exact taken

end Forecast

namespace Plan

/-- Followed under the forecast, the plan ends with a value and a forecast as wanted. While a job
may change the state, the owner only looks at it, and goes on from whatever it may see. -/
def Ensures : Plan σ α β → Forecast σ α → (β → Forecast σ α → Prop) → Prop
  | .done value, forecast, wanted => wanted value forecast
  | .act change next, forecast, wanted =>
    match forecast.activity with
    | .changing _ seen =>
      ∀ state, seen state → change state = state ∧ (next state).Ensures forecast wanted
    | _ => (next forecast.last).Ensures { forecast with last := change forecast.last } wanted
  | .submit origin job next, forecast, wanted =>
    ∃ after, forecast.Admits origin job after ∧ (next forecast.tasks.length).Ensures after wanted
  | .receive task next, forecast, wanted =>
    ∃ expected, forecast.tasks[task]? = some expected ∧ expected.isOwned = true ∧
      (next (expected.outcome.awaited expected.origin)).Ensures (forecast.release task) wanted
  | .collect task next, forecast, wanted | .close task next, forecast, wanted =>
    task < forecast.tasks.length ∧ next.Ensures (forecast.release task) wanted
  | .join next, forecast, wanted => next.Ensures { forecast with activity := .resting } wanted
  | .check next, forecast, wanted =>
    (∀ task ∈ forecast.tasks, task.outcome.isFinished = true) ∧
      (next (.ok ())).Ensures forecast wanted

variable {plan : Plan σ α β} {forecast : Forecast σ α} {crew : Crew σ α}
  {wanted : β → Forecast σ α → Prop}

/-- A plan that goes on with another one ensures what that one ensures under any forecast it may
meet. -/
theorem Ensures.bind {second : β → Plan σ α γ} {hoped : γ → Forecast σ α → Prop}
    (ensures : plan.Ensures forecast wanted)
    (each : ∀ value after, wanted value after → (second value).Ensures after hoped) :
    (plan >>= second).Ensures forecast hoped := by
  change (plan.bind second).Ensures forecast hoped
  induction plan generalizing forecast with
  | done value => exact each value forecast ensures
  | act change next inductionHypothesis =>
    obtain ⟨tasks, last, activity⟩ := forecast
    cases activity with
    | changing task seen =>
      intro state visited
      obtain ⟨unchanged, rest⟩ := ensures state visited
      exact ⟨unchanged, inductionHypothesis state rest⟩
    | resting => exact inductionHypothesis last ensures
    | reading => exact inductionHypothesis last ensures
  | submit origin job next inductionHypothesis =>
    obtain ⟨after, admits, rest⟩ := ensures
    exact ⟨after, admits, inductionHypothesis _ rest⟩
  | receive task next inductionHypothesis =>
    obtain ⟨expected, there, owned, rest⟩ := ensures
    exact ⟨expected, there, owned, inductionHypothesis _ rest⟩
  | collect task next inductionHypothesis => exact ⟨ensures.1, inductionHypothesis ensures.2⟩
  | close task next inductionHypothesis => exact ⟨ensures.1, inductionHypothesis ensures.2⟩
  | join next inductionHypothesis => exact inductionHypothesis ensures
  | check next inductionHypothesis => exact ⟨ensures.1, inductionHypothesis _ ensures.2⟩

theorem bind_done (plan : Plan σ α β) : plan.bind .done = plan := by
  induction plan with
  | done value => rfl
  | act change next inductionHypothesis => simp [Plan.bind, inductionHypothesis]
  | submit origin job next inductionHypothesis => simp [Plan.bind, inductionHypothesis]
  | receive task next inductionHypothesis => simp [Plan.bind, inductionHypothesis]
  | collect task next inductionHypothesis => simp [Plan.bind, inductionHypothesis]
  | close task next inductionHypothesis => simp [Plan.bind, inductionHypothesis]
  | join next inductionHypothesis => simp [Plan.bind, inductionHypothesis]
  | check next inductionHypothesis => simp [Plan.bind, inductionHypothesis]

theorem Ensures.imp {hoped : β → Forecast σ α → Prop} (ensures : plan.Ensures forecast wanted)
    (each : ∀ value after, wanted value after → hoped value after) : plan.Ensures forecast hoped := by
  rw [← plan.bind_done]
  exact Ensures.bind ensures each

/-- The owner's steps are taken sooner or later: the workers have only finitely many steps before
the next one, and when all of them are done the owner is not stopped. -/
theorem inevitable_of_next {goal : Situation σ α β → Prop}
    (moves : ∀ crew, forecast.Fits crew → crew.isIdle = true → (plan.next? crew).isSome = true)
    (each : ∀ crew next after, 0 < crew.size → forecast.Fits crew →
      plan.next? crew = some (next, after) → Inevitable Situation.Step goal ⟨next, after⟩)
    (positive : 0 < crew.size) (fits : forecast.Fits crew) :
    Inevitable Situation.Step goal ⟨plan, crew⟩ := by
  induction left : crew.remaining using Nat.strongRecOn generalizing crew with
  | _ left_ inductionHypothesis =>
    refine .ahead ?_ ?_
    · cases idle : crew.isIdle with
      | true =>
        obtain ⟨⟨next, after⟩, same⟩ := Option.isSome_iff_exists.mp (moves crew fits idle)
        exact ⟨_, .owner same⟩
      | false =>
        obtain ⟨next, step⟩ := Crew.exists_step positive idle
        exact ⟨_, .worker step⟩
    · intro situation step
      cases step with
      | owner same => exact each crew _ _ positive fits same
      | worker step =>
        obtain ⟨still, less, size⟩ := fits.step step
        exact inductionHypothesis _ (left ▸ less) (size ▸ positive) still rfl

/-- A plan reaches what it ensures, whichever order the workers and the owner take their steps in. -/
theorem Ensures.inevitable (ensures : plan.Ensures forecast wanted) (positive : 0 < crew.size)
    (fits : forecast.Fits crew) : Inevitable Situation.Step (fun situation => ∃ value after,
      situation.plan = .done value ∧ after.Fits situation.crew ∧ wanted value after)
      ⟨plan, crew⟩ := by
  induction plan generalizing forecast crew with
  | done value => exact .reached ⟨value, forecast, rfl, fits, ensures⟩
  | act change next inductionHypothesis =>
    refine inevitable_of_next (fun crew _ _ => rfl) (fun crew plan after positive fits same => ?_)
      positive fits
    obtain ⟨rfl, rfl⟩ := Prod.mk.inj (Option.some.inj same)
    obtain ⟨tasks, last, activity⟩ := forecast
    cases activity with
    | changing task seen =>
      obtain ⟨still, changer, there, future, visits⟩ := fits.activity
      have visited : seen crew.shared := by
        refine visits _ ?_
        unfold Stage.Visits
        split
        · exact Process.visits_start _ _
        · rfl
      obtain ⟨unchanged, rest⟩ := ensures crew.shared visited
      rw [unchanged]
      exact inductionHypothesis _ rest positive fits
    | resting =>
      have same : crew.shared = last := fits.activity.2
      rw [same]
      exact inductionHypothesis _ ensures positive (same ▸ fits.change rfl change)
    | reading =>
      have same : crew.shared = last := fits.activity.2
      rw [same]
      exact inductionHypothesis _ ensures positive (same ▸ fits.change rfl change)
  | submit origin job next inductionHypothesis =>
    obtain ⟨admitted, admits, rest⟩ := ensures
    refine inevitable_of_next (fun crew _ _ => rfl) (fun crew plan after positive fits same => ?_)
      positive fits
    obtain ⟨rfl, rfl⟩ := Prod.mk.inj (Option.some.inj same)
    exact inductionHypothesis _ (fits.length ▸ rest) positive (fits.submit admits)
  | receive task next inductionHypothesis =>
    obtain ⟨expected, foreseen, owned, rest⟩ := ensures
    refine inevitable_of_next (fun crew fits idle => ?_)
      (fun crew plan after positive fits same => ?_) positive fits
    · obtain ⟨cell, found, fit⟩ := fits.exists_cell foreseen
      have ended := List.all_eq_true.mp idle cell (List.mem_of_getElem? found)
      obtain ⟨result, received⟩ :=
        Option.isSome_iff_exists.mp (fit.stage.isSome_receive ended cell.origin)
      simp [next?, found, received]
    · obtain ⟨cell, found, fit⟩ := fits.exists_cell foreseen
      simp only [next?, found, Option.bind_eq_bind, Option.bind_some, Option.bind_eq_some_iff,
        Option.pure_def, Option.some.injEq, Prod.mk.injEq] at same
      obtain ⟨result, received, rfl, rfl⟩ := same
      rw [fit.stage.receive owned received, fit.origin]
      exact inductionHypothesis _ rest positive (fits.letGo found rfl rfl)
  | collect task next inductionHypothesis =>
    obtain ⟨inside, rest⟩ := ensures
    refine inevitable_of_next (fun crew fits _ => ?_)
      (fun crew plan after positive fits same => ?_) positive fits
    · simp [next?, fits.length, inside]
    · simp only [next?, Option.bind_eq_bind, Option.bind_eq_some_iff, Option.pure_def,
        Option.some.injEq, Prod.mk.injEq] at same
      obtain ⟨cell, found, rfl, rfl⟩ := same
      exact inductionHypothesis rest ((Forecast.size_collect crew task cell).symm ▸ positive) (fits.collect found)
  | close task next inductionHypothesis =>
    obtain ⟨inside, rest⟩ := ensures
    refine inevitable_of_next (fun crew fits _ => ?_)
      (fun crew plan after positive fits same => ?_) positive fits
    · simp [next?, fits.length, inside]
    · simp only [next?, Option.bind_eq_bind, Option.bind_eq_some_iff, Option.pure_def,
        Option.some.injEq, Prod.mk.injEq] at same
      obtain ⟨cell, found, rfl, rfl⟩ := same
      exact inductionHypothesis rest positive (fits.letGo found rfl rfl)
  | join next inductionHypothesis =>
    refine inevitable_of_next (fun crew fits idle => ?_)
      (fun crew plan after positive fits same => ?_) positive fits
    · simp [next?, idle]
    · simp only [next?, Option.ite_none_right_eq_some, Option.some.injEq, Prod.mk.injEq] at same
      obtain ⟨idle, rfl, rfl⟩ := same
      exact inductionHypothesis ensures positive (fits.rest idle)
  | check next inductionHypothesis =>
    obtain ⟨finished, rest⟩ := ensures
    refine inevitable_of_next (fun crew fits _ => rfl)
      (fun crew plan after positive fits same => ?_) positive fits
    obtain ⟨rfl, rfl⟩ := Prod.mk.inj (Option.some.inj same)
    have quiet := fits.quiet finished
    rw [quiet]
    exact inductionHypothesis _ rest positive ⟨fits.length, fits.cells, fun _ => rfl, fits.activity⟩

end Plan

end EnumNames
