import EnumNames.Schedule.Plan
import Mathlib.Algebra.GroupWithZero.Nat
import Mathlib.Data.List.Basic

/-!
What is known of a crew at work, whichever steps its workers have taken. A forecast tells what will
come of every task and where the shared state ends up. Main statement: a step of a worker keeps the
forecast, and there are only finitely many such steps.
-/

namespace EnumNames

variable {σ α β : Type}

namespace Process

/-- The state that the process finds or makes at one of its steps, when it is alone with the state. -/
def Visits : Process σ α → σ → σ → Prop
  | .done _, state, seen => seen = state
  | .act change next, state, seen => seen = state ∨ (next state).Visits (change state) seen

/-- The process takes no step on the state. -/
def IsStill (process : Process σ α) : Prop := ∃ value, process = .done value

theorem visits_start (process : Process σ α) (state : σ) : process.Visits state state := by
  cases process with
  | done value => rfl
  | act change next => exact .inl rfl

theorem visits_run (process : Process σ α) (state : σ) :
    process.Visits state (process.run state).2 := by
  induction process generalizing state with
  | done value => rfl
  | act change next inductionHypothesis => exact .inr (inductionHypothesis state (change state))

theorem run_bind (first : Process σ α) (second : α → Process σ β) (state : σ) :
    (first >>= second).run state = (second (first.run state).1).run (first.run state).2 := by
  change (first.bind second).run state = _
  induction first generalizing state with
  | done value => rfl
  | act change next inductionHypothesis => exact inductionHypothesis state (change state)

theorem visits_bind {first : Process σ α} {second : α → Process σ β} {state seen : σ} :
    (first >>= second).Visits state seen ↔ first.Visits state seen ∨
      (second (first.run state).1).Visits (first.run state).2 seen := by
  change (first.bind second).Visits state seen ↔ _
  induction first generalizing state with
  | done value =>
    constructor
    · exact .inr
    · rintro (rfl | visits)
      · exact visits_start _ _
      · exact visits
  | act change next inductionHypothesis =>
    exact (or_congr_right (inductionHypothesis state)).trans or_assoc.symm

end Process

namespace Outcome

/-- A panic sends no message. -/
def message? : Outcome α → Option (Except Failure α)
  | .finished value => some (.ok value)
  | .failed cause => some (.error cause)
  | .panicked _ => none

def isFinished : Outcome α → Bool
  | .finished _ => true
  | _ => false

theorem awaited_of_message? {outcome : Outcome α} {message : Except Failure α}
    (sent : outcome.message? = some message) (origin : String) :
    outcome.awaited origin = message := by
  cases outcome with
  | finished value => exact Option.some.inj sent
  | failed cause => exact Option.some.inj sent
  | panicked payload => cases sent

theorem awaited_of_silent {outcome : Outcome α} (silent : outcome.message? = none)
    (origin : String) : outcome.awaited origin = .error (.taskLost origin) := by
  cases outcome with
  | finished value => cases silent
  | failed cause => cases silent
  | panicked payload => rfl

end Outcome

/-- This is what is foreseen for one task. -/
structure Expected (α : Type) where
  origin : String
  outcome : Outcome α
  isOwned : Bool

namespace Channel

/-- The worker has not sent anything yet. -/
structure Awaits (channel : Channel α) (task : Expected α) : Prop where
  message : channel.message = none
  sender : channel.hasSender = true
  receiver : task.isOwned = true → channel.hasReceiver = true

/-- The worker has sent what there was to send, and nothing is missing before the owner takes it. -/
structure Settled (channel : Channel α) (task : Expected α) : Prop where
  untouched : task.isOwned = true → channel.message = task.outcome.message?
  sent : ∀ message, channel.message = some message → task.outcome.message? = some message

end Channel

namespace Stage

def job? : Stage σ α → Option (Process σ (Outcome α))
  | .queued job | .running job => some job
  | _ => none

/-- The job takes no step on the state, or none any more. -/
def IsStill (stage : Stage σ α) : Prop := ∀ job, stage.job? = some job → job.IsStill

/-- This is the state that the job leaves behind when nobody disturbs it. -/
def future (stage : Stage σ α) (shared : σ) : σ :=
  match stage.job? with
  | some job => (job.run shared).2
  | none => shared

def Visits (stage : Stage σ α) (shared seen : σ) : Prop :=
  match stage.job? with
  | some job => job.Visits shared seen
  | none => seen = shared

/-- This bounds the steps that a worker still takes for the job. -/
def remaining : Stage σ α → σ → Nat
  | .queued job, shared => job.steps shared + 4
  | .running job, shared => job.steps shared + 3
  | .offering _, _ => 2
  | .leaving, _ => 1
  | .ended, _ => 0

theorem isEnded_of_isQueued {stage : Stage σ α} (queued : stage.isQueued = true) :
    stage.isEnded = false := by
  cases stage with
  | ended => cases queued
  | _ => rfl

/-- The job comes to what is foreseen, and the channel is as the stage of the job wants it. -/
inductive Fits (shared : σ) (task : Expected α) : Stage σ α → Channel α → Prop
  | queued {job : Process σ (Outcome α)} {channel : Channel α}
      (comes : (job.run shared).1 = task.outcome) (silent : channel.Awaits task) :
      Fits shared task (.queued job) channel
  | running {job : Process σ (Outcome α)} {channel : Channel α}
      (comes : (job.run shared).1 = task.outcome) (silent : channel.Awaits task) :
      Fits shared task (.running job) channel
  | panicked {payload : PanicPayload} {channel : Channel α}
      (comes : task.outcome = .panicked payload) (silent : channel.Awaits task) :
      Fits shared task (.offering (.workerPanic payload.message)) channel
  | unheard {cause : Failure} {channel : Channel α} (comes : task.outcome = .failed cause)
      (silent : channel.Awaits task) (alone : task.isOwned = false) :
      Fits shared task (.offering cause) channel
  | leaving {channel : Channel α} (settled : channel.Settled task)
      (sender : channel.hasSender = true) : Fits shared task .leaving channel
  | ended {channel : Channel α} (settled : channel.Settled task)
      (sender : channel.hasSender = false) : Fits shared task .ended channel

end Stage

namespace Cell

variable {cell : Cell σ α} {shared : σ} {task : Expected α}

structure Fits (cell : Cell σ α) (shared : σ) (task : Expected α) : Prop where
  origin : cell.origin = task.origin
  stage : cell.stage.Fits shared task cell.channel

theorem fits_submitted {job : Process σ (Outcome α)} (origin : String) :
    (Cell.submitted origin job).Fits shared ⟨origin, (job.run shared).1, true⟩ :=
  ⟨rfl, .queued rfl ⟨rfl, rfl, fun _ => rfl⟩⟩

/-- The channel takes the message when somebody is there; otherwise only a failure is left to be
offered. -/
theorem fits_deliver (origin : cell.origin = task.origin) (silent : cell.channel.Awaits task)
    {message : Except Failure α} (comes : task.outcome = .ofExcept message) :
    (cell.deliver message).Fits shared task := by
  have sent : task.outcome.message? = some message := by
    rw [comes]
    cases message <;> rfl
  unfold deliver Channel.send
  split
  · rename_i cause channel returned
    split at returned
    · cases returned
    · rename_i gone
      obtain ⟨same, rfl⟩ := Prod.mk.inj returned
      obtain rfl := Option.some.inj same
      have alone : task.isOwned = false := by
        cases owned : task.isOwned with
        | false => rfl
        | true => exact absurd (silent.receiver owned) gone
      exact ⟨origin, .unheard comes silent alone⟩
  · rename_i returned channel accepted other
    split at other
    · obtain ⟨rfl, rfl⟩ := Prod.mk.inj other
      exact ⟨origin, .leaving ⟨fun _ => sent.symm, fun found same => same ▸ sent⟩ silent.sender⟩
    · rename_i gone
      obtain ⟨rfl, rfl⟩ := Prod.mk.inj other
      refine ⟨origin, .leaving ⟨fun owned => absurd (silent.receiver owned) gone, ?_⟩ silent.sender⟩
      intro found same
      rw [silent.message] at same
      cases same

theorem fits_work (fits : cell.Fits shared task) :
    (cell.work shared).2.1.Fits (cell.work shared).2.2 task := by
  obtain ⟨name, stage, channel⟩ := cell
  obtain ⟨origin, stage⟩ := fits
  cases stage with
  | queued comes silent => exact ⟨origin, .running comes silent⟩
  | @running job _ comes silent =>
    cases job with
    | act change next => exact ⟨origin, .running comes silent⟩
    | done outcome =>
      obtain rfl : outcome = task.outcome := comes
      cases same : task.outcome with
      | finished value =>
        have delivered : (deliver ⟨name, .running (.done task.outcome), channel⟩ (.ok value)).Fits
            shared task := fits_deliver origin silent same
        simpa [work, finish, same] using delivered
      | failed cause =>
        have delivered : (deliver ⟨name, .running (.done task.outcome), channel⟩ (.error cause)).Fits
            shared task := fits_deliver origin silent same
        simpa [work, finish, same] using delivered
      | panicked payload => exact ⟨origin, .panicked same silent⟩
  | panicked comes silent =>
    refine ⟨origin, .leaving ⟨fun _ => ?_, fun message same => ?_⟩ silent.sender⟩
    · rw [comes]
      exact silent.message
    · cases silent.message.symm.trans same
  | unheard comes silent alone =>
    refine ⟨origin, .leaving ⟨fun owned => ?_, fun message same => ?_⟩ silent.sender⟩
    · cases alone.symm.trans owned
    · cases silent.message.symm.trans same
  | leaving settled sender => exact ⟨origin, .ended ⟨settled.untouched, settled.sent⟩ rfl⟩
  | ended settled sender => exact ⟨origin, .ended settled sender⟩

/-- Only what comes to a failure or a panic is ever offered. -/
theorem isFinished_of_offer (fits : cell.Fits shared task) {cause : Failure}
    (offered : (cell.work shared).1 = some cause) : task.outcome.isFinished = false := by
  obtain ⟨name, stage, channel⟩ := cell
  obtain ⟨_, stage⟩ := fits
  cases stage with
  | queued comes silent => cases offered
  | @running job _ comes silent => cases job <;> cases offered
  | panicked comes silent => simp [comes, Outcome.isFinished]
  | unheard comes silent alone => simp [comes, Outcome.isFinished]
  | leaving settled sender => cases offered
  | ended settled sender => cases offered

/-- A job that does nothing to the state does not feel when others change it. -/
theorem fits_of_isStill (still : cell.stage.IsStill) (fits : cell.Fits shared task) (other : σ) :
    cell.Fits other task := by
  obtain ⟨name, stage, channel⟩ := cell
  obtain ⟨origin, stage⟩ := fits
  refine ⟨origin, ?_⟩
  cases stage with
  | queued comes silent =>
    obtain ⟨outcome, rfl⟩ := still _ rfl
    exact .queued comes silent
  | running comes silent =>
    obtain ⟨outcome, rfl⟩ := still _ rfl
    exact .running comes silent
  | panicked comes silent => exact .panicked comes silent
  | unheard comes silent alone => exact .unheard comes silent alone
  | leaving settled sender => exact .leaving settled sender
  | ended settled sender => exact .ended settled sender

theorem remaining_of_isStill (still : cell.stage.IsStill) (shared other : σ) :
    cell.stage.remaining shared = cell.stage.remaining other := by
  obtain ⟨name, stage, channel⟩ := cell
  cases stage with
  | queued job =>
    obtain ⟨outcome, rfl⟩ := still job rfl
    rfl
  | running job =>
    obtain ⟨outcome, rfl⟩ := still job rfl
    rfl
  | offering cause => rfl
  | leaving => rfl
  | ended => rfl

theorem stage_finish (cell : Cell σ α) (outcome : Outcome α) :
    (cell.finish outcome).stage = .leaving ∨ ∃ cause, (cell.finish outcome).stage = .offering cause := by
  have delivered (message : Except Failure α) : (cell.deliver message).stage = .leaving ∨
      ∃ cause, (cell.deliver message).stage = .offering cause := by
    unfold deliver
    split
    · exact .inr ⟨_, rfl⟩
    · exact .inl rfl
  cases outcome with
  | finished value => exact delivered _
  | failed cause => exact delivered _
  | panicked payload => exact .inr ⟨_, rfl⟩

theorem job?_finish (cell : Cell σ α) (outcome : Outcome α) :
    (cell.finish outcome).stage.job? = none := by
  rcases cell.stage_finish outcome with same | ⟨cause, same⟩ <;> rw [same] <;> rfl

theorem remaining_work (active : cell.stage.isEnded = false) :
    (cell.work shared).2.1.stage.remaining (cell.work shared).2.2 < cell.stage.remaining shared := by
  obtain ⟨name, stage, channel⟩ := cell
  cases stage with
  | queued job => exact Nat.lt_succ_self _
  | running job =>
    cases job with
    | act change next => exact Nat.add_lt_add_right (Nat.lt_succ_self _) 3
    | done outcome =>
      change (finish _ outcome).stage.remaining shared < 3
      rcases stage_finish ⟨name, .running (.done outcome), channel⟩ outcome with same | ⟨cause, same⟩
      · rw [same]
        exact (by decide : 1 < 3)
      · rw [same]
        exact Nat.lt_succ_self 2
  | offering cause => exact Nat.lt_succ_self 1
  | leaving => exact Nat.lt_succ_self 0
  | ended => cases active

theorem future_work (cell : Cell σ α) (shared : σ) :
    (cell.work shared).2.1.stage.future (cell.work shared).2.2 = cell.stage.future shared := by
  obtain ⟨name, stage, channel⟩ := cell
  cases stage with
  | running job =>
    cases job with
    | act change next => rfl
    | done outcome =>
      change (finish _ outcome).stage.future shared = shared
      rw [Stage.future, job?_finish]
  | _ => rfl

theorem visits_of_work {seen : σ}
    (visits : (cell.work shared).2.1.stage.Visits (cell.work shared).2.2 seen) :
    cell.stage.Visits shared seen := by
  obtain ⟨name, stage, channel⟩ := cell
  cases stage with
  | running job =>
    cases job with
    | act change next => exact .inr visits
    | done outcome =>
      change (finish _ outcome).stage.Visits shared seen at visits
      rw [Stage.Visits, job?_finish] at visits
      exact visits
  | _ => exact visits

theorem isStill_work (shared : σ) (still : cell.stage.IsStill) :
    (cell.work shared).2.2 = shared ∧ (cell.work shared).2.1.stage.IsStill := by
  obtain ⟨name, stage, channel⟩ := cell
  cases stage with
  | queued job => exact ⟨rfl, still⟩
  | running job =>
    obtain ⟨outcome, rfl⟩ := still job rfl
    refine ⟨rfl, fun job same => ?_⟩
    cases (job?_finish _ outcome).symm.trans same
  | offering cause => exact ⟨rfl, fun job same => nomatch same⟩
  | leaving => exact ⟨rfl, fun job same => nomatch same⟩
  | ended => exact ⟨rfl, fun job same => nomatch same⟩

end Cell

/-- Only one item of a list changes, and its measure gets smaller. -/
theorem sum_map_set_lt {ι : Type} {before after : ι → Nat} {items : List ι} {number : Nat}
    {item value : ι} (found : items[number]? = some item) (less : after value < before item)
    (others : ∀ place other, place ≠ number → items[place]? = some other → after other = before other) :
    ((items.set number value).map after).sum < (items.map before).sum := by
  induction items generalizing number with
  | nil => cases found
  | cons head rest inductionHypothesis =>
    cases number with
    | zero =>
      obtain rfl := Option.some.inj found
      have same : rest.map after = rest.map before := by
        refine List.map_congr_left fun other member => ?_
        obtain ⟨place, at_⟩ := List.mem_iff_getElem?.mp member
        exact others (place + 1) other (Nat.succ_ne_zero place) at_
      rw [List.set_cons_zero, List.map_cons, List.map_cons, List.sum_cons, List.sum_cons, same]
      omega
    | succ number =>
      have smaller := inductionHypothesis found fun place other different at_ =>
        others (place + 1) other (fun same => different (Nat.succ.inj same)) at_
      have same := others 0 head (Nat.zero_ne_add_one number) rfl
      rw [List.set_cons_succ, List.map_cons, List.map_cons, List.sum_cons, List.sum_cons, same]
      omega

namespace Crew

variable {crew : Crew σ α} {number : Nat} {cell : Cell σ α}

/-- This bounds the steps that the workers still take. -/
def remaining (crew : Crew σ α) : Nat :=
  (crew.cells.map fun cell => cell.stage.remaining crew.shared).sum

@[simp] theorem cells_offerAny (crew : Crew σ α) (origin : String) (cause : Option Failure) :
    (crew.offerAny origin cause).cells = crew.cells := by
  cases cause <;> rfl

@[simp] theorem size_offerAny (crew : Crew σ α) (origin : String) (cause : Option Failure) :
    (crew.offerAny origin cause).size = crew.size := by
  cases cause <;> rfl

@[simp] theorem cells_work : (crew.work number cell).cells =
    crew.cells.set number (cell.work crew.shared).2.1 := by
  simp [work, replace]

@[simp] theorem shared_work : (crew.work number cell).shared = (cell.work crew.shared).2.2 := rfl

@[simp] theorem size_work : (crew.work number cell).size = crew.size := by
  simp [work, replace]

theorem pending_work (silent : (cell.work crew.shared).1 = none) :
    (crew.work number cell).pending = crew.pending := by
  simp [work, silent, offerAny, replace]

end Crew

/-- What the jobs do to the shared state: all have ended, none of them changes it, or one of them
does and passes through certain states only. -/
inductive Activity (σ : Type) where
  | resting
  | reading
  | changing (task : Nat) (seen : σ → Prop)

/-- The last state is the one that is left when no job changes it any more. -/
structure Forecast (σ α : Type) where
  tasks : List (Expected α)
  last : σ
  activity : Activity σ

namespace Activity

def Fits (activity : Activity σ) (crew : Crew σ α) (last : σ) : Prop :=
  match activity with
  | .resting => (∀ cell ∈ crew.cells, cell.stage.isEnded = true) ∧ crew.shared = last
  | .reading => (∀ cell ∈ crew.cells, cell.stage.IsStill) ∧ crew.shared = last
  | .changing task seen =>
    (∀ number cell, number ≠ task → crew.cells[number]? = some cell → cell.stage.IsStill) ∧
    ∃ cell, crew.cells[task]? = some cell ∧ cell.stage.future crew.shared = last ∧
      ∀ state, cell.stage.Visits crew.shared state → seen state

end Activity

namespace Forecast

/-- The slot is only used when some task comes to a failure or a panic. -/
structure Fits (forecast : Forecast σ α) (crew : Crew σ α) : Prop where
  length : crew.cells.length = forecast.tasks.length
  cells : ∀ (number : Nat) (cell : Cell σ α) (task : Expected α), crew.cells[number]? = some cell →
    forecast.tasks[number]? = some task → cell.Fits crew.shared task
  quiet : (∀ task ∈ forecast.tasks, task.outcome.isFinished = true) → crew.pending = .empty
  activity : forecast.activity.Fits crew forecast.last

variable {forecast : Forecast σ α} {crew : Crew σ α} {number : Nat} {cell : Cell σ α}

theorem Fits.exists_task (fits : forecast.Fits crew) (found : crew.cells[number]? = some cell) :
    ∃ task, forecast.tasks[number]? = some task ∧ cell.Fits crew.shared task := by
  have inside : number < forecast.tasks.length := by
    rw [← fits.length]
    exact (List.getElem?_eq_some_iff.mp found).1
  have same := List.getElem?_eq_getElem inside
  exact ⟨_, same, fits.cells number cell _ found same⟩

theorem Fits.exists_cell {task : Expected α} (fits : forecast.Fits crew)
    (found : forecast.tasks[number]? = some task) :
    ∃ cell, crew.cells[number]? = some cell ∧ cell.Fits crew.shared task := by
  have inside : number < crew.cells.length := by
    rw [fits.length]
    exact (List.getElem?_eq_some_iff.mp found).1
  have same := List.getElem?_eq_getElem inside
  exact ⟨_, same, fits.cells number _ task same found⟩

/-- While somebody works on a job, the others do nothing to the state. -/
theorem Fits.others (fits : forecast.Fits crew) (found : crew.cells[number]? = some cell)
    (active : cell.stage.isEnded = false) :
    (cell.work crew.shared).2.2 = crew.shared ∨
      ∀ place other, place ≠ number → crew.cells[place]? = some other → other.stage.IsStill := by
  have still_of (still : cell.stage.IsStill) : (cell.work crew.shared).2.2 = crew.shared :=
    (Cell.isStill_work crew.shared still).1
  obtain ⟨tasks, last, activity⟩ := forecast
  cases activity with
  | resting => cases active.symm.trans (fits.activity.1 cell (List.mem_of_getElem? found))
  | reading => exact .inl (still_of (fits.activity.1 cell (List.mem_of_getElem? found)))
  | changing task seen =>
    by_cases same : number = task
    · subst same
      exact .inr fits.activity.1
    · exact .inl (still_of (fits.activity.1 number cell same found))

/-- The cell that a worker has worked on and all other cells still fit. -/
theorem Fits.cells_work (fits : forecast.Fits crew) (found : crew.cells[number]? = some cell)
    (active : cell.stage.isEnded = false) {place : Nat} {other : Cell σ α} {task : Expected α}
    (there : (crew.work number cell).cells[place]? = some other)
    (foreseen : forecast.tasks[place]? = some task) : other.Fits (crew.work number cell).shared task := by
  rw [Crew.cells_work, List.getElem?_set] at there
  rw [Crew.shared_work]
  split at there
  · rename_i same
    subst same
    split at there
    · obtain rfl := Option.some.inj there
      exact Cell.fits_work (fits.cells number cell task found foreseen)
    · cases there
  · rename_i different
    have before := fits.cells place other task there foreseen
    rcases fits.others found active with same | still
    · rwa [same]
    · exact Cell.fits_of_isStill (still place other (Ne.symm different) there) before _

theorem Activity.Fits.work {activity : Activity σ} {last : σ} (fits : activity.Fits crew last)
    (found : crew.cells[number]? = some cell) (active : cell.stage.isEnded = false) :
    activity.Fits (crew.work number cell) last := by
  have inside : number < crew.cells.length := (List.getElem?_eq_some_iff.mp found).1
  cases activity with
  | resting => cases active.symm.trans (fits.1 cell (List.mem_of_getElem? found))
  | reading =>
    obtain ⟨still, same⟩ := fits
    obtain ⟨unchanged, after⟩ := Cell.isStill_work crew.shared (still cell (List.mem_of_getElem? found))
    refine ⟨fun other member => ?_, unchanged.trans same⟩
    rw [Crew.cells_work] at member
    rcases List.mem_or_eq_of_mem_set member with member | rfl
    · exact still other member
    · exact after
  | changing task seen =>
    obtain ⟨still, changer, there, future, visits⟩ := fits
    refine ⟨fun place other different at_ => ?_, ?_⟩
    · rw [Crew.cells_work, List.getElem?_set] at at_
      split at at_
      · rename_i same
        subst same
        obtain rfl := Option.some.inj at_
        exact (Cell.isStill_work crew.shared (still number cell different found)).2
      · exact still place other different at_
    · rw [Crew.cells_work, Crew.shared_work]
      by_cases same : number = task
      · subst same
        obtain rfl := Option.some.inj (found.symm.trans there)
        refine ⟨_, List.getElem?_set_self inside, (Cell.future_work cell _).trans future, ?_⟩
        exact fun state visited => visits state (Cell.visits_of_work visited)
      · have unchanged := (Cell.isStill_work crew.shared (still number cell same found)).1
        rw [unchanged]
        exact ⟨changer, (List.getElem?_set_ne same).trans there, future, visits⟩

/-- Whatever a worker does next, the forecast still fits, and less is left to be done. -/
theorem Fits.step {next : Crew σ α} (fits : forecast.Fits crew) (moves : crew.Step next) :
    forecast.Fits next ∧ next.remaining < crew.remaining ∧ next.size = crew.size := by
  cases moves with
  | @work number cell found allowed =>
    have active := allowed.1
    refine ⟨⟨?_, ?_, ?_, ?_⟩, ?_, Crew.size_work⟩
    · rw [Crew.cells_work, List.length_set, fits.length]
    · exact fun place other task there foreseen => fits.cells_work found active there foreseen
    · intro finished
      obtain ⟨task, foreseen, fit⟩ := fits.exists_task found
      have silent : (cell.work crew.shared).1 = none := by
        cases offered : (cell.work crew.shared).1 with
        | none => rfl
        | some cause =>
          have unfinished := Cell.isFinished_of_offer fit offered
          cases (finished task (List.mem_of_getElem? foreseen)).symm.trans unfinished
      rw [Crew.pending_work silent, fits.quiet finished]
    · exact Activity.Fits.work fits.activity found active
    · unfold Crew.remaining
      rw [Crew.cells_work, Crew.shared_work]
      refine sum_map_set_lt found (Cell.remaining_work active) fun place other different there => ?_
      rcases fits.others found active with same | still
      · rw [same]
      · exact Cell.remaining_of_isStill (still place other different there) _ _

end Forecast

/-- As long as some job has not ended, some worker has a step to take. -/
theorem Crew.exists_step {crew : Crew σ α} (positive : 0 < crew.size) (works : crew.isIdle = false) :
    ∃ next, crew.Step next := by
  by_cases busy : ∃ cell ∈ crew.cells, cell.stage.isBusy = true
  · obtain ⟨cell, member, busy⟩ := busy
    obtain ⟨number, found⟩ := List.mem_iff_getElem?.mp member
    simp only [Stage.isBusy, Bool.and_eq_true, Bool.not_eq_true'] at busy
    refine ⟨_, .work found ⟨busy.2, fun queued => ?_⟩⟩
    cases busy.1.symm.trans queued
  · have active : ∃ cell ∈ crew.cells, cell.stage.isEnded = false := by
      simpa [isIdle, List.all_eq_false] using works
    obtain ⟨cell, member, active⟩ := active
    have idle : ∀ cell ∈ crew.cells, cell.stage.isBusy = false := by simpa using busy
    have queued : cell.stage.isQueued = true := by
      simpa [Stage.isBusy, active] using idle cell member
    let isQueued : Cell σ α → Bool := fun cell => cell.stage.isQueued
    have inside : crew.cells.findIdx isQueued < crew.cells.length :=
      List.findIdx_lt_length_of_exists ⟨cell, member, queued⟩
    have first : isQueued crew.cells[crew.cells.findIdx isQueued] = true := List.findIdx_getElem
    refine ⟨_, .work (List.getElem?_eq_getElem inside) ⟨?_, fun _ => ⟨?_, ?_⟩⟩⟩
    · exact Stage.isEnded_of_isQueued first
    · intro earlier taken
      obtain ⟨place, before, rfl⟩ := List.mem_take_iff_getElem.mp taken
      have notYet := List.not_of_lt_findIdx (p := isQueued) (Nat.lt_of_lt_of_le before (Nat.min_le_left _ _))
      simpa [isQueued] using notYet
    · rw [List.countP_eq_zero.mpr fun other among => by simp [idle other among]]
      exact positive

end EnumNames
