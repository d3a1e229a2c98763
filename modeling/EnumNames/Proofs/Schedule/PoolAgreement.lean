import EnumNames.Proofs.Schedule.Accounting

/-!
The pool of workers as a picture of a crew. The pool has no channels: it knows of each task what its job
comes to, whether it has run, and whether it is owned. Main statement: whatever is done with a crew, the
pool does the same, gives the same answers, and has the same failure in its slot.
-/

namespace EnumNames

variable {σ α : Type}

open Line

/-- What the pool knows of a task. -/
def Cell.task (cell : Cell σ α) (outcome : Outcome α) : Task α where
  origin := cell.origin
  outcome
  hasRun := cell.stage.isEnded
  isOwned := cell.channel.hasReceiver

/-- The pool that a crew is when it is foreseen what the jobs come to. -/
def Crew.pool (crew : Crew σ α) (outcomes : Nat → Outcome α) : WorkerPool α where
  size := crew.size
  tasks := (crew.cells.mapIdx fun number cell => cell.task (outcomes number)).toArray
  pending := crew.pending

namespace WorkerPool

variable {pool : WorkerPool α} {number : Nat} {task : Task α}

/-- The pool does an operation with the answer that goes with it. -/
def Performs (outcomes : Nat → Outcome α) (pool after : WorkerPool α) : Operation σ α → Prop
  | .submitted task origin _ => pool.submit origin (outcomes task) = (task, after)
  | .ran task outcome => outcome = outcomes task ∧ pool.runJob task = after
  | .waited task result => pool.wait task = (some result, after)
  | .dropped task => pool.drop task = (true, after)
  | .recorded origin cause => pool.offer origin cause = after
  | .taken found =>
    pool.pending.take.1 = found ∧ { pool with pending := pool.pending.take.2 } = after
  | .checked result =>
    pool.pending.check.1 = result ∧ { pool with pending := pool.pending.check.2 } = after
  | .held | .released => pool = after

/-- The pool does one operation after another. -/
inductive PerformsAll (outcomes : Nat → Outcome α) (first : WorkerPool α) :
    List (Operation σ α) → WorkerPool α → Prop
  | start : PerformsAll outcomes first [] first
  | next {operations : List (Operation σ α)} {before after : WorkerPool α}
      {operation : Operation σ α} (earlier : PerformsAll outcomes first operations before)
      (performs : before.Performs outcomes after operation) :
      PerformsAll outcomes first (operations ++ [operation]) after

theorem runJob_eq (found : pool.tasks[number]? = some task) (waiting : task.hasRun = false) :
    pool.runJob number =
      { pool with
        tasks := pool.tasks.setIfInBounds number { task with hasRun := true }
        pending := pool.pending.recordAll
          (offersOf task.origin (task.outcome.undelivered? task.isOwned)) } := by
  obtain ⟨origin, outcome, hasRun, isOwned⟩ := task
  obtain rfl : hasRun = false := waiting
  simp only [runJob, found, report]
  cases outcome <;> cases isOwned <;> rfl

theorem wait_eq (found : pool.tasks[number]? = some task) (owned : task.isOwned = true)
    (ran : task.hasRun = true) : pool.wait number =
      (some (task.outcome.awaited task.origin), pool.release number task) := by
  simp [wait, found, owned, ran]

theorem drop_eq (found : pool.tasks[number]? = some task) (owned : task.isOwned = true) :
    pool.drop number = (true,
      { pool.release number task with
        pending := pool.pending.recordAll
          (offersOf task.origin (if task.hasRun then task.outcome.error? else none)) }) := by
  obtain ⟨origin, outcome, hasRun, isOwned⟩ := task
  obtain rfl : isOwned = true := owned
  simp only [drop, found, reportDropped]
  cases outcome <;> cases hasRun <;> rfl

/-- When every job has run, the shutdown of a pool is a check of its slot. -/
theorem shutdown_eq (ran : ∀ task ∈ pool.tasks, task.hasRun = true) :
    pool.shutdown = pool.pending.check.1 := by
  have still (number : Nat) : pool.runJob number = pool := by
    unfold runJob
    split
    · rename_i task found
      rw [if_pos (ran task (Array.mem_of_getElem? found))]
    · rfl
  have all : pool.runAll = pool := by
    unfold runAll
    exact List.foldl_fixed' still _
  rw [shutdown, all]

end WorkerPool

namespace Crew

variable {crew after : Crew σ α} {outcomes : Nat → Outcome α} {number : Nat} {cell next : Cell σ α}
  {made : List (String × Failure)}

theorem getElem?_pool (outcomes : Nat → Outcome α) (found : crew.cells[number]? = some cell) :
    (crew.pool outcomes).tasks[number]? = some (cell.task (outcomes number)) := by
  simp [pool, found]

theorem pool_of_tends (tends : crew.Tends after number next made) : after.pool outcomes =
    { crew.pool outcomes with
      tasks := (crew.pool outcomes).tasks.setIfInBounds number (next.task (outcomes number))
      pending := crew.pending.recordAll made } := by
  simp [pool, tends.cells, tends.pending, tends.size, List.mapIdx_set]

theorem pool_submit (origin : String) (job : Process σ (Outcome α)) :
    (crew.pool outcomes).submit origin (outcomes crew.cells.length) =
      (crew.cells.length, (crew.submit origin job).pool outcomes) := by
  simp [WorkerPool.submit, pool, submit, Cell.submitted, Cell.task, Stage.isEnded, Channel.opened]

end Crew

/-- A job that has been run has not been run before. -/
theorem Account.runs_eq {task : Nat} {origin : String} {job : Process σ (Outcome α)}
    {own : List (Line σ α)} {cell : Cell σ α} {outcome : Outcome α}
    (account : Account task origin job own cell) (member : outcome ∈ runs own) :
    runs own = [outcome] := by
  cases account with
  | queued => cases member
  | abandoned => cases member
  | unheard state => exact List.mem_singleton.mp member ▸ rfl
  | delivered state => exact List.mem_singleton.mp member ▸ rfl
  | heard state => exact List.mem_singleton.mp member ▸ rfl
  | collected state => exact List.mem_singleton.mp member ▸ rfl

namespace Session

variable {outcomes : Nat → Outcome α} {before after last : Session σ α} {lines : List (Line σ α)}
  {operation : Operation σ α} {number size : Nat} {shared : σ}

/-- The jobs come to what is foreseen. -/
def Foresees (outcomes : Nat → Outcome α) (lines : List (Line σ α)) : Prop :=
  ∀ task, ∀ outcome ∈ runs (ofTask task lines), outcome = outcomes task

theorem Foresees.left {more : List (Line σ α)} (foresees : Foresees outcomes (lines ++ more)) :
    Foresees outcomes lines := by
  intro task outcome member
  refine foresees task outcome ?_
  rw [ofTask_append, runs, List.filterMap_append]
  exact List.mem_append_left _ member

/-- For every history it can be foreseen what its jobs come to. -/
theorem History.exists_foresees (history : History size shared lines last) :
    ∃ outcomes, Foresees outcomes lines := by
  refine ⟨fun task => (runs (ofTask task lines)).head?.getD (.panicked .other),
    fun task outcome member => ?_⟩
  have once : runs (ofTask task lines) = [outcome] := by
    have stands := history.keeps.stands
    by_cases inside : task < last.crew.cells.length
    · obtain ⟨origin, job, account⟩ := stands.tasks task _ (List.getElem?_eq_getElem inside)
      exact account.runs_eq member
    · rw [stands.fresh task (Nat.le_of_not_lt inside)] at member
      cases member
  simp only [once, List.head?_cons, Option.getD_some]

theorem Foresees.ran {outcome : Outcome α} {made : List (String × Failure)}
    (foresees : Foresees outcomes (lines ++ [⟨.ran number outcome, made⟩])) :
    outcome = outcomes number := by
  refine foresees number outcome ?_
  rw [ofTask_append, ofTask_same rfl, runs, List.filterMap_append]
  exact List.mem_append_right _ List.mem_cons_self

/-- The pool does what is done next with the crew. -/
theorem Stands.performs (stands : Stands lines before) (does : before.Does operation after)
    {made : List (String × Failure)} (foresees : Foresees outcomes (lines ++ [⟨operation, made⟩])) :
    (before.crew.pool outcomes).Performs outcomes (after.crew.pool outcomes) operation := by
  cases does with
  | submit origin job => exact Crew.pool_submit origin job
  | run free staffed found queued finishes =>
    obtain ⟨origin, isOwned, rfl, tended⟩ := stands.ran found queued finishes
    have there := Crew.getElem?_pool outcomes found
    refine ⟨foresees.ran, (WorkerPool.runJob_eq there rfl).trans ?_⟩
    rw [Crew.pool_of_tends tended.tends, foresees.ran]
    rfl
  | wait found owned waits =>
    obtain ⟨origin, job, account⟩ := stands.tasks _ _ found
    have there := Crew.getElem?_pool outcomes found
    rcases account.owned owned with ⟨_, _, silent⟩ | ⟨outcome, ran, ended, told, _⟩
    · cases silent.symm.trans (waits.received found)
    · obtain rfl := Option.some.inj (told.symm.trans (waits.received found))
      obtain rfl := foresees.left _ outcome (ran ▸ List.mem_cons_self)
      refine (WorkerPool.wait_eq there owned ended).trans ?_
      rw [Crew.pool_of_tends (stands.waited found owned waits).tends]
      rfl
  | @drop number cell _ found owned drops =>
    obtain ⟨origin, job, account⟩ := stands.tasks _ _ found
    have there := Crew.getElem?_pool outcomes found
    refine (WorkerPool.drop_eq there owned).trans ?_
    rw [Crew.pool_of_tends (stands.dropped found owned drops).tends]
    have same : cell.failure?.toList = offersOf cell.origin
        (if cell.stage.isEnded then (outcomes number).error? else none) := by
      rcases account.owned owned with ⟨works, silent, _⟩ | ⟨outcome, ran, ended, _, told⟩
      · rw [works, silent]
        rfl
      · obtain rfl := foresees.left _ outcome (ran ▸ List.mem_cons_self)
        rw [ended, told]
        rfl
    rw [same]
    rfl
  | record origin cause => rfl
  | take => exact ⟨rfl, rfl⟩
  | check => exact ⟨rfl, rfl⟩
  | hold => rfl
  | release => rfl

/-- Whatever is done with a crew from its start on, the pool does as well. -/
theorem History.performs (history : History size shared lines last)
    (foresees : Foresees outcomes lines) :
    ((Crew.start size shared).pool outcomes).PerformsAll outcomes (lines.map Line.operation)
      (last.crew.pool outcomes) := by
  induction history with
  | start => exact .start
  | next earlier does inductionHypothesis =>
    rw [List.map_append]
    exact .next (inductionHypothesis foresees.left) (earlier.keeps.stands.performs does foresees)

/-- When all jobs have ended, the shutdown of the pool tells what is in the slot of the crew. -/
theorem shutdown_pool (idle : last.crew.isIdle = true) :
    (last.crew.pool outcomes).shutdown = last.crew.pending.check.1 := by
  refine WorkerPool.shutdown_eq fun task member => ?_
  obtain ⟨number, inside, rfl⟩ := List.mem_mapIdx.mp (List.mem_toArray.mp member)
  exact List.all_eq_true.mp idle _ (List.getElem_mem inside)

/-- There is a pool that does all that is done with the crew, with the same answers, and reports the
same in the end. -/
theorem History.exists_pool (history : History size shared lines last) (positive : 0 < size) :
    ∃ outcomes first pool, WorkerPool.start size = .ok first ∧
      first.PerformsAll outcomes (lines.map Line.operation) pool ∧
      pool.pending = last.crew.pending ∧
      (last.crew.isIdle = true → pool.shutdown = last.crew.pending.check.1) := by
  obtain ⟨outcomes, foresees⟩ := history.exists_foresees
  exact ⟨outcomes, _, _, if_neg (Nat.ne_of_gt positive), history.performs foresees, rfl, shutdown_pool⟩

end Session

end EnumNames
