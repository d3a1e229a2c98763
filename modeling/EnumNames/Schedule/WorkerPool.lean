import EnumNames.Schedule.PendingFailure

/-!
A pool of workers that run queued jobs. Every job belongs to a task whose owner may wait for the
result or let go of it; a failure that no owner sees goes to the failure slot of the pool.
-/

namespace EnumNames

/-- A panic carries a text or something that is no text. -/
inductive PanicPayload where
  | text (words : String)
  | other
  deriving DecidableEq, Repr, Inhabited

def PanicPayload.message : PanicPayload → String
  | .text words => words
  | .other => "non-string panic payload"

/-- A job ends with a value, with a failure, or in a panic. -/
inductive Outcome (α : Type) where
  | finished (value : α)
  | failed (cause : Failure)
  | panicked (payload : PanicPayload)
  deriving DecidableEq, Repr

/-- An owner who waits for a job that panicked learns only that the task is lost. -/
def Outcome.awaited {α : Type} (origin : String) : Outcome α → Except Failure α
  | .finished value => .ok value
  | .failed cause => .error cause
  | .panicked _ => .error (.taskLost origin)

def Outcome.ofExcept {α : Type} : Except Failure α → Outcome α
  | .ok value => .finished value
  | .error cause => .failed cause

def Outcome.map {α β : Type} (change : α → β) : Outcome α → Outcome β
  | .finished value => .finished (change value)
  | .failed cause => .failed cause
  | .panicked payload => .panicked payload

/-- A task is owned until it is waited for or dropped. -/
structure Task (α : Type) where
  origin : String
  outcome : Outcome α
  hasRun : Bool
  isOwned : Bool

structure WorkerPool (α : Type) where
  size : Nat
  tasks : Array (Task α)
  pending : PendingFailure

namespace WorkerPool

variable {α : Type}

def start (size : Nat) : Except Failure (WorkerPool α) :=
  if size = 0 then
    .error (.invalidConcurrency 0)
  else
    .ok { size, tasks := #[], pending := .empty }

/-- Workers are numbered from zero. -/
def workerName (number : Nat) : String := s!"renum-worker-{number}"

def offer (pool : WorkerPool α) (origin : String) (cause : Failure) : WorkerPool α :=
  { pool with pending := (pool.pending.record origin cause).2 }

/-- Tasks are numbered in the order of their submission. -/
def submit (pool : WorkerPool α) (origin : String) (outcome : Outcome α) :
    Nat × WorkerPool α :=
  (pool.tasks.size,
    { pool with tasks := pool.tasks.push { origin, outcome, hasRun := false, isOwned := true } })

/-- A panic is offered when it happens, a failure only when its owner has let go before. -/
def report (pool : WorkerPool α) (task : Task α) : WorkerPool α :=
  match task.outcome with
  | .panicked payload => pool.offer task.origin (.workerPanic payload.message)
  | .failed cause => if task.isOwned then pool else pool.offer task.origin cause
  | .finished _ => pool

/-- A job runs at most once. -/
def runJob (pool : WorkerPool α) (number : Nat) : WorkerPool α :=
  match pool.tasks[number]? with
  | some task =>
    if task.hasRun then pool
    else
      report { pool with tasks := pool.tasks.setIfInBounds number { task with hasRun := true } }
        task
  | none => pool

/-- Jobs leave the queue in the order of their submission. -/
def runAll (pool : WorkerPool α) : WorkerPool α :=
  (List.range pool.tasks.size).foldl runJob pool

def release (pool : WorkerPool α) (number : Nat) (task : Task α) : WorkerPool α :=
  { pool with tasks := pool.tasks.setIfInBounds number { task with isOwned := false } }

/-- A failure that was delivered but never collected is offered when its task is dropped. -/
def reportDropped (pool : WorkerPool α) (task : Task α) : WorkerPool α :=
  match task.outcome with
  | .failed cause => if task.hasRun then pool.offer task.origin cause else pool
  | _ => pool

/-- The result tells whether there was a task to drop. -/
def drop (pool : WorkerPool α) (number : Nat) : Bool × WorkerPool α :=
  match pool.tasks[number]? with
  | some task =>
    if task.isOwned then (true, (pool.release number task).reportDropped task)
    else (false, pool)
  | none => (false, pool)

/-- There is no result before the job has run, and none for a task that nobody owns. -/
def wait (pool : WorkerPool α) (number : Nat) : Option (Except Failure α) × WorkerPool α :=
  match pool.tasks[number]? with
  | some task =>
    if task.isOwned ∧ task.hasRun then
      (some (task.outcome.awaited task.origin), pool.release number task)
    else (none, pool)
  | none => (none, pool)

def origin? (pool : WorkerPool α) (number : Nat) : Option String :=
  match pool.tasks[number]? with
  | some task => if task.isOwned then some task.origin else none
  | none => none

/-- All queued jobs run before the slot is checked. -/
def shutdown (pool : WorkerPool α) : Except Failure Unit :=
  pool.runAll.pending.check.1

end WorkerPool

end EnumNames
