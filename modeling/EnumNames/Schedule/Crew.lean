import EnumNames.Schedule.Channel
import EnumNames.Schedule.Process

/-!
Workers at work. Each of them takes the first job of the queue, runs it and hands over what comes of
it. All workers share one state, and between two steps of one of them the others may take theirs.
-/

namespace EnumNames

variable {σ α : Type}

/-- A job that cannot hand over its failure offers it to the failure slot before it leaves. -/
inductive Stage (σ α : Type) where
  | queued (job : Process σ (Outcome α))
  | running (job : Process σ (Outcome α))
  | offering (cause : Failure)
  | leaving
  | ended

namespace Stage

def isQueued : Stage σ α → Bool
  | .queued _ => true
  | _ => false

def isEnded : Stage σ α → Bool
  | .ended => true
  | _ => false

/-- A worker is busy with a job from the moment it takes the job until the job has ended. -/
def isBusy (stage : Stage σ α) : Bool := !stage.isQueued && !stage.isEnded

end Stage

structure Cell (σ α : Type) where
  origin : String
  stage : Stage σ α
  channel : Channel α

namespace Cell

def submitted (origin : String) (job : Process σ (Outcome α)) : Cell σ α :=
  { origin, stage := .queued job, channel := .opened }

/-- A failure that comes back still has to be offered. -/
def deliver (cell : Cell σ α) (message : Except Failure α) : Cell σ α :=
  match cell.channel.send message with
  | (some (.error cause), channel) => { cell with stage := .offering cause, channel }
  | (_, channel) => { cell with stage := .leaving, channel }

/-- A panic closes the channel without a message. -/
def finish (cell : Cell σ α) : Outcome α → Cell σ α
  | .finished value => cell.deliver (.ok value)
  | .failed cause => cell.deliver (.error cause)
  | .panicked payload => { cell with stage := .offering (.workerPanic payload.message) }

/-- This is the next step of a worker: the failure that it offers, the cell behind the step, and the
shared state. -/
def work (cell : Cell σ α) (shared : σ) : Option Failure × Cell σ α × σ :=
  match cell.stage with
  | .queued job => (none, { cell with stage := .running job }, shared)
  | .running (.act change next) =>
    (none, { cell with stage := .running (next shared) }, change shared)
  | .running (.done outcome) => (none, cell.finish outcome, shared)
  | .offering cause => (some cause, { cell with stage := .leaving }, shared)
  | .leaving => (none, { cell with stage := .ended, channel := cell.channel.closeSender }, shared)
  | .ended => (none, cell, shared)

end Cell

/-- The cells are in the order of submission. The slot and the list of all offers so far belong
together. -/
structure Crew (σ α : Type) where
  size : Nat
  cells : List (Cell σ α)
  pending : PendingFailure
  offers : List (String × Failure)
  shared : σ

namespace Crew

def start (size : Nat) (shared : σ) : Crew σ α :=
  { size, cells := [], pending := .empty, offers := [], shared }

def offer (crew : Crew σ α) (origin : String) (cause : Failure) : Crew σ α :=
  { crew with
    pending := (crew.pending.record origin cause).2
    offers := crew.offers ++ [(origin, cause)] }

def offerAny (crew : Crew σ α) (origin : String) : Option Failure → Crew σ α
  | some cause => crew.offer origin cause
  | none => crew

def replace (crew : Crew σ α) (number : Nat) (cell : Cell σ α) : Crew σ α :=
  { crew with cells := crew.cells.set number cell }

def submit (crew : Crew σ α) (origin : String) (job : Process σ (Outcome α)) : Crew σ α :=
  { crew with cells := crew.cells ++ [.submitted origin job] }

def isIdle (crew : Crew σ α) : Bool := crew.cells.all (·.stage.isEnded)

/-- A queued job is taken when it is the first one and a worker is free. -/
def MayWork (crew : Crew σ α) (number : Nat) (cell : Cell σ α) : Prop :=
  cell.stage.isEnded = false ∧
  (cell.stage.isQueued → (∀ earlier ∈ crew.cells.take number, earlier.stage.isQueued = false) ∧
    crew.cells.countP (·.stage.isBusy) < crew.size)

def work (crew : Crew σ α) (number : Nat) (cell : Cell σ α) : Crew σ α :=
  let (cause, next, shared) := cell.work crew.shared
  { (crew.replace number next).offerAny cell.origin cause with shared }

/-- Any worker that can take a step may be the next one to do so. -/
inductive Step (crew : Crew σ α) : Crew σ α → Prop
  | work {number : Nat} {cell : Cell σ α} (found : crew.cells[number]? = some cell)
      (allowed : crew.MayWork number cell) : crew.Step (crew.work number cell)

/-- The owner of a task takes the message out of its channel. -/
def take (crew : Crew σ α) (number : Nat) (cell : Cell σ α) : Crew σ α :=
  crew.replace number { cell with channel := cell.channel.take.2 }

/-- A failure that nobody has waited for is offered when its task is dropped. -/
def collect (crew : Crew σ α) (number : Nat) (cell : Cell σ α) : Crew σ α :=
  match cell.channel.message with
  | some (.error cause) => (crew.take number cell).offer cell.origin cause
  | _ => crew.take number cell

def close (crew : Crew σ α) (number : Nat) (cell : Cell σ α) : Crew σ α :=
  crew.replace number { cell with channel := cell.channel.closeReceiver }

end Crew

end EnumNames
