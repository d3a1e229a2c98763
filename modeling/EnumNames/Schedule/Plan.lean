import EnumNames.Schedule.Crew

/-!
What the owner of a crew does, one step after another, while the workers take their own steps in
between. The order of the steps is free; a schedule is any one of these orders.
-/

namespace EnumNames

variable {σ α β γ : Type}

/-- Tasks are numbered in the order of their submission. A task is let go in two steps: what was
delivered is collected, and then the channel is closed. -/
inductive Plan (σ α β : Type) where
  | done (value : β)
  | act (change : σ → σ) (next : σ → Plan σ α β)
  | submit (origin : String) (job : Process σ (Outcome α)) (next : Nat → Plan σ α β)
  | receive (task : Nat) (next : Except Failure α → Plan σ α β)
  | collect (task : Nat) (next : Plan σ α β)
  | close (task : Nat) (next : Plan σ α β)
  | join (next : Plan σ α β)
  | check (next : Except Failure Unit → Plan σ α β)

namespace Plan

def bind (first : Plan σ α β) (second : β → Plan σ α γ) : Plan σ α γ :=
  match first with
  | .done value => second value
  | .act change next => .act change fun state => (next state).bind second
  | .submit origin job next => .submit origin job fun task => (next task).bind second
  | .receive task next => .receive task fun result => (next result).bind second
  | .collect task next => .collect task (next.bind second)
  | .close task next => .close task (next.bind second)
  | .join next => .join (next.bind second)
  | .check next => .check fun result => (next result).bind second

instance : Monad (Plan σ α) where
  pure := .done
  bind := .bind

def ofOperation (operation : StateM σ β) : Plan σ α β :=
  .act (fun state => (operation state).2) fun state => .done (operation state).1

instance : Disk (Plan FileTree α) where
  kind path := .ofOperation (Disk.kind path)
  canonical path := .ofOperation (Disk.canonical path)
  read path := .ofOperation (Disk.read path)
  write path bytes := .ofOperation (Disk.write path bytes)
  makeDirectory path := .ofOperation (Disk.makeDirectory path)
  remove path := .ofOperation (Disk.remove path)

/-- The job waits for its worker; its owner does not. -/
def queue (origin : String) (job : Process σ (Outcome α)) : Plan σ α Nat :=
  .submit origin job .done

def drop (task : Nat) : Plan σ α Unit := .collect task (.close task (.done ()))

/-- A task that was waited for is let go like any other. -/
def wait (task : Nat) : Plan σ α (Except Failure α) :=
  .receive task fun result => .collect task (.close task (.done result))

def dropAll : List Nat → Plan σ α Unit
  | [] => return
  | task :: rest => do
    drop task
    dropAll rest

/-- No more jobs are submitted, and all workers stop. -/
def joined : Plan σ α Unit := .join (.done ())

def checked : Plan σ α (Except Failure Unit) := .check .done

/-- The owner is stopped at a task that may still deliver something, and at workers who have not
stopped. -/
def next? : Plan σ α β → Crew σ α → Option (Plan σ α β × Crew σ α)
  | .done _, _ => none
  | .act change next, crew =>
    some (next crew.shared, { crew with shared := change crew.shared })
  | .submit origin job next, crew => some (next crew.cells.length, crew.submit origin job)
  | .receive task next, crew => do
    let cell ← crew.cells[task]?
    let result ← cell.channel.receive cell.origin
    return (next result, crew.take task cell)
  | .collect task next, crew => do
    return (next, crew.collect task (← crew.cells[task]?))
  | .close task next, crew => do
    return (next, crew.close task (← crew.cells[task]?))
  | .join next, crew => if crew.isIdle then some (next, crew) else none
  | .check next, crew =>
    let (result, pending) := crew.pending.check
    some (next result, { crew with pending })

end Plan

/-- This is a crew together with what its owner is still going to do. -/
structure Situation (σ α β : Type) where
  plan : Plan σ α β
  crew : Crew σ α

namespace Situation

inductive Step (situation : Situation σ α β) : Situation σ α β → Prop
  | owner {plan : Plan σ α β} {crew : Crew σ α}
      (moves : situation.plan.next? situation.crew = some (plan, crew)) :
      situation.Step ⟨plan, crew⟩
  | worker {crew : Crew σ α} (moves : situation.crew.Step crew) :
      situation.Step ⟨situation.plan, crew⟩

/-- The owner has done everything, and so have the workers. -/
structure Ends (situation : Situation σ α β) (value : β) (shared : σ) : Prop where
  plan : situation.plan = .done value
  idle : situation.crew.isIdle = true
  shared : situation.crew.shared = shared

end Situation

/-- Whichever steps are taken, the goal is reached after finitely many of them. -/
inductive Inevitable (step : γ → γ → Prop) (goal : γ → Prop) : γ → Prop
  | reached {state : γ} (holds : goal state) : Inevitable step goal state
  | ahead {state : γ} (moves : ∃ next, step state next)
      (each : ∀ next, step state next → Inevitable step goal next) : Inevitable step goal state

end EnumNames
