import EnumNames.Disk.FileTree
import EnumNames.Schedule.WorkerPool

/-!
Jobs that take one step after another on a state they share with others. Between two steps others
may take theirs.
-/

namespace EnumNames

/-- A step changes the shared state; what comes next depends on the state that the step found. -/
inductive Process (σ α : Type) where
  | done (value : α)
  | act (change : σ → σ) (next : σ → Process σ α)

namespace Process

variable {σ α β : Type}

def bind (first : Process σ α) (second : α → Process σ β) : Process σ β :=
  match first with
  | .done value => second value
  | .act change next => .act change fun state => (next state).bind second

instance : Monad (Process σ) where
  pure := .done
  bind := .bind

/-- One operation is one step. -/
def ofOperation (operation : StateM σ α) : Process σ α :=
  .act (fun state => (operation state).2) fun state => .done (operation state).1

/-- This is what comes of a process that is alone with the state. -/
def run : Process σ α → StateM σ α
  | .done value => pure value
  | .act change next => fun state => (next state).run (change state)

/-- This is how many steps a process takes that is alone with the state. -/
def steps : Process σ α → σ → Nat
  | .done _, _ => 0
  | .act change next, state => (next state).steps (change state) + 1

instance : Disk (Process FileTree) where
  kind path := .ofOperation (Disk.kind path)
  canonical path := .ofOperation (Disk.canonical path)
  read path := .ofOperation (Disk.read path)
  write path bytes := .ofOperation (Disk.write path bytes)
  makeDirectory path := .ofOperation (Disk.makeDirectory path)
  remove path := .ofOperation (Disk.remove path)

end Process

end EnumNames
