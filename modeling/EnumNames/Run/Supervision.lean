import EnumNames.Run.Execution
import EnumNames.Schedule.Plan

/-!
A run as its owner sees it. The backup and the reads are submitted first, and every class is
submitted again as soon as it has been read; results are waited for in the order of the entries,
whichever order the workers finish in.
-/

namespace EnumNames

/-- These are the jobs of a run. What a read and a repair come to does not depend on the state that
the workers share. -/
structure Jobs where
  backup : Option (Process FileTree (Outcome Unit))
  read : Archive → Entry → Outcome ByteArray
  repair : Entry → ByteArray → Outcome Processed

inductive Delivery where
  | copied
  | bytes (data : ByteArray)
  | processed (item : Processed)

namespace Delivery

def data : Delivery → ByteArray
  | .bytes data => data
  | _ => .empty

def item? : Delivery → Option Processed
  | .processed item => some item
  | _ => none

end Delivery

/-- An entry is read first. A class is repaired after that; every other entry is ready then. -/
inductive Slot where
  | reading (task : Nat)
  | repairing (task : Nat)
  | ready (item : Processed)

namespace Slot

def tasks : Slot → List Nat
  | .reading task | .repairing task => [task]
  | .ready _ => []

def item? : Slot → Option Processed
  | .ready item => some item
  | _ => none

end Slot

abbrev RunPlan := Plan FileTree Delivery

namespace RunPlan

/-- After a failure everything that is still held is let go. -/
def orLetGo {β : Type} (held : List Nat) (attempt : RunPlan (Except Failure β)) :
    ExceptT Failure RunPlan β := ExceptT.mk do
  match ← attempt with
  | .ok value => return .ok value
  | .error cause =>
    Plan.dropAll held
    return .error cause

/-- The slots take one step each, and the first failure ends it. -/
def inTurn (step : Entry × Slot → RunPlan (Except Failure (Entry × Slot))) (held : List Nat) :
    List (Entry × Slot) → ExceptT Failure RunPlan (List (Entry × Slot))
  | [] => return []
  | slot :: rest => do
    let next ← orLetGo (held ++ rest.flatMap (·.2.tasks)) (step slot)
    return next :: (← inTurn step (held ++ next.2.tasks) rest)

def submitBackup (jobs : Jobs) : RunPlan (List Nat) :=
  match jobs.backup with
  | none => return []
  | some job => return [← Plan.queue "backup" do return (← job).map fun () => .copied]

def submitReads (read : Entry → Outcome ByteArray) : List Entry → RunPlan (List (Entry × Slot))
  | [] => return []
  | entry :: rest => do
    let task ← Plan.queue entry.name (.done ((read entry).map .bytes))
    return (entry, .reading task) :: (← submitReads read rest)

/-- A class that has been read is submitted for its repair. -/
def submitRepair (jobs : Jobs) : Entry × Slot → RunPlan (Except Failure (Entry × Slot))
  | (entry, .reading task) => do
    if entry.isUnit then
      match ← Plan.wait task with
      | .error cause => return .error (.entry entry.name cause)
      | .ok delivery =>
        let repair ←
          Plan.queue entry.name (.done ((jobs.repair entry delivery.data).map .processed))
        return .ok (entry, .repairing repair)
    else
      return .ok (entry, .reading task)
  | slot => return .ok slot

def collectRead : Entry × Slot → RunPlan (Except Failure (Entry × Slot))
  | (entry, .reading task) => do
    match ← Plan.wait task with
    | .error cause => return .error (.entry entry.name cause)
    | .ok delivery => return .ok (entry, .ready (.ofKept entry delivery.data))
  | slot => return .ok slot

/-- The failure of a repair names its entry already. -/
def collectRepair : Entry × Slot → RunPlan (Except Failure (Entry × Slot))
  | (entry, .repairing task) => do
    match ← Plan.wait task with
    | .error cause => return .error cause
    | .ok delivery => return .ok (entry, (delivery.item?.map Slot.ready).getD (.repairing task))
  | slot => return .ok slot

def awaitAll : List Nat → RunPlan (Except Failure Unit)
  | [] => return .ok ()
  | task :: rest => do
    match ← Plan.wait task with
    | .error cause => return .error cause
    | .ok _ => awaitAll rest

/-- All reads have been waited for before the backup is, and the backup before the repairs. -/
def gatherEntries (jobs : Jobs) (archive : Archive) (backup : List Nat) :
    ExceptT Failure RunPlan (List Processed) := do
  let reads ← (submitReads (jobs.read archive) archive.entries : RunPlan (List (Entry × Slot)))
  let submitted ← inTurn (submitRepair jobs) backup reads
  let collected ← inTurn collectRead backup submitted
  orLetGo (collected.flatMap (·.2.tasks)) (awaitAll backup)
  let repaired ← inTurn collectRepair [] collected
  return repaired.filterMap (·.2.item?)

/-- The archive is opened while the backup is made. -/
def gather (settings : Settings) (jobs : Jobs) : ExceptT Failure RunPlan (List Processed) := do
  let backup ← (submitBackup jobs : RunPlan (List Nat))
  let archive ← orLetGo backup (Archive.load settings.input)
  gatherEntries jobs archive backup

/-- A run without workers could not do anything. The workers stop before anything is written, and
they stop after a failure as well. -/
def ofJobs (settings : Settings) (jobs : Jobs) : RunPlan (Except Failure Report) := do
  if settings.workers = 0 then
    return .error (.invalidConcurrency 0)
  match ← (gather settings jobs).run with
  | .error cause =>
    Plan.joined
    return .error cause
  | .ok processed =>
    Plan.joined
    match ← Plan.checked with
    | .error cause => return .error cause
    | .ok () => (settings.write processed).run

end RunPlan

namespace Settings

def jobs (settings : Settings) : Jobs where
  backup := settings.backup.map fun path => do
    return .ofExcept (← Backup.make settings.input path)
  read archive entry := archive.read entry.index
  repair entry data := .ofExcept (Processed.ofEntry entry data)

/-- A run starts with workers that have nothing to do. -/
def situation (settings : Settings) (jobs : Jobs) (tree : FileTree) :
    Situation FileTree Delivery (Except Failure Report) :=
  { plan := RunPlan.ofJobs settings jobs, crew := Crew.start settings.workers tree }

end Settings

end EnumNames
