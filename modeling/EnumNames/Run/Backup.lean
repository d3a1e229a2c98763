import EnumNames.Disk.Operations

/-!
The backup is a copy of the input that is made before anything else is written.
-/

namespace EnumNames.Backup

variable {m : Type → Type} [Monad m] [Disk m]

/-- A stale backup is removed first, so that a link in its place is not written through. -/
def removeStale (path : String) : m (Except OsError Unit) := do
  if ← Disk.isPresent path then Disk.remove path else return .ok ()

def replace (input path : String) : m (Except OsError Unit) := do
  match ← removeStale path with
  | .ok () => Disk.copy input path
  | .error cause => return .error cause

/-- There is nothing to copy when the backup is the input itself. -/
def make (input path : String) : m (Except Failure Unit) := do
  if ← Disk.isSameFile input path then
    return .ok ()
  else
    return (← replace input path).mapError (.backup path)

/-- Without a path there is no backup to make. -/
def makeIfWanted (input : String) : Option String → m (Except Failure Unit)
  | none => return .ok ()
  | some path => make input path

end EnumNames.Backup
