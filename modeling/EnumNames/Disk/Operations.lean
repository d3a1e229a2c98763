import EnumNames.Disk.Path
import EnumNames.Failure

/-!
What a program asks of a disk. The other operations are built from these, so that they are the same
for every disk.
-/

namespace EnumNames

inductive FileKind where
  | file
  | directory
  deriving DecidableEq, Repr, Inhabited

/-- All operations but `remove` and `makeDirectory` follow links. -/
class Disk (m : Type → Type) where
  kind : String → m (Except OsError FileKind)
  canonical : String → m (Except OsError String)
  read : String → m (Except OsError ByteArray)
  write : String → ByteArray → m (Except OsError Unit)
  makeDirectory : String → m (Except OsError Unit)
  remove : String → m (Except OsError Unit)

namespace Disk

variable {m : Type → Type} [Monad m] [Disk m]

/-- A path that cannot be followed leads to nothing. -/
def isPresent (path : String) : m Bool := do
  return (← kind path).isOk

def isDirectory (path : String) : m Bool := do
  match ← kind path with
  | .ok .directory => return true
  | _ => return false

/-- Two paths may lead to the same file although their texts differ. -/
def isSameFile (first second : String) : m Bool := do
  match ← canonical first, ← canonical second with
  | .ok first, .ok second => return first == second
  | _, _ => return false

/-- A directory that somebody else has made is as good as a new one. -/
def acceptDirectory (path : String) (result : Except OsError Unit) : m (Except OsError Unit) := do
  match result with
  | .ok () => return .ok ()
  | .error cause => return if ← isDirectory path then .ok () else .error cause

/-- The paths go upwards. A directory is made after those above it only if it cannot be made
before them. -/
def makeUpwards : List String → m (Except OsError Unit)
  | [] => return .ok ()
  | path :: above => do
    match ← makeDirectory path with
    | .error cause =>
      if cause = .noEntry then
        match ← makeUpwards above with
        | .ok () => acceptDirectory path (← makeDirectory path)
        | .error cause => return .error cause
      else
        acceptDirectory path (.error cause)
    | .ok () => return .ok ()

/-- Missing directories above the directory are made as well. -/
def makeDirectories (path : String) : m (Except OsError Unit) :=
  makeUpwards (Path.ancestors path)

/-- A directory cannot be copied. Nothing is written before everything has been read. -/
def copy (source target : String) : m (Except OsError Unit) := do
  match ← read source with
  | .ok bytes => write target bytes
  | .error cause => return .error (if cause = .isDirectory then .notRegular else cause)

end Disk

end EnumNames
