import EnumNames.Disk.Operations

/-!
What the user asks for, and the settings that follow from it. Missing directories above the places
to be written are made while the configuration is checked.
-/

namespace EnumNames

/-- These are the settings of a run. The output may be the input itself. -/
structure Settings where
  input : String
  output : String
  backup : Option String
  workers : Nat
  deriving DecidableEq, Repr, Inhabited

/-- Without an output the input is replaced. -/
structure Configuration where
  input : String
  output : Option String
  backup : Option String
  workers : Int
  deriving DecidableEq, Repr, Inhabited

namespace Configuration

variable {m : Type → Type} [Monad m] [Disk m]

def defaultWorkers : Int := 3

/-- A bare file name has an empty parent, which is the working directory. -/
def prepareParent (path : String) : ExceptT Failure m Unit := do
  match Path.parent? path with
  | none | some "" => return
  | some parent =>
    if ← (Disk.isDirectory parent : m Bool) then
      return
    match ← (Disk.makeDirectories parent : m (Except OsError Unit)) with
    | .ok () => return
    | .error cause => throw (.directoryCreate parent cause)

def prepareTarget (path : String) : ExceptT Failure m Unit := do
  if ← (Disk.isDirectory path : m Bool) then
    throw (.outputIsDirectory path)
  prepareParent path

def prepareTargets : List String → ExceptT Failure m Unit
  | [] => return
  | path :: rest => do
    prepareTarget path
    prepareTargets rest

def settings (configuration : Configuration) : Settings where
  input := configuration.input
  output := configuration.output.getD configuration.input
  backup := configuration.backup
  workers := configuration.workers.toNat

/-- The output is prepared before the backup. An input that takes no other output is not prepared,
since it exists. -/
def validate (configuration : Configuration) : ExceptT Failure m Settings := do
  if configuration.workers ≤ 0 then
    throw (.invalidConcurrency configuration.workers)
  match ← (Disk.kind configuration.input : m (Except OsError FileKind)) with
  | .ok .file => pure ()
  | _ => throw (.inputMissing configuration.input)
  prepareTargets (configuration.output.toList ++ configuration.backup.toList)
  return configuration.settings

end Configuration

end EnumNames
