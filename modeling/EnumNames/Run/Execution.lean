import EnumNames.Archive.Assembly
import EnumNames.Run.Backup
import EnumNames.Run.Configuration
import EnumNames.Run.Processed

/-!
A run reads an archive, repairs its enum classes and writes the result. The output is only touched
after everything else has succeeded.
-/

namespace EnumNames

structure Report where
  entries : Nat
  classes : Nat
  enums : Nat
  renamed : Nat
  substitutions : Nat
  output : String
  deriving DecidableEq, Repr, Inhabited

namespace Report

def ofProcessed (output : String) (processed : List Processed) : Report where
  entries := processed.length
  classes := processed.countP (·.entry.isUnit)
  enums := processed.countP (·.constants.isSome)
  renamed := processed.countP Processed.isRenamed
  substitutions := processed.foldl (fun total item => total + item.changed) 0
  output

def summary (report : Report) : String :=
  s!"{report.output}: {report.entries} entries, {report.classes} classes, " ++
    s!"{report.enums} enums, {report.renamed} rewritten " ++
    s!"({report.substitutions} constants renamed)"

end Report

namespace Archive

variable {m : Type → Type} [Monad m] [Disk m]

/-- A directory can be opened like a file, and only reading it as an archive fails. -/
def ofRead (path : String) : Except OsError ByteArray → Except Failure Archive
  | .ok bytes => (Archive.open bytes).mapError .archive
  | .error .isDirectory => .error (.archive (.access .isDirectory))
  | .error cause => .error (.fileRead path cause)

def load (path : String) : m (Except Failure Archive) := return ofRead path (← Disk.read path)

def save (path : String) (parts : List (Entry × Content)) : m (Except Failure Unit) := do
  return (← Disk.write path (assemble parts)).mapError (.fileWrite path)

end Archive

namespace Settings

variable {m : Type → Type} [Monad m] [Disk m]

/-- The failure of the backup counts after those of the reads and before those of the repairs. -/
def processed (archive : Except Failure Archive) (backup : Except Failure Unit) :
    Except Failure (List Processed) := do
  let contents ← (← archive).readAll
  backup
  contents.mapM fun (entry, data) => Processed.ofEntry entry data

/-- The backup is made even when the run fails otherwise. -/
def process (settings : Settings) : m (Except Failure (List Processed)) := do
  let archive ← Archive.load settings.input
  let backup ← Backup.makeIfWanted settings.input settings.backup
  return processed archive backup

def write (settings : Settings) (processed : List Processed) : ExceptT Failure m Report := do
  ExceptT.mk (Archive.save settings.output (processed.map fun item => (item.entry, item.content)))
  return .ofProcessed settings.output processed

/-- A run without workers could not do anything. -/
def run (settings : Settings) : ExceptT Failure m Report := do
  if settings.workers = 0 then
    throw (.invalidConcurrency 0)
  settings.write (← ExceptT.mk settings.process)

end Settings

/-- The configuration is checked before the run starts. -/
def Configuration.run {m : Type → Type} [Monad m] [Disk m] (configuration : Configuration) :
    ExceptT Failure m Report := do
  (← configuration.validate).run

end EnumNames
