import EnumNames.Archive.Directory
import EnumNames.EnumUnit.Classify
import EnumNames.EnumUnit.Repair

/-!
What becomes of the entries of an archive. Every entry is processed from its own bytes alone.
-/

namespace EnumNames

/-- The numbers are those of an enum class: all its constants, and those that were renamed. -/
structure Processed where
  entry : Entry
  content : Content
  constants : Option (Nat × Nat)

namespace Processed

/-- What is no enum class keeps its bytes. -/
def ofKept (entry : Entry) (data : ByteArray) : Processed :=
  { entry, content := .kept data, constants := none }

/-- A class whose names all match keeps its bytes. -/
def ofRepaired (entry : Entry) (data : ByteArray) (repaired : Repaired) : Processed where
  entry
  content :=
    if repaired.changed = 0 then .kept data else .repaired repaired.bytes repaired.size
  constants := some (repaired.substitutions, repaired.changed)

def ofClass (entry : Entry) (data : ByteArray) : Except Failure Processed := do
  match ← EnumUnit.classify data with
  | none => return ofKept entry data
  | some unit => return ofRepaired entry data (← unit.repair data)

/-- Only classes are looked into. -/
def ofEntry (entry : Entry) (data : ByteArray) : Except Failure Processed :=
  if entry.isUnit then
    (ofClass entry data).mapError (.entry entry.name)
  else
    .ok (ofKept entry data)

def isRenamed (processed : Processed) : Bool :=
  match processed.constants with
  | some (_, changed) => changed != 0
  | none => false

def changed (processed : Processed) : Nat := (processed.constants.map Prod.snd).getD 0

end Processed

namespace Archive

/-- A failed read names its entry. -/
def readEntry (archive : Archive) (entry : Entry) : Except Failure ByteArray :=
  ((archive.read entry.index).awaited entry.name).mapError (.entry entry.name)

/-- The failures of classes come before those of other entries. -/
def readAll (archive : Archive) : Except Failure (List (Entry × ByteArray)) := do
  let reads := archive.entries.map fun entry => (entry, archive.readEntry entry)
  let _ ← (reads.filter (·.1.isUnit)).mapM Prod.snd
  reads.mapM fun (entry, result) => return (entry, ← result)

end Archive

end EnumNames
