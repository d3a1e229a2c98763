import EnumNames.Failure

/-!
The slot for a failure that nobody waits for. It holds the first failure offered since it was last
emptied.
-/

namespace EnumNames

structure PendingFailure where
  held : Option (String × Failure)
  deriving DecidableEq, Repr, Inhabited

namespace PendingFailure

def empty : PendingFailure := ⟨none⟩

/-- The result tells whether the failure was kept. -/
def record (slot : PendingFailure) (origin : String) (cause : Failure) : Bool × PendingFailure :=
  match slot.held with
  | some _ => (false, slot)
  | none => (true, ⟨some (origin, cause)⟩)

def take (slot : PendingFailure) : Option (String × Failure) × PendingFailure :=
  (slot.held, empty)

/-- A check empties the slot as well. -/
def check (slot : PendingFailure) : Except Failure Unit × PendingFailure :=
  match slot.held with
  | some (origin, cause) => (.error (.uncaught origin cause), empty)
  | none => (.ok (), empty)

end PendingFailure

end EnumNames
