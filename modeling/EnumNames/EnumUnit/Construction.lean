import EnumNames.EnumUnit.Classify

/-!
A compiler turns every enum constant into the same group of instructions: allocate the object,
load its name, run the constructor, store the object into its field. This machine follows the
groups of one static initializer and tells which loads have to yield which names.
-/

namespace EnumNames

/-- A literal that is no string is known by its description only. -/
inductive Literal where
  | string (value : String)
  | other (description : String)
  deriving DecidableEq, Repr, Inhabited

/-- This is all that the machine sees of an instruction. -/
inductive Step where
  | allocate (className : String)
  | load (literal : Literal)
  | store (field : MemberRef)
  | other
  deriving DecidableEq, Repr, Inhabited

inductive Action where
  | forward
  | substitute (name : String)
  deriving DecidableEq, Repr, Inhabited

/-- The phases of one group, between which the machine is idle. -/
inductive Phase where
  | idle
  | awaitingLiteral (name : String)
  | awaitingStore (name : String)
  deriving DecidableEq, Repr, Inhabited

def Phase.description : Phase → String
  | .idle => "idle"
  | .awaitingLiteral _ => "awaiting the name literal"
  | .awaitingStore _ => "awaiting the constant's putstatic"

/-- The remaining names have not been given to a literal yet. -/
structure Construction where
  unit : EnumUnit
  consumed : Nat
  remaining : List String
  phase : Phase
  deriving DecidableEq, Repr, Inhabited

namespace Construction

def start (unit : EnumUnit) : Construction :=
  { unit, consumed := 0, remaining := unit.constants, phase := .idle }

def mismatch {α : Type} (machine : Construction) (constructed : Nat) : Except Failure α :=
  .error (.constructionCountMismatch machine.unit.name machine.unit.constants.length constructed)

/-- The store that ends a group goes to the field of the constant itself. -/
def storesInto (machine : Construction) (name : String) (field : MemberRef) : Bool :=
  field == ⟨machine.unit.name, name, objectDescriptor machine.unit.name⟩

/-- A failed observation leaves the machine as it was. -/
def observe (machine : Construction) (step : Step) : Except Failure (Construction × Action) :=
  match machine.phase, step with
  | .idle, .allocate className =>
    match machine.remaining with
    | name :: _ => .ok ({ machine with phase := .awaitingLiteral name }, .forward)
    | [] =>
      if className = machine.unit.name then machine.mismatch (machine.consumed + 1)
      else .ok (machine, .forward)
  | .awaitingLiteral name, .load (.string _) =>
    .ok ({ machine with
        consumed := machine.consumed + 1
        remaining := machine.remaining.tail
        phase := .awaitingStore name }, .substitute name)
  | .awaitingLiteral _, .load (.other description) =>
    .error (.nonStringLiteral machine.unit.name description)
  | .awaitingStore name, .store field =>
    if machine.storesInto name field then .ok ({ machine with phase := .idle }, .forward)
    else .ok (machine, .forward)
  | _, _ => .ok (machine, .forward)

/-- At the end of the initializer every group is complete and every name is used. -/
def finish (machine : Construction) : Except Failure Nat :=
  if machine.phase ≠ .idle then
    .error (.incompleteConstruction machine.unit.name machine.phase.description)
  else if machine.consumed ≠ machine.unit.constants.length then
    machine.mismatch machine.consumed
  else
    .ok machine.consumed

end Construction

end EnumNames
