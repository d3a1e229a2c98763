import EnumNames.ClassFile.Constant

/-!
The constant pool: reading it, resolving indices, and finding or adding string constants. Entries
are only ever added at the end, so an index keeps its meaning.
-/

namespace EnumNames

/-- An empty slot is the one at index zero or the second one of a wide constant. -/
structure ConstantPool where
  slots : Array (Option Constant)
  appended : ByteArray

/-- A member is known by its owner, its name and its descriptor. -/
structure MemberRef where
  owner : String
  name : String
  descriptor : String
  deriving DecidableEq, Repr, Inhabited

namespace ConstantPool

/-- The first argument counts the slots that are still missing. -/
def readSlots : Nat → Array (Option Constant) → Reader (Array (Option Constant))
  | 0, slots => pure slots
  | missing + 1, slots => fun cursor =>
    match Constant.read cursor with
    | .error failure next => .error failure next
    | .ok constant next =>
      if constant.isWide then
        match missing with
        | 0 => Reader.fail .poolOverrun next
        | missing + 1 => readSlots missing (slots.push (some constant) |>.push none) next
      else
        readSlots missing (slots.push (some constant)) next

def read : Reader ConstantPool := do
  let offset ← Reader.position
  let count ← Reader.u2
  if count = 0 then
    Reader.failAt offset .emptyPool
  let slots ← readSlots (count.toNat - 1) #[none]
  return ⟨slots, .empty⟩

/-- The count includes the slot at index zero. -/
def count (pool : ConstantPool) : Nat := pool.slots.size

/-- Failures of the pool itself carry no offset of their own. -/
def refuse {α : Type} (fault : ClassFault) : Except Failure α :=
  .error (.malformedClass 0 fault)

def get (pool : ConstantPool) (index : UInt16) : Except Failure Constant :=
  match pool.slots[index.toNat]? with
  | some (some constant) => .ok constant
  | _ => refuse (.invalidIndex index)

def utf8 (pool : ConstantPool) (index : UInt16) : Except Failure String := do
  match ← pool.get index with
  | .utf8 text => return text
  | other => refuse (.wrongKind index other.kind "utf8")

def className (pool : ConstantPool) (index : UInt16) : Except Failure String := do
  match ← pool.get index with
  | .classRef name => pool.utf8 name
  | other => refuse (.wrongKind index other.kind "class")

/-- Only a string constant has a string value. -/
def stringValue (pool : ConstantPool) (index : UInt16) : Except Failure (Option String) := do
  match ← pool.get index with
  | .string text => return some (← pool.utf8 text)
  | _ => return none

def nameAndType (pool : ConstantPool) (index : UInt16) : Except Failure (UInt16 × UInt16) := do
  match ← pool.get index with
  | .nameAndType name descriptor => return (name, descriptor)
  | other => refuse (.wrongKind index other.kind "name and type")

def memberRef (pool : ConstantPool) (index : UInt16) : Except Failure MemberRef := do
  match ← pool.get index with
  | .member _ owner nameAndType =>
    let (name, descriptor) ← pool.nameAndType nameAndType
    let owner ← pool.className owner
    let name ← pool.utf8 name
    let descriptor ← pool.utf8 descriptor
    return { owner, name, descriptor }
  | other => refuse (.wrongKind index other.kind "member reference")

/-- This is the lowest index of a string constant with the given value. -/
def findString? (pool : ConstantPool) (value : String) : Option UInt16 :=
  (pool.slots.findIdx? fun slot =>
    match slot with
    | some (.string text) =>
      match pool.utf8 text with
      | .ok found => found == value
      | .error _ => false
    | _ => false).map UInt16.ofNat

/-- This is the lowest index of a text equal to the given one. -/
def findText? (pool : ConstantPool) (text : String) : Option UInt16 :=
  (pool.slots.findIdx? fun slot =>
    match slot with
    | some (.utf8 found) => found == text
    | _ => false).map UInt16.ofNat

/-- The pool survives a failure as the failed step left it. -/
abbrev Edit (α : Type) := EStateM Failure ConstantPool α

/-- The highest index that can be given to a new entry is 65534. -/
def append (constant : Constant) : Edit UInt16 := fun pool =>
  if pool.slots.size < 65535 then
    .ok (UInt16.ofNat pool.slots.size)
      { slots := pool.slots.push (some constant), appended := pool.appended ++ constant.encode }
  else
    .error (.malformedClass 0 .poolFull) pool

def findOrAppendText (text : String) : Edit UInt16 := fun pool =>
  match pool.findText? text with
  | some index => .ok index pool
  | none =>
    let size := (ModifiedUtf8.encode text).size
    if size < 65536 then
      append (.utf8 text) pool
    else
      .error (.malformedClass 0 (.textTooLong size)) pool

/-- A string constant is found or appended, over a text that is found or appended. -/
def intern (value : String) : Edit UInt16 := fun pool =>
  match pool.findString? value with
  | some index => .ok index pool
  | none => (findOrAppendText value >>= fun text => append (.string text)) pool

end ConstantPool

end EnumNames
