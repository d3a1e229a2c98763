import EnumNames.Bytes.Access

/-!
Instruction boundaries. Only lengths and a few operands matter; no instruction is interpreted.
-/

namespace EnumNames

namespace Opcode

def loadConstant : UInt8 := 0x12

def loadConstantWide : UInt8 := 0x13

def loadConstantDouble : UInt8 := 0x14

def increment : UInt8 := 0x84

def tableSwitch : UInt8 := 0xAA

def lookupSwitch : UInt8 := 0xAB

def putStatic : UInt8 := 0xB3

def new : UInt8 := 0xBB

/-- The length of an instruction is fixed by its opcode, or by the operands of these few. -/
inductive Shape where
  | fixed (length : Nat) (positive : 0 < length)
  | tableSwitch
  | lookupSwitch
  | wide
  | invalid

def shape (opcode : UInt8) : Shape :=
  let number := opcode.toNat
  if number ≤ 0x0F then .fixed 1 (by decide)
  else if number = 0x10 then .fixed 2 (by decide)
  else if number = 0x11 then .fixed 3 (by decide)
  else if number = 0x12 then .fixed 2 (by decide)
  else if number ≤ 0x14 then .fixed 3 (by decide)
  else if number ≤ 0x19 then .fixed 2 (by decide)
  else if number ≤ 0x35 then .fixed 1 (by decide)
  else if number ≤ 0x3A then .fixed 2 (by decide)
  else if number ≤ 0x83 then .fixed 1 (by decide)
  else if number = 0x84 then .fixed 3 (by decide)
  else if number ≤ 0x98 then .fixed 1 (by decide)
  else if number ≤ 0xA8 then .fixed 3 (by decide)
  else if number = 0xA9 then .fixed 2 (by decide)
  else if number = 0xAA then .tableSwitch
  else if number = 0xAB then .lookupSwitch
  else if number ≤ 0xB1 then .fixed 1 (by decide)
  else if number ≤ 0xB8 then .fixed 3 (by decide)
  else if number ≤ 0xBA then .fixed 5 (by decide)
  else if number = 0xBB then .fixed 3 (by decide)
  else if number = 0xBC then .fixed 2 (by decide)
  else if number = 0xBD then .fixed 3 (by decide)
  else if number ≤ 0xBF then .fixed 1 (by decide)
  else if number ≤ 0xC1 then .fixed 3 (by decide)
  else if number ≤ 0xC3 then .fixed 1 (by decide)
  else if number = 0xC4 then .wide
  else if number = 0xC5 then .fixed 4 (by decide)
  else if number ≤ 0xC7 then .fixed 3 (by decide)
  else if number ≤ 0xC9 then .fixed 5 (by decide)
  else .invalid

/-- These opcodes load an entry of the constant pool. -/
def isLoad (opcode : UInt8) : Bool :=
  opcode == loadConstant || opcode == loadConstantWide || opcode == loadConstantDouble

end Opcode

/-- A jump is written with 16 or 32 bits behind the opcode, or in the table of a switch. -/
inductive Jump where
  | short
  | long
  | switch
  deriving DecidableEq, Repr, Inhabited

def Opcode.jump? (opcode : UInt8) : Option Jump :=
  let number := opcode.toNat
  if 0x99 ≤ number ∧ number ≤ 0xA8 ∨ number = 0xC6 ∨ number = 0xC7 then some .short
  else if number = 0xC8 ∨ number = 0xC9 then some .long
  else if number = 0xAA ∨ number = 0xAB then some .switch
  else none

/-- The length counts the opcode, its operands and the padding of a switch. -/
structure Instruction where
  offset : Nat
  opcode : UInt8
  length : Nat
  positive : 0 < length
  deriving DecidableEq, Repr

/-- The operands of a switch start at the next multiple of four behind its opcode. -/
def switchPadding (offset : Nat) : Nat := (4 - (offset + 1) % 4) % 4

theorem switchPadding_aligns (offset : Nat) : (offset + 1 + switchPadding offset) % 4 = 0 := by
  unfold switchPadding
  omega

namespace Instruction

/-- This is the offset just behind the instruction. -/
def stop (instruction : Instruction) : Nat := instruction.offset + instruction.length

def jump? (instruction : Instruction) : Option Jump := Opcode.jump? instruction.opcode

/-- The operand stands right behind the opcode. -/
def index (instruction : Instruction) (code : ByteArray) : Except Failure UInt16 :=
  Access.u2 code (instruction.offset + 1)

/-- A narrow load has an index of one byte. -/
def loadIndex (instruction : Instruction) (code : ByteArray) : Except Failure UInt16 :=
  if instruction.opcode = Opcode.loadConstant then
    return (← Access.u1 code (instruction.offset + 1)).toUInt16
  else
    instruction.index code

/-- A missing operand is blamed on the switch it belongs to. -/
def switchWord (code : ByteArray) (index offset : Nat) : Except Failure Int :=
  match Access.i4? code index with
  | some word => .ok word.toInt
  | none => .error (.malformedClass offset .truncatedSwitch)

/-- A decoded length is never zero, so decoding always makes progress. -/
abbrev Length := { length : Nat // 0 < length }

def tableSwitchLength (code : ByteArray) (offset : Nat) : Except Failure Length := do
  let base := offset + 1 + switchPadding offset
  let low ← switchWord code (base + 4) offset
  let high ← switchWord code (base + 8) offset
  if high < low then
    throw (.malformedClass offset (.emptyTable high low))
  return ⟨1 + switchPadding offset + 12 + (high - low + 1).toNat * 4, by omega⟩

def lookupSwitchLength (code : ByteArray) (offset : Nat) : Except Failure Length := do
  let base := offset + 1 + switchPadding offset
  let pairs ← switchWord code (base + 4) offset
  if pairs < 0 then
    throw (.malformedClass offset (.negativePairs pairs))
  return ⟨1 + switchPadding offset + 8 + pairs.toNat * 8, by omega⟩

/-- A widened instruction has its index doubled, and a widened increment its amount as well. -/
def wideLength (code : ByteArray) (offset : Nat) : Except Failure Length :=
  match code[offset + 1]? with
  | none => .error (.malformedClass offset .truncatedWide)
  | some opcode =>
    if opcode = Opcode.increment then .ok ⟨6, by decide⟩ else .ok ⟨4, by decide⟩

def decodeLength (code : ByteArray) (offset : Nat) (opcode : UInt8) : Except Failure Length :=
  match Opcode.shape opcode with
  | .fixed length positive => .ok ⟨length, positive⟩
  | .tableSwitch => tableSwitchLength code offset
  | .lookupSwitch => lookupSwitchLength code offset
  | .wide => wideLength code offset
  | .invalid => .error (.malformedClass offset (.invalidOpcode opcode))

def decode (code : ByteArray) (offset : Nat) : Except Failure Instruction := do
  let opcode ← Access.u1 code offset
  let length ← decodeLength code offset opcode
  if code.size < offset + length.val then
    throw (.malformedClass offset (.pastEnd opcode))
  return { offset, opcode, length := length.val, positive := length.property }

/-- The instructions found so far are held in reverse. -/
def decodeOnto (code : ByteArray) (done : List Instruction) (offset : Nat) :
    Except Failure (List Instruction) :=
  if offset < code.size then
    match decode code offset with
    | .error failure => .error failure
    | .ok instruction =>
      have := instruction.positive
      decodeOnto code (instruction :: done) (offset + instruction.length)
  else
    .ok done.reverse
termination_by code.size - offset

def decodeAll (code : ByteArray) : Except Failure (List Instruction) :=
  decodeOnto code [] 0

end Instruction

end EnumNames
