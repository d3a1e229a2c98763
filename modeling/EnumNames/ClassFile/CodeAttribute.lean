import EnumNames.ClassFile.Layout

/-!
The `Code` attribute of a method: its limits, the place of its instructions, its exception table
and its own attributes.
-/

namespace EnumNames

/-- The handler covers the offsets from `start` up to `stop`. -/
structure ExceptionRow where
  start : UInt16
  stop : UInt16
  handler : UInt16
  catchType : UInt16
  deriving DecidableEq, Repr, Inhabited

structure CodeAttribute where
  maxStack : UInt16
  maxLocals : UInt16
  code : Span
  exceptions : List ExceptionRow
  attributes : List Attribute
  deriving DecidableEq, Repr, Inhabited

namespace ExceptionRow

def read : Reader ExceptionRow := do
  let start ← Reader.u2
  let stop ← Reader.u2
  let handler ← Reader.u2
  let catchType ← Reader.u2
  return { start, stop, handler, catchType }

def encode (row : ExceptionRow) : ByteArray :=
  BigEndian.encode16 row.start ++ BigEndian.encode16 row.stop ++
    BigEndian.encode16 row.handler ++ BigEndian.encode16 row.catchType

end ExceptionRow

namespace CodeAttribute

/-- Code is never empty and its offsets fit 16 bits. -/
def readCode : Reader Span := do
  let length := (← Reader.u4).toNat
  if length = 0 ∨ 65535 < length then
    Reader.fail (.codeLength length)
  let start ← Reader.position
  Reader.skip length
  return ⟨start, start + length⟩

def readExceptions : Reader (List ExceptionRow) := do
  let count ← Reader.u2
  Reader.replicate count.toNat ExceptionRow.read

def read (stop : Nat) : Reader CodeAttribute := do
  let maxStack ← Reader.u2
  let maxLocals ← Reader.u2
  let code ← readCode
  let exceptions ← readExceptions
  let attributes ← Attribute.readAll
  if (← Reader.position) ≠ stop then
    Reader.fail .codeMismatch
  return { maxStack, maxLocals, code, exceptions, attributes }

/-- The bytes after the body are out of reach, and the contents fill the body exactly. -/
def parse (data : ByteArray) (body : Span) : Except Failure CodeAttribute :=
  match read body.stop ⟨data.extract 0 body.stop, body.start⟩ with
  | .ok code _ => .ok code
  | .error failure _ => .error failure

end CodeAttribute

end EnumNames
