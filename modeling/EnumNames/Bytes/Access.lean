import EnumNames.Bytes.Cursor

/-!
Access to bytes by their position. A position outside the bytes is a failure, never a guess.
-/

namespace EnumNames.Access

def u1 (bytes : ByteArray) (index : Nat) : Except Failure UInt8 :=
  if inside : index < bytes.size then
    .ok bytes[index]
  else
    .error (.malformedClass index (.outOfRange index bytes.size))

def u2 (bytes : ByteArray) (index : Nat) : Except Failure UInt16 :=
  if inside : index + 1 < bytes.size then
    .ok (BigEndian.decode16 bytes[index] bytes[index + 1])
  else
    .error (.malformedClass index (.outOfRange index bytes.size))

def i4? (bytes : ByteArray) (index : Nat) : Option Int32 :=
  if inside : index + 3 < bytes.size then
    some (BigEndian.decode32 bytes[index] bytes[index + 1] bytes[index + 2]
      bytes[index + 3]).toInt32
  else
    none

def slice (bytes : ByteArray) (span : Span) : Except Failure ByteArray :=
  if span.start ≤ span.stop ∧ span.stop ≤ bytes.size then
    .ok (bytes.extract span.start span.stop)
  else
    .error (.malformedClass span.start (.outOfRange span.stop bytes.size))

/-- The replaced bytes keep their number. -/
def overwrite (bytes : ByteArray) (index : Nat) (replacement : ByteArray) :
    Except Failure ByteArray :=
  if index + replacement.size ≤ bytes.size then
    .ok (replacement.copySlice 0 bytes index replacement.size)
  else
    .error (.malformedClass index (.outOfRange index bytes.size))

end EnumNames.Access
