import EnumNames.Bytecode.Relocation
import EnumNames.ClassFile.CodeAttribute

/-!
Exception rows, line numbers and variable ranges after a relocation. Each row keeps its place and
names the same instructions as before.
-/

namespace EnumNames.Relocation

/-- The type of the caught exception is no offset. -/
def exceptionRow (relocation : Relocation) (row : ExceptionRow) :
    Except Failure ExceptionRow := do
  let start ← relocation.map16 row.start
  let stop ← relocation.map16 row.stop
  let handler ← relocation.map16 row.handler
  return { row with start, stop, handler }

/-- A table is a number of rows, each of which is read and written anew. -/
def rows (row : Reader ByteArray) : Reader ByteArray := do
  let count ← Reader.u2
  let written ← Reader.replicate count.toNat row
  return BigEndian.encode16 count ++ concat written

def lineRow (relocation : Relocation) : Reader ByteArray := do
  let start ← Reader.u2
  let line ← Reader.u2
  let start ← Reader.ofExcept (relocation.map16 start)
  return BigEndian.encode16 start ++ BigEndian.encode16 line

/-- The end of a range never exceeds the largest offset of 16 bits. -/
def rangeStop (start length : UInt16) : UInt16 :=
  UInt16.ofNat (min (start.toNat + length.toNat) 65535)

/-- The new length of a range is the distance between its new ends. -/
def rangeLength (start stop : UInt16) : Except Failure UInt16 :=
  if start ≤ stop then
    .ok (stop - start)
  else
    .error (.malformedClass stop.toNat (.outOfRange stop.toNat start.toNat))

def variableRow (relocation : Relocation) : Reader ByteArray := do
  let start ← Reader.u2
  let length ← Reader.u2
  let rest ← Reader.bytes 6
  let newStart ← Reader.ofExcept (relocation.map16 start)
  let newStop ← Reader.ofExcept (relocation.map16 (rangeStop start length))
  let newLength ← Reader.ofExcept (rangeLength newStart newStop)
  return BigEndian.encode16 newStart ++ BigEndian.encode16 newLength ++ rest

end EnumNames.Relocation
