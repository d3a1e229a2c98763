import EnumNames.Failure
import EnumNames.Bytes.BigEndian

/-!
A cursor walks over the bytes of a class file. A read either consumes exactly its width or fails
at the position where it started, and a number of 64 bits is two reads of 32 bits.
-/

namespace EnumNames

/-- A span is the half-open range of positions from `start` up to `stop`. -/
structure Span where
  start : Nat
  stop : Nat
  deriving DecidableEq, Repr, Inhabited

def Span.length (span : Span) : Nat := span.stop - span.start

/-- The position may lie past the end of the bytes; nothing can be read there. -/
structure Cursor where
  bytes : ByteArray
  position : Nat

namespace Cursor

def start (bytes : ByteArray) : Cursor := ⟨bytes, 0⟩

/-- This is the number of bytes that can still be read. -/
def remaining (cursor : Cursor) : Nat := cursor.bytes.size - cursor.position

def advance (cursor : Cursor) (width : Nat) : Cursor :=
  { cursor with position := cursor.position + width }

end Cursor

/-- A reader moves a cursor; the cursor of a failed read shows where it stopped. -/
abbrev Reader (α : Type) := EStateM Failure Cursor α

namespace Reader

/-- The failure names the present position. -/
def fail {α : Type} (fault : ClassFault) : Reader α := fun cursor =>
  .error (.malformedClass cursor.position fault) cursor

/-- The failure names a position other than the present one. -/
def failAt {α : Type} (offset : Nat) (fault : ClassFault) : Reader α :=
  throw (.malformedClass offset fault)

def short {α : Type} (width : Nat) : Reader α := fun cursor =>
  .error (.malformedClass cursor.position (.needBytes width cursor.remaining)) cursor

def position : Reader Nat := fun cursor => .ok cursor.position cursor

def remaining : Reader Nat := fun cursor => .ok cursor.remaining cursor

/-- An operation without a cursor can take part in a read. -/
def ofExcept {α : Type} : Except Failure α → Reader α
  | .ok value => pure value
  | .error failure => throw failure

def skip (width : Nat) : Reader Unit := fun cursor =>
  if cursor.position + width ≤ cursor.bytes.size then
    .ok () (cursor.advance width)
  else
    short width cursor

def bytes (width : Nat) : Reader ByteArray := fun cursor =>
  if cursor.position + width ≤ cursor.bytes.size then
    .ok (cursor.bytes.extract cursor.position (cursor.position + width)) (cursor.advance width)
  else
    short width cursor

def u1 : Reader UInt8 := fun cursor =>
  if inside : cursor.position + 1 ≤ cursor.bytes.size then
    .ok cursor.bytes[cursor.position] (cursor.advance 1)
  else
    short 1 cursor

def u2 : Reader UInt16 := fun cursor =>
  if inside : cursor.position + 2 ≤ cursor.bytes.size then
    .ok (BigEndian.decode16 cursor.bytes[cursor.position] cursor.bytes[cursor.position + 1])
      (cursor.advance 2)
  else
    short 2 cursor

def u4 : Reader UInt32 := fun cursor =>
  if inside : cursor.position + 4 ≤ cursor.bytes.size then
    .ok (BigEndian.decode32 cursor.bytes[cursor.position] cursor.bytes[cursor.position + 1]
        cursor.bytes[cursor.position + 2] cursor.bytes[cursor.position + 3])
      (cursor.advance 4)
  else
    short 4 cursor

def i4 : Reader Int32 := do
  return (← u4).toInt32

/-- A number of 64 bits is read as two numbers of 32 bits. -/
def u8 : Reader UInt64 := do
  let high ← u4
  let low ← u4
  return BigEndian.decode64 high low

def repeatOnto {α : Type} (item : Reader α) : Nat → List α → Reader (List α)
  | 0, done => pure done.reverse
  | count + 1, done => fun cursor =>
    match item cursor with
    | .ok value next => repeatOnto item count (value :: done) next
    | .error failure next => .error failure next

/-- This reads a fixed number of items one after the other. -/
def replicate {α : Type} (count : Nat) (item : Reader α) : Reader (List α) :=
  repeatOnto item count []

/-- This runs a reader from the start of some bytes and forgets where it stopped. -/
def evaluate {α : Type} (reader : Reader α) (bytes : ByteArray) : Except Failure α :=
  match reader (Cursor.start bytes) with
  | .ok value _ => .ok value
  | .error failure _ => .error failure

end Reader

end EnumNames
