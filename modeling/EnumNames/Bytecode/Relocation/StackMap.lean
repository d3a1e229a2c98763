import EnumNames.Bytecode.Relocation

/-!
The stack map of a method after a relocation. Frames are stored with the distance to the frame
before, and short distances have a shorter form.
-/

namespace EnumNames

/-- Only an uninitialized value names an offset; it is where the value was allocated. -/
inductive Verification where
  | simple (tag : UInt8)
  | object (constant : UInt16)
  | uninitialized (offset : UInt16)
  deriving DecidableEq, Repr, Inhabited

/-- A frame without its distance. A chop drops one, two or three locals. -/
inductive Frame where
  | same
  | sameWithItem (item : Verification)
  | chop (count : Nat)
  | append (items : List Verification)
  | full (locals stack : List Verification)
  deriving DecidableEq, Repr, Inhabited

namespace Verification

def read : Reader Verification := do
  let offset ← Reader.position
  let tag ← Reader.u1
  if tag ≤ 6 then
    return .simple tag
  else if tag = 7 then
    return .object (← Reader.u2)
  else if tag = 8 then
    return .uninitialized (← Reader.u2)
  else
    Reader.failAt offset (.unknownVerification tag)

def encode : Verification → ByteArray
  | .simple tag => ⟨#[tag]⟩
  | .object constant => ⟨#[7]⟩ ++ BigEndian.encode16 constant
  | .uninitialized offset => ⟨#[8]⟩ ++ BigEndian.encode16 offset

def relocate (relocation : Relocation) : Verification → Except Failure Verification
  | .uninitialized offset => return .uninitialized (← relocation.map16 offset)
  | item => return item

end Verification

namespace Frame

def readItems : Reader (List Verification) := do
  let count ← Reader.u2
  Reader.replicate count.toNat Verification.read

/-- The bytes after the tag are the distance, when the tag does not hold it, and the items. -/
def readBody (offset : Nat) (tag : UInt8) : Reader (UInt16 × Frame) := do
  let number := tag.toNat
  if number ≤ 63 then
    return (tag.toUInt16, .same)
  else if number ≤ 127 then
    return (tag.toUInt16 - 64, .sameWithItem (← Verification.read))
  else if number ≤ 246 then
    Reader.failAt offset (.reservedFrame tag)
  else
    let distance ← Reader.u2
    if number = 247 then
      return (distance, .sameWithItem (← Verification.read))
    else if number ≤ 250 then
      return (distance, .chop (251 - number))
    else if number = 251 then
      return (distance, .same)
    else if number ≤ 254 then
      return (distance, .append (← Reader.replicate (number - 251) Verification.read))
    else
      let locals ← readItems
      let stack ← readItems
      return (distance, .full locals stack)

def read : Reader (UInt16 × Frame) := do
  let offset ← Reader.position
  let tag ← Reader.u1
  readBody offset tag

def encodeItems (items : List Verification) : ByteArray :=
  Relocation.concat (items.map Verification.encode)

/-- A distance of at most 63 fits into the tag of the two simplest frames. -/
def encode (distance : UInt16) : Frame → ByteArray
  | .same =>
      if distance ≤ 63 then ⟨#[distance.toUInt8]⟩
      else ⟨#[251]⟩ ++ BigEndian.encode16 distance
  | .sameWithItem item =>
      (if distance ≤ 63 then ⟨#[64 + distance.toUInt8]⟩
        else ⟨#[247]⟩ ++ BigEndian.encode16 distance) ++ item.encode
  | .chop count => ⟨#[251 - UInt8.ofNat count]⟩ ++ BigEndian.encode16 distance
  | .append items =>
      ⟨#[251 + UInt8.ofNat items.length]⟩ ++ BigEndian.encode16 distance ++ encodeItems items
  | .full locals stack =>
      ⟨#[255]⟩ ++ BigEndian.encode16 distance ++
        BigEndian.encodeCount locals.length ++ encodeItems locals ++
        BigEndian.encodeCount stack.length ++ encodeItems stack

def relocate (relocation : Relocation) : Frame → Except Failure Frame
  | .sameWithItem item => return .sameWithItem (← item.relocate relocation)
  | .append items => return .append (← items.mapM (·.relocate relocation))
  | .full locals stack => do
    let locals ← locals.mapM (·.relocate relocation)
    let stack ← stack.mapM (·.relocate relocation)
    return .full locals stack
  | frame => return frame

end Frame

namespace Relocation

/-- The first distance counts from the start of the code, every other one from behind the frame
before. -/
def frameOffset (previous : Option Nat) (distance : Nat) : Nat :=
  match previous with
  | none => distance
  | some previous => previous + distance + 1

/-- This inverts `frameOffset`; it fails for an offset that is not behind the frame before. -/
def frameDistance (relocation : Relocation) (previous : Option Nat) (offset : Nat) :
    Except Failure UInt16 := do
  let first := match previous with
    | none => 0
    | some previous => previous + 1
  if offset < first then
    .error (.malformedClass offset (.outOfRange first offset))
  else if offset - first < 65536 then
    return UInt16.ofNat (offset - first)
  else
    refuse relocation.unit .frameDelta

/-- One frame is read, moved and written; the result holds its old and its new offset as well. -/
def frame (relocation : Relocation) (previous : Option (Nat × Nat)) :
    Reader ((Nat × Nat) × ByteArray) := do
  let (distance, frame) ← Frame.read
  let old := frameOffset (previous.map Prod.fst) distance.toNat
  let new ← Reader.ofExcept (relocation.map old)
  let distance ← Reader.ofExcept (relocation.frameDistance (previous.map Prod.snd) new)
  let frame ← Reader.ofExcept (frame.relocate relocation)
  return ((old, new), frame.encode distance)

/-- The frames are moved one by one, and their bytes are gathered. -/
def framesOnto (relocation : Relocation) (previous : Option (Nat × Nat)) (done : ByteArray) :
    Nat → Reader ByteArray
  | 0 => pure done
  | count + 1 => fun cursor =>
    match relocation.frame previous cursor with
    | .ok (offsets, bytes) next =>
      framesOnto relocation (some offsets) (done ++ bytes) count next
    | .error failure next => .error failure next

def stackMap (relocation : Relocation) : Reader ByteArray := do
  let count ← Reader.u2
  relocation.framesOnto none (BigEndian.encode16 count) count.toNat

end Relocation

end EnumNames
