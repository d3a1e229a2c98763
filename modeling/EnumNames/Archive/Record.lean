import EnumNames.Archive.Entry
import EnumNames.Bytes.Cursor
import EnumNames.Bytes.LittleEndian
import EnumNames.Text.CodePage437
import EnumNames.Text.Utf8

/-!
The records of an archive's directory. Numbers are stored with their lowest byte first.
-/

namespace EnumNames

/-- A field reader moves over the bytes of an archive. -/
abbrev FieldReader (α : Type) := EStateM ArchiveFault Cursor α

namespace FieldReader

def bytes (width : Nat) : FieldReader ByteArray := fun cursor =>
  if cursor.position + width ≤ cursor.bytes.size then
    .ok (cursor.bytes.extract cursor.position (cursor.position + width)) (cursor.advance width)
  else
    .error (.access .endOfInput) cursor

def number (width : Nat) : FieldReader Nat := do
  return LittleEndian.decode (← bytes width)

def u2 : FieldReader UInt16 := do return UInt16.ofNat (← number 2)

def u4 : FieldReader UInt32 := do return UInt32.ofNat (← number 4)

def position : FieldReader Nat := fun cursor => .ok cursor.position cursor

/-- No file reaches this position. -/
def positionLimit : Nat := 0x8000000000000000

/-- A position may lie behind the end; only positions that no file can have are refused. -/
def seek (position : Nat) : FieldReader Unit := fun cursor =>
  if position < positionLimit then
    .ok () { cursor with position }
  else
    .error (.access .invalidArgument) cursor

def evaluate {α : Type} (reader : FieldReader α) (bytes : ByteArray) : Except ArchiveFault α :=
  match reader (Cursor.start bytes) with
  | .ok value _ => .ok value
  | .error fault _ => .error fault

end FieldReader

/-- This is what the directory stores about an entry. The header offset counts from the start of
the file. -/
structure Record where
  host : Nat
  isEncrypted : Bool
  compression : Compression
  modified : Timestamp
  checksum : UInt32
  compressedSize : Nat
  size : Nat
  attributes : UInt32
  name : String
  headerOffset : Nat
  hasKeyStrength : Bool
  deriving DecidableEq, Repr, Inhabited

namespace Record

def signature : Nat := 0x02014B50

def localSignature : Nat := 0x04034B50

/-- A field with all bits set is too small for its value, which an extra field then holds. -/
def overflow : Nat := 0xFFFFFFFF

/-- Offsets have at most 64 bits. -/
def offsetLimit : Nat := 0x10000000000000000

/-- An extra field changes the record while it is read, so that a field that ends too early has
changed the record as far as it reaches. -/
structure ExtraState where
  record : Record
  cursor : Cursor

abbrev ExtraReader (α : Type) := EStateM ArchiveFault ExtraState α

namespace ExtraReader

def field {α : Type} (reader : FieldReader α) : ExtraReader α := fun state =>
  match reader state.cursor with
  | .ok value cursor => .ok value { state with cursor }
  | .error fault cursor => .error fault { state with cursor }

def change (update : Record → Record) : ExtraReader Unit :=
  modify fun state => { state with record := update state.record }

/-- The number is replaced only when it did not fit. The result counts the bytes used. -/
def widen (number : Record → Nat) (update : Nat → Record → Record) : ExtraReader Nat := do
  if number (← get).record = overflow then
    let wide ← field (FieldReader.number 8)
    change (update wide)
    return 8
  else
    return 0

def readWide : ExtraReader Nat := do
  let first ← widen (·.size) fun size record => { record with size }
  let second ← widen (·.compressedSize) fun compressedSize record => { record with compressedSize }
  let third ← widen (·.headerOffset) fun headerOffset record => { record with headerOffset }
  return first + second + third

end ExtraReader

/-- The field of an encrypted entry names the method used before encryption. -/
def readKeyStrength (length : Nat) : FieldReader Compression := do
  if length ≠ 7 then
    throw (.unsupported "AES extra data field has an unsupported length")
  let version ← FieldReader.number 2
  let vendor ← FieldReader.number 2
  let strength ← FieldReader.number 1
  let method ← FieldReader.u2
  if vendor ≠ 0x4541 then
    throw (.invalid "Invalid AES vendor")
  if version ≠ 1 ∧ version ≠ 2 then
    throw (.invalid "Invalid AES vendor version")
  if strength < 1 ∨ 3 < strength then
    throw (.invalid "Invalid AES encryption strength")
  return .ofNumber method

namespace ExtraReader

/-- The result counts the bytes of the field that are not skipped afterwards. -/
def readBody (kind length : Nat) : ExtraReader Nat := do
  if kind = 0x0001 then
    readWide
  else if kind = 0x9901 then
    let compression ← field (readKeyStrength length)
    change fun record => { record with compression, hasKeyStrength := true }
    return 0
  else
    return 0

def read : ExtraReader Unit := do
  let kind ← field (FieldReader.number 2)
  let length ← field (FieldReader.number 2)
  let used ← readBody kind length
  let position ← field FieldReader.position
  field (FieldReader.seek (position + (length - used)))

end ExtraReader

/-- An extra field that ends too early is the last one. -/
def readExtraFields (state : ExtraState) : Except ArchiveFault Record :=
  if state.cursor.position < state.cursor.bytes.size then
    match ExtraReader.read state with
    | .ok () next =>
      if next.cursor.remaining < state.cursor.remaining then readExtraFields next
      else .ok next.record
    | .error (.access _) next => .ok next.record
    | .error fault _ => .error fault
  else
    .ok state.record
termination_by state.cursor.remaining

/-- A flag tells in which character set the name is written. -/
def readName (isUtf8 : Bool) (bytes : ByteArray) : String :=
  if isUtf8 then Utf8.decodeLossy bytes else CodePage437.decode bytes

/-- Bytes in front of the archive shift all offsets. -/
def finish (record : Record) (shift : Nat) : Except ArchiveFault Record :=
  if record.compression = .other 99 ∧ ¬ record.hasKeyStrength then
    .error (.invalid "AES encryption without AES extra data field")
  else if record.headerOffset + shift < offsetLimit then
    .ok { record with headerOffset := record.headerOffset + shift }
  else
    .error (.invalid "Archive header is too large")

def read (shift : Nat) : FieldReader Record := do
  if (← FieldReader.number 4) ≠ signature then
    throw (.invalid "Invalid Central Directory header")
  let version ← FieldReader.number 2
  let _ ← FieldReader.number 2
  let flags ← FieldReader.number 2
  let method ← FieldReader.u2
  let time ← FieldReader.u2
  let date ← FieldReader.u2
  let checksum ← FieldReader.u4
  let compressedSize ← FieldReader.number 4
  let size ← FieldReader.number 4
  let nameLength ← FieldReader.number 2
  let extraLength ← FieldReader.number 2
  let commentLength ← FieldReader.number 2
  let _ ← FieldReader.number 4
  let attributes ← FieldReader.u4
  let headerOffset ← FieldReader.number 4
  let name ← FieldReader.bytes nameLength
  let extra ← FieldReader.bytes extraLength
  let _ ← FieldReader.bytes commentLength
  let record : Record :=
    { host := version / 256
      isEncrypted := flags.testBit 0
      compression := .ofNumber method
      modified := { date, time }
      checksum, compressedSize, size, attributes, headerOffset
      name := readName (flags.testBit 11) name
      hasKeyStrength := false }
  match readExtraFields ⟨record, Cursor.start extra⟩ >>= (finish · shift) with
  | .ok record => return record
  | .error fault => throw fault

/-- The attributes of one system are a mode; those of another stand for one. -/
def mode (record : Record) : Option UInt32 :=
  if record.attributes = 0 then none
  else if record.host = 3 then some (record.attributes >>> 16)
  else if record.host = 0 then
    let mode : UInt32 := if record.attributes &&& 0x10 = 0x10 then 0o40775 else 0o100664
    some (if record.attributes &&& 0x01 = 0x01 then mode &&& 0o555 else mode)
  else none

def entry (record : Record) (index : Nat) : Entry where
  index
  name := record.name
  isDirectory := Entry.namesDirectory record.name
  compression := record.compression
  modified := record.modified
  mode := record.mode
  size := record.size

/-- The content starts behind the local header, whose own name and extra fields are skipped. -/
def readContentStart (record : Record) : FieldReader Nat := do
  FieldReader.seek record.headerOffset
  if (← FieldReader.number 4) ≠ localSignature then
    throw (.invalid "Invalid local file header")
  let position ← FieldReader.position
  FieldReader.seek (position + 22)
  let nameLength ← FieldReader.number 2
  let extraLength ← FieldReader.number 2
  let start := record.headerOffset + 30 + nameLength + extraLength
  FieldReader.seek start
  return start

end Record

end EnumNames
