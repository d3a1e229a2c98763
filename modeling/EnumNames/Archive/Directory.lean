import EnumNames.Archive.Crc32
import EnumNames.Archive.Inflate
import EnumNames.Archive.Record
import EnumNames.Schedule.WorkerPool

/-!
Opening an archive and reading its entries. The directory at the end of the file decides what the
archive holds; contents are looked at only when they are read.
-/

namespace EnumNames

/-- The records are in the order of the directory. -/
structure Archive where
  bytes : ByteArray
  records : Array Record

namespace Archive

def endSignature : Nat := 0x06054B50

def wideEndSignature : Nat := 0x06064B50

def locatorSignature : Nat := 0x07064B50

/-- This record ends every archive; a comment may follow it. -/
structure End where
  position : Nat
  disk : Nat
  directoryDisk : Nat
  entriesHere : Nat
  entries : Nat
  directorySize : Nat
  directoryOffset : Nat
  commentLength : Nat
  deriving DecidableEq, Repr, Inhabited

/-- A field with all bits set tells that its value stands in the wide record. -/
def End.isTooSmall (record : End) : Bool :=
  record.disk == 0xFFFF || record.directoryDisk == 0xFFFF || record.entriesHere == 0xFFFF ||
    record.entries == 0xFFFF || record.directorySize == Record.overflow ||
    record.directoryOffset == Record.overflow

/-- This is where the directory starts, how many entries it has, and by how much all offsets are
shifted. -/
structure Place where
  shift : Nat
  start : Nat
  count : Nat
  deriving DecidableEq, Repr, Inhabited

def hasSignature (bytes : ByteArray) (position signature : Nat) : Bool :=
  LittleEndian.decode (bytes.extract position (position + 4)) == signature

/-- The last record wins; the comment behind it has at most 65535 bytes. -/
def findEnd? (bytes : ByteArray) : Option Nat :=
  let last := bytes.size - 22
  (List.range (min last 65535 + 1)).findSome? fun back =>
    if hasSignature bytes (last - back) endSignature then some (last - back) else none

def readEnd (position : Nat) : FieldReader End := do
  FieldReader.seek (position + 4)
  let disk ← FieldReader.number 2
  let directoryDisk ← FieldReader.number 2
  let entriesHere ← FieldReader.number 2
  let entries ← FieldReader.number 2
  let directorySize ← FieldReader.number 4
  let directoryOffset ← FieldReader.number 4
  let commentLength ← FieldReader.number 2
  let _ ← FieldReader.bytes commentLength
  return { position, disk, directoryDisk, entriesHere, entries, directorySize, directoryOffset,
           commentLength }

def severalDisks : ArchiveFault := .unsupported "Support for multi-disk files is not implemented"

def misplaced : ArchiveFault := .invalid "Invalid central directory size or offset"

/-- Bytes in front of the archive show in the distance between the end record and the place where
the directory says it ends. -/
def narrowPlace (record : End) : Except ArchiveFault Place :=
  if record.directorySize + record.directoryOffset ≤ record.position then
    let shift := record.position - record.directorySize - record.directoryOffset
    .ok { shift, start := record.directoryOffset + shift, count := record.entriesHere }
  else
    .error misplaced

/-- The locator in front of the end record points to the wide record. -/
structure Locator where
  directoryDisk : Nat
  offset : Nat
  deriving DecidableEq, Repr, Inhabited

def readLocator? (size : Nat) (record : End) : FieldReader (Option Locator) := do
  if size < 42 + record.commentLength then
    return none
  FieldReader.seek (size - 42 - record.commentLength)
  if (← FieldReader.number 4) ≠ locatorSignature then
    return none
  let directoryDisk ← FieldReader.number 4
  let offset ← FieldReader.number 8
  let _ ← FieldReader.number 4
  return some { directoryDisk, offset }

/-- The wide record lies at its offset or behind it, but never behind the last position that leaves
room for it. -/
def findWideEnd? (bytes : ByteArray) (first last : Nat) : Option Nat :=
  (List.range (last + 1 - first)).findSome? fun ahead =>
    if hasSignature bytes (first + ahead) wideEndSignature then some (first + ahead) else none

def readWideEnd (shift position : Nat) : FieldReader Place := do
  FieldReader.seek (position + 16)
  let disk ← FieldReader.number 4
  let directoryDisk ← FieldReader.number 4
  let _ ← FieldReader.number 8
  let count ← FieldReader.number 8
  let _ ← FieldReader.number 8
  let offset ← FieldReader.number 8
  if disk ≠ directoryDisk then
    throw severalDisks
  if Record.offsetLimit ≤ offset + shift then
    throw misplaced
  return { shift, start := offset + shift, count }

def readWidePlace (bytes : ByteArray) (record : End) (locator : Locator) : FieldReader Place := do
  if ¬ record.isTooSmall ∧ record.disk ≠ locator.directoryDisk then
    throw severalDisks
  if record.position < 60 then
    throw (.invalid "File cannot contain ZIP64 central directory end")
  match findWideEnd? bytes locator.offset (record.position - 60) with
  | none => throw (.invalid "Could not find ZIP64 central directory end")
  | some position => readWideEnd (position - locator.offset) position

def readPlace (bytes : ByteArray) (record : End) : FieldReader Place := do
  match ← readLocator? bytes.size record with
  | some locator => readWidePlace bytes record locator
  | none =>
    match narrowPlace record with
    | .ok place => return place
    | .error fault => throw fault

def readRecordsOnto (shift : Nat) (done : Array Record) : Nat → FieldReader (Array Record)
  | 0 => pure done
  | count + 1 => fun cursor =>
    match Record.read shift cursor with
    | .ok record next => readRecordsOnto shift (done.push record) count next
    | .error fault next => .error fault next

def readRecords (place : Place) : FieldReader (Array Record) := do
  if FieldReader.positionLimit ≤ place.start then
    throw (.invalid "Could not seek to start of central directory")
  FieldReader.seek place.start
  readRecordsOnto place.shift #[] place.count

def readDirectory (bytes : ByteArray) : FieldReader (Array Record) := do
  if bytes.size < 22 then
    throw (.invalid "Invalid zip header")
  match findEnd? bytes with
  | none => throw (.invalid "Could not find central directory end")
  | some position =>
    let record ← readEnd position
    if ¬ record.isTooSmall ∧ record.disk ≠ record.directoryDisk then
      throw severalDisks
    readRecords (← readPlace bytes record)

/-- Every entry must have a local header, even when it is never read. -/
def «open» (bytes : ByteArray) : Except ArchiveFault Archive := do
  let records ← (readDirectory bytes).evaluate bytes
  let _ ← records.toList.mapM fun record => record.readContentStart.evaluate bytes
  return { bytes, records }

def entries (archive : Archive) : List Entry :=
  archive.records.toList.zipIdx.map fun (record, index) => record.entry index

/-- The bytes are checked against the checksum of the entry. -/
def verified (record : Record) (bytes : ByteArray) : Except ArchiveFault ByteArray :=
  if Crc32.checksum bytes = record.checksum then
    .ok bytes
  else
    .error (.access (.described "Invalid checksum"))

def unpack (record : Record) (packed : ByteArray) : Except ArchiveFault ByteArray :=
  match record.compression with
  | .stored => verified record packed
  | .deflated =>
    match Inflate.inflate packed with
    | .ok bytes => verified record bytes
    | .error .inputEnded => .error (.access (.described "incomplete deflate stream"))
    | .error .corrupt => .error (.access (.described "corrupt deflate stream"))
  | .other _ => .error (.unsupported "Compression method not supported")

/-- The content may reach the end of the file before it is complete. -/
def packed (archive : Archive) (record : Record) : Except ArchiveFault ByteArray := do
  let start ← record.readContentStart.evaluate archive.bytes
  return archive.bytes.extract start (start + record.compressedSize)

/-- An entry without the mark of encryption but with a key strength cannot be read at all. -/
def readRecord (archive : Archive) (record : Record) : Outcome ByteArray :=
  if record.isEncrypted then
    .failed (.archive (.unsupported "Password required to decrypt file"))
  else
    match archive.packed record with
    | .error fault => .failed (.archive fault)
    | .ok packed =>
      match record.compression, record.hasKeyStrength with
      | .stored, true | .deflated, true => .panicked (.text "a password is required")
      | _, _ => Outcome.ofExcept ((unpack record packed).mapError .archive)

def read (archive : Archive) (index : Nat) : Outcome ByteArray :=
  match archive.records[index]? with
  | some record => archive.readRecord record
  | none => .failed (.archive .entryMissing)

end Archive

end EnumNames
