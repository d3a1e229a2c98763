import EnumNames.Archive.Crc32
import EnumNames.Archive.Deflate
import EnumNames.Archive.Directory

/-!
Writing an archive: every content stands behind its local header, the directory follows the last
content, and the end record follows the directory.
-/

namespace EnumNames

namespace Entry

/-- The name of a written directory ends with a separator. -/
def writtenName (entry : Entry) : String :=
  if entry.isDirectory ∧ ¬ namesDirectory entry.name then entry.name ++ "/" else entry.name

/-- Only the permissions of a mode are kept; the kind of the file is written anew. -/
def writtenMode (entry : Entry) : UInt32 :=
  if entry.isDirectory then
    0o040000 ||| (entry.mode.map (· &&& 0o777)).getD 0o755
  else
    0o100000 ||| (entry.mode.map (· &&& 0o777)).getD 0o644

/-- Directories are never compressed. -/
def writtenCompression (entry : Entry) : Compression :=
  if entry.isDirectory then .stored else entry.compression.written

/-- A directory has no content, whatever was given for it. -/
def writtenBytes (entry : Entry) (content : Content) : ByteArray :=
  if entry.isDirectory then .empty else content.bytes

end Entry

def Compression.pack (compression : Compression) (bytes : ByteArray) : ByteArray :=
  match compression with
  | .deflated => Deflate.pack bytes
  | .stored | .other _ => bytes

namespace Record

def ofEntry (entry : Entry) (bytes packed : ByteArray) (headerOffset : Nat) : Record where
  host := 3
  isEncrypted := false
  compression := entry.writtenCompression
  modified := entry.modified
  checksum := Crc32.checksum bytes
  compressedSize := packed.size
  size := bytes.size
  attributes := entry.writtenMode <<< 16
  name := entry.writtenName
  headerOffset
  hasKeyStrength := false

/-- Names with other than the first 128 characters are marked as UTF-8. -/
def flags (record : Record) : Nat :=
  if record.name.toList.all fun character => character.toNat < 128 then 0 else 0x0800

/-- A number that does not fit has all bits set. -/
def encodeNarrow (number : Nat) : ByteArray := LittleEndian.encode 4 (min number overflow)

/-- An extra field holds the numbers that do not fit elsewhere. -/
def encodeWide (numbers : List Nat) : ByteArray :=
  let numbers := numbers.filter (overflow ≤ ·)
  if numbers.isEmpty then .empty
  else
    numbers.foldl (fun output number => output ++ LittleEndian.encode 8 number)
      (LittleEndian.encode 2 0x0001 ++ LittleEndian.encode 2 (8 * numbers.length))

def neededVersion : Nat := 20

def madeByVersion : Nat := 46

/-- These fields are the same in both headers. -/
def encodeFields (record : Record) : ByteArray :=
  LittleEndian.encode 2 neededVersion ++ LittleEndian.encode 2 record.flags ++
    LittleEndian.encode 2 record.compression.number.toNat ++
    LittleEndian.encode 2 record.modified.time.toNat ++
    LittleEndian.encode 2 record.modified.date.toNat ++
    LittleEndian.encode 4 record.checksum.toNat ++ encodeNarrow record.compressedSize ++
    encodeNarrow record.size ++ LittleEndian.encode 2 record.name.utf8ByteSize

def encodeLocal (record : Record) : ByteArray :=
  let extra := encodeWide [record.size, record.compressedSize]
  LittleEndian.encode 4 localSignature ++ record.encodeFields ++
    LittleEndian.encode 2 extra.size ++ record.name.toUTF8 ++ extra

/-- There is no comment, and all contents lie on the first disk. -/
def encode (record : Record) : ByteArray :=
  let extra := encodeWide [record.size, record.compressedSize, record.headerOffset]
  LittleEndian.encode 4 signature ++ LittleEndian.encode 2 (record.host * 256 + madeByVersion) ++
    record.encodeFields ++ LittleEndian.encode 2 extra.size ++ LittleEndian.encode 2 0 ++
    LittleEndian.encode 2 0 ++ LittleEndian.encode 2 0 ++
    LittleEndian.encode 4 record.attributes.toNat ++ encodeNarrow record.headerOffset ++
    record.name.toUTF8 ++ extra

end Record

namespace Archive

/-- The directory grows together with the contents. -/
structure Draft where
  contents : ByteArray
  directory : ByteArray
  count : Nat

namespace Draft

def empty : Draft := ⟨.empty, .empty, 0⟩

def add (draft : Draft) (entry : Entry) (content : Content) : Draft :=
  let bytes := entry.writtenBytes content
  let packed := entry.writtenCompression.pack bytes
  let record := Record.ofEntry entry bytes packed draft.contents.size
  { contents := draft.contents ++ record.encodeLocal ++ packed
    directory := draft.directory ++ record.encode
    count := draft.count + 1 }

/-- The end record has too little room for very large archives. -/
def needsWide (draft : Draft) : Bool :=
  0xFFFF < draft.count || Record.overflow < draft.directory.size ||
    Record.overflow < draft.contents.size

def encodeWideEnd (draft : Draft) : ByteArray :=
  LittleEndian.encode 4 wideEndSignature ++ LittleEndian.encode 8 44 ++
    LittleEndian.encode 2 Record.madeByVersion ++ LittleEndian.encode 2 Record.madeByVersion ++
    LittleEndian.encode 4 0 ++ LittleEndian.encode 4 0 ++ LittleEndian.encode 8 draft.count ++
    LittleEndian.encode 8 draft.count ++ LittleEndian.encode 8 draft.directory.size ++
    LittleEndian.encode 8 draft.contents.size

/-- The wide record follows the directory. -/
def encodeLocator (draft : Draft) : ByteArray :=
  LittleEndian.encode 4 locatorSignature ++ LittleEndian.encode 4 0 ++
    LittleEndian.encode 8 (draft.contents.size + draft.directory.size) ++ LittleEndian.encode 4 1

def encodeEnd (draft : Draft) : ByteArray :=
  let count := LittleEndian.encode 2 (min draft.count 0xFFFF)
  LittleEndian.encode 4 endSignature ++ LittleEndian.encode 2 0 ++ LittleEndian.encode 2 0 ++
    count ++ count ++ Record.encodeNarrow draft.directory.size ++
    Record.encodeNarrow draft.contents.size ++ LittleEndian.encode 2 0

def finish (draft : Draft) : ByteArray :=
  let wide := if draft.needsWide then draft.encodeWideEnd ++ draft.encodeLocator else .empty
  draft.contents ++ draft.directory ++ wide ++ draft.encodeEnd

end Draft

/-- The order of the entries is kept, and names may repeat. -/
def assemble (parts : List (Entry × Content)) : ByteArray :=
  (parts.foldl (fun draft part => draft.add part.1 part.2) Draft.empty).finish

end Archive

end EnumNames
