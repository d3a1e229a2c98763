import EnumNames.Proofs.Run.Passthrough

/-!
What a run does that renames nothing. Main statement: its output lists the entries of its input with
their times and contents. Directories lose their contents, and of a mode only the permissions are kept.
-/

namespace EnumNames

/-- A mode with these permissions, whose kind follows from the name of its entry alone. -/
def Entry.plainMode (entry : Entry) (mode : UInt32) : UInt32 :=
  (if entry.isDirectory then 0o040000 else 0o100000) ||| mode &&& 0o777

/-- An entry of the output is the one in the input, but a directory is empty and the kind in its mode
is written anew. -/
structure Reproduces (archive written : Archive) (entry found : Entry) : Prop where
  name : found.name = entry.name
  isDirectory : found.isDirectory = entry.isDirectory
  modified : found.modified = entry.modified
  content : entry.isDirectory = false → ∃ data,
    archive.read entry.index = .finished data ∧ written.read found.index = .finished data
  emptied : entry.isDirectory = true → written.read found.index = .finished .empty
  mode : ∀ mode, entry.mode = some mode → found.mode = some (entry.plainMode mode)

theorem Entry.writtenMode_eq {entry : Entry} {mode : UInt32} (recorded : entry.mode = some mode) :
    entry.writtenMode = entry.plainMode mode := by
  unfold writtenMode plainMode
  rw [recorded]
  split <;> rfl

namespace Settings

/-- All literals in this class match. -/
theorem gathered_matchingClass : exampleSettings.gathered (exampleTree (exampleClass 15 [8, 0, 5] 14)) =
    .ok (exampleItems (exampleClass 15 [8, 0, 5] 14) ⟨exampleClass 15 [8, 0, 5] 14, 1, 0⟩) := by
  have fits : Archive.Fits (exampleParts (exampleClass 15 [8, 0, 5] 14)) :=
    ⟨by decide +kernel, by decide +kernel, by decide +kernel⟩
  have small : (exampleClass 14 [] 11).size < 0x80000000 := by
    rw [size_exampleClass]
    decide
  have again := (EnumUnit.repair_repaired small repair_exampleClass).1
  exact gathered_exampleTree fits (by decide +kernel) again

end Settings

/-- The record of an entry that is stored as it is. -/
def storedRecord (bytes : ByteArray) (name : String) (mode : UInt32) (headerOffset : Nat) : Record where
  host := 3
  isEncrypted := false
  compression := .stored
  modified := ⟨33, 0⟩
  checksum := Crc32.checksum bytes
  compressedSize := bytes.size
  size := bytes.size
  attributes := mode <<< 16
  name
  headerOffset
  hasKeyStrength := false

theorem fits_storedRecord {bytes : ByteArray} {name : String} {mode : UInt32} {headerOffset : Nat}
    (small : bytes.size < Record.offsetLimit) (short : name.utf8ByteSize < 65536)
    (near : headerOffset < Record.offsetLimit) : (storedRecord bytes name mode headerOffset).Fits where
  host := show 3 < 256 by decide
  isEncrypted := rfl
  hasKeyStrength := rfl
  compression := rfl
  known := nofun
  compressedSize := small
  size := small
  headerOffset := near
  name := short

theorem unpack_storedRecord (bytes : ByteArray) (name : String) (mode : UInt32) (headerOffset : Nat) :
    Archive.unpack (storedRecord bytes name mode headerOffset) bytes = .ok bytes := if_pos rfl

def oneByte : ByteArray := ⟨#[1]⟩

def folderRecord : Record := storedRecord oneByte "a/" 0o40755 0

def linkRecord : Record := storedRecord oneByte "l" 0o120777 (folderRecord.encodeLocal.size + 1)

/-- A directory with a content, and a link. -/
def oddDraft : Archive.Draft where
  contents := folderRecord.encodeLocal ++ (oneByte ++ (linkRecord.encodeLocal ++ oneByte))
  directory := folderRecord.encode ++ linkRecord.encode
  count := 2

def oddArchive : Archive := ⟨oddDraft.finish, #[folderRecord, linkRecord]⟩

def oddTree : FileTree := ⟨[(["in"], .file oddDraft.finish)], []⟩

/-- All pieces stand one after the other. -/
theorem stands_oddDraft : Stands oddDraft.contents 0 folderRecord.encodeLocal ∧
    Stands oddDraft.contents folderRecord.encodeLocal.size oneByte ∧
    Stands oddDraft.contents (folderRecord.encodeLocal.size + 1) linkRecord.encodeLocal ∧
    Stands oddDraft.contents (folderRecord.encodeLocal.size + 1 + linkRecord.encodeLocal.size) oneByte := by
  have whole : Stands oddDraft.contents 0
      (folderRecord.encodeLocal ++ (oneByte ++ (linkRecord.encodeLocal ++ oneByte))) := .self _
  rw [stands_append, stands_append, stands_append, Nat.zero_add] at whole
  exact whole

theorem holds_oddDraft : oddDraft.Holds [folderRecord, linkRecord] where
  directory := by
    simp [oddDraft]
  count := rfl
  fits := by
    have folder : folderRecord.Fits := fits_storedRecord (by decide) (by decide) (by decide)
    have link : linkRecord.Fits := fits_storedRecord (by decide) (by decide) (by decide +kernel)
    simp [folder, link]
  headers := by
    have headers := stands_oddDraft
    simp only [List.forall_mem_cons, List.not_mem_nil, false_imp_iff, implies_true, and_true]
    exact ⟨headers.1, headers.2.2.1⟩

theorem small_oddDraft : oddDraft.finish.size < FieldReader.positionLimit := by decide +kernel

theorem open_oddDraft : Archive.open oddDraft.finish = .ok oddArchive :=
  Archive.Draft.open_finish holds_oddDraft small_oddDraft (by decide +kernel)

theorem read_oddArchive :
    oddArchive.read 0 = .finished oneByte ∧ oddArchive.read 1 = .finished oneByte := by
  obtain ⟨_, first, _, second⟩ := stands_oddDraft
  rw [← Nat.zero_add folderRecord.encodeLocal.size] at first
  have folder := Archive.Draft.readRecord_eq holds_oddDraft small_oddDraft List.mem_cons_self first rfl
  have link := Archive.Draft.readRecord_eq holds_oddDraft small_oddDraft
    (List.mem_cons_of_mem _ List.mem_cons_self) second rfl
  rw [show Archive.unpack folderRecord oneByte = .ok oneByte from unpack_storedRecord _ _ _ _] at folder
  rw [show Archive.unpack linkRecord oneByte = .ok oneByte from unpack_storedRecord _ _ _ _] at link
  exact ⟨folder, link⟩

def oddFolder : Entry := ⟨0, "a/", true, .stored, ⟨33, 0⟩, some 0o40755, 1⟩

def oddLink : Entry := ⟨1, "l", false, .stored, ⟨33, 0⟩, some 0o120777, 1⟩

theorem entries_oddArchive : oddArchive.entries = [oddFolder, oddLink] := by
  have folder : Entry.namesDirectory "a/" = true := by cbv
  have link : Entry.namesDirectory "l" = false := by cbv
  change [Entry.mk 0 "a/" (Entry.namesDirectory "a/") .stored ⟨33, 0⟩ folderRecord.mode 1,
    Entry.mk 1 "l" (Entry.namesDirectory "l") .stored ⟨33, 0⟩ linkRecord.mode 1] = _
  rw [folder, link]
  rfl

def oddItems : List Processed := [.ofKept oddFolder oneByte, .ofKept oddLink oneByte]

theorem write_oddTree (bytes content : ByteArray) :
    FileTree.write ⟨[(["in"], .file bytes)], []⟩ "out" content =
      .ok ⟨[(["out"], .file content), (["in"], .file bytes)], []⟩ := by cbv

namespace Settings

theorem ofRead_oddTree : Archive.ofRead exampleSettings.input (oddTree.read exampleSettings.input) =
    .ok oddArchive := by
  change Archive.ofRead "in" (oddTree.read "in") = _
  rw [oddTree, read_exampleTree, Archive.ofRead, open_oddDraft]
  rfl

theorem gathered_oddTree : exampleSettings.gathered oddTree = .ok oddItems := by
  refine gathered_eq_ok.mpr ⟨oddArchive, ofRead_oddTree, ?_⟩
  rw [entries_oddArchive]
  refine .cons ⟨rfl, _, read_oddArchive.1, ?_⟩ (.cons ⟨rfl, _, read_oddArchive.2, ?_⟩ .nil)
  · exact Processed.ofEntry_eq_ok.mpr (.inl ⟨rfl, rfl⟩)
  · exact Processed.ofEntry_eq_ok.mpr (.inl ⟨by cbv, rfl⟩)

theorem unhindered_oddTree : exampleSettings.Unhindered oddTree where
  staffed := by decide
  saved := rfl
  undisturbed := rfl
  writable := fun bytes => ⟨_, write_oddTree _ bytes⟩

end Settings

end EnumNames
