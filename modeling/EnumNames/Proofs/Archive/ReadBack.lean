import EnumNames.Archive.Assembly
import EnumNames.Proofs.Outcome

/-!
What it means that a written archive is read back. How much of an entry is found again is stated in
three steps, so that every statement about a run assumes no more than it needs. Main statement:
writing what has been found again gives the same archive.
-/

namespace EnumNames

namespace Archive

variable {archive : Archive} {entry : Entry}

/-- The entry that is found has the name and the content that were written. -/
structure Restores (archive : Archive) (part : Entry × Content) (found : Entry) : Prop where
  name : found.name = part.1.writtenName
  content : archive.read found.index = .finished (part.1.writtenBytes part.2)

/-- The entry that is found has the time and the mode that were written as well. -/
structure RestoresMetadata (archive : Archive) (part : Entry × Content) (found : Entry) : Prop
    extends archive.Restores part found where
  modified : found.modified = part.1.modified
  mode : found.mode = some part.1.writtenMode

/-- Nothing that was written is lost. -/
structure RestoresAll (archive : Archive) (part : Entry × Content) (found : Entry) : Prop
    extends archive.RestoresMetadata part found where
  compression : found.compression = part.1.writtenCompression

/-- The archive that is made of the parts can be opened, and it lists them in their order. -/
def ReadsBack (restores : Archive → Entry × Content → Entry → Prop)
    (parts : List (Entry × Content)) : Prop :=
  ∃ archive, Archive.open (assemble parts) = .ok archive ∧
    List.Forall₂ (restores archive) parts archive.entries

theorem ReadsBack.imp {first second : Archive → Entry × Content → Entry → Prop}
    {parts : List (Entry × Content)} (readsBack : ReadsBack first parts)
    (each : ∀ archive part found, first archive part found → second archive part found) :
    ReadsBack second parts := by
  obtain ⟨archive, opened, restored⟩ := readsBack
  exact ⟨archive, opened, restored.imp (each archive)⟩

/-- Only the name of an entry tells whether it is a directory. -/
theorem isDirectory_of_mem (member : entry ∈ archive.entries) :
    entry.isDirectory = Entry.namesDirectory entry.name := by
  obtain ⟨⟨record, index⟩, _, rfl⟩ := List.mem_map.mp member
  rfl

end Archive

namespace Entry

variable {entry found : Entry}

theorem noDirectory_of_isUnit (isUnit : entry.isUnit = true) : entry.isDirectory = false := by
  unfold Entry.isUnit at isUnit
  simpa using (Bool.and_eq_true_iff.mp isUnit).1

theorem writtenName_eq (named : entry.isDirectory = namesDirectory entry.name) :
    entry.writtenName = entry.name := by
  unfold writtenName
  rw [← named]
  simp

theorem writtenBytes_eq (noDirectory : entry.isDirectory = false) (content : Content) :
    entry.writtenBytes content = content.bytes := by
  simp [writtenBytes, noDirectory]

theorem or_and_mask {kind permissions mask : UInt32} (plain : kind &&& mask = 0)
    (inside : permissions &&& mask = permissions) : (kind ||| permissions) &&& mask = permissions := by
  have distributed : (kind ||| permissions) &&& mask = kind &&& mask ||| permissions &&& mask :=
    UInt32.toBitVec_inj.mp BitVec.and_or_distrib_right
  rw [distributed, plain, inside, UInt32.zero_or]

theorem permissions_and_mask (mode : Option UInt32) {other : UInt32} (inside : other &&& 0o777 = other) :
    (mode.map (· &&& 0o777)).getD other &&& 0o777 = (mode.map (· &&& 0o777)).getD other := by
  cases mode with
  | none => exact inside
  | some mode => rw [Option.map_some, Option.getD_some, UInt32.and_assoc, UInt32.and_self]

/-- Permissions are written back as they were found. -/
theorem writtenMode_again (kind : found.isDirectory = entry.isDirectory)
    (mode : found.mode = some entry.writtenMode) : found.writtenMode = entry.writtenMode := by
  unfold writtenMode at mode ⊢
  rw [mode, kind]
  split
  · exact congrArg _ (or_and_mask (by decide) (permissions_and_mask _ (by decide)))
  · exact congrArg _ (or_and_mask (by decide) (permissions_and_mask _ (by decide)))

theorem writtenCompression_again (kind : found.isDirectory = entry.isDirectory)
    (compression : found.compression = entry.writtenCompression) :
    found.writtenCompression = entry.writtenCompression := by
  unfold writtenCompression at compression ⊢
  rw [kind]
  split
  · rfl
  · rename_i noDirectory
    rw [if_neg noDirectory] at compression
    rw [compression]
    cases entry.compression <;> rfl

end Entry

namespace Archive

/-- The part is written for what has been found where the other part was written. -/
structure WrittenAgain (archive : Archive) (part next : Entry × Content) : Prop where
  named : part.1.isDirectory = Entry.namesDirectory part.1.name
  nextNamed : next.1.isDirectory = Entry.namesDirectory next.1.name
  restores : archive.RestoresAll part next.1
  content : next.2 = .kept (part.1.writtenBytes part.2)

theorem WrittenAgain.isDirectory {archive : Archive} {part next : Entry × Content}
    (again : archive.WrittenAgain part next) : next.1.isDirectory = part.1.isDirectory := by
  rw [again.nextNamed, again.restores.name, Entry.writtenName_eq again.named, again.named]

theorem Draft.add_again {archive : Archive} {part next : Entry × Content}
    (again : archive.WrittenAgain part next) (draft : Draft) :
    draft.add next.1 next.2 = draft.add part.1 part.2 := by
  have name : next.1.writtenName = part.1.writtenName :=
    (Entry.writtenName_eq again.nextNamed).trans again.restores.name
  have mode := Entry.writtenMode_again again.isDirectory again.restores.mode
  have compression := Entry.writtenCompression_again again.isDirectory again.restores.compression
  have bytes : next.1.writtenBytes next.2 = part.1.writtenBytes part.2 := by
    rw [again.content, Entry.writtenBytes, Entry.writtenBytes, again.isDirectory]
    split <;> rfl
  unfold add Record.ofEntry
  rw [name, mode, compression, bytes, again.restores.modified]

/-- An archive that is made of what has been found in another one is the same. -/
theorem assemble_again {archive : Archive} {parts next : List (Entry × Content)}
    (again : List.Forall₂ archive.WrittenAgain parts next) : assemble next = assemble parts := by
  have grow (draft : Draft) : next.foldl (fun draft part => draft.add part.1 part.2) draft =
      parts.foldl (fun draft part => draft.add part.1 part.2) draft := by
    induction again generalizing draft with
    | nil => rfl
    | cons head tail inductionHypothesis =>
      rw [List.foldl_cons, List.foldl_cons, Draft.add_again head]
      exact inductionHypothesis _
  rw [assemble, assemble, grow]

end Archive

end EnumNames
