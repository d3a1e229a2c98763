import EnumNames.Proofs.Archive.ReadBack
import EnumNames.Proofs.Archive.StoredBlocks
import EnumNames.Proofs.Archive.WrittenDirectory

/-!
Reading a written archive. Main statement: as long as names and positions fit into their fields, every
entry is found again with all that was written for it.
-/

namespace EnumNames

namespace Entry

theorem writtenCompression_cases (entry : Entry) :
    entry.writtenCompression = .stored ∨ entry.writtenCompression = .deflated := by
  unfold writtenCompression
  split
  · exact .inl rfl
  · cases entry.compression
    · exact .inl rfl
    · exact .inr rfl
    · exact .inr rfl

/-- A mode is never zero and has sixteen bits. -/
theorem writtenMode_within (entry : Entry) :
    0 < entry.writtenMode.toNat ∧ entry.writtenMode.toNat < 65536 := by
  have few (other : UInt32) (small : other.toNat < 2 ^ 16) :
      ((entry.mode.map (· &&& 0o777)).getD other).toNat < 2 ^ 16 := by
    cases entry.mode with
    | none => exact small
    | some mode =>
      rw [Option.map_some, Option.getD_some, UInt32.toNat_and]
      exact Nat.lt_of_le_of_lt Nat.and_le_right (by decide)
  have within (kind permissions : UInt32) (some : 0 < kind.toNat) (plain : kind.toNat < 2 ^ 16)
      (small : permissions.toNat < 2 ^ 16) :
      0 < (kind ||| permissions).toNat ∧ (kind ||| permissions).toNat < 65536 := by
    rw [UInt32.toNat_or]
    exact ⟨Nat.lt_of_lt_of_le some Nat.left_le_or, Nat.or_lt_two_pow plain small⟩
  unfold writtenMode
  split
  · exact within _ _ (by decide) (by decide) (few _ (by decide))
  · exact within _ _ (by decide) (by decide) (few _ (by decide))

/-- This is what an archive says about the part that was written at this index. -/
def written (part : Entry × Content) (index : Nat) : Entry where
  index
  name := part.1.writtenName
  isDirectory := namesDirectory part.1.writtenName
  compression := part.1.writtenCompression
  modified := part.1.modified
  mode := some part.1.writtenMode
  size := (part.1.writtenBytes part.2).size

end Entry

namespace Record

variable {part : Entry × Content} {headerOffset : Nat}

/-- These bytes stand behind the local header. -/
def packed (part : Entry × Content) : ByteArray :=
  part.1.writtenCompression.pack (part.1.writtenBytes part.2)

/-- This is the record of the part. -/
def ofPart (part : Entry × Content) (headerOffset : Nat) : Record :=
  ofEntry part.1 (part.1.writtenBytes part.2) (packed part) headerOffset

theorem size_le_packed (part : Entry × Content) :
    (part.1.writtenBytes part.2).size ≤ (packed part).size := by
  unfold packed
  rcases part.1.writtenCompression_cases with stored | deflated
  · rw [stored]
    exact Nat.le_refl _
  · rw [deflated]
    exact Deflate.size_packFrom _ 0

theorem fits_ofPart (name : part.1.writtenName.utf8ByteSize < 65536)
    (near : headerOffset + (packed part).size < offsetLimit) : (ofPart part headerOffset).Fits where
  host := show 3 < 256 by decide
  isEncrypted := rfl
  hasKeyStrength := rfl
  compression := by
    change Compression.ofNumber part.1.writtenCompression.number = part.1.writtenCompression
    rcases part.1.writtenCompression_cases with stored | deflated
    · rw [stored]
      rfl
    · rw [deflated]
      rfl
  known := by
    change part.1.writtenCompression ≠ _
    rcases part.1.writtenCompression_cases with stored | deflated
    · rw [stored]
      nofun
    · rw [deflated]
      nofun
  compressedSize := by
    change (packed part).size < _
    omega
  size := by
    have larger := size_le_packed part
    change (part.1.writtenBytes part.2).size < _
    omega
  headerOffset := by
    change headerOffset < _
    omega
  name

/-- The mode of an entry survives in the attributes. -/
theorem mode_ofPart (part : Entry × Content) (headerOffset : Nat) :
    (ofPart part headerOffset).mode = some part.1.writtenMode := by
  obtain ⟨some, narrow⟩ := part.1.writtenMode_within
  have shifted : (part.1.writtenMode <<< 16).toNat = part.1.writtenMode.toNat * 65536 := by
    rw [UInt32.toNat_shiftLeft, Nat.shiftLeft_eq]
    change part.1.writtenMode.toNat * 65536 % 4294967296 = _
    omega
  have filled : part.1.writtenMode <<< 16 ≠ 0 := by
    intro none
    rw [none] at shifted
    change 0 = _ at shifted
    omega
  have back : (part.1.writtenMode <<< 16) >>> 16 = part.1.writtenMode := by
    rw [← UInt32.toNat_inj, UInt32.toNat_shiftRight, shifted, Nat.shiftRight_eq_div_pow]
    change part.1.writtenMode.toNat * 65536 / 65536 = _
    omega
  change (if part.1.writtenMode <<< 16 = 0 then none
    else if 3 = 3 then Option.some ((part.1.writtenMode <<< 16) >>> 16) else _) = _
  rw [if_neg filled, if_pos rfl, back]

/-- Nothing is lost when the bytes are unpacked. -/
theorem unpack_ofPart (part : Entry × Content) (headerOffset : Nat) :
    Archive.unpack (ofPart part headerOffset) (packed part) = .ok (part.1.writtenBytes part.2) := by
  have same : Archive.verified (ofPart part headerOffset) (part.1.writtenBytes part.2) =
      .ok (part.1.writtenBytes part.2) := if_pos rfl
  have method : (ofPart part headerOffset).compression = part.1.writtenCompression := rfl
  unfold Archive.unpack packed
  rw [method]
  rcases part.1.writtenCompression_cases with stored | deflated
  · rw [stored]
    exact same
  · rw [deflated]
    dsimp only [Compression.pack]
    rw [Inflate.inflate_pack]
    exact same

end Record

namespace Archive

variable {parts : List (Entry × Content)} {records : List Record}

/-- The record belongs to the part, which stands where the record says. -/
structure Written (contents : ByteArray) (part : Entry × Content) (record : Record) : Prop where
  same : record = .ofPart part record.headerOffset
  stands : Stands contents record.headerOffset (record.encodeLocal ++ Record.packed part)

theorem Draft.add_eq (draft : Draft) (part : Entry × Content) : draft.add part.1 part.2 =
    { contents := draft.contents ++
        ((Record.ofPart part draft.contents.size).encodeLocal ++ Record.packed part)
      directory := draft.directory ++ (Record.ofPart part draft.contents.size).encode
      count := draft.count + 1 } := by
  rw [← ByteArray.append_assoc]
  rfl

/-- The draft grows by the parts, one after the other. -/
def Draft.addAll (draft : Draft) (parts : List (Entry × Content)) : Draft :=
  parts.foldl (fun draft part => draft.add part.1 part.2) draft

/-- Every part gets its record, and what has been written before stays. -/
theorem Draft.addAll_spec (draft : Draft) (parts : List (Entry × Content)) :
    ∃ records rest, (draft.addAll parts).contents = draft.contents ++ rest ∧
      (draft.addAll parts).directory = draft.directory ++
        Relocation.concat (records.map Record.encode) ∧
      (draft.addAll parts).count = draft.count + records.length ∧
      List.Forall₂ (Written (draft.addAll parts).contents) parts records := by
  -- Each step only adds to the draft, so the pieces of all parts before stand in the final contents.
  induction parts generalizing draft with
  | nil => exact ⟨[], .empty, by simp [addAll], by simp [addAll], rfl, .nil⟩
  | cons part others inductionHypothesis =>
    obtain ⟨records, rest, contents, directory, count, written⟩ :=
      inductionHypothesis (draft.add part.1 part.2)
    change (draft.addAll (part :: others)).contents = _ at contents
    change (draft.addAll (part :: others)).directory = _ at directory
    change (draft.addAll (part :: others)).count = _ at count
    change List.Forall₂ (Written (draft.addAll (part :: others)).contents) others records at written
    rw [Draft.add_eq] at contents directory count
    rw [ByteArray.append_assoc] at contents
    refine ⟨.ofPart part draft.contents.size :: records, _, contents, ?_, ?_, .cons ⟨rfl, ?_⟩ written⟩
    · rw [directory, List.map_cons, Relocation.concat_cons, ByteArray.append_assoc]
    · rw [count, List.length_cons, Nat.add_assoc, Nat.add_comm 1]
    · rw [contents]
      exact .between _ _ _

/-- The format has room for the names and the positions, and nothing in front of the end record looks
like the locator of a wide record that is not there. -/
structure Fits (parts : List (Entry × Content)) : Prop where
  names : ∀ part ∈ parts, part.1.writtenName.utf8ByteSize < 65536
  size : (assemble parts).size < FieldReader.positionLimit
  noLocator : (Draft.empty.addAll parts).needsWide = false → (Draft.empty.addAll parts).NoLocator

theorem Written.fits {contents : ByteArray} {part : Entry × Content} {record : Record}
    (written : Written contents part record) (name : part.1.writtenName.utf8ByteSize < 65536)
    (small : contents.size < FieldReader.positionLimit) : record.Fits := by
  have inside := written.stands.within
  have limit : FieldReader.positionLimit < Record.offsetLimit := by decide
  rw [ByteArray.size_append] at inside
  rw [written.same]
  exact Record.fits_ofPart name (by omega)

theorem Written.entry_eq {contents : ByteArray} {part : Entry × Content} {record : Record}
    (written : Written contents part record) (index : Nat) :
    record.entry index = Entry.written part index := by
  rw [written.same, Record.entry, Record.mode_ofPart]
  rfl

/-- The archive lists the parts, and their contents can be read. -/
structure Holds (archive : Archive) (parts : List (Entry × Content)) : Prop where
  entries : archive.entries = parts.zipIdx.map fun (part, index) => Entry.written part index
  read : ∀ part index, parts[index]? = some part →
    archive.read index = .finished (part.1.writtenBytes part.2)

/-- Whatever fits into an archive is found in it. -/
theorem open_assemble (fits : Fits parts) :
    ∃ archive, Archive.open (assemble parts) = .ok archive ∧ archive.Holds parts := by
  obtain ⟨records, rest, contents, directory, count, written⟩ := Draft.empty.addAll_spec parts
  have small : (Draft.empty.addAll parts).finish.size < FieldReader.positionLimit := fits.size
  have size := (Draft.empty.addAll parts).size_finish
  have holds : (Draft.empty.addAll parts).Holds records := {
    directory := by
      rw [directory]
      exact ByteArray.empty_append
    count := by
      rw [count]
      exact Nat.zero_add _
    fits := forall_mem_of_forall₂ (forall₂_mem written) fun part record ⟨inside, _, written⟩ =>
      written.fits (fits.names part inside) (by omega)
    headers := forall_mem_of_forall₂ written fun part record written =>
      (stands_append.mp written.stands).1 }
  obtain ⟨length, each⟩ := List.forall₂_iff_get.mp written
  refine ⟨_, Draft.open_finish holds small fits.noLocator, ?_, ?_⟩
  · refine List.ext_getElem (by simp [entries, length]) fun index left right => ?_
    simp only [entries, List.getElem_map, List.getElem_zipIdx]
    exact (each index _ _).entry_eq _
  · intro part index found
    obtain ⟨inside, rfl⟩ := List.getElem?_eq_some_iff.mp found
    have more := length ▸ inside
    obtain ⟨same, stands⟩ := each index inside more
    have content := Draft.readRecord_eq holds small (List.getElem_mem more) (stands_append.mp stands).2
      (congrArg (·.compressedSize) same)
    rw [List.get_eq_getElem] at same
    rw [same, Record.unpack_ofPart, ← same] at content
    rw [Archive.read, List.getElem?_toArray, List.getElem?_eq_getElem more]
    exact content

/-- Nothing is lost of what fits into an archive. -/
theorem readsBack (fits : Fits parts) : ReadsBack RestoresAll parts := by
  obtain ⟨archive, opened, holds⟩ := open_assemble fits
  refine ⟨archive, opened, ?_⟩
  rw [holds.entries, List.forall₂_map_right_iff]
  refine (forall₂_zipIdx (List.forall₂_same.mpr fun part _ => rfl)).imp ?_
  rintro part ⟨_, index⟩ ⟨rfl, found⟩
  exact ⟨⟨⟨rfl, holds.read part index found⟩, rfl, rfl⟩, rfl⟩

end Archive

end EnumNames
