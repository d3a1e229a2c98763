import EnumNames.Archive.Directory
import EnumNames.Proofs.Archive.WrittenRecord

/-!
Opening a written archive. Main statement: the directory is found behind the contents, with or without
the wide end record, and its records are read back in their order.
-/

namespace EnumNames.Archive

open FieldReader

variable {bytes : ByteArray} {position start : Nat}

theorem hasSignature_of_stands {signature : Nat} (fits : signature < Nat.pow 256 4)
    (stands : Stands bytes position (LittleEndian.encode 4 signature)) :
    hasSignature bytes position signature = true := by
  have piece := stands.extract
  rw [LittleEndian.size_encode] at piece
  rw [hasSignature, piece, LittleEndian.decode_encode 4 signature fits, beq_self_eq_true]

/-- A search that succeeds at once finds nothing else. -/
theorem findSome?_range {α : Type} {find : Nat → Option α} {value : α} (first : find 0 = some value)
    (count : Nat) : (List.range (count + 1)).findSome? find = some value := by
  rw [List.range_succ_eq_map, List.findSome?_cons, first]

/-- This number is read, whatever it means. -/
theorem reads_decode (bytes : ByteArray) (width : Nat) (inside : position + width ≤ bytes.size) :
    (number width).Reads bytes position (LittleEndian.decode (bytes.extract position (position + width)))
      (position + width) := by
  obtain ⟨piece, rfl, stands⟩ := Stands.exists_of_le inside
  rw [stands.extract]
  exact (takes_bytes piece _ _ stands).bind (reads_pure _ _ _)

namespace Draft

variable {draft : Draft} {records : List Record}

/-- The contents hold all local headers, and the directory lists all records. -/
structure Holds (draft : Draft) (records : List Record) : Prop where
  directory : draft.directory = Relocation.concat (records.map Record.encode)
  count : draft.count = records.length
  fits : ∀ record ∈ records, record.Fits
  headers : ∀ record ∈ records, Stands draft.contents record.headerOffset record.encodeLocal

/-- Every record takes room in the directory. -/
theorem Holds.count_le (holds : draft.Holds records) : draft.count ≤ draft.directory.size := by
  rw [holds.directory, holds.count]
  clear holds
  induction records with
  | nil => exact Nat.zero_le _
  | cons record rest inductionHypothesis =>
    have filled := record.size_encode_pos
    rw [List.length_cons, List.map_cons, Relocation.concat_cons, ByteArray.size_append]
    omega

/-- What stands between the directory and the end record. -/
def wideEnd (draft : Draft) : ByteArray :=
  if draft.needsWide then draft.encodeWideEnd ++ draft.encodeLocator else .empty

theorem finish_eq (draft : Draft) :
    draft.finish = draft.contents ++ (draft.directory ++ (draft.wideEnd ++ draft.encodeEnd)) := by
  rw [← ByteArray.append_assoc, ← ByteArray.append_assoc]
  rfl

theorem size_encodeEnd (draft : Draft) : draft.encodeEnd.size = 22 := by
  simp [encodeEnd, ByteArray.size_append]

theorem size_encodeWideEnd (draft : Draft) : draft.encodeWideEnd.size = 56 := by
  simp [encodeWideEnd, ByteArray.size_append]

theorem size_encodeLocator (draft : Draft) : draft.encodeLocator.size = 20 := by
  simp [encodeLocator, ByteArray.size_append]

theorem size_wideEnd (draft : Draft) : draft.wideEnd.size = if draft.needsWide then 76 else 0 := by
  unfold wideEnd
  split
  · rw [ByteArray.size_append, size_encodeWideEnd, size_encodeLocator]
  · rfl

theorem size_finish (draft : Draft) : draft.finish.size =
    draft.contents.size + draft.directory.size + draft.wideEnd.size + 22 := by
  rw [finish_eq, ByteArray.size_append, ByteArray.size_append, ByteArray.size_append, size_encodeEnd]
  omega

/-- These pieces stand one after the other. -/
theorem stands_finish (draft : Draft) :
    Stands draft.finish 0 draft.contents ∧
      Stands draft.finish draft.contents.size draft.directory ∧
      Stands draft.finish (draft.contents.size + draft.directory.size) draft.wideEnd ∧
      Stands draft.finish (draft.finish.size - 22) draft.encodeEnd := by
  have whole := Stands.self draft.finish
  nth_rewrite 2 [finish_eq] at whole
  rw [stands_append, stands_append, stands_append, Nat.zero_add] at whole
  obtain ⟨contents, directory, wide, last⟩ := whole
  have size := draft.size_finish
  refine ⟨contents, directory, wide, ?_⟩
  rwa [show draft.finish.size - 22 =
    draft.contents.size + draft.directory.size + draft.wideEnd.size by omega]

/-- This is the end record of the draft. -/
def endRecord (draft : Draft) : End where
  position := draft.finish.size - 22
  disk := 0
  directoryDisk := 0
  entriesHere := min draft.count 0xFFFF
  entries := min draft.count 0xFFFF
  directorySize := min draft.directory.size Record.overflow
  directoryOffset := min draft.contents.size Record.overflow
  commentLength := 0

theorem findEnd?_finish (draft : Draft) : findEnd? draft.finish = some (draft.finish.size - 22) := by
  have last := draft.stands_finish.2.2.2
  simp only [encodeEnd, ByteArray.append_assoc] at last
  have found := hasSignature_of_stands (by decide) (stands_append.mp last).1
  -- Without a comment the search stops where it begins.
  refine findSome?_range ?_ _
  rw [Nat.sub_zero, if_pos found]

theorem reads_end (small : draft.finish.size < positionLimit) (start : Nat) :
    (readEnd (draft.finish.size - 22)).Reads draft.finish start draft.endRecord draft.finish.size := by
  have size := draft.size_finish
  have last := draft.stands_finish.2.2.2
  simp only [encodeEnd, ByteArray.append_assoc] at last
  obtain ⟨_, fields⟩ := stands_append.mp last
  rw [LittleEndian.size_encode] at fields
  refine (reads_seek _ _ (by omega)).bind ?_
  refine Takes.reads ?_ fields ?_
  · have few : min draft.count 0xFFFF < Nat.pow 256 2 :=
      Nat.lt_of_le_of_lt (Nat.min_le_right _ _) (by decide)
    refine (takes_number (by decide)).bind ?_
    refine (takes_number (by decide)).bind ?_
    refine (takes_number few).bind ?_
    refine (takes_number few).bind ?_
    refine (Record.takes_narrow _).bind ?_
    refine (Record.takes_narrow _).bind ?_
    refine (takes_number (by decide)).last ?_
    exact (takes_bytes .empty).last (takes_pure _)
  · simp only [ByteArray.size_append, LittleEndian.size_encode, Record.size_encodeNarrow]
    omega

/-- Nothing in front of the end record looks like the locator of a wide record. -/
def NoLocator (draft : Draft) : Prop :=
  hasSignature draft.finish (draft.finish.size - 42) locatorSignature = false

instance (draft : Draft) : Decidable draft.NoLocator := inferInstanceAs (Decidable (_ = false))

theorem gives_noLocator (small : draft.finish.size < positionLimit) (noLocator : draft.NoLocator)
    (start : Nat) :
    (readLocator? draft.finish.size draft.endRecord).Gives draft.finish start none := by
  unfold readLocator?
  rw [show draft.endRecord.commentLength = 0 from rfl, Nat.sub_zero]
  split
  · exact (reads_pure _ _ _).gives
  · refine (reads_seek _ _ (by omega)).bindGives ((reads_decode _ 4 (by omega)).bindGives ?_)
    rw [if_pos (ne_of_beq_false noLocator)]
    exact (reads_pure _ _ _).gives

/-- These are the positions of the wide record and of its locator. -/
theorem stands_wide (wide : draft.needsWide = true) :
    draft.finish.size = draft.contents.size + draft.directory.size + 98 ∧
      Stands draft.finish (draft.contents.size + draft.directory.size) draft.encodeWideEnd ∧
      Stands draft.finish (draft.contents.size + draft.directory.size + 56) draft.encodeLocator := by
  have size := draft.size_finish
  have stands := draft.stands_finish.2.2.1
  rw [size_wideEnd, if_pos wide] at size
  rw [wideEnd, if_pos wide, stands_append, size_encodeWideEnd] at stands
  exact ⟨by omega, stands⟩

theorem gives_locator (small : draft.finish.size < positionLimit) (wide : draft.needsWide = true)
    (start : Nat) :
    (readLocator? draft.finish.size draft.endRecord).Gives draft.finish start
      (some ⟨0, draft.contents.size + draft.directory.size⟩) := by
  obtain ⟨size, -, locator⟩ := stands_wide wide
  simp only [encodeLocator, ByteArray.append_assoc, stands_append, LittleEndian.size_encode] at locator
  obtain ⟨signature, disk, offset, disks⟩ := locator
  have fits : draft.contents.size + draft.directory.size < Nat.pow 256 8 := by
    have limit : positionLimit < Nat.pow 256 8 := by decide
    omega
  unfold readLocator?
  rw [show draft.endRecord.commentLength = 0 from rfl, Nat.sub_zero, if_neg (by omega),
    show draft.finish.size - 42 = draft.contents.size + draft.directory.size + 56 by omega]
  refine (reads_seek _ _ (by omega)).bindGives ?_
  refine (reads_number (by decide) signature).bindGives ?_
  rw [if_neg (by simp)]
  refine (reads_number (by decide) disk).bindGives ?_
  refine (reads_number fits offset).bindGives ?_
  exact (reads_number (by decide) disks).bindGives (reads_pure _ _ _).gives

/-- The wide record tells where the directory starts. -/
theorem gives_wideEnd (holds : draft.Holds records) (small : draft.finish.size < positionLimit)
    (wide : draft.needsWide = true) (start : Nat) :
    (readWideEnd 0 (draft.contents.size + draft.directory.size)).Gives draft.finish start
      ⟨0, draft.contents.size, draft.count⟩ := by
  obtain ⟨size, wideEnd, -⟩ := stands_wide wide
  have few := holds.count_le
  have limit : positionLimit < Nat.pow 256 8 := by decide
  simp only [encodeWideEnd, ByteArray.append_assoc, stands_append, LittleEndian.size_encode,
    Nat.add_assoc, Nat.reduceAdd] at wideEnd
  obtain ⟨-, -, -, -, disk, directoryDisk, here, count, directorySize, offset⟩ := wideEnd
  unfold readWideEnd
  refine (reads_seek _ _ (by omega)).bindGives ?_
  refine (reads_number (by decide) disk).bindGives ?_
  refine (reads_number (by decide) directoryDisk).bindGives ?_
  refine (reads_number (by omega) here).bindGives ?_
  refine (reads_number (by omega) count).bindGives ?_
  refine (reads_number (by omega) directorySize).bindGives ?_
  refine (reads_number (by omega) offset).bindGives ?_
  have near : ¬ Record.offsetLimit ≤ draft.contents.size + 0 := by
    change ¬ Nat.pow 256 8 ≤ _
    omega
  rw [if_neg (not_not.mpr rfl), if_neg near]
  exact (reads_pure _ _ _).gives

/-- A draft without a wide record fits into the end record. -/
theorem narrowPlace_endRecord (narrow : draft.needsWide = false) :
    narrowPlace draft.endRecord = .ok ⟨0, draft.contents.size, draft.count⟩ := by
  have size := draft.size_finish
  rw [size_wideEnd, if_neg (by rw [narrow]; decide)] at size
  simp only [needsWide, Bool.or_eq_false_iff, decide_eq_false_iff_not, Nat.not_lt] at narrow
  obtain ⟨⟨count, directory⟩, contents⟩ := narrow
  unfold narrowPlace endRecord
  dsimp only
  rw [Nat.min_eq_left count, Nat.min_eq_left directory, Nat.min_eq_left contents, if_pos (by omega),
    show draft.finish.size - 22 - draft.directory.size - draft.contents.size = 0 by omega, Nat.add_zero]

theorem gives_place (holds : draft.Holds records) (small : draft.finish.size < positionLimit)
    (noLocator : draft.needsWide = false → draft.NoLocator) (start : Nat) :
    (readPlace draft.finish draft.endRecord).Gives draft.finish start
      ⟨0, draft.contents.size, draft.count⟩ := by
  unfold readPlace
  cases wide : draft.needsWide with
  | false =>
    refine (gives_noLocator small (noLocator wide) start).bind fun middle => ?_
    simp only [narrowPlace_endRecord wide]
    exact (reads_pure _ _ _).gives
  | true =>
    refine (gives_locator small wide start).bind fun middle => ?_
    obtain ⟨size, wideEnd, -⟩ := stands_wide wide
    have found : findWideEnd? draft.finish (draft.contents.size + draft.directory.size)
        (draft.endRecord.position - 60) = some (draft.contents.size + draft.directory.size) := by
      simp only [encodeWideEnd, ByteArray.append_assoc] at wideEnd
      have signature := hasSignature_of_stands (by decide) (stands_append.mp wideEnd).1
      unfold findWideEnd? endRecord
      -- The locator, which has 20 bytes, leaves 16 more positions to look at.
      rw [show draft.finish.size - 22 - 60 + 1 - (draft.contents.size + draft.directory.size) = 16 + 1
        by omega]
      refine findSome?_range ?_ 16
      rw [Nat.add_zero, if_pos signature]
    have far : ¬ draft.endRecord.position < 60 := by
      change ¬ draft.finish.size - 22 < 60
      omega
    simp only [readWidePlace]
    rw [if_neg (fun several => several.2 rfl), if_neg far, found]
    simp only [Nat.sub_self]
    exact gives_wideEnd holds small wide middle

theorem readRecordsOnto_succ (shift : Nat) (done : Array Record) (count : Nat) :
    readRecordsOnto shift done (count + 1) =
      Record.read shift >>= fun record => readRecordsOnto shift (done.push record) count := by
  funext cursor
  cases read : Record.read shift cursor <;>
    simp only [readRecordsOnto, bind, EStateM.bind, read]

theorem gives_recordsOnto {bytes : ByteArray} (records : List Record)
    (fits : ∀ record ∈ records, record.Fits) (done : Array Record) (start : Nat)
    (stands : Stands bytes start (Relocation.concat (records.map Record.encode))) :
    (readRecordsOnto 0 done records.length).Gives bytes start (done ++ records.toArray) := by
  induction records generalizing done start with
  | nil => exact (reads_pure bytes start done).gives
  | cons record rest inductionHypothesis =>
    rw [List.map_cons, Relocation.concat_cons, stands_append] at stands
    obtain ⟨first, behind⟩ := stands
    have read := Record.takes_encode (fits record List.mem_cons_self) bytes start first
    have behind := inductionHypothesis
      (fun record member => fits record (List.mem_cons_of_mem _ member)) (done.push record) _ behind
    have order : done.push record ++ rest.toArray = done ++ (record :: rest).toArray := by
      simp
    rw [List.length_cons, readRecordsOnto_succ, ← order]
    exact read.bindGives behind

theorem gives_records (holds : draft.Holds records) (small : draft.finish.size < positionLimit)
    (start : Nat) : (readRecords ⟨0, draft.contents.size, draft.count⟩).Gives draft.finish start
      records.toArray := by
  have size := draft.size_finish
  have stands := draft.stands_finish.2.1
  rw [holds.directory] at stands
  unfold readRecords
  rw [if_neg (by dsimp only; omega)]
  refine (reads_seek _ _ (by dsimp only; omega)).bindGives ?_
  dsimp only
  rw [holds.count]
  have gives := gives_recordsOnto records holds.fits #[] _ stands
  rwa [Array.empty_append] at gives

/-- The records are found again in their order. -/
theorem gives_directory (holds : draft.Holds records) (small : draft.finish.size < positionLimit)
    (noLocator : draft.needsWide = false → draft.NoLocator) :
    (readDirectory draft.finish).Gives draft.finish 0 records.toArray := by
  have size := draft.size_finish
  unfold readDirectory
  rw [if_neg (by omega), findEnd?_finish]
  refine (reads_end small 0).bindGives ?_
  rw [if_neg (fun several => several.2 rfl)]
  exact (gives_place holds small noLocator _).bind fun middle => gives_records holds small middle

/-- The content of a record starts behind its local header. -/
theorem contentStart_eq (holds : draft.Holds records) (small : draft.finish.size < positionLimit)
    {record : Record} (member : record ∈ records) :
    record.readContentStart.evaluate draft.finish =
      .ok (record.headerOffset + record.encodeLocal.size) := by
  have header := draft.stands_finish.1.inside _ (holds.headers record member)
  rw [Nat.zero_add] at header
  exact (Record.reads_contentStart (holds.fits record member) header small).gives.evaluate

/-- The archive that is opened holds the records of the draft. -/
theorem open_finish (holds : draft.Holds records) (small : draft.finish.size < positionLimit)
    (noLocator : draft.needsWide = false → draft.NoLocator) :
    Archive.open draft.finish = .ok ⟨draft.finish, records.toArray⟩ := by
  have starts := mapM_of_forall fun record (member : record ∈ records) =>
    contentStart_eq holds small member
  unfold Archive.open
  rw [(gives_directory holds small noLocator).evaluate]
  change (records.mapM fun record => record.readContentStart.evaluate draft.finish) >>= (fun _ =>
    Except.ok _) = _
  rw [starts]
  rfl

/-- The bytes behind the local header decide what is read. -/
theorem readRecord_eq (holds : draft.Holds records) (small : draft.finish.size < positionLimit)
    {record : Record} {packed : ByteArray} (member : record ∈ records)
    (stands : Stands draft.contents (record.headerOffset + record.encodeLocal.size) packed)
    (size : record.compressedSize = packed.size) :
    (Archive.mk draft.finish records.toArray).readRecord record =
      Outcome.ofExcept ((unpack record packed).mapError .archive) := by
  have behind := draft.stands_finish.1.inside _ stands
  rw [Nat.zero_add] at behind
  have found : (Archive.mk draft.finish records.toArray).packed record = .ok packed := by
    unfold Archive.packed
    rw [contentStart_eq holds small member, size]
    exact congrArg Except.ok behind.extract
  have fits := holds.fits record member
  unfold readRecord
  rw [fits.isEncrypted, found, fits.hasKeyStrength]
  cases record.compression <;> rfl

end Draft

end EnumNames.Archive
