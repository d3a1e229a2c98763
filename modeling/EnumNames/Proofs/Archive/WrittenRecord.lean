import EnumNames.Archive.Assembly
import EnumNames.Proofs.Archive.Fields
import EnumNames.Proofs.Text.PlainUtf8

/-!
Reading a written record. Main statement: whatever the size of its numbers and the characters of its
name, a record that fits into its fields is read back from the directory.
-/

namespace EnumNames.Record

variable {record : Record} {extra : ByteArray} {position : Nat}

/-- The fields of the directory have room for the record. -/
structure Fits (record : Record) : Prop where
  host : record.host < 256
  isEncrypted : record.isEncrypted = false
  hasKeyStrength : record.hasKeyStrength = false
  compression : Compression.ofNumber record.compression.number = record.compression
  known : record.compression ≠ .other 99
  compressedSize : record.compressedSize < offsetLimit
  size : record.size < offsetLimit
  headerOffset : record.headerOffset < offsetLimit
  name : record.name.utf8ByteSize < 65536

/-- These bytes of the extra field hold a number. -/
def wide (number : Nat) : ByteArray :=
  if overflow ≤ number then LittleEndian.encode 8 number else .empty

theorem size_wide (number : Nat) : (wide number).size = if overflow ≤ number then 8 else 0 := by
  unfold wide
  split
  · exact LittleEndian.size_encode 8 number
  · rfl

theorem foldl_encode (numbers : List Nat) (start : ByteArray) :
    numbers.foldl (fun output number => output ++ LittleEndian.encode 8 number) start =
      start ++ Relocation.concat (numbers.map (LittleEndian.encode 8)) := by
  rw [← Relocation.foldl_append, List.foldl_map]

theorem concat_filter (numbers : List Nat) :
    Relocation.concat ((numbers.filter (overflow ≤ ·)).map (LittleEndian.encode 8)) =
      Relocation.concat (numbers.map wide) := by
  induction numbers with
  | nil => rfl
  | cons number rest inductionHypothesis =>
    rw [List.map_cons, Relocation.concat_cons, ← inductionHypothesis, List.filter_cons, wide]
    by_cases large : overflow ≤ number <;> simp [large]

theorem size_concat_wide (numbers : List Nat) :
    (Relocation.concat (numbers.map wide)).size = 8 * (numbers.filter (overflow ≤ ·)).length := by
  rw [← concat_filter, Relocation.size_concat, List.map_map]
  induction numbers.filter (overflow ≤ ·) with
  | nil => rfl
  | cons number rest inductionHypothesis =>
    rw [List.map_cons, List.sum_cons, inductionHypothesis, List.length_cons, Function.comp_apply,
      LittleEndian.size_encode]
    omega

/-- The extra field consists of its header and of the numbers that do not fit elsewhere. -/
theorem encodeWide_cases (numbers : List Nat) :
    Relocation.concat (numbers.map wide) = .empty ∧ encodeWide numbers = .empty ∨
    encodeWide numbers = LittleEndian.encode 2 1 ++ (LittleEndian.encode 2
      (Relocation.concat (numbers.map wide)).size ++ Relocation.concat (numbers.map wide)) := by
  have size := size_concat_wide numbers
  have same := concat_filter numbers
  unfold encodeWide
  cases filtered : numbers.filter (overflow ≤ ·) with
  | nil =>
    rw [filtered] at same
    exact .inl ⟨same.symm, rfl⟩
  | cons number rest =>
    rw [filtered] at size same
    refine .inr ?_
    rw [size, ← same, ← ByteArray.append_assoc, ← foldl_encode]
    rfl

theorem size_encodeWide_le (numbers : List Nat) :
    (encodeWide numbers).size ≤ 4 + 8 * numbers.length := by
  have size := size_concat_wide numbers
  have fewer := List.length_filter_le (overflow ≤ ·) numbers
  rcases encodeWide_cases numbers with ⟨_, none⟩ | some
  · rw [none, ByteArray.size_empty]
    omega
  · rw [some, ByteArray.size_append, ByteArray.size_append, LittleEndian.size_encode,
      LittleEndian.size_encode]
    omega

namespace ExtraReader

variable {α β : Type} {bytes : ByteArray} {next last : Record} {start middle stop : Nat}

/-- The reader takes the value from the bytes at one position, ends at another one and has changed the
record. -/
def Reads (reader : ExtraReader α) (bytes : ByteArray) (record : Record) (start : Nat) (value : α)
    (next : Record) (stop : Nat) : Prop :=
  reader ⟨record, ⟨bytes, start⟩⟩ = .ok value ⟨next, ⟨bytes, stop⟩⟩

theorem reads_pure (bytes : ByteArray) (record : Record) (start : Nat) (value : α) :
    (pure value : ExtraReader α).Reads bytes record start value record start := rfl

theorem Reads.bind {first : ExtraReader α} {second : α → ExtraReader β} {value : α} {result : β}
    (before : first.Reads bytes record start value next middle)
    (behind : (second value).Reads bytes next middle result last stop) :
    (first >>= second).Reads bytes record start result last stop := by
  unfold Reads at before behind ⊢
  change EStateM.bind first second _ = _
  rw [EStateM.bind, before]
  exact behind

theorem reads_field {reader : FieldReader α} {value : α} (record : Record)
    (reads : reader.Reads bytes start value stop) :
    (field reader).Reads bytes record start value record stop := by
  unfold Reads field
  rw [show reader ⟨bytes, start⟩ = _ from reads]

theorem reads_change (bytes : ByteArray) (record : Record) (start : Nat) (update : Record → Record) :
    (change update).Reads bytes record start () (update record) start := rfl

/-- A number that did not fit is replaced by the one in the extra field, and all others are kept. -/
theorem reads_widen (number : Record → Nat) (update : Nat → Record → Record) {value : Nat}
    (narrow : number record = min value overflow) (same : update (number record) record = record)
    (fits : value < offsetLimit) (stands : Stands bytes start (wide value)) :
    (widen number update).Reads bytes record start (wide value).size (update value record)
      (start + (wide value).size) := by
  have looked : (get : ExtraReader ExtraState).Reads bytes record start ⟨record, ⟨bytes, start⟩⟩ record
      start := rfl
  refine looked.bind ?_
  rw [size_wide]
  by_cases large : overflow ≤ value
  · rw [wide, if_pos large] at stands
    rw [if_pos (show number record = overflow by omega), if_pos large]
    exact (reads_field _ (FieldReader.reads_number fits stands)).bind ((reads_change _ _ _ _).bind (reads_pure _ _ _ _))
  · rw [Nat.min_eq_left (by omega)] at narrow
    rw [if_neg (show number record ≠ overflow by omega), if_neg large, ← narrow, same]
    exact reads_pure _ _ _ _

end ExtraReader

/-- This is what the fields of fixed width tell. -/
def narrowed (record : Record) : Record :=
  { record with
    size := min record.size overflow
    compressedSize := min record.compressedSize overflow
    headerOffset := min record.headerOffset overflow }

/-- These bytes hold the numbers that did not fit. -/
def wideBytes (record : Record) : ByteArray :=
  Relocation.concat ([record.size, record.compressedSize, record.headerOffset].map wide)

theorem wideBytes_eq (record : Record) : record.wideBytes =
    wide record.size ++ (wide record.compressedSize ++ wide record.headerOffset) := by
  simp [wideBytes]

theorem reads_wide (fits : record.Fits) {bytes : ByteArray}
    (stands : Stands bytes position record.wideBytes) :
    ExtraReader.readWide.Reads bytes record.narrowed position record.wideBytes.size record
      (position + record.wideBytes.size) := by
  rw [wideBytes_eq] at stands ⊢
  rw [stands_append, stands_append] at stands
  obtain ⟨size, compressedSize, headerOffset⟩ := stands
  rw [ByteArray.size_append, ByteArray.size_append, ← Nat.add_assoc, ← Nat.add_assoc, ← Nat.add_assoc]
  refine (ExtraReader.reads_widen (·.size) _ rfl rfl fits.size size).bind ?_
  refine (ExtraReader.reads_widen (·.compressedSize) _ rfl rfl fits.compressedSize
    compressedSize).bind ?_
  refine (ExtraReader.reads_widen (·.headerOffset) _ rfl rfl fits.headerOffset headerOffset).bind ?_
  exact ExtraReader.reads_pure _ _ _ _

/-- Without an extra field the fields of fixed width tell everything. -/
theorem narrowed_of_empty (none : record.wideBytes = .empty) : record.narrowed = record := by
  have sizes := congrArg ByteArray.size none
  rw [wideBytes_eq, ByteArray.size_append, ByteArray.size_append, size_wide, size_wide, size_wide,
    ByteArray.size_empty] at sizes
  have small (number : Nat) (fits : (if overflow ≤ number then 8 else 0) = 0) :
      min number overflow = number := by
    split at fits
    · cases fits
    · omega
  unfold narrowed
  rw [small _ (by omega), small _ (by omega), small _ (by omega)]

theorem size_wideBytes_le (record : Record) : record.wideBytes.size ≤ 24 := by
  rw [wideBytes, size_concat_wide]
  have fewer := List.length_filter_le (overflow ≤ ·)
    [record.size, record.compressedSize, record.headerOffset]
  simp only [List.length_cons, List.length_nil] at fewer
  omega

/-- The extra field restores the numbers that did not fit. -/
theorem reads_extra (fits : record.Fits) {extra : ByteArray}
    (written : extra = LittleEndian.encode 2 1 ++ (LittleEndian.encode 2 record.wideBytes.size ++
      record.wideBytes)) : ExtraReader.read.Reads extra record.narrowed 0 () record extra.size := by
  have few := size_wideBytes_le record
  have whole : Stands extra 0 (LittleEndian.encode 2 1 ++ (LittleEndian.encode 2 record.wideBytes.size ++
      record.wideBytes)) := written ▸ .self extra
  rw [stands_append, stands_append] at whole
  obtain ⟨kind, length, numbers⟩ := whole
  have last : extra.size = 4 + record.wideBytes.size := by
    rw [written, ByteArray.size_append, ByteArray.size_append, LittleEndian.size_encode,
      LittleEndian.size_encode]
    omega
  have fitsLength : record.wideBytes.size < Nat.pow 256 2 := by
    have limit : Nat.pow 256 2 = 65536 := by decide
    omega
  rw [LittleEndian.size_encode] at length numbers
  rw [LittleEndian.size_encode] at numbers
  refine (ExtraReader.reads_field _ (FieldReader.reads_number (by decide) kind)).bind ?_
  refine (ExtraReader.reads_field _ (FieldReader.reads_number fitsLength length)).bind ?_
  rw [ExtraReader.readBody, if_pos rfl]
  refine (reads_wide fits numbers).bind ?_
  refine (ExtraReader.reads_field _ (FieldReader.reads_position _ _)).bind ?_
  have stop : 0 + 2 + 2 + record.wideBytes.size + (record.wideBytes.size - record.wideBytes.size) =
      extra.size := by omega
  rw [stop]
  refine ExtraReader.reads_field _ (FieldReader.reads_seek _ _ ?_)
  unfold FieldReader.positionLimit
  omega

/-- The record is the same behind its extra field, if it has one. -/
theorem readExtraFields_encodeWide (fits : record.Fits) :
    readExtraFields ⟨record.narrowed,
      Cursor.start (encodeWide [record.size, record.compressedSize, record.headerOffset])⟩ =
        .ok record := by
  rcases encodeWide_cases [record.size, record.compressedSize, record.headerOffset] with
    ⟨none, written⟩ | written
  · rw [written, readExtraFields, narrowed_of_empty none]
    rfl
  · have done := reads_extra fits written
    have filled : 0 < (encodeWide [record.size, record.compressedSize, record.headerOffset]).size := by
      rw [written, ByteArray.size_append, LittleEndian.size_encode]
      omega
    generalize encodeWide [record.size, record.compressedSize, record.headerOffset] = extra
      at done filled
    have done : ExtraReader.read ⟨record.narrowed, Cursor.start extra⟩ =
      .ok () ⟨record, ⟨extra, extra.size⟩⟩ := done
    rw [readExtraFields, done]
    simp only [Cursor.start, Cursor.remaining, filled, if_true, Nat.sub_self, Nat.sub_zero]
    rw [readExtraFields]
    simp

theorem flags_cases (record : Record) :
    (record.flags = 0 ∧ ∀ character ∈ record.name.toList, character.toNat < 128) ∨
      record.flags = 0x0800 := by
  unfold flags
  split
  · rename_i plain
    exact .inl ⟨rfl, fun character member => of_decide_eq_true (List.all_eq_true.mp plain character member)⟩
  · exact .inr rfl

/-- The flag tells how the name is written. -/
theorem readName_flags (record : Record) :
    readName (record.flags.testBit 11) record.name.toUTF8 = record.name := by
  rcases flags_cases record with ⟨none, plain⟩ | marked
  · rw [none]
    exact CodePage437.decode_toUTF8 plain
  · rw [marked]
    exact Utf8.decodeLossy_toUTF8 record.name

theorem flags_lt (record : Record) : record.flags < Nat.pow 256 2 := by
  rcases flags_cases record with ⟨same, _⟩ | same <;> rw [same] <;> decide

theorem testBit_flags (record : Record) : record.flags.testBit 0 = false := by
  rcases flags_cases record with ⟨same, _⟩ | same <;> rw [same] <;> decide

theorem takes_narrow (number : Nat) :
    (FieldReader.number 4).Takes (encodeNarrow number) (min number overflow) :=
  FieldReader.takes_number (Nat.lt_of_le_of_lt (Nat.min_le_right _ _) (by decide))

theorem finish_zero (fits : record.Fits) : record.finish 0 = .ok record := by
  unfold finish
  rw [if_neg fun strength => fits.known strength.1, Nat.add_zero, if_pos fits.headerOffset]

/-- What has been written for a record is read back. -/
theorem takes_encode (fits : record.Fits) : (read 0).Takes record.encode record := by
  have wideSize := size_encodeWide_le [record.size, record.compressedSize, record.headerOffset]
  -- The fields of fixed width hold a narrowed record, from which the extra field restores this one.
  have restored : (readExtraFields ⟨record.narrowed, Cursor.start (encodeWide [record.size,
      record.compressedSize, record.headerOffset])⟩ >>= (finish · 0)) = .ok record := by
    rw [readExtraFields_encodeWide fits]
    exact finish_zero fits
  have zeros (rest : ByteArray) : LittleEndian.encode 2 0 ++ (LittleEndian.encode 2 0 ++ rest) =
      LittleEndian.encode 4 0 ++ rest := by
    rw [← ByteArray.append_assoc]
    rfl
  simp only [encode, encodeFields, ByteArray.append_assoc]
  generalize encodeWide [record.size, record.compressedSize, record.headerOffset] = extra
    at wideSize restored ⊢
  refine (FieldReader.takes_number (by decide)).bind ?_
  rw [if_neg (by simp)]
  have madeBy : record.host * 256 + madeByVersion < Nat.pow 256 2 := by
    have host := fits.host
    have limit : Nat.pow 256 2 = 65536 := by decide
    unfold madeByVersion
    omega
  refine (FieldReader.takes_number madeBy).bind ?_
  refine (FieldReader.takes_number (by decide)).bind ?_
  refine (FieldReader.takes_number record.flags_lt).bind ?_
  refine (FieldReader.takes_u2 _).bind ?_
  refine (FieldReader.takes_u2 _).bind ?_
  refine (FieldReader.takes_u2 _).bind ?_
  refine (FieldReader.takes_u4 _).bind ?_
  refine (takes_narrow _).bind ?_
  refine (takes_narrow _).bind ?_
  refine (FieldReader.takes_number fits.name).bind ?_
  have short : extra.size < Nat.pow 256 2 := by
    have limit : Nat.pow 256 2 = 65536 := by decide
    simp only [List.length_cons, List.length_nil] at wideSize
    omega
  refine (FieldReader.takes_number short).bind ?_
  refine (FieldReader.takes_number (by decide)).bind ?_
  -- Two zeros are read as one number of four bytes.
  rw [zeros]
  refine (FieldReader.takes_number (by decide)).bind ?_
  refine (FieldReader.takes_u4 _).bind ?_
  refine (takes_narrow _).bind ?_
  refine (FieldReader.takes_bytes record.name.toUTF8).bind ?_
  refine (FieldReader.takes_bytes extra).last ?_
  refine (FieldReader.takes_bytes .empty).last ?_
  have host : (record.host * 256 + madeByVersion) / 256 = record.host := by
    unfold madeByVersion
    omega
  have same : ({ record with
      compressedSize := min record.compressedSize overflow
      size := min record.size overflow
      headerOffset := min record.headerOffset overflow
      hasKeyStrength := false } : Record) = record.narrowed := by
    rw [← fits.hasKeyStrength]
    rfl
  rw [host, record.testBit_flags.trans fits.isEncrypted.symm, record.readName_flags, fits.compression]
  dsimp only at same ⊢
  rw [same, restored]
  exact FieldReader.takes_pure record

@[simp] theorem size_encodeNarrow (number : Nat) : (encodeNarrow number).size = 4 :=
  LittleEndian.size_encode _ _

theorem size_encode_pos (record : Record) : 0 < record.encode.size := by
  simp only [encode, ByteArray.size_append, LittleEndian.size_encode]
  omega

theorem size_encodeLocal (record : Record) : record.encodeLocal.size = 30 +
    record.name.utf8ByteSize + (encodeWide [record.size, record.compressedSize]).size := by
  have name : record.name.toUTF8.size = record.name.utf8ByteSize := rfl
  simp only [encodeLocal, encodeFields, ByteArray.size_append, LittleEndian.size_encode,
    size_encodeNarrow, name]

/-- The content of an entry starts behind its local header. -/
theorem reads_contentStart (fits : record.Fits) {bytes : ByteArray}
    (stands : Stands bytes record.headerOffset record.encodeLocal)
    (near : bytes.size < FieldReader.positionLimit) :
    record.readContentStart.Reads bytes 0 (record.headerOffset + record.encodeLocal.size)
      (record.headerOffset + record.encodeLocal.size) := by
  have inside := stands.within
  have size := record.size_encodeLocal
  have wideSize := size_encodeWide_le [record.size, record.compressedSize]
  simp only [List.length_cons, List.length_nil] at wideSize
  simp only [encodeLocal, encodeFields, stands_append, ByteArray.size_append,
    LittleEndian.size_encode, size_encodeNarrow] at stands
  obtain ⟨⟨⟨⟨signature, _, nameLength⟩, extraLength⟩, _⟩, _⟩ := stands
  have short : (encodeWide [record.size, record.compressedSize]).size < Nat.pow 256 2 := by
    have limit : Nat.pow 256 2 = 65536 := by decide
    omega
  refine (FieldReader.reads_seek _ _ (by omega)).bind ?_
  refine (FieldReader.reads_number (by decide) signature).bind ?_
  rw [if_neg (by simp)]
  refine (FieldReader.reads_position _ _).bind ?_
  refine (FieldReader.reads_seek _ _ (by omega)).bind ?_
  refine (FieldReader.reads_number fits.name nameLength).bind ?_
  refine (FieldReader.reads_number short extraLength).bind ?_
  have stop : record.headerOffset + 30 + record.name.utf8ByteSize +
      (encodeWide [record.size, record.compressedSize]).size =
        record.headerOffset + record.encodeLocal.size := by omega
  dsimp only
  rw [stop]
  refine (FieldReader.reads_seek _ _ (by omega)).bind ?_
  exact FieldReader.reads_pure _ _ _

end EnumNames.Record
