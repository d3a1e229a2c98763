import EnumNames.Archive.Record
import EnumNames.Proofs.Bytes.Stands

/-!
Reading the fields of an archive where they stand. Main statements: a field reader takes the number or
the bytes that stand at its position, and a reader of several fields takes one after the other.
-/

namespace EnumNames.FieldReader

variable {α β : Type} {bytes piece : ByteArray} {start middle stop : Nat}

/-- The reader takes the value from the bytes at one position and ends at another one. -/
def Reads (reader : FieldReader α) (bytes : ByteArray) (start : Nat) (value : α) (stop : Nat) : Prop :=
  reader ⟨bytes, start⟩ = .ok value ⟨bytes, stop⟩

theorem reads_pure (bytes : ByteArray) (start : Nat) (value : α) :
    (pure value : FieldReader α).Reads bytes start value start := rfl

theorem Reads.bind {reader : FieldReader α} {next : α → FieldReader β} {value : α} {result : β}
    (first : reader.Reads bytes start value middle)
    (second : (next value).Reads bytes middle result stop) :
    (reader >>= next).Reads bytes start result stop := by
  unfold Reads at first second ⊢
  change EStateM.bind reader next _ = _
  rw [EStateM.bind, first]
  exact second

theorem reads_position (bytes : ByteArray) (start : Nat) : position.Reads bytes start start start := rfl

theorem reads_seek (bytes : ByteArray) (start : Nat) (near : stop < positionLimit) :
    (seek stop).Reads bytes start () stop := by
  unfold Reads seek
  rw [if_pos near]

/-- The reader takes the value from the bytes, wherever it ends. -/
def Gives (reader : FieldReader α) (bytes : ByteArray) (start : Nat) (value : α) : Prop :=
  ∃ stop, reader.Reads bytes start value stop

theorem Reads.gives {reader : FieldReader α} {value : α} (reads : reader.Reads bytes start value stop) :
    reader.Gives bytes start value := ⟨stop, reads⟩

theorem Reads.bindGives {reader : FieldReader α} {next : α → FieldReader β} {value : α} {result : β}
    (first : reader.Reads bytes start value middle) (second : (next value).Gives bytes middle result) :
    (reader >>= next).Gives bytes start result :=
  let ⟨_, second⟩ := second
  (first.bind second).gives

theorem Gives.bind {reader : FieldReader α} {next : α → FieldReader β} {value : α} {result : β}
    (first : reader.Gives bytes start value)
    (second : ∀ middle, (next value).Gives bytes middle result) :
    (reader >>= next).Gives bytes start result :=
  let ⟨middle, first⟩ := first
  first.bindGives (second middle)

theorem Gives.evaluate {reader : FieldReader α} {value : α} (gives : reader.Gives bytes 0 value) :
    reader.evaluate bytes = .ok value := by
  obtain ⟨stop, reads⟩ := gives
  unfold FieldReader.evaluate
  rw [show reader (Cursor.start bytes) = _ from reads]

/-- Wherever the piece stands, the reader takes the value from it and ends behind it. -/
def Takes (reader : FieldReader α) (piece : ByteArray) (value : α) : Prop :=
  ∀ bytes start, Stands bytes start piece → reader.Reads bytes start value (start + piece.size)

theorem Takes.reads {reader : FieldReader α} {value : α} (takes : reader.Takes piece value)
    (stands : Stands bytes start piece) (ends : start + piece.size = stop) :
    reader.Reads bytes start value stop := ends ▸ takes bytes start stands

theorem takes_pure (value : α) : (pure value : FieldReader α).Takes .empty value :=
  fun bytes start _ => reads_pure bytes start value

theorem Takes.bind {reader : FieldReader α} {next : α → FieldReader β} {value : α} {result : β}
    {left right : ByteArray} (first : reader.Takes left value) (second : (next value).Takes right result) :
    (reader >>= next).Takes (left ++ right) result := by
  intro bytes start stands
  obtain ⟨before, behind⟩ := stands_append.mp stands
  rw [ByteArray.size_append, ← Nat.add_assoc]
  exact (first bytes start before).bind (second bytes _ behind)

/-- Behind the last field nothing more is taken. -/
theorem Takes.last {reader : FieldReader α} {next : α → FieldReader β} {value : α} {result : β}
    (first : reader.Takes piece value) (second : (next value).Takes .empty result) :
    (reader >>= next).Takes piece result := by
  have whole := first.bind second
  rwa [ByteArray.append_empty] at whole

theorem Takes.map {reader : FieldReader α} {value : α} (change : α → β)
    (takes : reader.Takes piece value) :
    (reader >>= fun value => pure (change value)).Takes piece (change value) :=
  takes.last (takes_pure (change value))

theorem takes_bytes (piece : ByteArray) : (FieldReader.bytes piece.size).Takes piece piece := by
  intro bytes start stands
  have inside := stands.within
  unfold Reads FieldReader.bytes
  rw [if_pos inside, stands.extract]
  rfl

theorem takes_number {width value : Nat} (fits : value < Nat.pow 256 width) :
    (number width).Takes (LittleEndian.encode width value) value := by
  have taken := (takes_bytes (LittleEndian.encode width value)).map LittleEndian.decode
  rwa [LittleEndian.size_encode, LittleEndian.decode_encode width value fits] at taken

theorem reads_number {width value : Nat} (fits : value < Nat.pow 256 width)
    (stands : Stands bytes start (LittleEndian.encode width value)) :
    (number width).Reads bytes start value (start + width) :=
  (takes_number fits).reads stands (by rw [LittleEndian.size_encode])

theorem takes_u2 (value : UInt16) : u2.Takes (LittleEndian.encode 2 value.toNat) value := by
  have narrow : (number 2).Takes (LittleEndian.encode 2 value.toNat) value.toNat :=
    takes_number value.toNat_lt
  have taken := narrow.map UInt16.ofNat
  rwa [UInt16.ofNat_toNat] at taken

theorem takes_u4 (value : UInt32) : u4.Takes (LittleEndian.encode 4 value.toNat) value := by
  have narrow : (number 4).Takes (LittleEndian.encode 4 value.toNat) value.toNat :=
    takes_number value.toNat_lt
  have taken := narrow.map UInt32.ofNat
  rwa [UInt32.ofNat_toNat] at taken

end EnumNames.FieldReader
