import EnumNames.ClassFile.CodeAttribute
import EnumNames.Proofs.ClassFile.MemberForm

/-!
The written form of the body of a `Code` attribute: its limits, its instructions, its exception
table and its own attributes.
-/

namespace EnumNames

namespace ExceptionRow

/-- The rows follow their number. -/
def encodeAll (rows : List ExceptionRow) : ByteArray :=
  BigEndian.encodeCount rows.length ++ Relocation.concat (rows.map encode)

@[simp] theorem size_encode (row : ExceptionRow) : row.encode.size = 8 := by
  simp [encode]

@[simp] theorem size_encodeAll (rows : List ExceptionRow) :
    (encodeAll rows).size = 2 + 8 * rows.length := by
  have items : (Relocation.concat (rows.map encode)).size = 8 * rows.length := by
    induction rows with
    | nil => rfl
    | cons row rest inductionHypothesis =>
      rw [List.map_cons, Relocation.concat_cons, ByteArray.size_append, inductionHypothesis,
        size_encode, List.length_cons]
      omega
  rw [encodeAll, ByteArray.size_append, items, BigEndian.size_encodeCount]

theorem takes_read : read.Takes fun _ text row => text = row.encode := by
  refine (Reader.takes_u2.bind fun start => Reader.takes_u2.bind fun stop =>
    Reader.takes_u2.bind fun handler => Reader.takes_u2.made
      (ExceptionRow.mk start stop handler)).congr fun start text row => ?_
  constructor
  · rintro ⟨_, _, start, rfl, rfl, _, _, stop, rfl, rfl, _, _, handler, rfl, rfl, catchType, rfl,
      rfl⟩
    simp [encode, ByteArray.append_assoc]
  · rintro rfl
    exact ⟨_, _, row.start, by simp only [encode, ByteArray.append_assoc], rfl, _, _, row.stop,
      rfl, rfl, _, _, row.handler, rfl, rfl, row.catchType, rfl, rfl⟩

theorem placeAll_eq (start : Nat) (rows : List ExceptionRow) :
    Form.placeAll encode (fun _ row => row) start rows = rows := by
  induction rows generalizing start with
  | nil => rfl
  | cons row rest inductionHypothesis => rw [Form.placeAll, inductionHypothesis]

end ExceptionRow

/-- The body of a `Code` attribute together with the bytes of all its parts. -/
structure WrittenCode where
  maxStack : UInt16
  maxLocals : UInt16
  code : ByteArray
  exceptions : List ExceptionRow
  attributes : List WrittenAttribute
  filled : 0 < code.size
  short : code.size < 65536
  fewExceptions : exceptions.length < 65536
  fewAttributes : attributes.length < 65536

namespace WrittenCode

/-- The bytes in front of the nested attributes. -/
def encodeFront (written : WrittenCode) : ByteArray :=
  BigEndian.encode16 written.maxStack ++ (BigEndian.encode16 written.maxLocals ++
    (BigEndian.encodeSize written.code.size ++ (written.code ++
      ExceptionRow.encodeAll written.exceptions)))

def encode (written : WrittenCode) : ByteArray :=
  written.encodeFront ++ WrittenAttribute.encodeAll written.attributes

/-- The instructions stand behind the two limits and their own length. -/
theorem stands_code (written : WrittenCode) : Stands written.encode 8 written.code :=
  ⟨BigEndian.encode16 written.maxStack ++ (BigEndian.encode16 written.maxLocals ++
      BigEndian.encodeSize written.code.size),
    ExceptionRow.encodeAll written.exceptions ++ WrittenAttribute.encodeAll written.attributes,
    by simp [encode, encodeFront, ByteArray.append_assoc], rfl⟩

/-- This is what is known of a body that starts at an offset. -/
def place (start : Nat) (written : WrittenCode) : CodeAttribute where
  maxStack := written.maxStack
  maxLocals := written.maxLocals
  code := ⟨start + 8, start + 8 + written.code.size⟩
  exceptions := written.exceptions
  attributes := WrittenAttribute.placeAll (start + written.encodeFront.size) written.attributes

end WrittenCode

namespace CodeAttribute

theorem takes_readCode : readCode.Takes fun start text span => ∃ code : ByteArray,
    0 < code.size ∧ code.size < 65536 ∧ text = BigEndian.encodeSize code.size ++ code ∧
      span = ⟨start + 4, start + 4 + code.size⟩ := by
  refine (Reader.takes_u4.bind fun length => ((Reader.takes_fail _).refused_bind _).unless
    (Reader.takes_position.bind fun start => (Reader.takes_skip length.toNat).bind fun _ =>
      Reader.takes_pure (Span.mk start (start + length.toNat)))).congr fun start text span => ?_
  constructor
  · rintro ⟨_, _, length, rfl, rfl, allowed, _, _, _, rfl, ⟨rfl, rfl⟩, code, _, _, rfl, size, rfl,
      rfl⟩
    refine ⟨code, by omega, by omega, ?_, ?_⟩
    · have fits : code.size < 0x100000000 := by
        rw [size]
        exact length.toNat_lt
      rw [(BigEndian.encodeSize_eq_encode32_iff fits length).mpr size]
      simp
    · simp [size]
  · rintro ⟨code, filled, short, rfl, rfl⟩
    have small : code.size < 0x100000000 := by omega
    have length := (BigEndian.encodeSize_eq_encode32_iff small _).mp rfl
    refine ⟨_, _, UInt32.ofNat code.size, rfl, rfl, ?_, .empty, code, _,
      ByteArray.empty_append.symm, ⟨rfl, rfl⟩, code, _, ⟨⟩, ByteArray.append_empty.symm, length, rfl,
      ?_⟩
    · omega
    · simp [← length]

theorem takes_readExceptions : readExceptions.Takes fun _ text rows =>
    rows.length < 65536 ∧ text = ExceptionRow.encodeAll rows := by
  have item (start : Nat) (text : ByteArray) (row : ExceptionRow) : text = row.encode ↔
      ∃ other : ExceptionRow, text = other.encode ∧ row = other := by simp
  refine (Reader.takes_u2.bind fun count => ExceptionRow.takes_read.replicate count.toNat).congr
    fun start text rows => ?_
  constructor
  · rintro ⟨_, _, count, rfl, rfl, items⟩
    obtain ⟨written, length, rfl, rfl⟩ := (Form.repeated_iff item _ _ _ _).mp items
    rw [ExceptionRow.placeAll_eq]
    have fits : written.length < 65536 := by
      rw [length]
      exact count.toNat_lt
    refine ⟨fits, ?_⟩
    rw [ExceptionRow.encodeAll, (BigEndian.encodeCount_eq_encode16_iff fits count).mpr length]
  · rintro ⟨fits, rfl⟩
    refine ⟨_, _, _, rfl, rfl, ?_⟩
    refine (Form.repeated_iff item _ _ _ _).mpr ⟨rows, ?_, rfl, ?_⟩
    · exact (BigEndian.toNat_ofNat_count fits).symm
    · exact (ExceptionRow.placeAll_eq _ _).symm

/-- A body is read when its written form ends where the body is said to stop. -/
theorem takes_read (stop : Nat) : (read stop).Takes fun start text source =>
    ∃ written : WrittenCode, text = written.encode ∧ source = written.place start ∧
      start + text.size = stop := by
  refine (Reader.takes_u2.bind fun maxStack => Reader.takes_u2.bind fun maxLocals =>
    takes_readCode.bind fun code => takes_readExceptions.bind fun exceptions =>
    Attribute.takes_readAll.bind fun items => Reader.takes_position.bind fun _ =>
    ((Reader.takes_fail _).refused_bind _).unless
      (Reader.takes_pure (CodeAttribute.mk maxStack maxLocals code exceptions items))).congr
        fun start text source => ?_
  constructor
  · rintro ⟨_, _, maxStack, rfl, rfl, _, _, maxLocals, rfl, rfl, _, _, _, rfl,
      ⟨code, filled, short, rfl, rfl⟩, _, _, exceptions, rfl, ⟨fewExceptions, rfl⟩, _, _, _, rfl,
      ⟨items, fewItems, rfl, rfl⟩, _, _, _, rfl, ⟨rfl, rfl⟩, ends, rfl, rfl⟩
    refine ⟨⟨maxStack, maxLocals, code, exceptions, items, filled, short, fewExceptions, fewItems⟩,
      ?_, ?_, ?_⟩
    · simp [WrittenCode.encode, WrittenCode.encodeFront, ByteArray.append_assoc]
    · simp [WrittenCode.place, WrittenCode.encodeFront]
      exact congrArg (WrittenAttribute.placeAll · items) (by omega)
    · simp only [ByteArray.size_append, ByteArray.size_empty]
      simp only [ByteArray.size_append, Decidable.not_not] at ends
      omega
  · rintro ⟨written, rfl, rfl, rfl⟩
    refine ⟨_, _, written.maxStack, ?_, rfl, _, _, written.maxLocals, rfl, rfl, _, _, _, rfl,
      ⟨written.code, written.filled, written.short, rfl, rfl⟩, _, _, written.exceptions, rfl,
      ⟨written.fewExceptions, rfl⟩, _, _, _, ByteArray.append_empty.symm,
      ⟨written.attributes, written.fewAttributes, rfl, rfl⟩, _, _, _, ByteArray.append_empty.symm,
      ⟨rfl, rfl⟩, ?_, rfl, ?_⟩
    · simp [WrittenCode.encode, WrittenCode.encodeFront, ByteArray.append_assoc]
    · simp [WrittenCode.encode, WrittenCode.encodeFront]
      omega
    · simp [WrittenCode.place, WrittenCode.encodeFront]
      exact congrArg (WrittenAttribute.placeAll · written.attributes) (by omega)

/-- A body is parsed from its written form alone, whatever surrounds it. -/
theorem parse_stands {data text : ByteArray} {start : Nat} (stands : Stands data start text)
    (source : CodeAttribute) : parse data ⟨start, start + text.size⟩ = .ok source ↔
      ∃ written : WrittenCode, text = written.encode ∧ source = written.place start := by
  obtain ⟨before, after, rfl, rfl⟩ := stands
  have cut : (before ++ (text ++ after)).extract 0 (before.size + text.size) = before ++ text := by
    rw [← ByteArray.append_assoc]
    exact ByteArray.extract_append_eq_left ByteArray.size_append.symm
  have accepts := (takes_read (before.size + text.size)).accepts before text source
  have parsed : parse (before ++ (text ++ after)) ⟨before.size, before.size + text.size⟩ =
      .ok source ↔ ∃ next, read (before.size + text.size) (.between before text) =
        .ok source next := by
    rw [parse, cut, Cursor.between]
    cases read (before.size + text.size) ⟨before ++ text, before.size⟩ with
    | ok found next => simp
    | error failure next => simp
  rw [parsed, accepts]
  constructor
  · rintro ⟨left, right, rfl, written, rfl, rfl, ends⟩
    have none : right = .empty := by
      rw [ByteArray.size_append] at ends
      exact ByteArray.size_eq_zero_iff.mp (by omega)
    exact ⟨written, by rw [none, ByteArray.append_empty], rfl⟩
  · rintro ⟨written, rfl, rfl⟩
    exact ⟨_, .empty, ByteArray.append_empty.symm, written, rfl, rfl, rfl⟩

end CodeAttribute

end EnumNames
