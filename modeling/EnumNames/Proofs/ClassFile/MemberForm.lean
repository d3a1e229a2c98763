import EnumNames.ClassFile.Layout
import EnumNames.Proofs.Bytes.Stands
import EnumNames.Proofs.ClassFile.PoolForm

/-!
The written forms of attributes and members. A counted list follows its count, and each item knows
where it lies once it is placed.
-/

namespace EnumNames

namespace BigEndian

theorem encodeSize_eq_encode32_iff {size : Nat} (fits : size < 0x100000000) (number : UInt32) :
    encodeSize size = encode32 number ↔ size = number.toNat := by
  constructor
  · intro same
    have equal := congrArg UInt32.toNat (encode32_injective same)
    rwa [UInt32.toNat_ofNat', Nat.mod_eq_of_lt fits] at equal
  · rintro rfl
    rw [encodeSize, UInt32.ofNat_toNat]

end BigEndian

/-- An attribute together with its bytes. -/
structure WrittenAttribute where
  name : UInt16
  body : ByteArray
  fits : body.size < 0x100000000

namespace WrittenAttribute

def encode (item : WrittenAttribute) : ByteArray :=
  BigEndian.encode16 item.name ++ (BigEndian.encodeSize item.body.size ++ item.body)

@[simp] theorem size_encode (item : WrittenAttribute) :
    item.encode.size = 6 + item.body.size := by
  simp [encode]
  omega

/-- The body stands behind the name and the length. -/
theorem stands_body (item : WrittenAttribute) : Stands item.encode 6 item.body :=
  ⟨BigEndian.encode16 item.name ++ BigEndian.encodeSize item.body.size, .empty,
    by simp [encode, ByteArray.append_assoc], rfl⟩

/-- This is what is known of an attribute that starts at an offset. -/
def place (start : Nat) (item : WrittenAttribute) : Attribute where
  name := item.name
  range := ⟨start, start + 6 + item.body.size⟩
  body := ⟨start + 6, start + 6 + item.body.size⟩

/-- The attributes follow their number. -/
def encodeAll (attributes : List WrittenAttribute) : ByteArray :=
  BigEndian.encodeCount attributes.length ++ Relocation.concat (attributes.map encode)

def placeAll (start : Nat) (attributes : List WrittenAttribute) : List Attribute :=
  Form.placeAll encode place (start + 2) attributes

theorem map_name_placeAll (start : Nat) (items : List WrittenAttribute) :
    (placeAll start items).map (·.name) = items.map (·.name) := by
  have same (start : Nat) (item : WrittenAttribute) : (item.place start).name = item.name := rfl
  exact Form.map_placeAll same _ _

end WrittenAttribute

namespace Attribute

theorem takes_read : read.Takes fun start text found =>
    ∃ item : WrittenAttribute, text = item.encode ∧ found = item.place start := by
  refine (Reader.takes_position.bind fun start => Reader.takes_u2.bind fun name =>
    Reader.takes_u4.bind fun length => Reader.takes_position.bind fun body =>
      (Reader.takes_skip length.toNat).bind fun _ => Reader.takes_position.bind fun stop =>
        Reader.takes_pure (Attribute.mk name ⟨start, stop⟩ ⟨body, stop⟩)).congr
          fun start text found => ?_
  constructor
  · rintro ⟨_, _, _, rfl, ⟨rfl, rfl⟩, _, _, name, rfl, rfl, _, _, length, rfl, rfl, _, _, _, rfl,
      ⟨rfl, rfl⟩, body, _, _, rfl, size, _, _, _, rfl, ⟨rfl, rfl⟩, rfl, rfl⟩
    have fits : body.size < 0x100000000 := by
      rw [size]
      exact length.toNat_lt
    refine ⟨⟨name, body, fits⟩, ?_, ?_⟩
    · rw [WrittenAttribute.encode, (BigEndian.encodeSize_eq_encode32_iff fits length).mpr size]
      simp
    · simp [WrittenAttribute.place, Nat.add_assoc]
  · rintro ⟨⟨name, body, fits⟩, rfl, rfl⟩
    have length := (BigEndian.encodeSize_eq_encode32_iff fits _).mp rfl
    refine ⟨_, _, _, ByteArray.empty_append.symm, ⟨rfl, rfl⟩, _, _, name, rfl, rfl, _, _, _, rfl,
      rfl, _, _, _, ByteArray.empty_append.symm, ⟨rfl, rfl⟩, body, _, ⟨⟩,
      ByteArray.append_empty.symm, length, _, _, _, ByteArray.append_empty.symm, ⟨rfl, rfl⟩, rfl, ?_⟩
    simp [WrittenAttribute.place, Nat.add_assoc]

/-- A counted list is read from its count and its items. -/
theorem takes_readAll : readAll.Takes fun start text attributes =>
    ∃ written : List WrittenAttribute, written.length < 65536 ∧
      text = WrittenAttribute.encodeAll written ∧
      attributes = WrittenAttribute.placeAll start written := by
  refine (Reader.takes_u2.bind fun count => takes_read.replicate count.toNat).congr
    fun start text attributes => ?_
  constructor
  · rintro ⟨_, _, count, rfl, rfl, items⟩
    obtain ⟨written, length, rfl, rfl⟩ := (Form.repeated_iff (fun _ _ _ => Iff.rfl) _ _ _ _).mp items
    have fits : written.length < 65536 := by
      rw [length]
      exact count.toNat_lt
    refine ⟨written, fits, ?_, rfl⟩
    rw [WrittenAttribute.encodeAll, (BigEndian.encodeCount_eq_encode16_iff fits count).mpr length]
  · rintro ⟨written, fits, rfl, rfl⟩
    refine ⟨_, _, _, rfl, rfl, ?_⟩
    refine (Form.repeated_iff (fun _ _ _ => Iff.rfl) _ _ _ _).mpr ⟨written, ?_, rfl, rfl⟩
    exact (BigEndian.toNat_ofNat_count fits).symm

end Attribute

/-- A member together with the bytes of its attributes. -/
structure WrittenMember where
  access : UInt16
  name : UInt16
  descriptor : UInt16
  attributes : List WrittenAttribute
  few : attributes.length < 65536

namespace WrittenMember

def encode (member : WrittenMember) : ByteArray :=
  BigEndian.encode16 member.access ++ (BigEndian.encode16 member.name ++
    (BigEndian.encode16 member.descriptor ++ WrittenAttribute.encodeAll member.attributes))

/-- The attributes of a member stand behind its three indices and their number. -/
theorem stands_attributes {member : WrittenMember} {data : ByteArray} {start : Nat}
    (stands : Stands data start member.encode) : Stands data (start + 6 + 2)
      (Relocation.concat (member.attributes.map WrittenAttribute.encode)) := by
  simp only [encode, WrittenAttribute.encodeAll, stands_append, BigEndian.size_encode16,
    BigEndian.size_encodeCount] at stands
  exact stands.2.2.2.2

/-- This is what is known of a member that starts at an offset. -/
def place (start : Nat) (member : WrittenMember) : Member where
  access := member.access
  name := member.name
  descriptor := member.descriptor
  attributes := WrittenAttribute.placeAll (start + 6) member.attributes

/-- The members follow their number. -/
def encodeAll (members : List WrittenMember) : ByteArray :=
  BigEndian.encodeCount members.length ++ Relocation.concat (members.map encode)

def placeAll (start : Nat) (members : List WrittenMember) : List Member :=
  Form.placeAll encode place (start + 2) members

end WrittenMember

namespace Member

theorem takes_read : read.Takes fun start text member =>
    ∃ written : WrittenMember, text = written.encode ∧ member = written.place start := by
  refine (Reader.takes_u2.bind fun access => Reader.takes_u2.bind fun name =>
    Reader.takes_u2.bind fun descriptor => Attribute.takes_readAll.bind fun attributes =>
      Reader.takes_pure (Member.mk access name descriptor attributes)).congr
        fun start text member => ?_
  constructor
  · rintro ⟨_, _, access, rfl, rfl, _, _, name, rfl, rfl, _, _, descriptor, rfl, rfl, _, _, _, rfl,
      ⟨written, few, rfl, rfl⟩, rfl, rfl⟩
    refine ⟨⟨access, name, descriptor, written, few⟩, ?_, ?_⟩
    · simp [WrittenMember.encode]
    · simp [WrittenMember.place, Nat.add_assoc]
  · rintro ⟨⟨access, name, descriptor, written, few⟩, rfl, rfl⟩
    refine ⟨_, _, access, rfl, rfl, _, _, name, rfl, rfl, _, _, descriptor, rfl, rfl, _, _, _,
      ByteArray.append_empty.symm, ⟨written, few, rfl, rfl⟩, rfl, ?_⟩
    simp [WrittenMember.place, Nat.add_assoc]

/-- A counted list is read from its count and its items. -/
theorem takes_readAll : readAll.Takes fun start text members =>
    ∃ written : List WrittenMember, written.length < 65536 ∧
      text = WrittenMember.encodeAll written ∧ members = WrittenMember.placeAll start written := by
  refine (Reader.takes_u2.bind fun count => takes_read.replicate count.toNat).congr
    fun start text attributes => ?_
  constructor
  · rintro ⟨_, _, count, rfl, rfl, items⟩
    obtain ⟨written, length, rfl, rfl⟩ := (Form.repeated_iff (fun _ _ _ => Iff.rfl) _ _ _ _).mp items
    have fits : written.length < 65536 := by
      rw [length]
      exact count.toNat_lt
    refine ⟨written, fits, ?_, rfl⟩
    rw [WrittenMember.encodeAll, (BigEndian.encodeCount_eq_encode16_iff fits count).mpr length]
  · rintro ⟨written, fits, rfl, rfl⟩
    refine ⟨_, _, _, rfl, rfl, ?_⟩
    refine (Form.repeated_iff (fun _ _ _ => Iff.rfl) _ _ _ _).mpr ⟨written, ?_, rfl, rfl⟩
    exact (BigEndian.toNat_ofNat_count fits).symm

end Member

end EnumNames
