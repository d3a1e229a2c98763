import EnumNames.Proofs.ClassFile.MemberForm

/-!
The written form of a class. A class file is the concatenation of its header, its pool, its own
indices, its interfaces, its members and its attributes; the layout of the class is where these
parts lie. Main statement: a layout is read from the bytes of a written class and from no others.
-/

namespace EnumNames

/-- Numbers of 16 bits are written in any bytes of an even number. -/
theorem size_eq_two_mul_iff (bytes : ByteArray) (count : Nat) :
    bytes.size = count * 2 ↔ ∃ numbers : List UInt16, numbers.length = count ∧
      bytes = Relocation.concat (numbers.map BigEndian.encode16) := by
  constructor
  · intro size
    induction count generalizing bytes with
    | zero =>
      rw [Nat.zero_mul, ByteArray.size_eq_zero_iff] at size
      exact ⟨[], rfl, size⟩
    | succ count inductionHypothesis =>
      obtain ⟨⟨⟨first⟩⟩, second, rfl, two⟩ :=
        exists_append_of_le_size (show 2 ≤ bytes.size by omega)
      match first, two with
      | [high, low], _ =>
        rw [ByteArray.size_append, size_mk] at size
        obtain ⟨numbers, length, rfl⟩ := inductionHypothesis second (by
          simp only [List.length_cons, List.length_nil] at size
          omega)
        refine ⟨BigEndian.decode16 high low :: numbers, congrArg (· + 1) length, ?_⟩
        rw [List.map_cons, Relocation.concat_cons, BigEndian.encode16_decode16]
  · rintro ⟨numbers, rfl, rfl⟩
    induction numbers with
    | nil => rfl
    | cons number rest inductionHypothesis =>
      rw [List.map_cons, Relocation.concat_cons, ByteArray.size_append, inductionHypothesis,
        BigEndian.size_encode16, List.length_cons]
      omega

/-- This is what a class file starts with: all its parts up to the fields. -/
structure ClassFront where
  version : ByteArray
  constants : List WrittenConstant
  access : UInt16
  thisClass : UInt16
  superClass : UInt16
  interfaces : List UInt16
  fields : List WrittenMember
  versionSize : version.size = 4
  fewConstants : (ConstantPool.ofConstants constants).count < 65536
  fewInterfaces : interfaces.length < 65536
  fewFields : fields.length < 65536

namespace ClassFront

def pool (front : ClassFront) : ConstantPool := .ofConstants front.constants

/-- The header is the magic number and the version. -/
def encodeHeader (front : ClassFront) : ByteArray :=
  BigEndian.encode32 ClassLayout.magic ++ front.version

def encodePool (front : ClassFront) : ByteArray :=
  BigEndian.encodeCount front.pool.count ++ WrittenConstant.encode front.constants

def encodeInterfaces (interfaces : List UInt16) : ByteArray :=
  BigEndian.encodeCount interfaces.length ++
    Relocation.concat (interfaces.map BigEndian.encode16)

/-- These are the access flags, the two class indices, the interfaces and the fields. -/
def encodeInfo (front : ClassFront) : ByteArray :=
  BigEndian.encode16 front.access ++ (BigEndian.encode16 front.thisClass ++
    (BigEndian.encode16 front.superClass ++ (encodeInterfaces front.interfaces ++
      WrittenMember.encodeAll front.fields)))

def encode (front : ClassFront) : ByteArray :=
  front.encodeHeader ++ (front.encodePool ++ front.encodeInfo)

def poolEnd (front : ClassFront) : Nat :=
  10 + (WrittenConstant.encode front.constants).size

def fieldsStart (front : ClassFront) : Nat :=
  front.poolEnd + 6 + (encodeInterfaces front.interfaces).size

/-- This is the layout that is read from these parts and from methods known otherwise. -/
def layout (front : ClassFront) (methods : List Member) : ClassLayout where
  pool := front.pool
  poolEnd := front.poolEnd
  access := front.access
  thisClass := front.thisClass
  superClass := front.superClass
  fields := WrittenMember.placeAll front.fieldsStart front.fields
  methods

theorem size_encodeHeader (front : ClassFront) : front.encodeHeader.size = 8 := by
  rw [encodeHeader, ByteArray.size_append, front.versionSize]
  rfl

theorem stands_fields (front : ClassFront) : Stands front.encode (front.fieldsStart + 2)
    (Relocation.concat (front.fields.map WrittenMember.encode)) := by
  have whole : Stands front.encode 0
      (front.encodeHeader ++ (front.encodePool ++ front.encodeInfo)) := .self _
  simp only [encodePool, encodeInfo, WrittenMember.encodeAll, stands_append, ByteArray.size_append,
    size_encodeHeader, BigEndian.size_encodeCount, BigEndian.size_encode16] at whole
  obtain ⟨_, _, _, _, _, _, _, fields⟩ := whole
  have start : front.fieldsStart + 2 = 0 + 8 + (2 + (WrittenConstant.encode front.constants).size) +
      2 + 2 + 2 + (encodeInterfaces front.interfaces).size + 2 := by
    rw [fieldsStart, poolEnd]
    omega
  rwa [start]

end ClassFront

/-- A class together with the bytes of all its parts. -/
structure WrittenClass extends ClassFront where
  methods : List WrittenMember
  attributes : List WrittenAttribute
  fewMethods : methods.length < 65536
  fewAttributes : attributes.length < 65536

namespace WrittenClass

def encode (written : WrittenClass) : ByteArray :=
  written.toClassFront.encode ++ (WrittenMember.encodeAll written.methods ++
    WrittenAttribute.encodeAll written.attributes)

def methodsStart (written : WrittenClass) : Nat := written.toClassFront.encode.size

def layout (written : WrittenClass) : ClassLayout :=
  written.toClassFront.layout (WrittenMember.placeAll written.methodsStart written.methods)

theorem stands_fields (written : WrittenClass) :
    Stands written.encode (written.toClassFront.fieldsStart + 2)
      (Relocation.concat (written.fields.map WrittenMember.encode)) := by
  have whole : Stands written.encode 0 (written.toClassFront.encode ++ _) := .self _
  have inner := (stands_append.mp whole).1.inside _ written.toClassFront.stands_fields
  rwa [Nat.zero_add] at inner

theorem stands_methods (written : WrittenClass) :
    Stands written.encode (written.methodsStart + 2)
      (Relocation.concat (written.methods.map WrittenMember.encode)) := by
  have whole : Stands written.encode 0 (written.toClassFront.encode ++
      (WrittenMember.encodeAll written.methods ++ _)) := .self _
  simp only [WrittenMember.encodeAll, stands_append, BigEndian.size_encodeCount, Nat.zero_add]
    at whole
  exact whole.2.1.2

end WrittenClass

namespace ClassLayout

theorem takes_readHeader : readHeader.Takes fun _ text _ =>
    ∃ version : ByteArray, version.size = 4 ∧ text = BigEndian.encode32 magic ++ version := by
  refine (Reader.takes_u4.bind fun found => ((Reader.takes_failAt 0 _).refused_bind _).unless
    ((Reader.takes_skip 2).bind fun _ => Reader.takes_skip 2)).congr fun start text value => ?_
  constructor
  · rintro ⟨_, _, found, rfl, rfl, same, first, second, _, rfl, firstSize, secondSize⟩
    refine ⟨first ++ second, ?_, ?_⟩
    · rw [ByteArray.size_append, firstSize, secondSize]
    · rw [Decidable.not_not.mp same]
  · rintro ⟨version, size, rfl⟩
    obtain ⟨first, second, rfl, two⟩ := exists_append_of_le_size (show 2 ≤ version.size by omega)
    rw [ByteArray.size_append] at size
    exact ⟨_, _, magic, rfl, rfl, not_not_intro rfl, first, second, ⟨⟩, rfl, two, by omega⟩

theorem takes_skipInterfaces : skipInterfaces.Takes fun _ text _ =>
    ∃ interfaces : List UInt16, interfaces.length < 65536 ∧
      text = ClassFront.encodeInterfaces interfaces := by
  refine (Reader.takes_u2.bind fun count => Reader.takes_skip (count.toNat * 2)).congr
    fun start text value => ?_
  constructor
  · rintro ⟨_, _, count, rfl, rfl, size⟩
    obtain ⟨interfaces, length, rfl⟩ := (size_eq_two_mul_iff _ _).mp size
    have fits : interfaces.length < 65536 := by
      rw [length]
      exact count.toNat_lt
    refine ⟨interfaces, fits, ?_⟩
    rw [ClassFront.encodeInterfaces, (BigEndian.encodeCount_eq_encode16_iff fits count).mpr length]
  · rintro ⟨interfaces, fits, rfl⟩
    refine ⟨_, _, _, rfl, rfl, (size_eq_two_mul_iff _ _).mpr ⟨interfaces, ?_, rfl⟩⟩
    exact (BigEndian.toNat_ofNat_count fits).symm

/-- A reader that demands the end accepts no bytes that remain. -/
theorem accepts_end (methods : List Member) :
    (Reader.remaining >>= fun trailing =>
      if trailing ≠ 0 then Reader.fail (.trailingBytes trailing) >>= fun (_ : PUnit) => pure methods
      else pure methods).Accepts fun _ text found => text = .empty ∧ found = methods := by
  intro before rest found
  simp only [Reader.bind_eq_ok]
  have remaining : Reader.remaining (.between before rest) = .ok rest.size (.between before rest) :=
    congrArg (EStateM.Result.ok · _) (Cursor.remaining_between before rest)
  constructor
  · rintro ⟨next, trailing, cursor, found, done⟩
    rw [remaining] at found
    cases found
    split at done
    · cases done
    · rename_i none
      cases done
      exact ⟨ByteArray.size_eq_zero_iff.mp (Decidable.not_not.mp none), rfl⟩
  · rintro ⟨rfl, rfl⟩
    exact ⟨_, _, _, remaining, rfl⟩

def restForm : Form (List Member) := fun start text methods =>
  ∃ (members : List WrittenMember) (items : List WrittenAttribute), members.length < 65536 ∧
    items.length < 65536 ∧
    text = WrittenMember.encodeAll members ++ WrittenAttribute.encodeAll items ∧
    methods = WrittenMember.placeAll start members

theorem readMethods_accepts : readMethods.Accepts restForm := by
  refine (Member.takes_readAll.bind_accepts fun methods => Attribute.takes_readAll.bind_accepts
    fun _ => accepts_end methods).congr fun start text methods => ?_
  constructor
  · rintro ⟨_, _, _, rfl, ⟨members, fewMembers, rfl, rfl⟩, _, _, _, rfl, ⟨items, fewItems, rfl, _⟩,
      rfl, rfl⟩
    exact ⟨members, items, fewMembers, fewItems, by simp, rfl⟩
  · rintro ⟨members, items, fewMembers, fewItems, rfl, rfl⟩
    exact ⟨_, _, _, rfl, ⟨members, fewMembers, rfl, rfl⟩, _, .empty, _, by simp,
      ⟨items, fewItems, rfl, rfl⟩, rfl, rfl⟩

/-- Whatever the methods are taken from, the parts in front of them are read alike. -/
theorem parse_eq_ok_of_accepts {depth : Depth} {rest : Form (List Member)}
    (restAccepts : (readRest depth).Accepts rest) (data : ByteArray) (layout : ClassLayout) :
    parse data depth = .ok layout ↔
      ∃ (front : ClassFront) (right : ByteArray) (methods : List Member),
        data = front.encode ++ right ∧ rest front.encode.size right methods ∧
        layout = front.layout methods := by
  have accepts := takes_readHeader.bind_accepts fun _ => ConstantPool.takes_read.bind_accepts
    fun pool => Reader.takes_position.bind_accepts fun poolEnd => Reader.takes_u2.bind_accepts
    fun access => Reader.takes_u2.bind_accepts fun thisClass => Reader.takes_u2.bind_accepts
    fun superClass => takes_skipInterfaces.bind_accepts fun _ => Member.takes_readAll.bind_accepts
    fun fields => restAccepts.bind_pure fun methods =>
      ClassLayout.mk pool poolEnd access thisClass superClass fields methods
  refine (accepts.evaluate data layout).trans ?_
  constructor
  · rintro ⟨_, _, _, rfl, ⟨version, versionSize, rfl⟩, _, _, _, rfl,
      ⟨constants, rfl, fewConstants, rfl⟩, _, _, poolEnd, rfl, ⟨rfl, rfl⟩, _, _, access, rfl, rfl,
      _, _, thisClass, rfl, rfl, _, _, superClass, rfl, rfl, _, _, _, rfl,
      ⟨interfaces, fewInterfaces, rfl⟩, _, right, _, rfl, ⟨fields, fewFields, rfl, rfl⟩, methods,
      holds, rfl⟩
    refine ⟨⟨version, constants, access, thisClass, superClass, interfaces, fields, versionSize,
      fewConstants, fewInterfaces, fewFields⟩, right, methods, ?_, ?_, ?_⟩
    · simp [ClassFront.encode, ClassFront.encodeHeader, ClassFront.encodePool,
        ClassFront.encodeInfo, ClassFront.pool, ByteArray.append_assoc]
    · refine (congrArg (rest · right methods) ?_).mpr holds
      simp [ClassFront.encode, ClassFront.encodeHeader, ClassFront.encodePool,
        ClassFront.encodeInfo, ClassFront.pool]
      omega
    · simp [ClassFront.layout, ClassFront.pool, ClassFront.poolEnd, ClassFront.fieldsStart,
        versionSize]
      exact ⟨by omega, congrArg (WrittenMember.placeAll · fields) (by omega)⟩
  · rintro ⟨front, right, methods, rfl, holds, rfl⟩
    refine ⟨_, _, ⟨⟩, ?_, ⟨front.version, front.versionSize, rfl⟩, _, _, _, rfl,
      ⟨front.constants, rfl, front.fewConstants, rfl⟩, _, _, _, ByteArray.empty_append.symm,
      ⟨rfl, rfl⟩, _, _, front.access, rfl, rfl, _, _, front.thisClass, rfl, rfl, _, _,
      front.superClass, rfl, rfl, _, _, ⟨⟩, rfl, ⟨front.interfaces, front.fewInterfaces, rfl⟩, _,
      right, _, rfl, ⟨front.fields, front.fewFields, rfl, rfl⟩, methods, ?_, ?_⟩
    · simp [ClassFront.encode, ClassFront.encodeHeader, ClassFront.encodePool,
        ClassFront.encodeInfo, ClassFront.pool, ByteArray.append_assoc]
    · refine (congrArg (rest · right methods) ?_).mp holds
      simp [ClassFront.encode, ClassFront.encodeHeader, ClassFront.encodePool,
        ClassFront.encodeInfo, ClassFront.pool]
      omega
    · simp [ClassFront.layout, ClassFront.pool, ClassFront.poolEnd, ClassFront.fieldsStart,
        front.versionSize]
      exact ⟨by omega, congrArg (WrittenMember.placeAll · front.fields) (by omega)⟩

/-- The whole class is read from its written form and from nothing else. -/
theorem parse_full_eq_ok (data : ByteArray) (layout : ClassLayout) :
    parse data .full = .ok layout ↔
      ∃ written : WrittenClass, data = written.encode ∧ layout = written.layout := by
  have accepts : (readRest .full).Accepts restForm := readMethods_accepts
  refine (parse_eq_ok_of_accepts accepts data layout).trans ?_
  constructor
  · rintro ⟨front, _, _, rfl, ⟨methods, items, fewMethods, fewItems, rfl, rfl⟩, rfl⟩
    exact ⟨⟨front, methods, items, fewMethods, fewItems⟩, rfl, rfl⟩
  · rintro ⟨written, rfl, rfl⟩
    exact ⟨_, _, _, rfl, ⟨_, _, written.fewMethods, written.fewAttributes, rfl, rfl⟩, rfl⟩

/-- The parts up to the fields are read whatever follows them. -/
theorem parse_fields_eq_ok (data : ByteArray) (layout : ClassLayout) :
    parse data .fields = .ok layout ↔
      ∃ (front : ClassFront) (rest : ByteArray), data = front.encode ++ rest ∧
        layout = front.layout [] := by
  have accepts : (readRest .fields).Accepts fun _ _ methods => methods = [] :=
    (Reader.takes_pure []).accepts.congr fun start text methods => by simp
  refine (parse_eq_ok_of_accepts accepts data layout).trans ?_
  constructor
  · rintro ⟨front, rest, _, rfl, rfl, rfl⟩
    exact ⟨front, rest, rfl, rfl⟩
  · rintro ⟨front, rest, rfl, rfl⟩
    exact ⟨front, rest, _, rfl, rfl, rfl⟩

end ClassLayout

end EnumNames
