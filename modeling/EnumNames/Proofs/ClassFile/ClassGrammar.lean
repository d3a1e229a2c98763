import EnumNames.Proofs.ClassFile.ClassForm

/-!
The grammar of class files. Every part of a written class ends by itself, so the bytes of a class
are the bytes of no other class. Main statement: the layout of a class is read from its bytes and
from no others, and it reports the parts of the class where they lie.
-/

namespace EnumNames

variable {α ω : Type}

/-- A written value stands for no other value and ends in one place, whatever follows it. -/
def SelfDelimiting (encode : ω → ByteArray) : Prop :=
  ∀ first second left right, encode first ++ left = encode second ++ right →
    first = second ∧ left = right

namespace SelfDelimiting

theorem ofWidth {encode : ω → ByteArray} (width : Nat)
    (size : ∀ value, (encode value).size = width) (injective : Function.Injective encode) :
    SelfDelimiting encode := by
  intro first second left right same
  have heads : encode first = encode second :=
    ByteArray.append_inj_left same ((size first).trans (size second).symm)
  refine ⟨injective heads, ?_⟩
  rw [heads] at same
  exact (ByteArray.append_right_inj _).mp same

theorem encode16 : SelfDelimiting BigEndian.encode16 :=
  ofWidth 2 BigEndian.size_encode16 BigEndian.encode16_injective

theorem encode32 : SelfDelimiting BigEndian.encode32 :=
  ofWidth 4 BigEndian.size_encode32 BigEndian.encode32_injective

/-- Two counts that fit their bytes are told apart by them. -/
theorem encodeCount {first second : Nat} {left right : ByteArray} (firstFits : first < 65536)
    (secondFits : second < 65536)
    (same : BigEndian.encodeCount first ++ left = BigEndian.encodeCount second ++ right) :
    first = second ∧ left = right := by
  obtain ⟨numbers, rest⟩ := encode16 _ _ _ _ same
  refine ⟨?_, rest⟩
  rw [← BigEndian.toNat_ofNat_count firstFits, ← BigEndian.toNat_ofNat_count secondFits, numbers]

/-- Lists of one length are told apart item by item. -/
theorem concat {encode : ω → ByteArray} (delimited : SelfDelimiting encode) {first second : List ω}
    {left right : ByteArray} (length : first.length = second.length)
    (same : Relocation.concat (first.map encode) ++ left =
      Relocation.concat (second.map encode) ++ right) : first = second ∧ left = right := by
  induction first generalizing second with
  | nil =>
    obtain rfl := List.eq_nil_of_length_eq_zero length.symm
    exact ⟨rfl, by simpa using same⟩
  | cons item rest inductionHypothesis =>
    match second, length with
    | other :: others, length =>
      simp only [List.map_cons, Relocation.concat_cons, ByteArray.append_assoc] at same
      obtain ⟨rfl, tails⟩ := delimited _ _ _ _ same
      obtain ⟨rfl, behind⟩ := inductionHypothesis (Nat.succ.inj length) tails
      exact ⟨rfl, behind⟩

/-- The count in front of a list gives its length. -/
theorem counted {encode : ω → ByteArray} (delimited : SelfDelimiting encode) {first second : List ω}
    {left right : ByteArray} (firstFits : first.length < 65536) (secondFits : second.length < 65536)
    (same : BigEndian.encodeCount first.length ++ Relocation.concat (first.map encode) ++ left =
      BigEndian.encodeCount second.length ++ Relocation.concat (second.map encode) ++ right) :
    first = second ∧ left = right := by
  rw [ByteArray.append_assoc, ByteArray.append_assoc] at same
  obtain ⟨length, items⟩ := encodeCount firstFits secondFits same
  exact delimited.concat length items

end SelfDelimiting

/-- What a reader takes from the front of some bytes is the only thing it can take from them. -/
theorem Reader.Takes.unique {reader : Reader α} {form : Form α} (takes : reader.Takes form)
    (before : ByteArray) {first second left right : ByteArray} {value found : α}
    (one : form before.size first value) (other : form before.size second found)
    (same : first ++ left = second ++ right) : first = second ∧ value = found := by
  have read := (takes before _ value _).mpr ⟨first, left, rfl, rfl, one⟩
  rw [same] at read
  have again := (takes before _ found _).mpr ⟨second, right, rfl, rfl, other⟩
  obtain ⟨values, cursors⟩ := EStateM.Result.ok.inj (read.symm.trans again)
  have sizes := congrArg Cursor.position cursors
  simp only [Cursor.position_between, ByteArray.size_append] at sizes
  exact ⟨ByteArray.append_inj_left same (by omega), values⟩

namespace WrittenConstant

theorem selfDelimiting : SelfDelimiting bytes := by
  rintro ⟨constant, bytes, written⟩ ⟨other, others, otherWritten⟩ left right same
  obtain ⟨rfl, rfl⟩ := Constant.takes_read.unique .empty written otherWritten same
  exact ⟨rfl, (ByteArray.append_right_inj _).mp same⟩

theorem slots_ne_nil (constant : Constant) : constant.slots.length ≠ 0 := by
  unfold Constant.slots
  split <;> simp

/-- Constants that fill as many slots are told apart one by one. -/
theorem encode_unique {first second : List WrittenConstant} {left right : ByteArray}
    (fill : (slots first).length = (slots second).length)
    (same : encode first ++ left = encode second ++ right) : first = second ∧ left = right := by
  induction first generalizing second with
  | nil =>
    cases second with
    | nil => exact ⟨rfl, by simpa using same⟩
    | cons other others =>
      have some := slots_ne_nil other.constant
      rw [slots_nil, slots_cons, List.length_append, List.length_nil] at fill
      omega
  | cons item rest inductionHypothesis =>
    cases second with
    | nil =>
      have some := slots_ne_nil item.constant
      rw [slots_nil, slots_cons, List.length_append, List.length_nil] at fill
      omega
    | cons other others =>
      rw [encode_cons, encode_cons, ByteArray.append_assoc, ByteArray.append_assoc] at same
      obtain ⟨rfl, tails⟩ := selfDelimiting _ _ _ _ same
      rw [slots_cons, slots_cons, List.length_append, List.length_append] at fill
      obtain ⟨rfl, behind⟩ := inductionHypothesis (by omega) tails
      exact ⟨rfl, behind⟩

end WrittenConstant

namespace WrittenAttribute

theorem selfDelimiting : SelfDelimiting encode := by
  rintro ⟨name, body, fits⟩ ⟨other, otherBody, otherFits⟩ left right same
  simp only [encode, ByteArray.append_assoc] at same
  obtain ⟨rfl, sized⟩ := SelfDelimiting.encode16 _ _ _ _ same
  obtain ⟨sizes, bodies⟩ := SelfDelimiting.encode32 _ _ _ _ sized
  have size : body.size = otherBody.size := by
    have equal := congrArg UInt32.toNat sizes
    rwa [UInt32.toNat_ofNat', UInt32.toNat_ofNat', Nat.mod_eq_of_lt fits,
      Nat.mod_eq_of_lt otherFits] at equal
  obtain rfl := ByteArray.append_inj_left bodies size
  exact ⟨rfl, (ByteArray.append_right_inj _).mp bodies⟩

end WrittenAttribute

namespace WrittenMember

theorem selfDelimiting : SelfDelimiting encode := by
  rintro ⟨access, name, descriptor, attributes, few⟩
    ⟨otherAccess, otherName, otherDescriptor, others, otherFew⟩ left right same
  simp only [encode, ByteArray.append_assoc] at same
  obtain ⟨rfl, named⟩ := SelfDelimiting.encode16 _ _ _ _ same
  obtain ⟨rfl, described⟩ := SelfDelimiting.encode16 _ _ _ _ named
  obtain ⟨rfl, counted⟩ := SelfDelimiting.encode16 _ _ _ _ described
  obtain ⟨rfl, behind⟩ := WrittenAttribute.selfDelimiting.counted few otherFew counted
  exact ⟨rfl, behind⟩

end WrittenMember

theorem ClassFront.selfDelimiting : SelfDelimiting ClassFront.encode := by
  rintro ⟨version, constants, access, thisClass, superClass, interfaces, fields, versionSize,
      fewConstants, fewInterfaces, fewFields⟩
    ⟨otherVersion, otherConstants, otherAccess, otherThis, otherSuper, otherInterfaces, otherFields,
      otherVersionSize, otherFewConstants, otherFewInterfaces, otherFewFields⟩ left right same
  simp only [encode, encodeHeader, encodePool, encodeInfo, pool, ByteArray.append_assoc] at same
  obtain ⟨-, versioned⟩ := SelfDelimiting.encode32 _ _ _ _ same
  obtain rfl := ByteArray.append_inj_left versioned (versionSize.trans otherVersionSize.symm)
  have pooled := (ByteArray.append_right_inj _).mp versioned
  obtain ⟨counts, filled⟩ := SelfDelimiting.encodeCount fewConstants otherFewConstants pooled
  rw [ConstantPool.count_ofConstants, ConstantPool.count_ofConstants] at counts
  obtain ⟨rfl, flagged⟩ := WrittenConstant.encode_unique (Nat.succ.inj counts) filled
  obtain ⟨rfl, named⟩ := SelfDelimiting.encode16 _ _ _ _ flagged
  obtain ⟨rfl, derived⟩ := SelfDelimiting.encode16 _ _ _ _ named
  obtain ⟨rfl, implemented⟩ := SelfDelimiting.encode16 _ _ _ _ derived
  obtain ⟨rfl, members⟩ :=
    SelfDelimiting.encode16.counted fewInterfaces otherFewInterfaces implemented
  obtain ⟨rfl, behind⟩ := WrittenMember.selfDelimiting.counted fewFields otherFewFields members
  exact ⟨rfl, behind⟩

/-- The bytes of a class are the bytes of no other class. -/
theorem WrittenClass.encode_injective : Function.Injective WrittenClass.encode := by
  rintro ⟨front, methods, attributes, fewMethods, fewAttributes⟩
    ⟨otherFront, otherMethods, others, otherFewMethods, otherFewAttributes⟩ same
  obtain ⟨rfl, members⟩ := ClassFront.selfDelimiting _ _ _ _ same
  obtain ⟨rfl, items⟩ := WrittenMember.selfDelimiting.counted fewMethods otherFewMethods members
  have last := congrArg (· ++ ByteArray.empty) items
  obtain ⟨rfl, -⟩ := WrittenAttribute.selfDelimiting.counted fewAttributes otherFewAttributes last
  rfl

/-- What holds of every item where it stands relates the placed items to the items. -/
theorem Form.forall₂_placed {encode : ω → ByteArray} {place : Nat → ω → α} {related : α → ω → Prop}
    {data : ByteArray} {start : Nat} {items : List ω}
    (stands : Stands data start (Relocation.concat (items.map encode)))
    (each : ∀ index item, Stands data index (encode item) → related (place index item) item) :
    List.Forall₂ related (placeAll encode place start items) items := by
  induction items generalizing start with
  | nil => exact .nil
  | cons item rest inductionHypothesis =>
    rw [List.map_cons, Relocation.concat_cons, stands_append] at stands
    exact .cons (each _ _ stands.1) (inductionHypothesis stands.2)

/-- The range holds the whole attribute, and the body what stands behind its header. -/
structure Attribute.Reports (data : ByteArray) (item : Attribute) (written : WrittenAttribute) :
    Prop where
  name : item.name = written.name
  range : Access.slice data item.range = .ok written.encode
  body : Access.slice data item.body = .ok written.body
  header : item.body.start = item.range.start + 6
  stop : item.body.stop = item.range.stop

structure Member.Reports (data : ByteArray) (member : Member) (written : WrittenMember) : Prop where
  access : member.access = written.access
  name : member.name = written.name
  descriptor : member.descriptor = written.descriptor
  attributes : List.Forall₂ (Attribute.Reports data) member.attributes written.attributes

/-- The pool holds the constants in order, each with as many slots as it takes, and ends where the
access flags of the class start. -/
structure ClassLayout.Reports (data : ByteArray) (layout : ClassLayout) (written : WrittenClass) :
    Prop where
  slots : layout.pool.slots.toList = none :: written.constants.flatMap (·.constant.slots)
  appended : layout.pool.appended = .empty
  pool : Access.slice data ⟨8, layout.poolEnd⟩ = .ok written.encodePool
  info : Access.slice data ⟨layout.poolEnd, written.methodsStart⟩ = .ok written.encodeInfo
  access : layout.access = written.access
  thisClass : layout.thisClass = written.thisClass
  superClass : layout.superClass = written.superClass
  fields : List.Forall₂ (Member.Reports data) layout.fields written.fields
  methods : List.Forall₂ (Member.Reports data) layout.methods written.methods

theorem WrittenAttribute.reports_place {data : ByteArray} {start : Nat} {item : WrittenAttribute}
    (stands : Stands data start item.encode) : (item.place start).Reports data item where
  name := rfl
  range := by
    refine Access.slice_eq_ok.mpr ⟨?_, stands⟩
    rw [size_encode]
    omega
  body := Access.slice_eq_ok.mpr ⟨rfl, stands.inside 6 item.stands_body⟩
  header := rfl
  stop := rfl

theorem WrittenMember.reports_place {data : ByteArray} {start : Nat} {member : WrittenMember}
    (stands : Stands data start member.encode) : (member.place start).Reports data member where
  access := rfl
  name := rfl
  descriptor := rfl
  attributes := Form.forall₂_placed (stands_attributes stands) fun _ _ =>
    WrittenAttribute.reports_place

theorem WrittenClass.reports_layout (written : WrittenClass) :
    written.layout.Reports written.encode written := by
  have whole : Stands written.encode 0 (written.encodeHeader ++
      (written.encodePool ++ written.encodeInfo) ++ _) := .self _
  obtain ⟨-, pool, info⟩ : Stands written.encode 0 written.encodeHeader ∧
      Stands written.encode 8 written.encodePool ∧
      Stands written.encode written.poolEnd written.encodeInfo := by
    simp only [stands_append, ClassFront.size_encodeHeader, ClassFront.encodePool,
      BigEndian.size_encodeCount, ByteArray.size_append] at whole
    have place : written.poolEnd = 0 + 8 + (2 + (WrittenConstant.encode written.constants).size) := by
      rw [ClassFront.poolEnd]
      omega
    rw [place]
    exact ⟨whole.1.1, stands_append.mpr whole.1.2.1, whole.1.2.2⟩
  exact {
    slots := rfl
    appended := rfl
    pool := by
      refine Access.slice_eq_ok.mpr ⟨?_, pool⟩
      change written.poolEnd = _
      rw [ClassFront.poolEnd, ClassFront.encodePool, ByteArray.size_append,
        BigEndian.size_encodeCount]
      omega
    info := by
      refine Access.slice_eq_ok.mpr ⟨?_, info⟩
      change written.methodsStart = written.poolEnd + written.encodeInfo.size
      rw [methodsStart, ClassFront.encode, ByteArray.size_append, ByteArray.size_append,
        ClassFront.size_encodeHeader, ClassFront.encodePool, ByteArray.size_append,
        BigEndian.size_encodeCount, ClassFront.poolEnd]
      omega
    access := rfl
    thisClass := rfl
    superClass := rfl
    fields := Form.forall₂_placed written.stands_fields fun _ _ => WrittenMember.reports_place
    methods := Form.forall₂_placed written.stands_methods fun _ _ => WrittenMember.reports_place }

/-- Exactly the bytes of a written class are accepted. The layout reports the parts of the class,
and no other class has these bytes. -/
theorem ClassLayout.parse_full_grammar :
    (∀ data layout, parse data .full = .ok layout ↔
      ∃ written : WrittenClass, data = written.encode ∧ layout = written.layout) ∧
    ∀ written : WrittenClass, parse written.encode .full = .ok written.layout ∧
      written.layout.Reports written.encode written ∧
      ∀ other : WrittenClass, written.encode = other.encode ↔ written = other := by
  refine ⟨parse_full_eq_ok, fun written => ⟨?_, written.reports_layout, fun other => ?_⟩⟩
  · exact (parse_full_eq_ok _ _).mpr ⟨written, rfl, rfl⟩
  · exact WrittenClass.encode_injective.eq_iff

end EnumNames
