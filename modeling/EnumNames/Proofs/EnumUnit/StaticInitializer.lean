import EnumNames.EnumUnit.Repair
import EnumNames.Proofs.ClassFile.ClassForm
import EnumNames.Proofs.ClassFile.CodeForm
import EnumNames.Proofs.ClassFile.PoolExtension

/-!
The static initializer of a class, from the bytes of the class down to the instructions. A class
with a static initializer is written around one `Code` attribute, and what is found on the way to
the instructions follows from the parts of that written form.
-/

namespace EnumNames

/-- The static initializer is found by its name and read down to its instructions. -/
structure StaticInitializer (data : ByteArray) where
  layout : ClassLayout
  method : Member
  number : Nat
  location : Attribute
  source : CodeAttribute
  code : ByteArray
  instructions : List Instruction
  parsed : ClassLayout.parse data .full = .ok layout
  found : layout.findMethod EnumUnit.initializerName EnumUnit.initializerDescriptor =
    .ok (some (method, number))
  located : layout.findAttribute method "Code" = .ok (some location)
  read : CodeAttribute.parse data location.body = .ok source
  sliced : Access.slice data source.code = .ok code
  decoded : Instruction.decodeAll code = .ok instructions

/-- All that is read on the way to the instructions is determined by the bytes of the class. -/
instance (data : ByteArray) : Subsingleton (StaticInitializer data) where
  allEq first second := by
    obtain ⟨_, _, _, _, _, _, _, parsed, found, located, read, sliced, decoded⟩ := first
    obtain ⟨_, _, _, _, _, _, _, otherParsed, otherFound, otherLocated, otherRead, otherSliced,
      otherDecoded⟩ := second
    cases parsed.symm.trans otherParsed
    cases found.symm.trans otherFound
    cases located.symm.trans otherLocated
    cases read.symm.trans otherRead
    cases sliced.symm.trans otherSliced
    cases decoded.symm.trans otherDecoded
    rfl

namespace ConstantPool

/-- The two indices are the name and the descriptor of a static initializer. -/
def isInitializer (pool : ConstantPool) (name descriptor : UInt16) : Except Failure Bool := do
  if (← pool.utf8 name) = EnumUnit.initializerName then
    return (← pool.utf8 descriptor) = EnumUnit.initializerDescriptor
  else
    return false

/-- The index is the name of a `Code` attribute. -/
def isCode (pool : ConstantPool) (name : UInt16) : Except Failure Bool :=
  return (← pool.utf8 name) = "Code"

namespace Extends

variable {pool source : ConstantPool}

theorem isInitializer (extension : pool.Extends source) {name descriptor : UInt16} {answer : Bool}
    (done : source.isInitializer name descriptor = .ok answer) :
    pool.isInitializer name descriptor = .ok answer := by
  obtain ⟨text, read, done⟩ := bind_eq_ok.mp done
  refine bind_eq_ok.mpr ⟨text, extension.utf8 read, ?_⟩
  split at done
  · rename_i same
    obtain ⟨other, otherRead, done⟩ := bind_eq_ok.mp done
    rw [if_pos same]
    exact bind_eq_ok.mpr ⟨other, extension.utf8 otherRead, done⟩
  · rename_i different
    rw [if_neg different]
    exact done

theorem isCode (extension : pool.Extends source) {name : UInt16} {answer : Bool}
    (done : source.isCode name = .ok answer) : pool.isCode name = .ok answer := by
  obtain ⟨text, read, done⟩ := bind_eq_ok.mp done
  exact bind_eq_ok.mpr ⟨text, extension.utf8 read, done⟩

end Extends

end ConstantPool

namespace ClassLayout

/-- This is the first method that matches, and its number counts the methods in front of it. -/
theorem findMethod_eq_some {layout : ClassLayout} {name descriptor : String} {method : Member}
    {number : Nat} : layout.findMethod name descriptor = .ok (some (method, number)) ↔
      ∃ left right, layout.methods = left ++ method :: right ∧ number = left.length ∧
        layout.matchesMethod name descriptor method = .ok true ∧
        ∀ other ∈ left, layout.matchesMethod name descriptor other = .ok false := by
  rw [findMethod, findM?_eq_some]
  constructor
  · rintro ⟨left, right, same, passes, others⟩
    obtain ⟨first, rest, methods, rfl, tail⟩ := List.zipIdx_eq_append_iff.mp same
    obtain ⟨_, second, rfl, found, rfl⟩ := List.zipIdx_eq_cons_iff.mp tail.symm
    cases found
    refine ⟨first, second, methods, Nat.zero_add _, passes, fun other member => ?_⟩
    rw [← List.zipIdx_map_fst 0 first] at member
    obtain ⟨numbered, inside, rfl⟩ := List.mem_map.mp member
    exact others numbered inside
  · rintro ⟨left, right, methods, rfl, passes, others⟩
    refine ⟨left.zipIdx, right.zipIdx (left.length + 1), ?_, passes, fun other member => ?_⟩
    · rw [methods, List.zipIdx_append, List.zipIdx_cons, Nat.zero_add]
    · exact others _ (List.fst_mem_of_mem_zipIdx member)

theorem matchesMethod_place (layout : ClassLayout) (start : Nat) (member : WrittenMember) :
    layout.matchesMethod EnumUnit.initializerName EnumUnit.initializerDescriptor
      (member.place start) = layout.pool.isInitializer member.name member.descriptor := rfl

end ClassLayout

/-- The written parts of a class around the `Code` attribute of its static initializer. -/
structure InitializerFrame where
  front : ClassFront
  left : List WrittenMember
  access : UInt16
  name : UInt16
  descriptor : UInt16
  before : List WrittenAttribute
  item : WrittenAttribute
  after : List WrittenAttribute
  right : List WrittenMember
  attributes : List WrittenAttribute
  few : (before ++ item :: after).length < 65536
  fewMethods : left.length + (right.length + 1) < 65536
  fewAttributes : attributes.length < 65536
  first : ∀ member ∈ left, front.pool.isInitializer member.name member.descriptor = .ok false
  named : front.pool.isInitializer name descriptor = .ok true
  firstCode : ∀ other ∈ before, front.pool.isCode other.name = .ok false
  namedCode : front.pool.isCode item.name = .ok true

namespace InitializerFrame

def method (frame : InitializerFrame) : WrittenMember where
  access := frame.access
  name := frame.name
  descriptor := frame.descriptor
  attributes := frame.before ++ frame.item :: frame.after
  few := frame.few

def toClass (frame : InitializerFrame) : WrittenClass where
  toClassFront := frame.front
  methods := frame.left ++ frame.method :: frame.right
  attributes := frame.attributes
  fewMethods := by
    rw [List.length_append]
    exact frame.fewMethods
  fewAttributes := frame.fewAttributes

/-- These are the bytes between the pool and the `Code` attribute. -/
def opening (frame : InitializerFrame) : ByteArray :=
  frame.front.encodeInfo ++ (BigEndian.encodeCount frame.toClass.methods.length ++
    (Relocation.concat (frame.left.map WrittenMember.encode) ++
      (BigEndian.encode16 frame.access ++ (BigEndian.encode16 frame.name ++
        (BigEndian.encode16 frame.descriptor ++
          (BigEndian.encodeCount frame.method.attributes.length ++
            Relocation.concat (frame.before.map WrittenAttribute.encode)))))))

/-- These are the bytes behind the `Code` attribute. -/
def closing (frame : InitializerFrame) : ByteArray :=
  Relocation.concat (frame.after.map WrittenAttribute.encode) ++
    (Relocation.concat (frame.right.map WrittenMember.encode) ++
      WrittenAttribute.encodeAll frame.attributes)

theorem encode_toClass (frame : InitializerFrame) : frame.toClass.encode =
    frame.front.encodeHeader ++ (frame.front.encodePool ++
      (frame.opening ++ (frame.item.encode ++ frame.closing))) := by
  simp [WrittenClass.encode, toClass, ClassFront.encode, WrittenMember.encodeAll, opening, closing,
    method, WrittenMember.encode, WrittenAttribute.encodeAll, ByteArray.append_assoc]

/-- The `Code` attribute starts here. -/
def itemStart (frame : InitializerFrame) : Nat := frame.front.poolEnd + frame.opening.size

def methodStart (frame : InitializerFrame) : Nat :=
  frame.toClass.methodsStart + 2 + (Relocation.concat (frame.left.map WrittenMember.encode)).size

theorem itemStart_eq (frame : InitializerFrame) : frame.itemStart = frame.methodStart + 6 + 2 +
    (Relocation.concat (frame.before.map WrittenAttribute.encode)).size := by
  simp only [itemStart, methodStart, opening, WrittenClass.methodsStart, toClass, ClassFront.encode,
    ClassFront.size_encodeHeader, ClassFront.encodePool, ClassFront.poolEnd, ByteArray.size_append,
    BigEndian.size_encodeCount, BigEndian.size_encode16]
  omega

/-- These are the pieces between which the `Code` attribute can be replaced. -/
theorem stands_parts (frame : InitializerFrame) :
    Stands frame.toClass.encode 0 frame.front.encodeHeader ∧
      Stands frame.toClass.encode 10 (WrittenConstant.encode frame.front.constants) ∧
      Stands frame.toClass.encode frame.front.poolEnd frame.opening ∧
      Stands frame.toClass.encode frame.itemStart frame.item.encode ∧
      Stands frame.toClass.encode (frame.itemStart + 6 + frame.item.body.size) frame.closing := by
  have whole : Stands frame.toClass.encode 0 (frame.front.encodeHeader ++ (frame.front.encodePool ++
      (frame.opening ++ (frame.item.encode ++ frame.closing)))) := by
    rw [← encode_toClass]
    exact .self _
  simp only [ClassFront.encodePool, stands_append, ByteArray.size_append,
    ClassFront.size_encodeHeader, BigEndian.size_encodeCount, WrittenAttribute.size_encode] at whole
  obtain ⟨header, ⟨_, entries⟩, opening, item, closing⟩ := whole
  have opened : frame.front.poolEnd =
      0 + 8 + (2 + (WrittenConstant.encode frame.front.constants).size) := by
    rw [ClassFront.poolEnd]
    omega
  rw [← opened] at opening item closing
  exact ⟨header, entries, opening, item, by rwa [itemStart, Nat.add_assoc]⟩

theorem stands_item (frame : InitializerFrame) :
    Stands frame.toClass.encode frame.itemStart frame.item.encode := frame.stands_parts.2.2.2.1

theorem size_encode (frame : InitializerFrame) : frame.toClass.encode.size =
    frame.itemStart + 6 + frame.item.body.size + frame.closing.size := by
  rw [encode_toClass]
  simp only [ClassFront.encodePool, ByteArray.size_append, ClassFront.size_encodeHeader,
    BigEndian.size_encodeCount, WrittenAttribute.size_encode, itemStart, ClassFront.poolEnd]
  omega

/-- The methods lie around the one with the `Code` attribute. -/
theorem methods_layout (frame : InitializerFrame) : frame.toClass.layout.methods =
    Form.placeAll WrittenMember.encode WrittenMember.place (frame.toClass.methodsStart + 2)
      frame.left ++ frame.method.place frame.methodStart ::
        Form.placeAll WrittenMember.encode WrittenMember.place
          (frame.methodStart + frame.method.encode.size) frame.right :=
  Form.placeAll_append _ _ _ _ _

/-- The attributes of the method lie around its `Code` attribute. -/
theorem attributes_place (frame : InitializerFrame) :
    (frame.method.place frame.methodStart).attributes =
      Form.placeAll WrittenAttribute.encode WrittenAttribute.place (frame.methodStart + 6 + 2)
        frame.before ++ frame.item.place frame.itemStart ::
          Form.placeAll WrittenAttribute.encode WrittenAttribute.place
            (frame.itemStart + frame.item.encode.size) frame.after := by
  rw [itemStart_eq]
  exact Form.placeAll_append _ _ _ _ _

theorem parse_toClass (frame : InitializerFrame) :
    ClassLayout.parse frame.toClass.encode .full = .ok frame.toClass.layout :=
  (ClassLayout.parse_full_eq_ok _ _).mpr ⟨frame.toClass, rfl, rfl⟩

theorem findMethod_toClass (frame : InitializerFrame) :
    frame.toClass.layout.findMethod EnumUnit.initializerName EnumUnit.initializerDescriptor =
      .ok (some (frame.method.place frame.methodStart, frame.left.length)) := by
  refine ClassLayout.findMethod_eq_some.mpr ⟨_, _, frame.methods_layout, ?_, ?_, ?_⟩
  · exact (Form.length_placeAll _ _ _ _).symm
  · exact frame.named
  · exact (Form.forall_placeAll (fun start member => Iff.of_eq
      (congrArg (· = _) (frame.toClass.layout.matchesMethod_place start member))) _ _).mpr frame.first

theorem findAttribute_toClass (frame : InitializerFrame) :
    frame.toClass.layout.findAttribute (frame.method.place frame.methodStart) "Code" =
      .ok (some (frame.item.place frame.itemStart)) := by
  have same (start : Nat) (item : WrittenAttribute) :
      frame.toClass.layout.pool.isCode (item.place start).name = .ok false ↔
        frame.front.pool.isCode item.name = .ok false := Iff.rfl
  refine findM?_eq_some.mpr ⟨_, _, frame.attributes_place, frame.namedCode, ?_⟩
  exact (Form.forall_placeAll same _ _).mpr frame.firstCode

/-- The methods stand around the one with the replaced attribute. -/
theorem stands_left_method_right (frame : InitializerFrame) :
    Stands frame.toClass.encode (frame.toClass.methodsStart + 2)
        (Relocation.concat (frame.left.map WrittenMember.encode)) ∧
      Stands frame.toClass.encode frame.methodStart frame.method.encode ∧
      Stands frame.toClass.encode (frame.methodStart + frame.method.encode.size)
        (Relocation.concat (frame.right.map WrittenMember.encode)) := by
  have whole := frame.toClass.stands_methods
  rw [show frame.toClass.methods = frame.left ++ frame.method :: frame.right from rfl,
    List.map_append, Relocation.concat_append, List.map_cons, Relocation.concat_cons, stands_append,
    stands_append] at whole
  exact whole

theorem stands_before_after (frame : InitializerFrame) :
    Stands frame.toClass.encode (frame.methodStart + 6 + 2)
        (Relocation.concat (frame.before.map WrittenAttribute.encode)) ∧
      Stands frame.toClass.encode (frame.itemStart + frame.item.encode.size)
        (Relocation.concat (frame.after.map WrittenAttribute.encode)) := by
  have whole := WrittenMember.stands_attributes frame.stands_left_method_right.2.1
  rw [show frame.method.attributes = frame.before ++ frame.item :: frame.after from rfl,
    List.map_append, Relocation.concat_append, List.map_cons, Relocation.concat_cons, stands_append,
    stands_append, ← itemStart_eq] at whole
  exact ⟨whole.1, whole.2.2⟩

theorem slice_item (frame : InitializerFrame) :
    Access.slice frame.toClass.encode (frame.item.place frame.itemStart).range =
      .ok frame.item.encode := by
  refine Access.slice_eq_ok.mpr ⟨?_, frame.stands_item⟩
  rw [WrittenAttribute.size_encode, Nat.add_assoc]

/-- The class has a static initializer with such a frame. -/
theorem exists_frame {data : ByteArray} (initializer : StaticInitializer data) :
    ∃ frame : InitializerFrame, data = frame.toClass.encode ∧
      initializer.layout = frame.toClass.layout ∧
      initializer.location = frame.item.place frame.itemStart := by
  obtain ⟨⟨front, methods, attributes, fewMethods, fewAttributes⟩, rfl, layout⟩ :=
    (ClassLayout.parse_full_eq_ok _ _).mp initializer.parsed
  obtain ⟨_, _, placed, _, named, first⟩ := ClassLayout.findMethod_eq_some.mp initializer.found
  have located := initializer.located
  rw [layout] at placed named first located
  obtain ⟨left, ⟨access, name, descriptor, items, few⟩, right, rfl, rfl, same⟩ :=
    Form.placeAll_eq_append_cons placed
  rw [same] at named located
  obtain ⟨_, _, placed, namedCode, firstCode⟩ := findM?_eq_some.mp located
  obtain ⟨before, item, after, rfl, rfl, place⟩ := Form.placeAll_eq_append_cons placed
  rw [place] at namedCode
  have methodSame (start : Nat) (member : WrittenMember) :
      front.pool.isInitializer (member.place start).name (member.place start).descriptor =
        .ok false ↔ front.pool.isInitializer member.name member.descriptor = .ok false := Iff.rfl
  have itemSame (start : Nat) (other : WrittenAttribute) :
      front.pool.isCode (other.place start).name = .ok false ↔
        front.pool.isCode other.name = .ok false := Iff.rfl
  rw [List.length_append] at fewMethods
  let frame : InitializerFrame := ⟨front, left, access, name, descriptor, before, item, after,
    right, attributes, few, fewMethods, fewAttributes, (Form.forall_placeAll methodSame _ _).mp first,
    named, (Form.forall_placeAll itemSame _ _).mp firstCode, namedCode⟩
  refine ⟨frame, rfl, layout, ?_⟩
  rw [place, itemStart_eq]
  rfl

end InitializerFrame

/-- The `Code` attribute has a written form in turn. -/
structure InitializerForm extends InitializerFrame where
  body : WrittenCode
  written : item.body = body.encode

namespace InitializerForm

/-- These are the bytes of the `Code` attribute in front of the instructions. -/
def head (form : InitializerForm) : ByteArray :=
  BigEndian.encode16 form.item.name ++ (BigEndian.encodeSize form.item.body.size ++
    (BigEndian.encode16 form.body.maxStack ++ (BigEndian.encode16 form.body.maxLocals ++
      BigEndian.encodeSize form.body.code.size)))

/-- These are the bytes of the `Code` attribute behind the instructions. -/
def tables (form : InitializerForm) : ByteArray :=
  ExceptionRow.encodeAll form.body.exceptions ++ WrittenAttribute.encodeAll form.body.attributes

theorem encode_item (form : InitializerForm) :
    form.item.encode = form.head ++ (form.body.code ++ form.tables) := by
  rw [WrittenAttribute.encode, head, form.written]
  simp only [WrittenCode.encode, WrittenCode.encodeFront, tables, ByteArray.append_assoc]

theorem stands_body (form : InitializerForm) :
    Stands form.toClass.encode (form.itemStart + 6) form.body.encode :=
  form.written ▸ form.stands_item.inside 6 form.item.stands_body

theorem parse_item (form : InitializerForm) :
    CodeAttribute.parse form.toClass.encode (form.item.place form.itemStart).body =
      .ok (form.body.place (form.itemStart + 6)) := by
  rw [WrittenAttribute.place, form.written]
  exact (CodeAttribute.parse_stands form.stands_body _).mpr ⟨form.body, rfl, rfl⟩

theorem slice_code (form : InitializerForm) :
    Access.slice form.toClass.encode (form.body.place (form.itemStart + 6)).code =
      .ok form.body.code :=
  Access.slice_eq_ok.mpr ⟨rfl, form.stands_body.inside 8 form.body.stands_code⟩

/-- This is the static initializer that is found in the written form. -/
def initializer (form : InitializerForm) {instructions : List Instruction}
    (decoded : Instruction.decodeAll form.body.code = .ok instructions) :
    StaticInitializer form.toClass.encode where
  layout := form.toClass.layout
  method := form.method.place form.methodStart
  number := form.left.length
  location := form.item.place form.itemStart
  source := form.body.place (form.itemStart + 6)
  code := form.body.code
  instructions := instructions
  parsed := form.parse_toClass
  found := form.findMethod_toClass
  located := form.findAttribute_toClass
  read := form.parse_item
  sliced := form.slice_code
  decoded := decoded

/-- The class has a static initializer with such a form. -/
theorem exists_form {data : ByteArray} (initializer : StaticInitializer data) :
    ∃ form : InitializerForm, data = form.toClass.encode ∧
      initializer.layout = form.toClass.layout ∧
      initializer.location = form.item.place form.itemStart ∧
      initializer.source = form.body.place (form.itemStart + 6) ∧
      initializer.code = form.body.code := by
  obtain ⟨frame, rfl, layout, location⟩ := InitializerFrame.exists_frame initializer
  have stands := frame.stands_item.inside 6 frame.item.stands_body
  have read := initializer.read
  rw [location, WrittenAttribute.place, CodeAttribute.parse_stands stands] at read
  obtain ⟨body, written, source⟩ := read
  let form : InitializerForm := ⟨frame, body, written⟩
  have code := initializer.sliced
  rw [source, form.slice_code] at code
  exact ⟨form, rfl, layout, location, source, (Except.ok.inj code).symm⟩

end InitializerForm

end EnumNames
