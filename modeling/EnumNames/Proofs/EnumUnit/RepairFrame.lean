import EnumNames.Proofs.EnumUnit.RepairedNames

/-!
What a repair leaves as it is. The repaired class has the parts of the class before it; only the pool
grows, and the `Code` attribute of the static initializer is written anew.
-/

namespace EnumNames

/-- An attribute keeps its name, and it keeps its bytes unless it is the code of the static
initializer. -/
structure Attribute.Kept (data out : ByteArray) (old new : Attribute) : Prop where
  name : new.name = old.name
  bytes : (∃ bytes, Access.slice data old.range = .ok bytes ∧
      Access.slice out new.range = .ok bytes) ∨
    ∃ (before : StaticInitializer data) (after : StaticInitializer out),
      old = before.location ∧ new = after.location

structure Member.Kept (data out : ByteArray) (old new : Member) : Prop where
  access : new.access = old.access
  name : new.name = old.name
  descriptor : new.descriptor = old.descriptor
  attributes : List.Forall₂ (Attribute.Kept data out) old.attributes new.attributes

/-- A class keeps its constants at their indices and everything behind the pool. -/
structure WrittenClass.Kept (old new : WrittenClass) : Prop where
  slots : ∀ (index : Nat) (content : Option Constant),
    old.layout.pool.slots[index]? = some content → new.layout.pool.slots[index]? = some content
  version : new.version = old.version
  access : new.layout.access = old.layout.access
  thisClass : new.layout.thisClass = old.layout.thisClass
  superClass : new.layout.superClass = old.layout.superClass
  interfaces : new.interfaces = old.interfaces
  fields : List.Forall₂ (Member.Kept old.encode new.encode) old.layout.fields new.layout.fields
  methods : List.Forall₂ (Member.Kept old.encode new.encode) old.layout.methods new.layout.methods
  attributes : new.attributes = old.attributes

section Placed

variable {data out : ByteArray} {first second : Nat}

theorem WrittenAttribute.kept_place (item : WrittenAttribute)
    (stands : Stands data first item.encode) (other : Stands out second item.encode) :
    Attribute.Kept data out (item.place first) (item.place second) := by
  have width (start : Nat) : start + 6 + item.body.size = start + item.encode.size := by
    rw [size_encode, Nat.add_assoc]
  exact ⟨rfl, .inl ⟨item.encode, Access.slice_eq_ok.mpr ⟨width first, stands⟩,
    Access.slice_eq_ok.mpr ⟨width second, other⟩⟩⟩

theorem WrittenMember.kept_place (member : WrittenMember)
    (stands : Stands data first member.encode) (other : Stands out second member.encode) :
    Member.Kept data out (member.place first) (member.place second) where
  access := rfl
  name := rfl
  descriptor := rfl
  attributes := Form.forall₂_placeAll (fun _ _ item => item.kept_place)
    (stands_attributes stands) (stands_attributes other)

end Placed

namespace WrittenClass

theorem kept_self (written : WrittenClass) : written.Kept written where
  slots := fun _ _ found => found
  version := rfl
  access := rfl
  thisClass := rfl
  superClass := rfl
  interfaces := rfl
  fields := Form.forall₂_placeAll (fun _ _ member => member.kept_place) written.stands_fields
    written.stands_fields
  methods := Form.forall₂_placeAll (fun _ _ member => member.kept_place) written.stands_methods
    written.stands_methods
  attributes := rfl

end WrittenClass

namespace InitializerFrame

/-- Only the attribute that is replaced has to be compared. -/
theorem kept_replace (frame : InitializerFrame) {added : List WrittenConstant} {few}
    {item : WrittenAttribute} {same : item.name = frame.item.name} {other : InitializerFrame}
    (replaced : other = frame.replace added few item same)
    (code : Attribute.Kept frame.toClass.encode other.toClass.encode
      (frame.item.place frame.itemStart) (other.item.place other.itemStart)) :
    frame.toClass.Kept other.toClass := by
  subst replaced
  let other := frame.replace added few item same
  obtain ⟨left, _, right⟩ := frame.stands_left_method_right
  obtain ⟨otherLeft, _, otherRight⟩ := other.stands_left_method_right
  obtain ⟨before, after⟩ := frame.stands_before_after
  obtain ⟨otherBefore, otherAfter⟩ := other.stands_before_after
  have method : Member.Kept frame.toClass.encode other.toClass.encode
      (frame.method.place frame.methodStart) (other.method.place other.methodStart) := by
    refine ⟨rfl, rfl, rfl, ?_⟩
    rw [attributes_place, attributes_place]
    refine List.rel_append ?_ (.cons code ?_)
    · exact Form.forall₂_placeAll (fun _ _ item => item.kept_place) before otherBefore
    · exact Form.forall₂_placeAll (fun _ _ item => item.kept_place) after otherAfter
  refine ⟨fun _ _ => (frame.front.grow_extends added few).slot, rfl, rfl, rfl, rfl, rfl, ?_, ?_, rfl⟩
  · exact Form.forall₂_placeAll (fun _ _ member => member.kept_place) frame.toClass.stands_fields
      other.toClass.stands_fields
  · rw [methods_layout, methods_layout]
    refine List.rel_append ?_ (.cons method ?_)
    · exact Form.forall₂_placeAll (fun _ _ member => member.kept_place) left otherLeft
    · exact Form.forall₂_placeAll (fun _ _ member => member.kept_place) right otherRight

end InitializerFrame

/-- Unless a load grows, only operands of patched loads change in the `Code` attribute. -/
theorem InitializerRepair.inPlace {unit : EnumUnit} {old new : InitializerForm} {repaired : Repaired}
    (repair : InitializerRepair unit old new repaired)
    (narrow : repair.sites.any Site.isWidened = false) :
    new.item.encode.size = old.item.encode.size ∧ ∀ index,
      (∀ site ∈ repair.sites, site.index.isSome →
        index ≤ 14 + site.instruction.offset ∨ 14 + site.instruction.stop ≤ index) →
      Access.u1 new.item.encode index = Access.u1 old.item.encode index := by
  obtain ⟨none, size, agrees⟩ := repair.code.inPlace narrow
  obtain ⟨maxStack, maxLocals, _, _, items, rows⟩ := none ▸ repair.body
  have tables : new.tables = old.tables := by
    rw [InitializerForm.tables, rows rfl, WrittenAttribute.eq_of_rewritten items]
    rfl
  have bodySize : new.item.body.size = old.item.body.size := by
    rw [new.written, old.written]
    simp only [WrittenCode.encode, WrittenCode.encodeFront, ByteArray.size_append,
      BigEndian.size_encode16, BigEndian.size_encodeSize, size, rows rfl,
      WrittenAttribute.eq_of_rewritten items]
  have head : new.head = old.head := by
    rw [InitializerForm.head, repair.named, bodySize, maxStack, maxLocals, size]
    rfl
  have whole : new.item.encode.size = old.item.encode.size := by
    rw [WrittenAttribute.size_encode, WrittenAttribute.size_encode, bodySize]
  refine ⟨whole, fun index untouched => Access.u1_congr whole fun byte stands => ?_⟩
  rw [InitializerForm.encode_item] at stands ⊢
  rw [head, tables]
  refine agrees.around size.symm stands ?_
  have fourteen : old.head.size = 14 := rfl
  have one : (⟨#[byte]⟩ : ByteArray).size = 1 := rfl
  rw [fourteen, one]
  by_cases front : index < 14
  · exact .inl front
  by_cases back : 14 + old.body.code.size ≤ index
  · exact .inr (.inl back)
  refine .inr (.inr ⟨by omega, by omega, fun site member patched => ?_⟩)
  have outside := untouched site member patched
  omega

/-- The code of a static initializer keeps its limits and the numbers and names in its tables. When no
load grows, the attribute keeps its length and all bytes but the operands of the patched loads. -/
structure StaticInitializer.Kept (unit : EnumUnit) {data out : ByteArray}
    (before : StaticInitializer data) (after : StaticInitializer out) : Prop where
  number : after.number = before.number
  maxStack : after.source.maxStack = before.source.maxStack
  maxLocals : after.source.maxLocals = before.source.maxLocals
  exceptions : after.source.exceptions.length = before.source.exceptions.length
  attributes : after.source.attributes.map (·.name) = before.source.attributes.map (·.name)
  inPlace : ∀ progress, Progress.observeAll before.layout.pool before.code unit
      before.instructions = .ok progress → progress.sites.any Site.isWidened = false →
    ∃ old new, Access.slice data before.location.range = .ok old ∧
      Access.slice out after.location.range = .ok new ∧ new.size = old.size ∧
      ∀ index, (∀ site ∈ progress.sites, site.index.isSome →
          index ≤ 14 + site.instruction.offset ∨ 14 + site.instruction.stop ≤ index) →
        Access.u1 new index = Access.u1 old index

theorem InitializerRepair.initializer_kept {unit : EnumUnit} {old new : InitializerForm}
    {repaired : Repaired} (repair : InitializerRepair unit old new repaired) :
    (old.initializer repair.decoded).Kept unit (new.initializer repair.code.decoded) where
  number := congrArg (·.left.length) repair.frame
  maxStack := repair.body.maxStack
  maxLocals := repair.body.maxLocals
  exceptions := repair.body.rows
  attributes := by
    have names : List.Forall₂ (· = ·) (new.body.attributes.map (·.name))
        (old.body.attributes.map (·.name)) := by
      rw [List.forall₂_map_left_iff, List.forall₂_map_right_iff]
      exact (repair.body.items.imp fun _ _ rewritten => rewritten.name).flip
    rw [List.forall₂_eq_eq_eq] at names
    exact (WrittenAttribute.map_name_placeAll _ _).trans
      (names.trans (WrittenAttribute.map_name_placeAll _ _).symm)
  inPlace := by
    intro progress observed narrow
    obtain ⟨pool, found⟩ := repair.observed
    cases found.symm.trans observed
    rw [List.any_reverse] at narrow
    obtain ⟨size, same⟩ := repair.inPlace narrow
    refine ⟨_, _, old.slice_item, new.slice_item, size, fun index untouched => same index ?_⟩
    intro site member
    exact untouched site (List.mem_reverse.mpr member)

/-- A repair keeps the class around the code of the static initializer, and it keeps the limits of
that code. -/
theorem EnumUnit.repair_keeps {unit : EnumUnit} {data : ByteArray} {repaired : Repaired}
    (small : data.size < 0x80000000) (done : unit.repair data = .ok repaired) :
    ∃ old new : WrittenClass, data = old.encode ∧ repaired.bytes = new.encode ∧
      ClassLayout.parse data .full = .ok old.layout ∧
      ClassLayout.parse repaired.bytes .full = .ok new.layout ∧ old.Kept new ∧
      ∀ before : StaticInitializer data, ∃ after : StaticInitializer repaired.bytes,
        before.Kept unit after := by
  obtain ⟨layout, parsed, missing, bare⟩ | ⟨⟨initializer⟩⟩ := repair_cases done
  · obtain ⟨written, rfl, rfl⟩ := (ClassLayout.parse_full_eq_ok _ _).mp parsed
    obtain ⟨_, _, same⟩ := bind_eq_ok.mp bare
    cases same
    refine ⟨written, written, rfl, rfl, parsed, parsed, written.kept_self, fun before => ?_⟩
    have found := before.found
    rw [← Except.ok.inj (parsed.symm.trans before.parsed), missing] at found
    cases found
  · rw [repair_eq unit initializer] at done
    obtain ⟨old, new, rfl, bytes, _, ⟨repair⟩⟩ := initializer.exists_repair small done
    rw [bytes]
    refine ⟨old.toClass, new.toClass, rfl, rfl, old.parse_toClass, new.parse_toClass, ?_, ?_⟩
    · exact old.kept_replace repair.frame ⟨repair.named, .inr ⟨old.initializer repair.decoded,
        new.initializer repair.code.decoded, rfl, rfl⟩⟩
    · intro before
      rw [Subsingleton.elim before (old.initializer repair.decoded)]
      exact ⟨new.initializer repair.code.decoded, repair.initializer_kept⟩

theorem EnumUnit.repair_keeps_example :
    let data := exampleClass 14 [] 11
    let repaired : Repaired := ⟨exampleClass 15 [8, 0, 5] 14, 1, 1⟩
    data.size < 0x80000000 ∧ exampleUnit.repair data = .ok repaired ∧
      ∃ old new : WrittenClass, data = old.encode ∧ repaired.bytes = new.encode ∧
        ClassLayout.parse data .full = .ok old.layout ∧
        ClassLayout.parse repaired.bytes .full = .ok new.layout ∧ old.Kept new ∧
        ∀ before : StaticInitializer data, ∃ after : StaticInitializer repaired.bytes,
          before.Kept exampleUnit after := by
  intro data repaired
  have small : data.size < 0x80000000 := by
    rw [size_exampleClass]
    decide
  exact ⟨small, repair_exampleClass, repair_keeps small repair_exampleClass⟩

end EnumNames
