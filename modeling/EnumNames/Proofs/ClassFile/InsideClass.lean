import EnumNames.Proofs.Bytes.InRange
import EnumNames.Proofs.ClassFile.ClassForm
import EnumNames.Proofs.ClassFile.CodeForm
import EnumNames.Proofs.ClassFile.PoolExtension

/-!
Reading a class file stays in range, and so does every lookup in its pool. The parts that a layout
or a `Code` attribute names lie inside the bytes they were read from, one behind the other.
-/

namespace EnumNames

namespace ModifiedUtf8

/-- Bytes are only taken off the front of a list, so none is looked for behind its end. -/
theorem inRange_unitsOnto (done : List UInt16) (offset : Nat) (bytes : List UInt8) :
    InRange (unitsOnto done offset bytes) := by
  fun_induction unitsOnto done offset bytes
  case case1 => exact inRange_ok _
  case case2 inductionHypothesis | case4 inductionHypothesis | case8 inductionHypothesis =>
    exact inductionHypothesis
  case case3 | case5 | case6 | case7 | case9 | case10 | case11 => exact inRange_error rfl

theorem inRange_decode (bytes : ByteArray) (offset : Nat) : InRange (decode bytes offset) := by
  unfold decode
  split
  · exact inRange_ok _
  · have units := inRange_unitsOnto [] offset bytes.data.toList
    exact units.bind fun found _ => inRange_ok (Utf16.decode found)

end ModifiedUtf8

namespace Constant

theorem inRange_readText : readText.InRange := by
  apply Reader.inRange_u2.bind
  intro length _
  apply Reader.inRange_position.bind
  intro start _
  apply (Reader.inRange_bytes length.toNat).bind
  intro bytes _
  exact (Reader.inRange_ofExcept (ModifiedUtf8.inRange_decode bytes start)).made _

theorem inRange_readPair (make : UInt16 → UInt16 → Constant) : (readPair make).InRange := by
  apply Reader.inRange_u2.bind
  intro first _
  exact Reader.inRange_u2.made _

theorem inRange_readHandle : readHandle.InRange := by
  apply Reader.inRange_u1.bind
  intro kind _
  exact Reader.inRange_u2.made _

theorem inRange_u8 : Reader.u8.InRange := by
  apply Reader.inRange_u4.bind
  intro high _
  exact Reader.inRange_u4.made _

theorem inRange_readBody (offset : Nat) (tag : UInt8) : (readBody offset tag).InRange := by
  unfold readBody
  split
  · exact inRange_readText
  · exact (Reader.inRange_u4.made _).made _
  · exact Reader.inRange_u4.made _
  · exact inRange_u8.made _
  · exact inRange_u8.made _
  · exact Reader.inRange_u2.made _
  · exact Reader.inRange_u2.made _
  · exact inRange_readPair (.member .field)
  · exact inRange_readPair (.member .method)
  · exact inRange_readPair (.member .interfaceMethod)
  · exact inRange_readPair .nameAndType
  · exact inRange_readHandle
  · exact Reader.inRange_u2.made _
  · exact inRange_readPair (.dynamic .constant)
  · exact inRange_readPair (.dynamic .call)
  · exact Reader.inRange_u2.made _
  · exact Reader.inRange_u2.made _
  · exact Reader.inRange_failAt offset rfl

theorem inRange_read : read.InRange := by
  apply Reader.inRange_position.bind
  intro offset _
  apply Reader.inRange_u1.bind
  intro tag _
  exact inRange_readBody offset tag

end Constant

namespace ConstantPool

/-- The induction is on the missing slots, of which one constant takes one or two. -/
theorem inRange_readSlots (missing : Nat) (slots : Array (Option Constant)) :
    (readSlots missing slots).InRange := by
  induction missing using Nat.strongRecOn generalizing slots with
  | ind missing inductionHypothesis =>
    cases missing with
    | zero => exact Reader.inRange_pure slots
    | succ missing =>
      rw [readSlots_succ]
      apply Constant.inRange_read.bind
      intro constant _
      have positive : 0 < constant.slots.length := by
        unfold Constant.slots
        split <;> simp
      apply Reader.InRange.ite
      · intro _
        exact Reader.inRange_fail rfl
      · intro _
        exact inductionHypothesis _ (by omega) _

theorem inRange_read : read.InRange := by
  apply Reader.inRange_position.bind
  intro offset _
  apply Reader.inRange_u2.bind
  intro count _
  apply Reader.InRange.ite
  · intro _
    exact Reader.inRange_failAt offset rfl
  · intro _
    exact (inRange_readSlots _ _).made _

section Lookup

variable (pool : ConstantPool) (index : UInt16)

theorem inRange_get : InRange (pool.get index) := by
  unfold get
  split
  · exact inRange_ok _
  · exact inRange_error rfl

theorem inRange_utf8 : InRange (pool.utf8 index) := by
  apply (pool.inRange_get index).bind
  intro constant _
  split
  · exact inRange_ok _
  · exact inRange_error rfl

theorem inRange_className : InRange (pool.className index) := by
  apply (pool.inRange_get index).bind
  intro constant _
  split
  · exact pool.inRange_utf8 _
  · exact inRange_error rfl

theorem inRange_stringValue : InRange (pool.stringValue index) := by
  apply (pool.inRange_get index).bind
  intro constant _
  split
  · exact (pool.inRange_utf8 _).bind fun text _ => inRange_ok (some text)
  · exact inRange_ok none

theorem inRange_nameAndType : InRange (pool.nameAndType index) := by
  apply (pool.inRange_get index).bind
  intro constant _
  split
  · exact inRange_ok _
  · exact inRange_error rfl

theorem inRange_memberRef : InRange (pool.memberRef index) := by
  apply (pool.inRange_get index).bind
  intro constant _
  split
  · apply (pool.inRange_nameAndType _).bind
    intro names _
    apply (pool.inRange_className _).bind
    intro owner _
    apply (pool.inRange_utf8 _).bind
    intro name _
    exact (pool.inRange_utf8 _).bind fun descriptor _ => inRange_ok _
  · exact inRange_error rfl

end Lookup

/-- The edit stays in range whatever the pool holds. -/
def Edit.InRange {α : Type} (edit : Edit α) : Prop :=
  ∀ pool failure next, edit pool = .error failure next → failure.isOverrun = false

theorem inRange_append (constant : Constant) : (append constant).InRange := by
  intro pool failure next failed
  unfold append at failed
  split at failed
  · cases failed
  · cases failed
    rfl

theorem inRange_findOrAppendText (text : String) : (findOrAppendText text).InRange := by
  intro pool failure next failed
  unfold findOrAppendText at failed
  split at failed
  · cases failed
  · dsimp only at failed
    split at failed
    · exact inRange_append _ _ _ _ failed
    · cases failed
      rfl

theorem inRange_intern (value : String) : (intern value).InRange := by
  intro pool failure next failed
  unfold intern at failed
  split at failed
  · cases failed
  · rcases Edit.bind_eq_error failed with textFailed | ⟨_, _, _, failed⟩
    · exact inRange_findOrAppendText _ _ _ _ textFailed
    · exact inRange_append _ _ _ _ failed

end ConstantPool

namespace Attribute

theorem inRange_read : read.InRange := by
  apply Reader.inRange_position.bind
  intro start _
  apply Reader.inRange_u2.bind
  intro name _
  apply Reader.inRange_u4.bind
  intro length _
  apply Reader.inRange_position.bind
  intro body _
  apply (Reader.inRange_skip length.toNat).bind
  intro _ _
  exact Reader.inRange_position.made _

theorem inRange_readAll : readAll.InRange := by
  apply Reader.inRange_u2.bind
  intro count _
  exact inRange_read.replicate count.toNat

end Attribute

namespace Member

theorem inRange_read : read.InRange := by
  apply Reader.inRange_u2.bind
  intro access _
  apply Reader.inRange_u2.bind
  intro name _
  apply Reader.inRange_u2.bind
  intro descriptor _
  exact Attribute.inRange_readAll.made _

theorem inRange_readAll : readAll.InRange := by
  apply Reader.inRange_u2.bind
  intro count _
  exact inRange_read.replicate count.toNat

end Member

namespace ClassLayout

theorem inRange_readHeader : readHeader.InRange := by
  apply Reader.inRange_u4.bind
  intro found _
  apply Reader.InRange.ite
  · intro _
    exact Reader.inRange_failAt 0 rfl
  · intro _
    apply (Reader.inRange_skip 2).bind
    intro _ _
    exact Reader.inRange_skip 2

theorem inRange_skipInterfaces : skipInterfaces.InRange := by
  apply Reader.inRange_u2.bind
  intro count _
  exact Reader.inRange_skip (count.toNat * 2)

theorem inRange_readMethods : readMethods.InRange := by
  apply Member.inRange_readAll.bind
  intro methods _
  apply Attribute.inRange_readAll.bind
  intro _ _
  apply Reader.inRange_remaining.bind
  intro trailing _
  apply Reader.InRange.ite
  · intro _
    exact Reader.inRange_fail rfl
  · intro _
    exact Reader.inRange_pure methods

theorem inRange_readRest (depth : Depth) : (readRest depth).InRange := by
  cases depth with
  | fields => exact Reader.inRange_pure []
  | full => exact inRange_readMethods

theorem inRange_parse (data : ByteArray) (depth : Depth) : InRange (parse data depth) := by
  have inRange : (read depth).InRange := by
    apply inRange_readHeader.bind
    intro _ _
    apply ConstantPool.inRange_read.bind
    intro pool _
    apply Reader.inRange_position.bind
    intro poolEnd _
    apply Reader.inRange_u2.bind
    intro access _
    apply Reader.inRange_u2.bind
    intro thisClass _
    apply Reader.inRange_u2.bind
    intro superClass _
    apply inRange_skipInterfaces.bind
    intro _ _
    apply Member.inRange_readAll.bind
    intro fields _
    exact (inRange_readRest depth).made _
  exact inRange.evaluate data

end ClassLayout

namespace CodeAttribute

theorem inRange_readCode : readCode.InRange := by
  apply Reader.inRange_u4.bind
  intro length _
  apply Reader.InRange.ite
  · intro _
    exact Reader.inRange_fail rfl
  · intro _
    apply Reader.inRange_position.bind
    intro start _
    exact (Reader.inRange_skip length.toNat).made _

theorem inRange_readExceptions : readExceptions.InRange := by
  apply Reader.inRange_u2.bind
  intro count _
  apply Reader.InRange.replicate
  apply Reader.inRange_u2.bind
  intro start _
  apply Reader.inRange_u2.bind
  intro stop _
  apply Reader.inRange_u2.bind
  intro handler _
  exact Reader.inRange_u2.made _

theorem inRange_parse (data : ByteArray) (body : Span) : InRange (parse data body) := by
  have inRange : (read body.stop).InRange := by
    apply Reader.inRange_u2.bind
    intro maxStack _
    apply Reader.inRange_u2.bind
    intro maxLocals _
    apply inRange_readCode.bind
    intro code _
    apply inRange_readExceptions.bind
    intro exceptions _
    apply Attribute.inRange_readAll.bind
    intro attributes _
    apply Reader.inRange_position.bind
    intro stop _
    apply Reader.InRange.ite
    · intro _
      exact Reader.inRange_fail rfl
    · intro _
      exact Reader.inRange_pure _
  intro failure failed
  unfold parse at failed
  split at failed
  · cases failed
  · rename_i other next readFailed
    cases failed
    exact inRange _ _ _ readFailed

end CodeAttribute

/-- The attribute lies between two positions, and its body fills it behind a header of six bytes. -/
structure Attribute.Inside (item : Attribute) (first last : Nat) : Prop where
  start : first ≤ item.range.start
  header : item.body.start = item.range.start + 6
  body : item.body.start ≤ item.body.stop
  stop : item.body.stop = item.range.stop
  within : item.range.stop ≤ last

theorem Attribute.Inside.mono {item : Attribute} {first last further : Nat}
    (inside : item.Inside first last) (behind : last ≤ further) : item.Inside first further where
  start := inside.start
  header := inside.header
  body := inside.body
  stop := inside.stop
  within := Nat.le_trans inside.within behind

/-- These are the attributes of all fields and methods. -/
def ClassLayout.attributes (layout : ClassLayout) : List Attribute :=
  (layout.fields ++ layout.methods).flatMap (·.attributes)

/-- Behind the header of the class lies its pool, and behind the pool lie the attributes of all
members. -/
structure ClassLayout.Inside (layout : ClassLayout) (data : ByteArray) : Prop where
  header : 10 ≤ layout.poolEnd
  pool : layout.poolEnd ≤ data.size
  attributes : ∀ item ∈ layout.attributes, item.Inside layout.poolEnd data.size

/-- The instructions lie in the body, and behind them lie the attributes of the code. -/
structure CodeAttribute.Inside (source : CodeAttribute) (body : Span) : Prop where
  start : body.start + 8 = source.code.start
  filled : source.code.start < source.code.stop
  within : source.code.stop ≤ body.stop
  attributes : ∀ item ∈ source.attributes, item.Inside source.code.stop body.stop

/-- Attributes that stand one after the other lie inside the bytes. -/
theorem WrittenAttribute.inside_placeAll {data : ByteArray} {start first : Nat}
    {items : List WrittenAttribute} (behind : first ≤ start)
    (stands : Stands data start (Relocation.concat (items.map encode))) :
    ∀ item ∈ Form.placeAll encode place start items, item.Inside first data.size := by
  refine Form.forall_mem_placeAll stands fun index item later itemStands => ?_
  have within := itemStands.within
  rw [size_encode, ← Nat.add_assoc] at within
  exact ⟨Nat.le_trans behind later, rfl, Nat.le_add_right _ _, rfl, within⟩

/-- The attributes of members that stand one after the other lie inside the bytes. -/
theorem WrittenMember.inside_placeAll {data : ByteArray} {start first : Nat}
    {members : List WrittenMember} (behind : first ≤ start)
    (stands : Stands data start (Relocation.concat (members.map encode))) :
    ∀ member ∈ Form.placeAll encode place start members, ∀ item ∈ member.attributes,
      item.Inside first data.size := by
  refine Form.forall_mem_placeAll stands fun index member later memberStands => ?_
  apply WrittenAttribute.inside_placeAll _ (WrittenMember.stands_attributes memberStands)
  omega

theorem ClassFront.poolEnd_le_fieldsStart (front : ClassFront) : front.poolEnd ≤ front.fieldsStart := by
  rw [fieldsStart]
  omega

/-- The fields lie behind the pool, so the methods only have to be looked at in addition. -/
theorem ClassFront.inside_layout {front : ClassFront} {data : ByteArray} {methods : List Member}
    (fields : Stands data (front.fieldsStart + 2)
      (Relocation.concat (front.fields.map WrittenMember.encode)))
    (inside : ∀ member ∈ methods, ∀ item ∈ member.attributes,
      item.Inside front.poolEnd data.size) : (front.layout methods).Inside data := by
  have behind := front.poolEnd_le_fieldsStart
  have within := fields.within
  refine ⟨?_, ?_, ?_⟩
  · exact Nat.le_add_right _ _
  · change front.poolEnd ≤ data.size
    omega
  · intro item among
    obtain ⟨member, found, mine⟩ := List.mem_flatMap.mp among
    rcases List.mem_append.mp found with field | method
    · have later : front.poolEnd ≤ front.fieldsStart + 2 := by omega
      exact WrittenMember.inside_placeAll later fields member field item mine
    · exact inside member method item mine

theorem ClassLayout.inside_of_parse {data : ByteArray} {depth : Depth} {layout : ClassLayout}
    (parsed : parse data depth = .ok layout) : layout.Inside data := by
  cases depth with
  | fields =>
    obtain ⟨front, rest, rfl, rfl⟩ := (parse_fields_eq_ok _ _).mp parsed
    have stands := (stands_append.mp (.self (front.encode ++ rest))).1
    have fields := stands.inside _ front.stands_fields
    rw [Nat.zero_add] at fields
    exact front.inside_layout fields (by simp)
  | full =>
    obtain ⟨written, rfl, rfl⟩ := (parse_full_eq_ok _ _).mp parsed
    have before := written.toClassFront.poolEnd_le_fieldsStart
    have front := written.toClassFront.stands_fields.within
    refine ClassFront.inside_layout written.stands_fields ?_
    refine WrittenMember.inside_placeAll ?_ written.stands_methods
    rw [WrittenClass.methodsStart]
    omega

theorem WrittenCode.stands_attributes (written : WrittenCode) :
    Stands written.encode (written.encodeFront.size + 2)
      (Relocation.concat (written.attributes.map WrittenAttribute.encode)) := by
  have whole : Stands written.encode 0
      (written.encodeFront ++ WrittenAttribute.encodeAll written.attributes) := .self _
  rw [WrittenAttribute.encodeAll, stands_append, stands_append, BigEndian.size_encodeCount,
    Nat.zero_add] at whole
  exact whole.2.2

theorem CodeAttribute.inside_of_parse {data : ByteArray} {body : Span} {source : CodeAttribute}
    (ordered : body.start ≤ body.stop) (within : body.stop ≤ data.size)
    (parsed : parse data body = .ok source) : source.Inside body := by
  obtain ⟨start, stop⟩ := body
  change start ≤ stop at ordered
  change stop ≤ data.size at within
  obtain ⟨width, rfl⟩ := Nat.le.dest ordered
  obtain ⟨text, rfl, stands⟩ := Stands.exists_of_le within
  obtain ⟨written, rfl, rfl⟩ := (parse_stands stands source).mp parsed
  have code := written.stands_code.within
  -- The bytes behind the body do not count, so the attributes are placed in those up to its end.
  obtain ⟨before, after, rfl, rfl⟩ := stands
  have body : Stands (before ++ written.encode) before.size written.encode := by
    have whole := Stands.between before written.encode .empty
    rwa [ByteArray.append_empty] at whole
  have items := body.inside _ written.stands_attributes
  have front : 8 + written.code.size ≤ written.encodeFront.size := by
    simp [WrittenCode.encodeFront]
    omega
  refine ⟨rfl, Nat.lt_add_of_pos_right written.filled, ?_, ?_⟩
  · change before.size + 8 + written.code.size ≤ before.size + written.encode.size
    omega
  · have behind : before.size + 8 + written.code.size ≤
        before.size + (written.encodeFront.size + 2) := by omega
    have inside := WrittenAttribute.inside_placeAll behind items
    rwa [ByteArray.size_append] at inside

end EnumNames
