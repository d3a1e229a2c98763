import EnumNames.Proofs.Bytecode.AttributeGrowth
import EnumNames.Proofs.EnumUnit.RepairedCode
import EnumNames.Proofs.EnumUnit.StaticInitializer

/-!
The `Code` attribute that is written around repaired code. It keeps its limits, its number of
exception rows and its own attributes in their order, and it still fits its length.
-/

namespace EnumNames

/-- A rewritten attribute keeps its name and grows only little; without a relocation it is the same. -/
structure WrittenAttribute.Rewritten (relocation : Option Relocation)
    (old new : WrittenAttribute) : Prop where
  name : new.name = old.name
  size : new.body.size ≤ old.body.size + 2016
  same : relocation = none → new = old

/-- The attribute around new code. -/
structure WrittenCode.Rewritten (relocation : Option Relocation) (code : ByteArray)
    (old new : WrittenCode) : Prop where
  maxStack : new.maxStack = old.maxStack
  maxLocals : new.maxLocals = old.maxLocals
  code : new.code = code
  rows : new.exceptions.length = old.exceptions.length
  items : List.Forall₂ (WrittenAttribute.Rewritten relocation) old.attributes new.attributes
  same : relocation = none → new.exceptions = old.exceptions

/-- Without a relocation the attributes of the code are the same. -/
theorem WrittenAttribute.eq_of_rewritten {items news : List WrittenAttribute}
    (all : List.Forall₂ (WrittenAttribute.Rewritten none) items news) : news = items := by
  induction all with
  | nil => rfl
  | cons head tail inductionHypothesis => rw [head.same rfl, inductionHypothesis]

theorem WrittenCode.rewritten_self (written : WrittenCode) :
    written.Rewritten none written.code written :=
  ⟨rfl, rfl, rfl, rfl, List.forall₂_same.mpr fun _ _ => ⟨rfl, Nat.le_add_right _ _, fun _ => rfl⟩,
    fun _ => rfl⟩

namespace CodeAttribute

variable {data piece out replacement : ByteArray} {pool : ConstantPool}
  {relocation : Option Relocation} {start : Nat}

theorem encodeAttribute_eq_ok {item : WrittenAttribute} (small : data.size < 0x80000000)
    (bounded : ∀ found, relocation = some found → found.Bounded)
    (stands : Stands data start item.encode)
    (done : encodeAttribute data pool relocation (item.place start) = .ok piece) :
    ∃ new : WrittenAttribute, piece = new.encode ∧ item.Rewritten relocation new := by
  have width : start + 6 + item.body.size = start + item.encode.size := by
    rw [WrittenAttribute.size_encode, Nat.add_assoc]
  have whole : Access.slice data (item.place start).range = .ok item.encode :=
    Access.slice_eq_ok.mpr ⟨width, stands⟩
  have inner : Access.slice data (item.place start).body = .ok item.body :=
    Access.slice_eq_ok.mpr ⟨rfl, stands.inside 6 item.stands_body⟩
  unfold encodeAttribute at done
  split at done
  · rw [whole] at done
    cases done
    exact ⟨item, rfl, rfl, Nat.le_add_right _ _, fun _ => rfl⟩
  · rename_i found
    obtain ⟨name, _, done⟩ := bind_eq_ok.mp done
    rw [inner, ok_bind] at done
    obtain ⟨body, moved, same⟩ := bind_eq_ok.mp done
    cases same
    have grown := Relocation.size_attributeBody (bounded found rfl) moved
    have within := (stands.inside 6 item.stands_body).within
    refine ⟨⟨item.name, body, by omega⟩, ?_, rfl, grown, fun none => by cases none⟩
    simp [WrittenAttribute.encode, WrittenAttribute.place, ByteArray.append_assoc]

/-- The induction is on the attributes, which stand one after the other. -/
theorem encodeAttributes_eq_ok {items : List WrittenAttribute} {pieces : List ByteArray}
    (small : data.size < 0x80000000) (bounded : ∀ found, relocation = some found → found.Bounded)
    (stands : Stands data start (Relocation.concat (items.map WrittenAttribute.encode)))
    (done : (Form.placeAll WrittenAttribute.encode WrittenAttribute.place start items).mapM
      (encodeAttribute data pool relocation) = .ok pieces) :
    ∃ news : List WrittenAttribute, pieces = news.map WrittenAttribute.encode ∧
      List.Forall₂ (WrittenAttribute.Rewritten relocation) items news := by
  induction items generalizing start pieces with
  | nil =>
    cases done
    exact ⟨[], rfl, .nil⟩
  | cons item rest inductionHypothesis =>
    rw [List.map_cons, Relocation.concat_cons, stands_append] at stands
    obtain ⟨piece, others, head, tail, rfl⟩ := mapM_cons_eq_ok.mp done
    obtain ⟨new, rfl, rewritten⟩ := encodeAttribute_eq_ok small bounded stands.1 head
    obtain ⟨news, rfl, all⟩ := inductionHypothesis stands.2 tail
    exact ⟨new :: news, rfl, .cons rewritten all⟩

theorem encodeExceptions_eq_ok {rows : List ExceptionRow} {pieces : List ByteArray}
    (done : rows.mapM (encodeException relocation) = .ok pieces) :
    ∃ news : List ExceptionRow, pieces = news.map ExceptionRow.encode ∧
      news.length = rows.length ∧ (relocation = none → news = rows) := by
  have each (row : ExceptionRow) (piece : ByteArray)
      (encoded : encodeException relocation row = .ok piece) :
      ∃ new : ExceptionRow, piece = new.encode ∧ (relocation = none → new = row) := by
    unfold encodeException at encoded
    split at encoded
    · cases encoded
      exact ⟨row, rfl, fun _ => rfl⟩
    · obtain ⟨new, _, same⟩ := bind_eq_ok.mp encoded
      cases same
      exact ⟨new, rfl, fun none => by cases none⟩
  induction rows generalizing pieces with
  | nil =>
    cases done
    exact ⟨[], rfl, rfl, fun _ => rfl⟩
  | cons row rest inductionHypothesis =>
    obtain ⟨piece, others, head, tail, rfl⟩ := mapM_cons_eq_ok.mp done
    obtain ⟨new, rfl, same⟩ := each row piece head
    obtain ⟨news, rfl, length, all⟩ := inductionHypothesis tail
    refine ⟨new :: news, rfl, congrArg (· + 1) length, fun none => ?_⟩
    rw [same none, all none]

/-- Without a relocation the attributes are copied. -/
theorem encodeAttributes_none {items : List WrittenAttribute}
    (stands : Stands data start (Relocation.concat (items.map WrittenAttribute.encode))) :
    (Form.placeAll WrittenAttribute.encode WrittenAttribute.place start items).mapM
      (encodeAttribute data pool none) = .ok (items.map WrittenAttribute.encode) := by
  induction items generalizing start with
  | nil => rfl
  | cons item rest inductionHypothesis =>
    rw [List.map_cons, Relocation.concat_cons, stands_append] at stands
    have copied : encodeAttribute data pool none (item.place start) = .ok item.encode := by
      refine Access.slice_eq_ok.mpr ⟨?_, stands.1⟩
      rw [WrittenAttribute.size_encode, Nat.add_assoc]
    exact mapM_cons_eq_ok.mpr ⟨_, _, copied, inductionHypothesis stands.2, rfl⟩

/-- Without a relocation only the code can change the size of the attribute. -/
theorem size_encode_none {name : UInt16} {written : WrittenCode}
    (stands : Stands data start written.encode) (same : out.size = written.code.size)
    (done : encode data name (written.place start) pool out none = .ok replacement) :
    replacement.size = 6 + written.encode.size := by
  rw [WrittenCode.encode, stands_append, WrittenAttribute.encodeAll, stands_append] at stands
  obtain ⟨pieces, exceptions, done⟩ := bind_eq_ok.mp done
  obtain ⟨nested, items, made⟩ := bind_eq_ok.mp done
  obtain ⟨rows, rfl, _, rowsSame⟩ := encodeExceptions_eq_ok exceptions
  cases items.symm.trans (encodeAttributes_none stands.2.2)
  cases made
  have front := ExceptionRow.size_encodeAll written.exceptions
  rw [ExceptionRow.encodeAll, ByteArray.size_append, BigEndian.size_encodeCount] at front
  rw [rowsSame rfl]
  simp [WrittenCode.encode, WrittenCode.encodeFront, WrittenCode.place,
    WrittenAttribute.encodeAll, same]
  omega

/-- All attributes together grow by a bounded number of bytes for each of them. -/
theorem size_rewritten {items news : List WrittenAttribute}
    (all : List.Forall₂ (WrittenAttribute.Rewritten relocation) items news) :
    (Relocation.concat (news.map WrittenAttribute.encode)).size ≤
      (Relocation.concat (items.map WrittenAttribute.encode)).size + 2016 * items.length := by
  induction all with
  | nil => exact Nat.le_refl 0
  | cons head tail inductionHypothesis =>
    have size := head.size
    simp only [List.map_cons, Relocation.concat_cons, ByteArray.size_append,
      WrittenAttribute.size_encode, List.length_cons]
    omega

/-- Code that is written anew is read as a body again, with the same limits and attributes. -/
theorem encode_eq_ok {name : UInt16} {written : WrittenCode} (small : data.size < 0x80000000)
    (bounded : ∀ found, relocation = some found → found.Bounded) (filled : 0 < out.size)
    (short : out.size < 65536) (stands : Stands data start written.encode)
    (done : encode data name (written.place start) pool out relocation = .ok replacement) :
    ∃ (new : WrittenCode) (item : WrittenAttribute), replacement = item.encode ∧
      item.name = name ∧ item.body = new.encode ∧ written.Rewritten relocation out new := by
  have within := stands.within
  rw [WrittenCode.encode, stands_append, WrittenAttribute.encodeAll, stands_append] at stands
  obtain ⟨pieces, exceptions, done⟩ := bind_eq_ok.mp done
  obtain ⟨nested, items, same⟩ := bind_eq_ok.mp done
  obtain ⟨rows, rfl, length, rowsSame⟩ := encodeExceptions_eq_ok exceptions
  obtain ⟨news, rfl, all⟩ := encodeAttributes_eq_ok small bounded stands.2.2 items
  cases same
  change rows.length = written.exceptions.length at length
  have fewRows := written.fewExceptions
  have fewItems := written.fewAttributes
  have count := all.length_eq
  let new : WrittenCode := ⟨written.maxStack, written.maxLocals, out, rows, news, filled, short,
    by omega, by omega⟩
  have grown := size_rewritten all
  have fits : new.encode.size < 0x100000000 := by
    simp [new, WrittenCode.encode, WrittenCode.encodeFront, WrittenAttribute.encodeAll] at within ⊢
    omega
  refine ⟨new, ⟨name, new.encode, fits⟩, ?_, rfl, rfl, rfl, rfl, rfl, length, all, rowsSame⟩
  simp [WrittenAttribute.encode, new, WrittenCode.encode, WrittenCode.encodeFront,
    WrittenCode.place, WrittenAttribute.placeAll, ExceptionRow.encodeAll, WrittenAttribute.encodeAll,
    ByteArray.append_assoc, length, count]

end CodeAttribute

end EnumNames
