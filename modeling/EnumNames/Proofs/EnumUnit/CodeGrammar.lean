import EnumNames.Proofs.ClassFile.ClassGrammar
import EnumNames.Proofs.ClassFile.InsideClass
import EnumNames.Proofs.EnumUnit.RepairedNames

/-!
The grammar of `Code` attributes. Main statement: a body is read exactly when it is the written form
of some code, its parts are reported one behind the other, and writing it around the same code gives
the body back.
-/

namespace EnumNames

namespace WrittenAttribute

theorem le_start_placeAll (start : Nat) (items : List WrittenAttribute) :
    ∀ item ∈ Form.placeAll encode place start items, start ≤ item.range.start := by
  induction items generalizing start with
  | nil => simp [Form.placeAll]
  | cons item rest inductionHypothesis =>
    refine List.forall_mem_cons.mpr ⟨Nat.le_refl _, fun other member => ?_⟩
    exact Nat.le_trans (Nat.le_add_right _ _) (inductionHypothesis _ other member)

/-- Every attribute ends before the ones behind it start. -/
theorem inOrder_placeAll (start : Nat) (items : List WrittenAttribute) :
    (Form.placeAll encode place start items).Pairwise
      fun first second => first.range.stop ≤ second.range.start := by
  induction items generalizing start with
  | nil => exact .nil
  | cons item rest inductionHypothesis =>
    refine .cons (fun other member => ?_) (inductionHypothesis _)
    have behind := le_start_placeAll _ _ other member
    rwa [size_encode, ← Nat.add_assoc] at behind

end WrittenAttribute

namespace CodeAttribute

variable {data : ByteArray} {start : Nat} {body : Span} {source : CodeAttribute}
  {written : WrittenCode}

/-- The ranges hold the code and the attributes that are written. -/
structure Reports (data : ByteArray) (source : CodeAttribute) (written : WrittenCode) : Prop where
  maxStack : source.maxStack = written.maxStack
  maxLocals : source.maxLocals = written.maxLocals
  code : Access.slice data source.code = .ok written.code
  exceptions : source.exceptions = written.exceptions
  attributes : List.Forall₂ (Attribute.Reports data) source.attributes written.attributes

theorem reports_place (stands : Stands data start written.encode) :
    (written.place start).Reports data written where
  maxStack := rfl
  maxLocals := rfl
  code := Access.slice_eq_ok.mpr ⟨rfl, stands.inside 8 written.stands_code⟩
  exceptions := rfl
  attributes := by
    have items := stands.inside _ written.stands_attributes
    rw [← Nat.add_assoc] at items
    exact Form.forall₂_placed items fun _ _ => WrittenAttribute.reports_place

/-- The code lies in the body, the attributes lie behind it, and none of them overlap. -/
structure InOrder (source : CodeAttribute) (body : Span) : Prop extends source.Inside body where
  attributesInOrder : source.attributes.Pairwise
    fun first second => first.range.stop ≤ second.range.start

/-- A body is read when it is the written form of some code. -/
theorem parse_eq_ok (ordered : body.start ≤ body.stop) (within : body.stop ≤ data.size) :
    parse data body = .ok source ↔ ∃ written : WrittenCode,
      Access.slice data body = .ok written.encode ∧ source = written.place body.start := by
  obtain ⟨start, stop⟩ := body
  change start ≤ stop at ordered
  change stop ≤ data.size at within
  obtain ⟨width, rfl⟩ := Nat.le.dest ordered
  obtain ⟨text, rfl, stands⟩ := Stands.exists_of_le within
  have cut : Access.slice data ⟨start, start + text.size⟩ = .ok text :=
    Access.slice_eq_ok.mpr ⟨rfl, stands⟩
  simp only [parse_stands stands, cut, Except.ok.injEq]

/-- Around its own code an attribute is written as it was, under any name. -/
theorem encode_unmoved (name : UInt16) (pool : ConstantPool)
    (stands : Stands data start written.encode) :
    encode data name (written.place start) pool written.code none =
      .ok (BigEndian.encode16 name ++
        (BigEndian.encodeSize written.encode.size ++ written.encode)) := by
  have items := stands.inside _ written.stands_attributes
  rw [← Nat.add_assoc] at items
  have rows : written.exceptions.mapM (encodeException none) =
      .ok (written.exceptions.map ExceptionRow.encode) := mapM_of_forall fun _ _ => rfl
  have nested : (written.place start).attributes.mapM (encodeAttribute data pool none) =
      .ok (written.attributes.map WrittenAttribute.encode) := encodeAttributes_none items
  have body : BigEndian.encode16 written.maxStack ++ BigEndian.encode16 written.maxLocals ++
      BigEndian.encodeSize written.code.size ++ written.code ++
      BigEndian.encodeCount written.exceptions.length ++
      Relocation.concat (written.exceptions.map ExceptionRow.encode) ++
      BigEndian.encodeCount (written.place start).attributes.length ++
      Relocation.concat (written.attributes.map WrittenAttribute.encode) = written.encode := by
    simp [WrittenCode.encode, WrittenCode.encodeFront, WrittenCode.place, ExceptionRow.encodeAll,
      WrittenAttribute.encodeAll, WrittenAttribute.placeAll, ByteArray.append_assoc]
  refine bind_eq_ok.mpr ⟨_, rows, bind_eq_ok.mpr ⟨_, nested, ?_⟩⟩
  change Except.ok _ = _
  dsimp only [WrittenCode.place] at body ⊢
  rw [body, ByteArray.append_assoc]

/-- A body is accepted when it is the written form of some code. Its parts are reported where they lie,
and around the same code the attribute is written with the same body, under any name. -/
theorem parse_grammar (data : ByteArray) (body : Span) (ordered : body.start ≤ body.stop)
    (within : body.stop ≤ data.size) :
    (∀ source, parse data body = .ok source ↔ ∃ written : WrittenCode,
      Access.slice data body = .ok written.encode ∧ source = written.place body.start) ∧
    ∀ source, parse data body = .ok source → ∃ written : WrittenCode,
      Access.slice data body = .ok written.encode ∧ source.Reports data written ∧
      source.InOrder body ∧
      ∀ (name : UInt16) (pool : ConstantPool) (code : ByteArray) (length : UInt32),
        Access.slice data source.code = .ok code → body.length = length.toNat →
          encode data name source pool code none =
            .ok (BigEndian.encode16 name ++ (BigEndian.encode32 length ++ written.encode)) := by
  have accepts (source : CodeAttribute) : parse data body = .ok source ↔ ∃ written : WrittenCode,
      Access.slice data body = .ok written.encode ∧ source = written.place body.start :=
    parse_eq_ok ordered within
  refine ⟨accepts, fun source parsed => ?_⟩
  obtain ⟨written, sliced, rfl⟩ := (accepts source).mp parsed
  obtain ⟨stop, stands⟩ := Access.slice_eq_ok.mp sliced
  have inside := inside_of_parse ordered within parsed
  refine ⟨written, sliced, reports_place stands, ⟨inside, WrittenAttribute.inOrder_placeAll _ _⟩, ?_⟩
  intro name pool code length taken counted
  cases (reports_place stands).code.symm.trans taken
  have size : written.encode.size = length.toNat := by
    rw [Span.length] at counted
    omega
  rw [encode_unmoved name pool stands, BigEndian.encodeSize, size, UInt32.ofNat_toNat]

theorem parse_grammar_example :
    let data := exampleClass 14 [] 11
    let body : Span := ⟨122, 143⟩
    let source : CodeAttribute := ⟨2, 0, ⟨130, 139⟩, [], []⟩
    body.start ≤ body.stop ∧ body.stop ≤ data.size ∧ parse data body = .ok source ∧
      ∃ (written : WrittenCode) (code : ByteArray), Access.slice data body = .ok written.encode ∧
        source.Reports data written ∧ source.InOrder body ∧
        Access.slice data source.code = .ok code ∧
        ∀ (name : UInt16) (pool : ConstantPool), encode data name source pool code none =
          .ok (BigEndian.encode16 name ++ (BigEndian.encode32 21 ++ written.encode)) := by
  intro data body source
  have within : body.stop ≤ data.size := by
    rw [size_exampleClass]
    decide
  have parsed : parse data body = .ok source := by decide +kernel
  have ordered : body.start ≤ body.stop := by decide
  have length : body.length = (21 : UInt32).toNat := by decide
  obtain ⟨_, further⟩ := parse_grammar data body ordered within
  obtain ⟨written, sliced, reports, inOrder, back⟩ := further source parsed
  refine ⟨ordered, within, parsed, written, _, sliced, reports, inOrder, reports.code, ?_⟩
  exact fun name pool => back name pool _ 21 reports.code length

end CodeAttribute

end EnumNames
