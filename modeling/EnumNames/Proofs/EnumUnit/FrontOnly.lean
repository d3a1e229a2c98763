import EnumNames.Proofs.ClassFile.ClassGrammar
import EnumNames.Proofs.EnumUnit.RepairedNames

/-!
What a classification looks at. A reader that takes a form has only seen the bytes that it passed, so
nothing behind the fields of a class has an influence. Main statement: classes that agree up to the end
of their fields are classified alike, and reading on finds the same parts up to there.
-/

namespace EnumNames

/-- A reader comes to the same end in all bytes that agree with those it has passed. -/
theorem Reader.Takes.again {α : Type} {reader : Reader α} {form : Form α} (takes : reader.Takes form)
    {data other : ByteArray} {value : α} {next : Cursor} (done : reader (.start data) = .ok value next)
    (agrees : other.extract 0 next.position = data.extract 0 next.position) :
    next.position ≤ data.size ∧ reader (.start other) = .ok value ⟨other, next.position⟩ := by
  rw [Cursor.start_eq_between] at done
  obtain ⟨text, after, rfl, rfl, holds⟩ := (takes _ _ _ _).mp done
  simp only [Cursor.position_between, ByteArray.empty_append] at agrees ⊢
  have passed : (text ++ after).extract 0 text.size = text := ByteArray.extract_append_eq_left rfl
  rw [passed] at agrees
  have size := congrArg ByteArray.size agrees
  rw [ByteArray.size_extract] at size
  obtain ⟨front, rest, rfl, length⟩ :=
    exists_append_of_le_size (show text.size ≤ other.size by omega)
  rw [← length, ByteArray.extract_append_eq_left rfl] at agrees
  subst agrees
  refine ⟨?_, ?_⟩
  · rw [ByteArray.size_append]
    exact Nat.le_add_right _ _
  · rw [Cursor.start_eq_between]
    refine (takes _ _ _ _).mpr ⟨front, rest, rfl, ?_, holds⟩
    rw [Cursor.between, ByteArray.empty_append]

namespace ClassLayout

variable {data other : ByteArray} {layout : ClassLayout} {stop : Nat}

theorem takes_fields : ∃ form, (read .fields).Takes form :=
  ⟨_, takes_readHeader.bind fun _ => ConstantPool.takes_read.bind fun pool =>
    Reader.takes_position.bind fun poolEnd => Reader.takes_u2.bind fun access =>
    Reader.takes_u2.bind fun thisClass => Reader.takes_u2.bind fun superClass =>
    takes_skipInterfaces.bind fun _ => Member.takes_readAll.bind fun fields =>
    (Reader.takes_pure []).bind_pure fun methods =>
      ClassLayout.mk pool poolEnd access thisClass superClass fields methods⟩

/-- The fields end at this offset, where the methods start. -/
def EndsFields (data : ByteArray) (stop : Nat) : Prop :=
  ∃ layout next, read .fields (.start data) = .ok layout next ∧ next.position = stop

/-- The fields end somewhere when they can be read. -/
theorem exists_endsFields (parsed : parse data .fields = .ok layout) :
    ∃ stop, EndsFields data stop := by
  unfold parse Reader.evaluate at parsed
  split at parsed
  · rename_i found next read
    exact ⟨next.position, found, next, read, rfl⟩
  · cases parsed

/-- The fields end alike in all bytes that agree up to there, and the same is read. -/
theorem EndsFields.again (ends : EndsFields data stop)
    (agrees : other.extract 0 stop = data.extract 0 stop) :
    EndsFields other stop ∧ parse other .fields = parse data .fields := by
  obtain ⟨form, takes⟩ := takes_fields
  obtain ⟨layout, next, read, rfl⟩ := ends
  obtain ⟨_, again⟩ := takes.again read agrees
  refine ⟨⟨layout, _, again, rfl⟩, ?_⟩
  rw [parse, parse, Reader.evaluate, Reader.evaluate, read, again]

theorem EndsFields.unique {first second : Nat} (one : EndsFields data first)
    (two : EndsFields data second) : first = second := by
  obtain ⟨_, _, read, rfl⟩ := one
  obtain ⟨_, _, again, rfl⟩ := two
  cases read.symm.trans again
  rfl

theorem EndsFields.le_size (ends : EndsFields data stop) : stop ≤ data.size := by
  obtain ⟨form, takes⟩ := takes_fields
  obtain ⟨layout, next, read, rfl⟩ := ends
  exact (takes.again read rfl).1

/-- The bytes in front of the end of the fields are the front of the class. -/
theorem EndsFields.exists_front (ends : EndsFields data stop)
    (parsed : parse data .fields = .ok layout) :
    ∃ front : ClassFront, data.extract 0 stop = front.encode ∧ layout = front.layout [] := by
  have within := ends.le_size
  obtain ⟨text, after, rfl, rfl⟩ := exists_append_of_le_size within
  have passed : (text ++ after).extract 0 text.size = text := ByteArray.extract_append_eq_left rfl
  obtain ⟨textEnds, same⟩ :=
    ends.again (show text.extract 0 text.size = _ by rw [passed, ByteArray.extract_zero_size])
  rw [parsed] at same
  obtain ⟨front, rest, rfl, rfl⟩ := (parse_fields_eq_ok _ _).mp same
  -- The front alone is read as well, so its fields end before the rest begins.
  have alone : parse front.encode .fields = .ok (front.layout []) :=
    (parse_fields_eq_ok _ _).mpr ⟨front, .empty, ByteArray.append_empty.symm, rfl⟩
  obtain ⟨stop, frontEnds⟩ := exists_endsFields alone
  have inside := frontEnds.le_size
  have agrees : (front.encode ++ rest).extract 0 stop = front.encode.extract 0 stop := by
    have behind : rest.extract (0 - front.encode.size) (stop - front.encode.size) = .empty :=
      ByteArray.extract_eq_empty_iff.mpr (by omega)
    rw [ByteArray.extract_append, behind, ByteArray.append_empty]
  have size := textEnds.unique (frontEnds.again agrees).1
  rw [ByteArray.size_append] at size
  have none : rest = .empty := ByteArray.size_eq_zero_iff.mp (by omega)
  exact ⟨front, by rw [passed, none, ByteArray.append_empty], rfl⟩

/-- Reading on finds the same parts up to the end of the fields. -/
theorem parse_fields_of_full (parsed : parse data .full = .ok layout) :
    parse data .fields = .ok { layout with methods := [] } := by
  obtain ⟨written, rfl, rfl⟩ := (parse_full_eq_ok _ _).mp parsed
  exact (parse_fields_eq_ok _ _).mpr ⟨written.toClassFront, _, rfl, rfl⟩

end ClassLayout

namespace EnumUnit

/-- Classes that agree up to the end of their fields are classified alike, whatever follows there. A
class that can be read as a whole has the same front. -/
theorem classify_looks_at_front :
    (∀ data layout, ClassLayout.parse data .fields = .ok layout →
      ∃ stop, ClassLayout.EndsFields data stop ∧ stop ≤ data.size ∧
        (∃ front : ClassFront, data.extract 0 stop = front.encode ∧ layout = front.layout []) ∧
        ∀ other : ByteArray, other.extract 0 stop = data.extract 0 stop →
          ClassLayout.parse other .fields = .ok layout ∧ classify other = classify data) ∧
    ∀ data layout, ClassLayout.parse data .full = .ok layout →
      ClassLayout.parse data .fields = .ok { layout with methods := [] } := by
  refine ⟨fun data layout parsed => ?_, fun data layout => ClassLayout.parse_fields_of_full⟩
  obtain ⟨stop, ends⟩ := ClassLayout.exists_endsFields parsed
  refine ⟨stop, ends, ends.le_size, ends.exists_front parsed, fun other agrees => ?_⟩
  have same := (ends.again agrees).2
  refine ⟨same.trans parsed, ?_⟩
  rw [classify, classify, same]

/-- Whatever stands in the place of its methods, this class is the same enum. -/
theorem classify_looks_at_front_example :
    let data := exampleClass 14 [] 11
    ∃ layout stop, ClassLayout.parse data .full = .ok layout ∧
      ClassLayout.parse data .fields = .ok { layout with methods := [] } ∧
      ClassLayout.EndsFields data stop ∧
      ∀ code : ByteArray, classify (data.extract 0 stop ++ code) = .ok (some exampleUnit) := by
  intro data
  have classified : classify data = .ok (some exampleUnit) := by decide +kernel
  obtain ⟨layout, parsed, _⟩ := bind_eq_ok.mp repair_exampleClass
  obtain ⟨alike, further⟩ := classify_looks_at_front
  have fields := further data layout parsed
  obtain ⟨stop, ends, within, _, same⟩ := alike data _ fields
  refine ⟨layout, stop, parsed, fields, ends, fun code => ?_⟩
  have front : (data.extract 0 stop).size = stop := by
    rw [ByteArray.size_extract, Nat.min_eq_left within, Nat.sub_zero]
  rw [(same _ (ByteArray.extract_append_eq_left front.symm)).2, classified]

end EnumUnit

end EnumNames
