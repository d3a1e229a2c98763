import EnumNames.Proofs.EnumUnit.RepairedNames

/-!
A second repair. It finds every literal as it should be and leaves the class as it is, and a repaired
class is classified like the class before.
-/

namespace EnumNames

/-- A static initializer is left alone when every substituted load yields its name. -/
theorem StaticInitializer.repair_of_matches {unit : EnumUnit} {data : ByteArray}
    (initializer : StaticInitializer data) {last : Construction} {loads : List Substitution}
    {count : Nat}
    (run : (Construction.start unit).observeAll initializer.layout.pool initializer.code
      initializer.instructions = .ok (last, loads))
    (finished : last.finish = .ok count)
    (matching : ∀ load ∈ loads, load.Matches initializer.layout.pool initializer.code) :
    initializer.repair unit = .ok ⟨data, count, 0⟩ := by
  let sites : List Site := initializer.instructions.map fun instruction => ⟨instruction, none⟩
  have observed : Progress.observeAll initializer.layout.pool initializer.code unit
      initializer.instructions = .ok ⟨last, initializer.layout.pool, sites.reverse ++ []⟩ :=
    Progress.observeAll_of_matches [] run matching
  have unpatched : sites.countP (·.index.isSome) = 0 := by
    simp [sites, List.countP_map, Function.comp_def]
  rw [repair, observed, ok_bind, finished, ok_bind]
  dsimp only
  rw [List.append_nil, List.reverse_reverse, unpatched, if_pos rfl]
  rfl

namespace EnumUnit

/-- The names of the constants do not depend on the place of the fields. -/
theorem constantNames_layout (front : ClassFront) (methods : List Member) :
    constantNames (front.layout methods) =
      (front.fields.filter fun field => field.access &&& constantFlags == constantFlags).mapM
        fun field => front.pool.utf8 field.name := by
  have placed (start : Nat) (fields : List WrittenMember) :
      ((Form.placeAll WrittenMember.encode WrittenMember.place start fields).filter isConstant).mapM
        (fun field => front.pool.utf8 field.name) =
          (fields.filter fun field => field.access &&& constantFlags == constantFlags).mapM
            fun field => front.pool.utf8 field.name := by
    induction fields generalizing start with
    | nil => rfl
    | cons field rest inductionHypothesis =>
      have same : isConstant (field.place start) =
          (field.access &&& constantFlags == constantFlags) := rfl
      rw [Form.placeAll, List.filter_cons, List.filter_cons, same]
      split
      · rw [List.mapM_cons, List.mapM_cons, inductionHypothesis]
        rfl
      · exact inductionHypothesis _
  exact placed _ front.fields

theorem ofLayout?_grow {unit : EnumUnit} {front : ClassFront} {added : List WrittenConstant}
    (few : (ConstantPool.ofConstants (front.constants ++ added)).count < 65536)
    (done : ofLayout? (front.layout []) = .ok (some unit)) :
    ofLayout? ((front.grow added few).layout []) = .ok (some unit) := by
  have extension := front.grow_extends added few
  unfold ofLayout? at done ⊢
  obtain ⟨parent, parentRead, done⟩ := bind_eq_ok.mp done
  have parentKept : ((front.grow added few).layout []).superName = .ok parent := by
    unfold ClassLayout.superName at parentRead ⊢
    split at parentRead
    · rename_i root
      exact (if_pos root).trans parentRead
    · rename_i derived
      obtain ⟨name, read, same⟩ := bind_eq_ok.mp parentRead
      exact (if_neg derived).trans (bind_eq_ok.mpr ⟨name, extension.className read, same⟩)
  refine bind_eq_ok.mpr ⟨parent, parentKept, ?_⟩
  split at done
  · cases done
  · rename_i base
    rw [if_neg base]
    obtain ⟨name, nameRead, done⟩ := bind_eq_ok.mp done
    obtain ⟨constants, constantsRead, done⟩ := bind_eq_ok.mp done
    refine bind_eq_ok.mpr ⟨name, extension.className nameRead, bind_eq_ok.mpr ⟨constants, ?_, done⟩⟩
    rw [constantNames_layout, mapM_eq_ok] at constantsRead ⊢
    exact constantsRead.imp fun _ _ read => extension.utf8 read

theorem classify_toClass (frame : InitializerFrame) :
    classify frame.toClass.encode = ofLayout? (frame.front.layout []) := by
  have parsed : ClassLayout.parse frame.toClass.encode .fields = .ok (frame.front.layout []) :=
    (ClassLayout.parse_fields_eq_ok _ _).mpr ⟨frame.front, _, rfl, rfl⟩
  rw [classify, parsed, ok_bind]

/-- The literals of a class match when all loads that the machine substitutes yield their names. -/
def LiteralsMatch (unit : EnumUnit) (data : ByteArray) : Prop :=
  ∀ (initializer : StaticInitializer data) (loads : List Substitution),
    unit.substitutions initializer.layout.pool initializer.code initializer.instructions =
      .ok loads → ∀ load ∈ loads, load.Matches initializer.layout.pool initializer.code

/-- A second repair changes nothing, matching literals are left alone, and the class stays the same
enum. -/
theorem repair_stable {unit : EnumUnit} {data : ByteArray} {repaired : Repaired}
    (small : data.size < 0x80000000) (done : unit.repair data = .ok repaired) :
    unit.repair repaired.bytes = .ok { repaired with changed := 0 } ∧
      (unit.LiteralsMatch data → repaired.bytes = data) ∧
      (classify data = .ok (some unit) → classify repaired.bytes = .ok (some unit)) := by
  obtain ⟨layout, parsed, missing, bare⟩ | ⟨⟨initializer⟩⟩ := repair_cases done
  · obtain ⟨substitutions, _, same⟩ := bind_eq_ok.mp bare
    cases same
    exact ⟨done, fun _ => rfl, id⟩
  · rw [repair_eq unit initializer] at done
    obtain ⟨old, new, rfl, bytes, _, ⟨repair⟩⟩ := initializer.exists_repair small done
    rw [bytes]
    refine ⟨?_, ?_, ?_⟩
    · obtain ⟨loads, run, yield⟩ := repair.observeAll_new
      rw [repair_eq unit (new.initializer repair.code.decoded)]
      exact StaticInitializer.repair_of_matches _ run repair.finished yield
    · intro matching
      have none : repaired.changed = 0 := by
        rw [repair.changed, repair.run.countP_isSome, List.countP_eq_zero]
        intro load member
        have yields : load.Matches old.front.pool old.body.code :=
          matching (old.initializer repair.decoded) _ repair.substitutions_old load member
        exact Bool.eq_false_iff.mp (Substitution.differs_eq_false_iff.mpr yields)
      rw [repair.kept none]
    · intro classified
      rw [classify_toClass, repair.frame]
      rw [classify_toClass] at classified
      exact ofLayout?_grow repair.few classified

theorem repair_stable_example :
    let data := exampleClass 14 [] 11
    let repaired : Repaired := ⟨exampleClass 15 [8, 0, 5] 14, 1, 1⟩
    data.size < 0x80000000 ∧ exampleUnit.repair data = .ok repaired ∧
      exampleUnit.repair repaired.bytes = .ok { repaired with changed := 0 } ∧
      (exampleUnit.LiteralsMatch data → repaired.bytes = data) ∧
      classify data = .ok (some exampleUnit) ∧ classify repaired.bytes = .ok (some exampleUnit) := by
  intro data repaired
  have small : data.size < 0x80000000 := by
    rw [size_exampleClass]
    decide
  have classified : classify data = .ok (some exampleUnit) := by decide +kernel
  obtain ⟨again, matching, kept⟩ := repair_stable small repair_exampleClass
  exact ⟨small, repair_exampleClass, again, matching, classified, kept classified⟩

end EnumUnit

end EnumNames
