import EnumNames.Proofs.EnumUnit.RepairedClass

/-!
The names that repaired code loads. The machine accepts the repaired static initializer, and the
loads that it substitutes there yield the names of the constants in their order.
-/

namespace EnumNames

namespace InitializerRepair

variable {unit : EnumUnit} {old new : InitializerForm} {repaired : Repaired}

theorem extension (repair : InitializerRepair unit old new repaired) :
    new.front.pool.Extends old.front.pool := by
  rw [repair.frame]
  exact old.front.grow_extends repair.added repair.few

/-- The machine accepts the code before the repair. -/
theorem substitutions_old (repair : InitializerRepair unit old new repaired) :
    unit.substitutions old.front.pool old.body.code (repair.sites.map (·.instruction)) =
      .ok repair.found :=
  bind_eq_ok.mpr ⟨_, repair.run.observeAll, bind_eq_ok.mpr ⟨_, repair.finished, rfl⟩⟩

/-- The machine takes the same way through the repaired code, where every substituted load yields its
name. -/
theorem observeAll_new (repair : InitializerRepair unit old new repaired) :
    ∃ loads, (Construction.start unit).observeAll new.front.pool new.body.code repair.moved =
      .ok (repair.last, loads) ∧ ∀ load ∈ loads, load.Matches new.front.pool new.body.code := by
  have decoded (site : Site) (member : site ∈ repair.sites) :
      Instruction.decode old.body.code site.instruction.offset = .ok site.instruction :=
    (Instruction.decodeAll_eq_ok.mp repair.decoded).decoded _ (List.mem_map_of_mem member)
  obtain ⟨loads, run, _, yield⟩ :=
    repair.run.reloaded repair.extension decoded repair.code.reloads
  exact ⟨loads, run, yield⟩

/-- Every constant of the enum is constructed once. -/
theorem substitutions_eq (repair : InitializerRepair unit old new repaired) :
    repaired.substitutions = unit.constants.length := by
  obtain ⟨progressed, _⟩ := Construction.observeAll_names (Construction.progressed_start unit)
    repair.run.observeAll
  rw [(Construction.finish_eq_ok repair.finished).2, progressed.same]

end InitializerRepair

/-- A repair makes the static initializer load the names of the constants in their order. -/
theorem EnumUnit.repair_yields_names {unit : EnumUnit} {data : ByteArray} {repaired : Repaired}
    {layout : ClassLayout} {method : Member} {number : Nat} (small : data.size < 0x80000000)
    (done : unit.repair data = .ok repaired)
    (parsed : ClassLayout.parse data .full = .ok layout)
    (found : layout.findMethod initializerName initializerDescriptor =
      .ok (some (method, number))) :
    ∃ (before : StaticInitializer data) (after : StaticInitializer repaired.bytes)
      (wanted loads : List Substitution),
      unit.substitutions before.layout.pool before.code before.instructions = .ok wanted ∧
      unit.substitutions after.layout.pool after.code after.instructions = .ok loads ∧
      loads.map (·.name) = unit.constants ∧
      (∀ load ∈ loads, load.Matches after.layout.pool after.code) ∧
      repaired.substitutions = unit.constants.length ∧
      repaired.size = repaired.bytes.size ∧
      repaired.changed = wanted.countP (·.differs before.layout.pool before.code) := by
  obtain ⟨_, otherParsed, missing, _⟩ | ⟨⟨initializer⟩⟩ := repair_cases done
  · cases parsed.symm.trans otherParsed
    cases found.symm.trans missing
  · rw [repair_eq unit initializer] at done
    obtain ⟨old, new, rfl, bytes, _, ⟨repair⟩⟩ := initializer.exists_repair small done
    obtain ⟨loads, run, yield⟩ := repair.observeAll_new
    have accepted : unit.substitutions new.front.pool new.body.code repair.moved = .ok loads :=
      bind_eq_ok.mpr ⟨_, run, bind_eq_ok.mpr ⟨_, repair.finished, rfl⟩⟩
    rw [bytes]
    exact ⟨old.initializer repair.decoded, new.initializer repair.code.decoded, repair.found, loads,
      repair.substitutions_old, accepted, substitutions_names accepted, yield,
      repair.substitutions_eq, congrArg ByteArray.size bytes, repair.changed.trans repair.run.countP_isSome⟩

def exampleUnit : EnumUnit := ⟨"E", ["A"]⟩

/-- A class of this enum. The texts of its pool are the names of the class, of its superclass and of
its constant, some descriptors, and `X`, which is the only one that a string refers to. The static
initializer loads the constant with the index. -/
def exampleClass (slots : UInt8) (added : List UInt8) (index : UInt8) : ByteArray :=
  .mk <| .mk <|
    [0xCA, 0xFE, 0xBA, 0xBE, 0, 0, 0, 52, 0, slots, 1, 0, 1, 69, 7, 0, 1, 1, 0, 14, 106, 97, 118, 97,
      47, 108, 97, 110, 103, 47, 69, 110, 117, 109, 7, 0, 3, 1, 0, 1, 65, 1, 0, 3, 76, 69, 59, 1, 0,
      8, 60, 99, 108, 105, 110, 105, 116, 62, 1, 0, 3, 40, 41, 86, 1, 0, 4, 67, 111, 100, 101, 1, 0,
      1, 88, 8, 0, 10, 12, 0, 5, 0, 6, 9, 0, 2, 0, 12] ++ added ++
    [0x40, 0x31, 0, 2, 0, 4, 0, 0, 0, 1, 0x40, 0x19, 0, 5, 0, 6, 0, 0, 0, 1, 0, 8, 0, 7, 0, 8, 0, 1,
      0, 9, 0, 0, 0, 21, 0, 2, 0, 0, 0, 0, 0, 9, 0xBB, 0, 2, 0x12, index, 0xB3, 0, 13, 0xB1, 0, 0, 0,
      0, 0, 0]

theorem size_exampleClass (slots index : UInt8) (added : List UInt8) :
    (exampleClass slots added index).size = 145 + added.length := by
  simp [exampleClass]
  omega

/-- A string of the name `A` is added to the pool and loaded instead of `X`. -/
theorem repair_exampleClass : exampleUnit.repair (exampleClass 14 [] 11) =
    .ok ⟨exampleClass 15 [8, 0, 5] 14, 1, 1⟩ := by
  have parts : ((exampleUnit.repair (exampleClass 14 [] 11)).map fun repaired =>
      (repaired.bytes.data.toList, repaired.substitutions, repaired.changed)) =
        .ok ((exampleClass 15 [8, 0, 5] 14).data.toList, 1, 1) := by decide +kernel
  cases done : exampleUnit.repair (exampleClass 14 [] 11) with
  | error failure =>
    rw [done] at parts
    cases parts
  | ok repaired =>
    obtain ⟨⟨⟨bytes⟩⟩, substitutions, changed⟩ := repaired
    rw [done] at parts
    cases parts
    rfl

theorem EnumUnit.repair_yields_names_example :
    let data := exampleClass 14 [] 11
    let repaired : Repaired := ⟨exampleClass 15 [8, 0, 5] 14, 1, 1⟩
    data.size < 0x80000000 ∧ exampleUnit.repair data = .ok repaired ∧
      ∃ (before : StaticInitializer data) (after : StaticInitializer repaired.bytes)
        (wanted loads : List Substitution),
        exampleUnit.substitutions before.layout.pool before.code before.instructions = .ok wanted ∧
        exampleUnit.substitutions after.layout.pool after.code after.instructions = .ok loads ∧
        loads.map (·.name) = exampleUnit.constants ∧
        (∀ load ∈ loads, load.Matches after.layout.pool after.code) ∧
        repaired.substitutions = exampleUnit.constants.length ∧
        repaired.size = repaired.bytes.size ∧
        repaired.changed = wanted.countP (·.differs before.layout.pool before.code) := by
  intro data repaired
  have small : data.size < 0x80000000 := by
    rw [size_exampleClass]
    decide
  have searched : (ClassLayout.parse data .full >>= fun layout =>
      layout.findMethod initializerName initializerDescriptor) =
        .ok (some (⟨8, 7, 8, [⟨9, ⟨116, 143⟩, ⟨122, 143⟩⟩]⟩, 0)) := by decide +kernel
  obtain ⟨layout, parsed, found⟩ := bind_eq_ok.mp searched
  exact ⟨small, repair_exampleClass, repair_yields_names small repair_exampleClass parsed found⟩

end EnumNames
