import EnumNames.Proofs.ClassFile.ClassGrammar
import EnumNames.Proofs.EnumUnit.StringGrowth

/-!
What a changed literal does to the bytes of its class. A repair that ends with the bytes it began with
has neither added a constant nor rewritten the code, so it has found every literal as it should be. Main
statements: exactly the construction sites with another literal are counted as changed, and the bytes
change exactly when there is such a site.
-/

namespace EnumNames

/-- Constants that add nothing to a pool are none at all. -/
theorem ConstantPool.Appended.eq_of_count {source pool : ConstantPool}
    {constants : List WrittenConstant} (appended : Appended source pool constants)
    (same : pool.count = source.count) : constants = [] ∧ pool = source := by
  have filled := congrArg List.length appended.1
  rw [List.length_append, Array.length_toList, Array.length_toList] at filled
  have empty : (WrittenConstant.slots constants).length = 0 := by
    unfold count at same
    omega
  have none : constants = [] := by
    cases constants with
    | nil => rfl
    | cons item rest =>
      have some := WrittenConstant.slots_ne_nil item.constant
      rw [WrittenConstant.slots_cons, List.length_append] at empty
      omega
  subst none
  obtain ⟨slots, bytes⟩ := appended
  rw [WrittenConstant.slots_nil, List.append_nil] at slots
  rw [WrittenConstant.encode_nil, ByteArray.append_empty] at bytes
  refine ⟨rfl, ?_⟩
  obtain ⟨_, _⟩ := pool
  obtain ⟨_, _⟩ := source
  cases Array.toList_inj.mp slots
  cases bytes
  rfl

/-- The body of an attribute written around some code starts with the limits and with this code. -/
theorem CodeAttribute.encode_eq_append {data out replacement : ByteArray} {name : UInt16}
    {source : CodeAttribute} {pool : ConstantPool} {relocation : Option Relocation}
    (done : encode data name source pool out relocation = .ok replacement) :
    ∃ body tables, replacement = BigEndian.encode16 name ++ (BigEndian.encodeSize body.size ++ body) ∧
      body = BigEndian.encode16 source.maxStack ++ (BigEndian.encode16 source.maxLocals ++
        (BigEndian.encodeSize out.size ++ (out ++ tables))) := by
  obtain ⟨exceptions, _, done⟩ := bind_eq_ok.mp done
  obtain ⟨attributes, _, same⟩ := bind_eq_ok.mp done
  cases same
  refine ⟨_, BigEndian.encodeCount source.exceptions.length ++ (Relocation.concat exceptions ++
    (BigEndian.encodeCount source.attributes.length ++ Relocation.concat attributes)),
    ByteArray.append_assoc, ?_⟩
  simp only [ByteArray.append_assoc]

/-- The attribute that is written as before is written around the same code. -/
theorem InitializerForm.code_eq_of_encode {form : InitializerForm} {out : ByteArray}
    {pool : ConstantPool} {relocation : Option Relocation} (short : out.size < 65536)
    (done : CodeAttribute.encode form.toClass.encode form.item.name
      (form.body.place (form.itemStart + 6)) pool out relocation = .ok form.item.encode) :
    out = form.body.code := by
  obtain ⟨body, tables, same, rfl⟩ := CodeAttribute.encode_eq_append done
  rw [form.encode_item, InitializerForm.head] at same
  simp only [ByteArray.append_assoc] at same
  have behindName := (SelfDelimiting.encode16 _ _ _ _ same).2
  have behindSize := (SelfDelimiting.encode32 _ _ _ _ behindName).2
  have behindStack := (SelfDelimiting.encode16 _ _ _ _ behindSize).2
  have behindLocals := (SelfDelimiting.encode16 _ _ _ _ behindStack).2
  obtain ⟨sizes, codes⟩ := SelfDelimiting.encode32 _ _ _ _ behindLocals
  have formShort := form.body.short
  have equal := congrArg UInt32.toNat sizes
  rw [UInt32.toNat_ofNat', UInt32.toNat_ofNat', Nat.mod_eq_of_lt (by omega),
    Nat.mod_eq_of_lt (by omega)] at equal
  exact (ByteArray.append_inj_left codes equal).symm

/-- A class that is put together as before has the same pool and the same attribute. -/
theorem InitializerFrame.eq_of_splice {frame : InitializerFrame} {pool : ConstantPool}
    {added : List WrittenConstant} {replacement : ByteArray}
    (appended : ConstantPool.Appended frame.front.pool pool added)
    (done : frame.toClass.layout.splice frame.toClass.encode pool
      (frame.item.place frame.itemStart).range replacement = .ok frame.toClass.encode) :
    pool = frame.front.pool ∧ replacement = frame.item.encode := by
  obtain ⟨fits, same⟩ := splice_eq_append done
  rw [encode_toClass, ClassFront.encodePool, ByteArray.append_assoc] at same
  have behindHeader := (ByteArray.append_right_inj _).mp same
  obtain ⟨counts, bodies⟩ :=
    SelfDelimiting.encodeCount frame.front.fewConstants fits behindHeader
  obtain ⟨rfl, rfl⟩ := appended.eq_of_count counts.symm
  have behindPool := (ByteArray.append_right_inj _).mp bodies
  rw [show frame.front.pool.appended = .empty from rfl, ByteArray.empty_append] at behindPool
  have items := (ByteArray.append_right_inj _).mp behindPool
  exact ⟨rfl, ((ByteArray.append_left_inj _).mp items).symm⟩

/-- When code is repaired to itself without a new constant, all its literals match. -/
theorem Progress.Run.matches_of_repaired {source : ConstantPool} {code : ByteArray}
    {machine last : Construction} {sites : List Site} {found : List Substitution}
    {relocation : Option Relocation} {moved : List Instruction}
    (run : Run source source code machine sites found last)
    (decoded : Instruction.decodeAll code = .ok (sites.map (·.instruction)))
    (repaired : Site.Repaired sites code code relocation moved) :
    ∀ load ∈ found, load.Matches source code := by
  have each (site : Site) (member : site ∈ sites) :
      Instruction.decode code site.instruction.offset = .ok site.instruction :=
    (Instruction.decodeAll_eq_ok.mp decoded).decoded _ (List.mem_map_of_mem member)
  obtain ⟨loads, again, _, yield⟩ := run.reloaded (.refl source) each repaired.reloads
  cases repaired.decoded.symm.trans decoded
  cases run.observeAll.symm.trans again
  exact yield

/-- The bytes of a class stay when nothing is counted as changed, and only then. -/
theorem StaticInitializer.bytes_eq_iff {unit : EnumUnit} {data : ByteArray} {repaired : Repaired}
    (initializer : StaticInitializer data) (done : initializer.repair unit = .ok repaired) :
    repaired.bytes = data ↔ repaired.changed = 0 := by
  obtain ⟨old, rfl, layout, location, source, code⟩ := InitializerForm.exists_form initializer
  obtain ⟨⟨last, pool, held⟩, observed, done⟩ := bind_eq_ok.mp done
  obtain ⟨substitutions, _, done⟩ := bind_eq_ok.mp done
  have decoded := initializer.decoded
  rw [code] at decoded
  rw [layout, code] at observed
  obtain ⟨added, sites, found, appended, _, same, instructions, run⟩ :=
    Progress.observeAll_run observed (.refl _) old.front.fewConstants
  dsimp only at done same
  rw [List.append_nil] at same
  rw [same, List.reverse_reverse, layout, location, source, code] at done
  rw [← instructions] at decoded
  split at done
  · rename_i zero
    cases done
    exact ⟨fun _ => zero, fun _ => rfl⟩
  · rename_i patched
    obtain ⟨⟨out, relocation⟩, coded, done⟩ := bind_eq_ok.mp done
    obtain ⟨replacement, encoded, done⟩ := bind_eq_ok.mp done
    obtain ⟨bytes, spliced, same⟩ := bind_eq_ok.mp done
    cases same
    refine ⟨fun unchanged => absurd ?_ patched, fun zero => absurd zero patched⟩
    -- The same bytes hold the same pool and the same code, which leaves nothing to be patched.
    obtain rfl : bytes = old.toClass.encode := unchanged
    have tile : Site.Tile old.body.code 0 sites :=
      Site.tile_iff.mpr (Instruction.decodeAll_eq_ok.mp decoded)
    obtain ⟨moved, codeRepaired⟩ := EnumUnit.repairCode_eq_ok tile old.body.short run.isLoad coded
    obtain ⟨rfl, rfl⟩ := InitializerFrame.eq_of_splice appended spliced
    obtain rfl := InitializerForm.code_eq_of_encode codeRepaired.short encoded
    have matching := run.matches_of_repaired decoded codeRepaired
    rw [run.countP_isSome, List.countP_eq_zero]
    intro load member
    exact Bool.eq_false_iff.mp (Substitution.differs_eq_false_iff.mpr (matching load member))

/-- A repair returns other bytes exactly when it counts a literal as changed. -/
theorem EnumUnit.bytes_eq_iff {unit : EnumUnit} {data : ByteArray} {repaired : Repaired}
    (done : unit.repair data = .ok repaired) : repaired.bytes = data ↔ repaired.changed = 0 := by
  obtain ⟨_, _, _, bare⟩ | ⟨⟨initializer⟩⟩ := repair_cases done
  · obtain ⟨substitutions, _, same⟩ := bind_eq_ok.mp bare
    cases same
    exact ⟨fun _ => rfl, fun _ => rfl⟩
  · rw [repair_eq unit initializer] at done
    exact initializer.bytes_eq_iff done

/-- The sites of an enum class at which its constants are constructed: the loads of the static
initializer that have to yield the names of the constants. -/
structure EnumUnit.Sites (unit : EnumUnit) (data : ByteArray) where
  initializer : StaticInitializer data
  loads : List Substitution
  accepted : unit.substitutions initializer.layout.pool initializer.code initializer.instructions =
    .ok loads

namespace EnumUnit.Sites

variable {unit : EnumUnit} {data : ByteArray}

/-- A class has its sites at one place only. -/
instance : Subsingleton (unit.Sites data) where
  allEq first second := by
    obtain ⟨initializer, _, accepted⟩ := first
    obtain ⟨other, _, otherAccepted⟩ := second
    obtain rfl := Subsingleton.elim initializer other
    cases accepted.symm.trans otherAccepted
    rfl

/-- So many sites load anything but the name of their field. -/
def differing (sites : unit.Sites data) : Nat :=
  sites.loads.countP (·.differs sites.initializer.layout.pool sites.initializer.code)

end EnumUnit.Sites

/-- An enum that is repaired has construction sites, and those that differ are counted. -/
theorem EnumUnit.exists_sites {unit : EnumUnit} {data : ByteArray} {repaired : Repaired}
    (classified : classify data = .ok (some unit)) (done : unit.repair data = .ok repaired) :
    ∃ sites : unit.Sites data, repaired.changed = sites.differing := by
  obtain ⟨_, _, _, bare⟩ | ⟨⟨initializer⟩⟩ := repair_cases done
  · obtain ⟨substitutions, finished, _⟩ := bind_eq_ok.mp bare
    obtain ⟨layout, _, made⟩ := bind_eq_ok.mp classified
    obtain ⟨none, _⟩ := Construction.finish_eq_ok finished
    exact absurd (List.eq_nil_of_length_eq_zero none.symm) (constants_of_ofLayout? made).1
  · rw [repair_eq unit initializer] at done
    obtain ⟨loads, accepted, changed⟩ := initializer.changed_eq done
    exact ⟨⟨initializer, loads, accepted⟩, changed⟩

end EnumNames
