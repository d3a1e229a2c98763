import EnumNames.Proofs.EnumUnit.RepairedAttribute
import EnumNames.Proofs.EnumUnit.Run

/-!
The class that a repair puts together. It is the written form of the class before, with some
constants behind its own ones and with another body in the `Code` attribute of its static
initializer.
-/

namespace EnumNames

namespace ClassFront

/-- Some constants follow the present ones. -/
def grow (front : ClassFront) (added : List WrittenConstant)
    (few : (ConstantPool.ofConstants (front.constants ++ added)).count < 65536) : ClassFront :=
  { front with
    constants := front.constants ++ added
    fewConstants := few }

theorem grow_extends (front : ClassFront) (added : List WrittenConstant)
    (few : (ConstantPool.ofConstants (front.constants ++ added)).count < 65536) :
    (front.grow added few).pool.Extends front.pool :=
  ⟨WrittenConstant.slots added, by simp [grow, pool, ConstantPool.ofConstants]⟩

end ClassFront

namespace InitializerFrame

/-- The pool grows and another attribute of the same name stands in the place of the present one. -/
def replace (frame : InitializerFrame) (added : List WrittenConstant)
    (few : (ConstantPool.ofConstants (frame.front.constants ++ added)).count < 65536)
    (item : WrittenAttribute) (same : item.name = frame.item.name) : InitializerFrame :=
  { frame with
    front := frame.front.grow added few
    item
    few := by
      have bound := frame.few
      rwa [List.length_append] at bound ⊢
    first := fun member inside =>
      (frame.front.grow_extends added few).isInitializer (frame.first member inside)
    named := (frame.front.grow_extends added few).isInitializer frame.named
    firstCode := fun other inside =>
      (frame.front.grow_extends added few).isCode (frame.firstCode other inside)
    namedCode := same ▸ (frame.front.grow_extends added few).isCode frame.namedCode }

/-- Without new constants and with the present attribute nothing changes. -/
theorem replace_self (frame : InitializerFrame) (few) :
    frame.replace [] few frame.item rfl = frame := by
  obtain ⟨front⟩ := frame
  obtain ⟨⟩ := front
  simp [replace, ClassFront.grow]

theorem opening_replace (frame : InitializerFrame) (added : List WrittenConstant) (few)
    (item : WrittenAttribute) (same : item.name = frame.item.name) :
    (frame.replace added few item same).opening = frame.opening := by
  simp [opening, replace, toClass, method, ClassFront.grow, ClassFront.encodeInfo]

/-- The class is put together from the bytes around the replaced attribute. -/
theorem splice_eq_append {frame : InitializerFrame} {pool : ConstantPool}
    {replacement bytes : ByteArray}
    (done : frame.toClass.layout.splice frame.toClass.encode pool
      (frame.item.place frame.itemStart).range replacement = .ok bytes) :
    pool.count < 65536 ∧ bytes = frame.front.encodeHeader ++ (BigEndian.encodeCount pool.count ++
      (WrittenConstant.encode frame.front.constants ++ (pool.appended ++
        (frame.opening ++ (replacement ++ frame.closing))))) := by
  obtain ⟨header, entries, opening, _, closing⟩ := frame.stands_parts
  have first : Access.slice frame.toClass.encode ⟨0, 8⟩ = .ok frame.front.encodeHeader :=
    Access.slice_eq_ok.mpr ⟨by rw [ClassFront.size_encodeHeader], header⟩
  have second : Access.slice frame.toClass.encode ⟨10, frame.toClass.layout.poolEnd⟩ =
      .ok (WrittenConstant.encode frame.front.constants) := Access.slice_eq_ok.mpr ⟨rfl, entries⟩
  have third : Access.slice frame.toClass.encode ⟨frame.toClass.layout.poolEnd,
      (frame.item.place frame.itemStart).range.start⟩ = .ok frame.opening :=
    Access.slice_eq_ok.mpr ⟨rfl, opening⟩
  have fourth : Access.slice frame.toClass.encode ⟨(frame.item.place frame.itemStart).range.stop,
      frame.toClass.encode.size⟩ = .ok frame.closing :=
    Access.slice_eq_ok.mpr ⟨frame.size_encode, closing⟩
  unfold ClassLayout.splice at done
  split at done
  · cases done
  · rename_i few
    rw [first, ok_bind, second, ok_bind, third, ok_bind, fourth, ok_bind] at done
    cases done
    refine ⟨by omega, ?_⟩
    simp only [ByteArray.append_assoc]

/-- With a written attribute the class is the written form of its new parts. -/
theorem splice_eq_ok {frame : InitializerFrame} {pool : ConstantPool}
    {added : List WrittenConstant} {item : WrittenAttribute} {bytes : ByteArray}
    (appended : ConstantPool.Appended frame.front.pool pool added)
    (same : item.name = frame.item.name)
    (done : frame.toClass.layout.splice frame.toClass.encode pool
      (frame.item.place frame.itemStart).range item.encode = .ok bytes) :
    ∃ few, bytes = (frame.replace added few item same).toClass.encode := by
  obtain ⟨fits, rfl⟩ := splice_eq_append done
  have count : pool.count = (ConstantPool.ofConstants (frame.front.constants ++ added)).count :=
    congrArg Array.size appended.slots
  have tail : pool.appended = WrittenConstant.encode added := by
    rw [appended.2]
    exact ByteArray.empty_append
  rw [count] at fits
  refine ⟨fits, ?_⟩
  have encodePool : (frame.front.grow added fits).encodePool = BigEndian.encodeCount _ ++
      (WrittenConstant.encode frame.front.constants ++ WrittenConstant.encode added) :=
    congrArg _ (WrittenConstant.encode_append _ _)
  rw [encode_toClass, opening_replace, count, tail]
  change _ = frame.front.encodeHeader ++ ((frame.front.grow added _).encodePool ++ _)
  rw [encodePool]
  simp only [ByteArray.append_assoc]
  rfl

end InitializerFrame

/-- This is how a repair goes on once the static initializer is found. -/
def StaticInitializer.repair {data : ByteArray} (initializer : StaticInitializer data)
    (unit : EnumUnit) : Except Failure Repaired := do
  let progress ← Progress.observeAll initializer.layout.pool initializer.code unit
    initializer.instructions
  let substitutions ← progress.machine.finish
  let sites := progress.sites.reverse
  let changed := sites.countP (·.index.isSome)
  if changed = 0 then
    return { bytes := data, substitutions, changed }
  let (code, relocation) ← unit.repairCode initializer.code sites
  let replacement ← initializer.source.encode data initializer.location.name initializer.layout.pool
    code relocation
  let bytes ← initializer.layout.splice data progress.pool initializer.location.range replacement
  return { bytes, substitutions, changed }

namespace EnumUnit

variable {unit : EnumUnit} {data : ByteArray} {repaired : Repaired}

theorem repair_eq (unit : EnumUnit) (initializer : StaticInitializer data) :
    unit.repair data = initializer.repair unit := by
  unfold repair repairInitializer StaticInitializer.repair
  rw [initializer.parsed, ok_bind, initializer.found, ok_bind]
  dsimp only
  rw [initializer.located, ok_bind]
  dsimp only
  rw [initializer.read, ok_bind, initializer.sliced, ok_bind, initializer.decoded, ok_bind]

/-- A class that is repaired has a readable static initializer or none at all. -/
theorem repair_cases (done : unit.repair data = .ok repaired) :
    (∃ layout, ClassLayout.parse data .full = .ok layout ∧
      layout.findMethod initializerName initializerDescriptor = .ok none ∧
      unit.repairBare data = .ok repaired) ∨ Nonempty (StaticInitializer data) := by
  obtain ⟨layout, parsed, done⟩ := bind_eq_ok.mp done
  obtain ⟨found, searched, done⟩ := bind_eq_ok.mp done
  cases found with
  | none => exact .inl ⟨layout, parsed, searched, done⟩
  | some initializer =>
    obtain ⟨location, located, done⟩ := bind_eq_ok.mp done
    cases location with
    | none => cases done
    | some location =>
      obtain ⟨source, read, done⟩ := bind_eq_ok.mp done
      obtain ⟨code, sliced, done⟩ := bind_eq_ok.mp done
      obtain ⟨instructions, decoded, _⟩ := bind_eq_ok.mp done
      exact .inr ⟨⟨layout, initializer.1, initializer.2, location, source, code, instructions, parsed,
        searched, located, read, sliced, decoded⟩⟩

end EnumUnit

/-- Everything that a repair finds and makes between two classes with a static initializer. -/
structure InitializerRepair (unit : EnumUnit) (old new : InitializerForm) (repaired : Repaired) where
  added : List WrittenConstant
  sites : List Site
  found : List Substitution
  last : Construction
  moved : List Instruction
  relocation : Option Relocation
  few : (ConstantPool.ofConstants (old.front.constants ++ added)).count < 65536
  named : new.item.name = old.item.name
  frame : new.toInitializerFrame = old.replace added few new.item named
  body : old.body.Rewritten relocation new.body.code new.body
  decoded : Instruction.decodeAll old.body.code = .ok (sites.map (·.instruction))
  code : Site.Repaired sites old.body.code new.body.code relocation moved
  observed : ∃ pool, Progress.observeAll old.front.pool old.body.code unit
    (sites.map (·.instruction)) = .ok ⟨last, pool, sites.reverse⟩
  run : Progress.Run old.front.pool new.front.pool old.body.code (Construction.start unit) sites
    found last
  finished : last.finish = .ok repaired.substitutions
  changed : repaired.changed = sites.countP (·.index.isSome)
  kept : repaired.changed = 0 → new = old

/-- A repaired class with a static initializer is written around the same parts. -/
theorem StaticInitializer.exists_repair {unit : EnumUnit} {data : ByteArray} {repaired : Repaired}
    (initializer : StaticInitializer data) (small : data.size < 0x80000000)
    (done : initializer.repair unit = .ok repaired) :
    ∃ old new : InitializerForm, data = old.toClass.encode ∧
      repaired.bytes = new.toClass.encode ∧ initializer.layout = old.toClass.layout ∧
      Nonempty (InitializerRepair unit old new repaired) := by
  obtain ⟨old, rfl, layout, location, source, code⟩ := InitializerForm.exists_form initializer
  obtain ⟨⟨last, pool, held⟩, observed, done⟩ := bind_eq_ok.mp done
  obtain ⟨substitutions, finished, done⟩ := bind_eq_ok.mp done
  have decoded := initializer.decoded
  rw [code] at decoded
  rw [layout, code] at observed
  obtain ⟨added, sites, found, appended, _, same, instructions, run⟩ :=
    Progress.observeAll_run observed (.refl _) old.front.fewConstants
  dsimp only at done same
  rw [List.append_nil] at same
  rw [same, List.reverse_reverse, layout, location, source, code] at done
  rw [same, ← instructions] at observed
  rw [← instructions] at decoded
  have tile : Site.Tile old.body.code 0 sites :=
    Site.tile_iff.mpr (Instruction.decodeAll_eq_ok.mp decoded)
  split at done
  · rename_i zero
    cases done
    have unpatched (site : Site) (member : site ∈ sites) : site.index = .none := by
      simpa using List.countP_eq_zero.mp zero site member
    refine ⟨old, old, rfl, rfl, layout, ⟨⟨[], sites, found, last, _, none, ?_, rfl,
      (old.replace_self _).symm, old.body.rewritten_self, decoded,
      Site.repaired_self tile old.body.short unpatched, ⟨pool, observed⟩, run.unpatched unpatched,
      finished, rfl, fun _ => rfl⟩⟩⟩
    rw [List.append_nil]
    exact old.front.fewConstants
  · rename_i patched
    obtain ⟨⟨out, relocation⟩, coded, done⟩ := bind_eq_ok.mp done
    obtain ⟨replacement, encoded, done⟩ := bind_eq_ok.mp done
    obtain ⟨bytes, spliced, same⟩ := bind_eq_ok.mp done
    cases same
    obtain ⟨moved, codeRepaired⟩ := EnumUnit.repairCode_eq_ok tile old.body.short run.isLoad coded
    have filled : 0 < out.size := by
      have quarter := codeRepaired.quarter
      have filled := old.body.filled
      omega
    obtain ⟨body, item, rfl, named, written, rewritten⟩ :=
      CodeAttribute.encode_eq_ok small codeRepaired.bounded filled codeRepaired.short
        old.stands_body encoded
    obtain ⟨few, rfl⟩ := InitializerFrame.splice_eq_ok appended named spliced
    obtain rfl := rewritten.code
    refine ⟨old, ⟨old.replace added few item named, body, written⟩, rfl, rfl, layout, ⟨⟨added, sites,
      found, last, moved, relocation, few, named, rfl, rewritten, decoded, codeRepaired,
      ⟨pool, observed⟩, run.mono ?_, finished, rfl, fun zero => absurd zero patched⟩⟩⟩
    exact ⟨[], (congrArg Array.toList appended.slots.symm).trans (List.append_nil _).symm⟩

end EnumNames
