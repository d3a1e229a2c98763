import EnumNames.Proofs.Archive.ReadBack
import EnumNames.Proofs.EnumUnit.MatchingLiterals
import EnumNames.Run.Execution

/-!
What becomes of the bytes of one entry. Main statements: only an enum class with a literal that does
not match gets other bytes, and what has been made of an entry is left alone the next time.
-/

namespace EnumNames

/-- An entry with this name and these bytes gets such bytes in the output. -/
inductive Entry.Becomes (name : String) (data : ByteArray) : ByteArray → Prop
  | noClass (other : name.endsWith ".class" = false) : Becomes name data data
  | noEnum (classified : EnumUnit.classify data = .ok none) : Becomes name data data
  | matching {unit : EnumUnit} (classified : EnumUnit.classify data = .ok (some unit))
      (matching : unit.LiteralsMatch data) : Becomes name data data
  | repaired {unit : EnumUnit} {repaired : Repaired} (isClass : name.endsWith ".class" = true)
      (classified : EnumUnit.classify data = .ok (some unit)) (differs : ¬ unit.LiteralsMatch data)
      (done : unit.repair data = .ok repaired) : Becomes name data repaired.bytes

namespace Processed

variable {entry found : Entry} {data : ByteArray} {item : Processed}

theorem ofEntry_eq_ok : ofEntry entry data = .ok item ↔
    (entry.isUnit = false ∧ item = ofKept entry data) ∨
    (entry.isUnit = true ∧ EnumUnit.classify data = .ok none ∧ item = ofKept entry data) ∨
    (entry.isUnit = true ∧ ∃ unit repaired, EnumUnit.classify data = .ok (some unit) ∧
      unit.repair data = .ok repaired ∧ item = ofRepaired entry data repaired) := by
  unfold ofEntry
  cases isUnit : entry.isUnit with
  | false => simp [eq_comm]
  | true =>
    cases classified : EnumUnit.classify data with
    | error cause => simp [ofClass, classified, bind, Except.bind, Except.mapError]
    | ok found =>
      cases found with
      | none => simp [ofClass, classified, Except.mapError, eq_comm]
      | some unit =>
        cases done : unit.repair data with
        | error cause => simp [ofClass, classified, done, bind, Except.bind, Except.mapError]
        | ok repaired => simp [ofClass, classified, done, Except.mapError, eq_comm]

theorem ofRepaired_of_unchanged {repaired : Repaired} (none : repaired.changed = 0) :
    ofRepaired entry data repaired = ⟨entry, .kept data, some (repaired.substitutions, 0)⟩ := by
  simp [ofRepaired, none]

theorem ofRepaired_of_changed {repaired : Repaired} (some : repaired.changed ≠ 0) :
    ofRepaired entry data repaired = ⟨entry, .repaired repaired.bytes repaired.size,
      .some (repaired.substitutions, repaired.changed)⟩ := by
  simp [ofRepaired, some]

/-- Bytes change only by the repair of an enum class with a literal that does not match. -/
theorem becomes_of_ofEntry (made : ofEntry entry data = .ok item)
    (noDirectory : entry.isDirectory = false) :
    Entry.Becomes entry.name data item.content.bytes := by
  have unit : entry.isUnit = entry.name.endsWith ".class" := by simp [Entry.isUnit, noDirectory]
  rw [ofEntry_eq_ok, unit] at made
  obtain ⟨other, rfl⟩ | ⟨_, classified, rfl⟩ | ⟨isClass, unit, repaired, classified, done, rfl⟩ :=
    made
  · exact .noClass other
  · exact .noEnum classified
  · have unchanged := EnumUnit.changed_eq_zero_iff done
    by_cases none : repaired.changed = 0
    · rw [ofRepaired_of_unchanged none]
      exact .matching classified (unchanged.mp none)
    · rw [ofRepaired_of_changed none]
      exact .repaired isClass classified (mt unchanged.mpr none) done

/-- Without a change an entry keeps its bytes. -/
theorem bytes_of_unchanged (made : ofEntry entry data = .ok item) (none : item.changed = 0) :
    item.content.bytes = data := by
  obtain ⟨_, rfl⟩ | ⟨_, _, rfl⟩ | ⟨_, unit, repaired, _, _, rfl⟩ := ofEntry_eq_ok.mp made
  · rfl
  · rfl
  · rw [ofRepaired_of_unchanged none]
    rfl

/-- The item that the next run makes of an entry that has been found where this item was written. -/
def again (item : Processed) (found : Entry) : Processed where
  entry := found
  content := .kept (item.entry.writtenBytes item.content)
  constants := item.constants.map fun numbers => (numbers.1, 0)

/-- What has been made of an entry is left alone, and it counts as before. -/
theorem ofEntry_again (small : entry.isUnit = true → data.size < 0x80000000)
    (made : ofEntry entry data = .ok item) (same : found.isUnit = entry.isUnit) :
    ofEntry found (item.entry.writtenBytes item.content) = .ok (item.again found) := by
  rw [ofEntry_eq_ok, same]
  obtain ⟨other, rfl⟩ | ⟨isUnit, classified, rfl⟩ | ⟨isUnit, unit, repaired, classified, done, rfl⟩ :=
    ofEntry_eq_ok.mp made
  · exact .inl ⟨other, rfl⟩
  · have noDirectory := Entry.noDirectory_of_isUnit isUnit
    rw [again]
    simp only [ofKept, Entry.writtenBytes_eq noDirectory]
    exact .inr (.inl ⟨isUnit, classified, rfl⟩)
  · have noDirectory := Entry.noDirectory_of_isUnit isUnit
    obtain ⟨again, kept⟩ := EnumUnit.repair_repaired (small isUnit) done
    refine .inr (.inr ⟨isUnit, unit, ?_⟩)
    by_cases unchanged : repaired.changed = 0
    · rw [ofRepaired_of_unchanged unchanged]
      simp only [Processed.again, Entry.writtenBytes_eq noDirectory]
      exact ⟨repaired, classified, done, (ofRepaired_of_unchanged unchanged).symm⟩
    · rw [ofRepaired_of_changed unchanged]
      simp only [Processed.again, Entry.writtenBytes_eq noDirectory]
      exact ⟨_, kept classified, again, rfl⟩

end Processed

/-- The changes of a run add up. -/
theorem Report.substitutions_ofProcessed (output : String) (items : List Processed) :
    (Report.ofProcessed output items).substitutions = (items.map Processed.changed).sum := by
  simp [ofProcessed, List.sum_eq_foldl, List.foldl_map]

end EnumNames
