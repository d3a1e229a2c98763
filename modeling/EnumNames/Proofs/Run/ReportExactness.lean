import EnumNames.Proofs.EnumUnit.ChangedBytes
import EnumNames.Proofs.Run.Passthrough

/-!
What the report of a run says. The counts are made while the entries are processed, before anything is
written. Main statement: the report counts the classes, the enums and the differing literals of the
input, and the classes that have other contents in the output.
-/

namespace EnumNames

/-- A class is no directory, since it is known by the end of its name alone. -/
theorem Entry.noDirectory_of_endsWith {name : String} (isClass : name.endsWith ".class" = true) :
    namesDirectory name = false := by
  have suffix : ".class".toList <:+ name.toList := by
    rw [← String.endsWith_toSlice, String.Slice.endsWith_string_iff] at isClass
    simpa using isClass
  obtain ⟨front, split⟩ := suffix
  have last : (front ++ ".class".toList).getLast? = some 's' := by
    rw [List.getLast?_append]
    rfl
  rw [namesDirectory, String.endsWith_char_eq_getLast?, String.endsWith_char_eq_getLast?, ← split, last]
  rfl

theorem Archive.isUnit_of_mem {archive : Archive} {entry : Entry} (inside : entry ∈ archive.entries) :
    entry.isUnit = entry.name.endsWith ".class" := by
  unfold Entry.isUnit
  rw [isDirectory_of_mem inside]
  cases isClass : entry.name.endsWith ".class" with
  | false => rw [Bool.and_false]
  | true => rw [Entry.noDirectory_of_endsWith isClass, Bool.not_false, Bool.true_and]

namespace Archive

/-- The bytes of an entry that is named like a class, and the enum that they are classified as. -/
def enumOf? (archive : Archive) (entry : Entry) : Option (ByteArray × EnumUnit) :=
  if entry.name.endsWith ".class" then
    match archive.read entry.index with
    | .finished data =>
      match EnumUnit.classify data with
      | .ok (some unit) => some (data, unit)
      | _ => none
    | _ => none
  else
    none

def enums (archive : Archive) : List (ByteArray × EnumUnit) :=
  archive.entries.filterMap archive.enumOf?

/-- The entry of the input is named like a class, and the one of the output has another content. -/
def isRewritten (archive written : Archive) (entry found : Entry) : Bool :=
  entry.name.endsWith ".class" && decide (written.read found.index ≠ archive.read entry.index)

end Archive

theorem Processed.isRenamed_eq (item : Processed) : item.isRenamed = decide (item.changed ≠ 0) := by
  unfold isRenamed changed
  cases item.constants with
  | none => rfl
  | some numbers => exact Bool.eq_iff_iff.mpr (bne_iff_ne.trans decide_eq_true_iff.symm)

namespace Report

/-- The report counts what there is in the archive. A literal counts when it is not the name of the
field that its constant is stored into. -/
structure Counts (report : Report) (archive : Archive) : Prop where
  entries : report.entries = archive.entries.length
  classes : report.classes = archive.entries.countP (·.name.endsWith ".class")
  classified : ∀ entry ∈ archive.entries, entry.name.endsWith ".class" = true → ∃ data found,
    archive.read entry.index = .finished data ∧ EnumUnit.classify data = .ok found
  enums : report.enums = archive.enums.length
  substitutions : ∃ counts : List Nat, report.substitutions = counts.sum ∧
    List.Forall₂ (fun item count => ∃ sites : item.2.Sites item.1, count = sites.differing)
      archive.enums counts

/-- The report counts the classes with other contents in the output. These are the enums of which a
repair counts some literals as changed. -/
structure CountsRewritten (report : Report) (archive written : Archive) : Prop where
  names : List.Forall₂ (fun entry found => found.name = entry.name) archive.entries written.entries
  renamed : report.renamed =
    (archive.entries.zip written.entries).countP fun pair => archive.isRewritten written pair.1 pair.2
  changed : ∀ pair ∈ archive.entries.zip written.entries, ∀ data unit,
    archive.enumOf? pair.1 = some (data, unit) → ∃ repaired, unit.repair data = .ok repaired ∧
      (0 < repaired.changed ↔ written.read pair.2.index ≠ archive.read pair.1.index)

end Report

namespace Settings

variable {archive written : Archive} {entry found : Entry} {item : Processed} {items : List Processed}

/-- An entry is either an enum and counts as repaired, or it is kept and counts as nothing. -/
theorem Yields.kept_or_repaired (inside : entry ∈ archive.entries) (yields : Yields archive entry item) :
    ∃ data, archive.read entry.index = .finished data ∧
      ((archive.enumOf? entry = none ∧ item = .ofKept entry data) ∨
        ∃ unit repaired, archive.enumOf? entry = some (data, unit) ∧
          EnumUnit.classify data = .ok (some unit) ∧ unit.repair data = .ok repaired ∧
          item = .ofRepaired entry data repaired) := by
  obtain ⟨_, data, read, made⟩ := yields
  refine ⟨data, read, ?_⟩
  rw [Processed.ofEntry_eq_ok, Archive.isUnit_of_mem inside] at made
  unfold Archive.enumOf?
  rw [read]
  obtain ⟨other, rfl⟩ | ⟨isClass, classified, rfl⟩ | ⟨isClass, unit, repaired, classified, done, rfl⟩ :=
    made
  · exact .inl ⟨by simp [other], rfl⟩
  · exact .inl ⟨by simp [classified], rfl⟩
  · exact .inr ⟨unit, repaired, by simp [isClass, classified], classified, done, rfl⟩

theorem Yields.classified (inside : entry ∈ archive.entries) (yields : Yields archive entry item)
    (isClass : entry.name.endsWith ".class" = true) : ∃ data found,
      archive.read entry.index = .finished data ∧ EnumUnit.classify data = .ok found := by
  obtain ⟨_, data, read, made⟩ := yields
  rw [Processed.ofEntry_eq_ok, Archive.isUnit_of_mem inside] at made
  obtain ⟨other, _⟩ | ⟨_, classified, _⟩ | ⟨_, unit, _, classified, _⟩ := made
  · cases isClass.symm.trans other
  · exact ⟨data, none, read, classified⟩
  · exact ⟨data, some unit, read, classified⟩

theorem Yields.isSome (inside : entry ∈ archive.entries) (yields : Yields archive entry item) :
    item.constants.isSome = (archive.enumOf? entry).isSome := by
  obtain ⟨data, _, ⟨none, rfl⟩ | ⟨unit, repaired, some, _, _, rfl⟩⟩ := yields.kept_or_repaired inside
  · rw [none]
    rfl
  · rw [some]
    rfl

/-- The literals of an enum that differ are the changes of its item. -/
theorem Yields.changed_of_some {enum : ByteArray × EnumUnit} (inside : entry ∈ archive.entries)
    (yields : Yields archive entry item) (some : archive.enumOf? entry = some enum) :
    ∃ repaired, enum.2.repair enum.1 = .ok repaired ∧ item.changed = repaired.changed ∧
      ∃ sites : enum.2.Sites enum.1, item.changed = sites.differing := by
  obtain ⟨data, _, ⟨none, _⟩ | ⟨unit, repaired, found, classified, done, rfl⟩⟩ :=
    yields.kept_or_repaired inside
  · cases none.symm.trans some
  · cases found.symm.trans some
    obtain ⟨sites, counted⟩ := EnumUnit.exists_sites classified done
    exact ⟨repaired, done, rfl, sites, counted⟩

theorem Yields.changed_of_none (inside : entry ∈ archive.entries) (yields : Yields archive entry item)
    (none : archive.enumOf? entry = none) : item.changed = 0 := by
  obtain ⟨data, _, ⟨_, rfl⟩ | ⟨unit, repaired, some, _⟩⟩ := yields.kept_or_repaired inside
  · rfl
  · cases none.symm.trans some

/-- An item counts as changed when its bytes change. -/
theorem Yields.bytes_eq_iff (inside : entry ∈ archive.entries) (yields : Yields archive entry item)
    {data : ByteArray} (read : archive.read entry.index = .finished data) :
    item.content.bytes = data ↔ item.changed = 0 := by
  obtain ⟨_, alsoRead, made⟩ := yields.kept_or_repaired inside
  obtain rfl := Outcome.finished.inj (read.symm.trans alsoRead)
  obtain ⟨_, rfl⟩ | ⟨unit, repaired, _, _, done, rfl⟩ := made
  · exact ⟨fun _ => rfl, fun _ => rfl⟩
  · by_cases unchanged : repaired.changed = 0
    · rw [Processed.ofRepaired_of_unchanged unchanged]
      exact ⟨fun _ => rfl, fun _ => rfl⟩
    · rw [Processed.ofRepaired_of_changed unchanged]
      exact EnumUnit.bytes_eq_iff done

/-- Where a class is written, other contents are found when its item counts as changed. -/
theorem Yields.read_ne_iff (inside : entry ∈ archive.entries) (yields : Yields archive entry item)
    (restored : written.Restores (entry, item.content) found)
    (isClass : entry.name.endsWith ".class" = true) :
    written.read found.index ≠ archive.read entry.index ↔ item.changed ≠ 0 := by
  obtain ⟨data, read, _⟩ := yields.kept_or_repaired inside
  have noDirectory : entry.isDirectory = false := by
    rw [Archive.isDirectory_of_mem inside, Entry.noDirectory_of_endsWith isClass]
  have same := yields.bytes_eq_iff inside read
  rw [read, restored.content, Entry.writtenBytes_eq noDirectory, ne_eq, Outcome.finished.injEq]
  exact not_congr same

/-- An item counts as renamed when it is a class that is found with other contents. -/
theorem Yields.isRenamed (inside : entry ∈ archive.entries) (yields : Yields archive entry item)
    (restored : written.Restores (entry, item.content) found) :
    item.isRenamed = archive.isRewritten written entry found := by
  rw [Processed.isRenamed_eq, Archive.isRewritten]
  cases isClass : entry.name.endsWith ".class" with
  | true =>
    rw [Bool.true_and, decide_eq_decide]
    exact (yields.read_ne_iff inside restored isClass).symm
  | false =>
    have none : archive.enumOf? entry = none := if_neg (Bool.eq_false_iff.mp isClass)
    rw [yields.changed_of_none inside none]
    rfl

/-- The differing literals of all enums add up to the changes of all items. -/
theorem exists_counts {entries : List Entry} (yields : List.Forall₂ (Yields archive) entries items)
    (inside : ∀ entry ∈ entries, entry ∈ archive.entries) :
    ∃ counts : List Nat, (items.map Processed.changed).sum = counts.sum ∧
      List.Forall₂ (fun enum count => ∃ sites : enum.2.Sites enum.1, count = sites.differing)
        (entries.filterMap archive.enumOf?) counts := by
  induction yields with
  | nil => exact ⟨[], rfl, .nil⟩
  | @cons entry item entries items head tail inductionHypothesis =>
    obtain ⟨first, others⟩ := List.forall_mem_cons.mp inside
    obtain ⟨counts, sum, all⟩ := inductionHypothesis others
    rw [List.map_cons, List.sum_cons, sum]
    cases found : archive.enumOf? entry with
    | none =>
      rw [List.filterMap_cons_none found, head.changed_of_none first found, Nat.zero_add]
      exact ⟨counts, rfl, all⟩
    | some enum =>
      obtain ⟨_, _, _, sites⟩ := head.changed_of_some first found
      rw [List.filterMap_cons_some found]
      exact ⟨item.changed :: counts, rfl, .cons sites all⟩

theorem counts_of_yields (yields : List.Forall₂ (Yields archive) archive.entries items)
    (output : String) : (Report.ofProcessed output items).Counts archive where
  entries := yields.length_eq.symm
  classes := by
    refine countP_eq_of_forall₂ ((forall₂_mem yields).imp ?_)
    rintro entry item ⟨inside, _, rfl, _⟩
    exact Archive.isUnit_of_mem inside
  classified := by
    refine forall_mem_of_forall₂ (forall₂_mem yields).flip ?_
    rintro item entry ⟨inside, _, yields⟩ isClass
    exact yields.classified inside isClass
  enums := by
    rw [Archive.enums, List.length_filterMap_eq_countP]
    refine countP_eq_of_forall₂ ((forall₂_mem yields).imp ?_)
    rintro entry item ⟨inside, _, yields⟩
    exact yields.isSome inside
  substitutions := by
    rw [Report.substitutions_ofProcessed]
    exact exists_counts yields fun _ inside => inside

/-- Each item stands between an entry of the input and the entry of the output that restores it. -/
theorem forall₂_zip_of_yields (yields : List.Forall₂ (Yields archive) archive.entries items)
    (restored : List.Forall₂ written.Restores (parts items) written.entries) :
    List.Forall₂ (fun pair item => pair.1 ∈ archive.entries ∧ Yields archive pair.1 item ∧
      written.Restores (pair.1, item.content) pair.2) (archive.entries.zip written.entries) items := by
  refine (forall₂_zip_through (forall₂_mem yields) (List.forall₂_map_left_iff.mp restored)).imp ?_
  rintro ⟨entry, found⟩ item ⟨⟨inside, _, yields⟩, restored⟩
  exact ⟨inside, yields, yields.1 ▸ restored⟩

theorem countsRewritten_of_yields (yields : List.Forall₂ (Yields archive) archive.entries items)
    (restored : List.Forall₂ written.Restores (parts items) written.entries) (output : String) :
    (Report.ofProcessed output items).CountsRewritten archive written := by
  have through := forall₂_zip_of_yields yields restored
  refine ⟨?_, ?_, ?_⟩
  · refine forall₂_through (forall₂_mem yields) (List.forall₂_map_left_iff.mp restored) ?_
    rintro entry item found ⟨inside, _, rfl, _⟩ restored
    exact restored.name.trans (Entry.writtenName_eq (Archive.isDirectory_of_mem inside))
  · refine countP_eq_of_forall₂ (through.imp ?_)
    rintro ⟨entry, found⟩ item ⟨inside, yields, restored⟩
    exact yields.isRenamed inside restored
  · refine forall_mem_of_forall₂ through.flip ?_
    rintro item ⟨entry, found⟩ ⟨inside, yields, restored⟩ data unit some
    obtain ⟨repaired, done, changed, _⟩ := yields.changed_of_some inside some
    have isClass : entry.name.endsWith ".class" = true := by
      by_contra other
      rw [Archive.enumOf?, if_neg other] at some
      cases some
    refine ⟨repaired, done, ?_⟩
    rw [← changed, yields.read_ne_iff inside restored isClass]
    exact Nat.pos_iff_ne_zero

end Settings

end EnumNames
