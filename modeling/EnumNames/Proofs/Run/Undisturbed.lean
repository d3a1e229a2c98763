import EnumNames.Proofs.Disk.Removal
import EnumNames.Proofs.Run.SupervisedRun

/-!
When a backup leaves the input as it was. Main statement: this holds for every input that has a
canonical path and every place for the backup that is no directory.
-/

namespace EnumNames

namespace Backup

variable {tree : FileTree} {input path text : String} {bytes : ByteArray} {location : Location}

/-- A copy leaves its source as it was. -/
theorem leadsToFile_of_copy (leads : tree.LeadsToFile input location bytes)
    (short : input.utf8ByteSize < FileTree.pathLimit) :
    ((Disk.copy input path : StateM FileTree (Except OsError Unit)) tree).2.LeadsToFile input location
      bytes := by
  have read : tree.read input = .ok bytes := FileTree.read_eq_ok.mpr ⟨short, location, leads⟩
  rw [copy_eq, read]
  dsimp only
  cases written : tree.write path bytes with
  | error cause =>
    rw [FileTree.change_error written]
    exact leads
  | ok next =>
    rw [FileTree.change_ok written]
    exact leads.copied written

/-- A stale backup that is not the input is removed without the input. -/
theorem leadsToFile_of_removeStale (leads : tree.LeadsToFile input location bytes)
    (noDirectory : tree.kind path ≠ .ok .directory)
    (apart : ∀ old, ¬ tree.LeadsToFile path location old) :
    ((removeStale path : StateM FileTree (Except OsError Unit)) tree).2.LeadsToFile input location
      bytes := by
  rw [removeStale_eq]
  split
  · rename_i present
    obtain ⟨file, old, pathLeads⟩ := FileTree.leadsToFile_of_kind present noDirectory
    have different : location ≠ file := by
      rintro rfl
      exact apart old pathLeads
    cases removed : tree.remove path with
    | error cause =>
      rw [FileTree.change_error removed]
      exact leads
    | ok next =>
      rw [FileTree.change_ok removed]
      exact leads.remove pathLeads different removed
  · exact leads

/-- The backup leaves an input with a canonical path as it was. -/
theorem read_make (read : tree.read input = .ok bytes) (canonical : tree.canonical input = .ok text)
    (noDirectory : tree.kind path ≠ .ok .directory) :
    ((make input path : StateM FileTree (Except Failure Unit)) tree).2.read input = .ok bytes := by
  obtain ⟨short, location, leads⟩ := FileTree.read_eq_ok.mp read
  rw [make_eq]
  split
  · exact read
  · rename_i different
    have apart (old : ByteArray) : ¬ tree.LeadsToFile path location old := by
      intro pathLeads
      rw [isSameFile_eq, FileTree.canonical_of_leadsToFile leads,
        FileTree.canonical_of_leadsToFile pathLeads] at different
      rw [FileTree.canonical_of_leadsToFile leads] at canonical
      rw [canonical] at different
      simp at different
    have cleared := leadsToFile_of_removeStale leads noDirectory apart
    refine FileTree.read_eq_ok.mpr ⟨short, location, ?_⟩
    dsimp only
    rw [replace_eq]
    generalize (removeStale path : StateM FileTree (Except OsError Unit)) tree = removed at cleared ⊢
    rcases removed with ⟨cause | _, between⟩
    · exact cleared
    · exact leadsToFile_of_copy cleared short

end Backup

namespace Settings

/-- A run with a backup leaves an input with a canonical path to be read at any time. -/
theorem read_backUp (settings : Settings) {tree : FileTree} {bytes : ByteArray} {text : String}
    (read : tree.read settings.input = .ok bytes) (canonical : tree.canonical settings.input = .ok text)
    (noDirectory : ∀ path, settings.backup = some path → tree.kind path ≠ .ok .directory) :
    (settings.backUp tree).2.read settings.input = tree.read settings.input := by
  unfold backUp
  rw [read]
  cases wanted : settings.backup with
  | none => exact read
  | some path => exact Backup.read_make read canonical (noDirectory path wanted)

end Settings

end EnumNames
