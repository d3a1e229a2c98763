import EnumNames.Proofs.Disk.Write
import EnumNames.Proofs.Run.AnySchedule

/-!
What becomes of the backup. Main statement: after a run that succeeds the path of the backup leads to
the bytes that the input held before the run, unless it leads to the output itself.
-/

namespace EnumNames

namespace Backup

variable {tree seen : FileTree} {input path : String}

/-- A file that has been copied is found under both paths. -/
theorem leadsToFile_of_replace
    (replaced : ((replace input path : StateM FileTree (Except OsError Unit)) tree).1 = .ok ()) :
    ∃ bytes, tree.read input = .ok bytes ∧ ∃ location,
      ((replace input path : StateM FileTree (Except OsError Unit)) tree).2.LeadsToFile path
        location bytes := by
  have cleared := cleared_removeStale tree path
  rw [replace_eq] at replaced ⊢
  generalize (removeStale path : StateM FileTree (Except OsError Unit)) tree = removed
    at replaced cleared ⊢
  obtain ⟨_ | _, between⟩ := removed
  · cases replaced
  · dsimp only at replaced cleared ⊢
    rw [copy_eq] at replaced ⊢
    cases read : between.read input with
    | error cause =>
      rw [read] at replaced
      cases replaced
    | ok bytes =>
      rw [read] at replaced
      dsimp only at replaced ⊢
      cases written : between.write path bytes with
      | error cause =>
        rw [FileTree.change_error written] at replaced
        cases replaced
      | ok after =>
        obtain ⟨location, leads, _⟩ := FileTree.leadsToFile_of_write written
        rw [FileTree.change_ok written]
        exact ⟨bytes, cleared.read read, location, leads⟩

/-- When the backup is the input itself, it holds the bytes of the input already. -/
theorem leadsToFile_of_isSameFile (grounded : tree.IsGrounded) {bytes : ByteArray}
    (same : ((Disk.isSameFile input path : StateM FileTree Bool) tree).1 = true)
    (read : tree.read input = .ok bytes) : ∃ location, tree.LeadsToFile path location bytes := by
  obtain ⟨_, location, leads⟩ := FileTree.read_eq_ok.mp read
  rw [isSameFile_eq] at same
  dsimp only at same
  split at same
  · rename_i first second inputText pathText
    obtain rfl : first = second := by simpa using same
    exact ⟨location, FileTree.leadsToFile_of_canonical grounded leads inputText pathText⟩
  · cases same

/-- Behind a backup that succeeds the bytes of the input are found under its path. -/
theorem leadsToFile_of_make (grounded : tree.IsGrounded)
    (made : ((make input path : StateM FileTree (Except Failure Unit)) tree).1 = .ok ())
    (visits : (make input path : Process FileTree (Except Failure Unit)).Visits tree seen)
    {found : ByteArray} (read : seen.read input = .ok found) :
    ∃ bytes, tree.read input = .ok bytes ∧ ∃ location,
      ((make input path : StateM FileTree (Except Failure Unit)) tree).2.LeadsToFile path
        location bytes := by
  rw [make_eq] at made ⊢
  cases same : ((Disk.isSameFile input path : StateM FileTree Bool) tree).1 with
  | true =>
    rcases visits_make visits with rfl | ⟨different, _⟩
    · exact ⟨found, read, leadsToFile_of_isSameFile grounded same read⟩
    · cases same.symm.trans different
  | false =>
    rw [same] at made
    refine leadsToFile_of_replace ?_
    change (Except.mapError _ ((replace input path : StateM FileTree (Except OsError Unit)) tree).1) =
      .ok () at made
    cases replaced : ((replace input path : StateM FileTree (Except OsError Unit)) tree).1 with
    | error cause =>
      rw [replaced] at made
      cases made
    | ok _ => rfl

end Backup

namespace Settings

variable {settings : Settings} {tree : FileTree} {path : String}

/-- A run that succeeds has written its output last. -/
theorem write_of_conclude {gathered : Except Failure (List Processed)} {report : Report}
    (done : (settings.conclude gathered tree).1 = .ok report) :
    ∃ content, tree.write settings.output content = .ok (settings.conclude gathered tree).2 := by
  cases gathered with
  | error cause => cases done
  | ok processed =>
    let content := Archive.assemble (processed.map fun item => (item.entry, item.content))
    have saved : settings.conclude (.ok processed) tree =
        (ExceptT.bindCont (fun _ => pure (Report.ofProcessed settings.output processed))
          ((FileTree.change (·.write settings.output content) tree).1.mapError
            (.fileWrite settings.output)) : StateM FileTree (Except Failure Report))
          (FileTree.change (·.write settings.output content) tree).2 := rfl
    refine ⟨content, ?_⟩
    rw [saved] at done ⊢
    cases written : tree.write settings.output content with
    | error cause =>
      rw [FileTree.change_error written] at done
      cases done
    | ok next =>
      rw [FileTree.change_ok written]
      rfl

/-- Only what can be read can be opened. -/
theorem read_of_ofRead {read : Except OsError ByteArray} {archive : Archive}
    (opened : Archive.ofRead settings.input read = .ok archive) : ∃ bytes, read = .ok bytes := by
  cases read with
  | ok bytes => exact ⟨bytes, rfl⟩
  | error cause =>
    unfold Archive.ofRead at opened
    split at opened
    · rename_i same
      cases same
    · cases opened
    · cases opened

/-- Items are only gathered when the archive is opened and the backup is made. -/
theorem saved_of_comes {jobs : Jobs} {opened : Except Failure Archive}
    {backup : Except Failure Unit} {items : List Processed}
    (comes : jobs.Comes opened backup (.ok items)) :
    ∃ archive, opened = .ok archive ∧ backup = .ok () := by
  cases opened with
  | error cause => cases comes
  | ok archive =>
    unfold Jobs.Comes at comes
    dsimp only at comes
    split at comes
    · cases comes
    · rename_i passes
      cases backup with
      | ok _ => exact ⟨archive, rfl, rfl⟩
      | error cause => simp [Jobs.firstFailure?, failure?] at passes

/-- The paths lead to one file. -/
def LeadToSame (tree : FileTree) (first second : String) : Prop :=
  ∃ location bytes, tree.LeadsToFile first location bytes ∧ tree.LeadsToFile second location bytes

/-- The backup outlives the run. -/
theorem survives_of_gathered (grounded : tree.IsGrounded) (wanted : settings.backup = some path)
    {seen : FileTree} {gathered : Except Failure (List Processed)} {report : Report}
    (found : settings.jobs.MayFind tree seen)
    (comes : settings.jobs.Comes (Archive.ofRead settings.input (seen.read settings.input))
      (settings.backUp tree).1 gathered)
    (done : (settings.conclude gathered (settings.backUp tree).2).1 = .ok report) :
    ∃ bytes, tree.read settings.input = .ok bytes ∧
      ((∃ location, (settings.conclude gathered (settings.backUp tree).2).2.LeadsToFile path
        location bytes) ∨
      LeadToSame (settings.conclude gathered (settings.backUp tree).2).2 path settings.output) := by
  obtain ⟨content, written⟩ := write_of_conclude done
  have gatheredOk : ∃ items, gathered = .ok items := by
    cases gathered with
    | error cause => cases done
    | ok items => exact ⟨items, rfl⟩
  obtain ⟨items, rfl⟩ := gatheredOk
  obtain ⟨archive, opened, saved⟩ := saved_of_comes comes
  obtain ⟨bytes, read⟩ := read_of_ofRead opened
  have made : ∃ bytes, tree.read settings.input = .ok bytes ∧
      ∃ location, (settings.backUp tree).2.LeadsToFile path location bytes := by
    unfold Jobs.MayFind jobs at found
    unfold backUp at saved ⊢
    rw [wanted] at found saved ⊢
    refine Backup.leadsToFile_of_make grounded saved ?_ read
    rcases Process.visits_bind.mp found with visits | last
    · exact visits
    · rw [show seen = _ from last]
      exact Process.visits_run _ _
  obtain ⟨original, before, location, leads⟩ := made
  refine ⟨original, before, (leads.write written).imp (fun still => ⟨location, still⟩) ?_⟩
  exact fun both => ⟨location, content, both⟩

/-- After a run that succeeds under whichever schedule, the path of the backup leads to the bytes
that the input held before the run, or else to the output. -/
theorem backup_survives {settings : Settings} {tree : FileTree} {path : String}
    (grounded : tree.IsGrounded) (wanted : settings.backup = some path) :
    Inevitable Situation.Step (fun situation => ∃ result after, situation.Ends result after ∧
      ∀ report, result = .ok report → ∃ bytes, tree.read settings.input = .ok bytes ∧
        ((∃ location, after.LeadsToFile path location bytes) ∨ LeadToSame after path settings.output))
      (settings.situation settings.jobs tree) := by
  by_cases staffed : settings.workers = 0
  · refine .reached ⟨_, _, RunPlan.ends_of_unstaffed staffed settings.jobs tree, ?_⟩
    intro report done
    cases done
  · refine (RunPlan.inevitable_ofJobs staffed settings.jobs tree).imp fun situation => ?_
    rintro ⟨seen, gathered, found, comes, ends⟩
    rw [backedUp_jobs] at comes ends
    exact ⟨_, _, ends, fun report done => survives_of_gathered grounded wanted found comes done⟩

/-- In an empty directory every path starts at the root. -/
theorem isGrounded_of_root (nodes : List (Location × Node)) : (⟨nodes, []⟩ : FileTree).IsGrounded where
  names := by simp
  directories above suffix := by
    rw [List.suffix_nil.mp suffix]
    rfl

theorem backup_survives_example :
    let settings : Settings := ⟨"in", "in", some "b", 2⟩
    let tree : FileTree := ⟨[(["in"], .file emptyArchive), (["b"], .link "old")], []⟩
    tree.IsGrounded ∧ settings.backup = some "b" ∧
    Inevitable Situation.Step (fun situation => ∃ result after, situation.Ends result after ∧
      ∀ report, result = .ok report → ∃ bytes, tree.read settings.input = .ok bytes ∧
        ((∃ location, after.LeadsToFile "b" location bytes) ∨ LeadToSame after "b" settings.output))
      (settings.situation settings.jobs tree) := by
  intro settings tree
  have grounded : tree.IsGrounded := isGrounded_of_root _
  have wanted : settings.backup = some "b" := rfl
  exact ⟨grounded, wanted, backup_survives grounded wanted⟩

/-- This archive without entries has a comment, which is not written again. -/
def commentedArchive : ByteArray :=
  ⟨#[0x50, 0x4B, 5, 6, 0, 0, 0, 0, 0, 0, 0, 0, 0, 0, 0, 0, 0, 0, 0, 0, 1, 0, 0x21]⟩

def linkedTree : FileTree := ⟨[(["in"], .file commentedArchive), (["l"], .link "in")], []⟩

/-- The input is replaced, and its backup is the input under another name. -/
def inPlace : Settings := ⟨"in", "in", some "l", 2⟩

theorem runOn_inPlace : (inPlace.runOn linkedTree).1 = .ok ⟨0, 0, 0, 0, 0, "in"⟩ := by cbv

theorem size_inPlace :
    ((inPlace.runOn linkedTree).2.read "l").toOption.map ByteArray.size = some 22 := by cbv

/-- The configuration replaces its input and takes a link to the input for its backup. It is accepted,
and the run succeeds under every schedule, but behind it the bytes of the input are lost. -/
theorem backup_lost_in_place :
    let configuration : Configuration := ⟨"in", none, some "l", 2⟩
    (configuration.validate : ExceptT Failure (StateM FileTree) Settings).run linkedTree =
      (.ok inPlace, linkedTree) ∧
    linkedTree.read "in" = .ok commentedArchive ∧
    Inevitable Situation.Step (fun situation => ∃ after bytes,
      situation.Ends (.ok ⟨0, 0, 0, 0, 0, "in"⟩) after ∧ after.read "l" = .ok bytes ∧
      bytes ≠ commentedArchive) (inPlace.situation inPlace.jobs linkedTree) := by
  intro configuration
  have undisturbed : (inPlace.backUp linkedTree).2.read inPlace.input =
      linkedTree.read inPlace.input := by cbv
  refine ⟨by cbv, by cbv, (inevitable_runOn inPlace linkedTree undisturbed).imp fun situation ends => ?_⟩
  rw [runOn_inPlace] at ends
  obtain ⟨bytes, read, size⟩ := Option.map_eq_some_iff.mp size_inPlace
  refine ⟨_, bytes, ends, ?_, ?_⟩
  · generalize (inPlace.runOn linkedTree).2.read "l" = found at read
    cases found with
    | ok other =>
      cases read
      rfl
    | error cause => cases read
  · rintro rfl
    cases size

end Settings

end EnumNames
