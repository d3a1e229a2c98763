import EnumNames.Proofs.Run.BackupSurvival

/-!
How a run concludes. Main statement: a run that succeeds has gathered its items from the archive that
the input held before the run, and it has written them to its output.
-/

namespace EnumNames

namespace Backup

variable {tree seen : FileTree} {input path : String} {found : ByteArray}

/-- What is read behind a copy of a file was there before. -/
theorem read_of_copy
    (read : ((Disk.copy input path : StateM FileTree (Except OsError Unit)) tree).2.read input =
      .ok found) : tree.read input = .ok found := by
  cases before : tree.read input with
  | error cause =>
    rw [copy_eq, before] at read
    exact before.symm.trans read
  | ok bytes =>
    obtain ⟨short, location, leads⟩ := FileTree.read_eq_ok.mp before
    rw [← read]
    exact (FileTree.read_eq_ok.mpr ⟨short, location, leadsToFile_of_copy leads short⟩).symm

/-- At every step of a backup, what is read from the input was there before. -/
theorem read_of_visited
    (visits : (make input path : Process FileTree (Except Failure Unit)).Visits tree seen)
    (read : seen.read input = .ok found) : tree.read input = .ok found := by
  rcases visits_make visits with rfl | ⟨_, visits⟩
  · exact read
  · have cleared := cleared_removeStale tree path
    rcases visits_replace visits with rfl | rfl | rfl
    · exact read
    · exact cleared.read read
    · rw [replace_eq] at read
      generalize (removeStale path : StateM FileTree (Except OsError Unit)) tree = removed
        at read cleared
      rcases removed with ⟨cause | _, between⟩
      · exact cleared.read read
      · exact cleared.read (read_of_copy read)

end Backup

namespace Settings

variable {settings : Settings} {tree seen : FileTree} {items : List Processed}

/-- This is what a run comes to when its backup succeeds. -/
def gathered (settings : Settings) (tree : FileTree) : Except Failure (List Processed) :=
  processed (Archive.ofRead settings.input (tree.read settings.input)) (.ok ())

/-- The items are written with the entries and contents that they carry. -/
def parts (items : List Processed) : List (Entry × Content) :=
  items.map fun item => (item.entry, item.content)

theorem conclude_ok (settings : Settings) (items : List Processed) (tree : FileTree) :
    settings.conclude (.ok items) tree =
      match tree.write settings.output (Archive.assemble (parts items)) with
      | .ok next => (.ok (.ofProcessed settings.output items), next)
      | .error cause => (.error (.fileWrite settings.output cause), tree) := by
  let content := Archive.assemble (parts items)
  have saved : settings.conclude (.ok items) tree =
      (ExceptT.bindCont (fun _ => pure (Report.ofProcessed settings.output items))
        ((FileTree.change (·.write settings.output content) tree).1.mapError
          (.fileWrite settings.output)) : StateM FileTree (Except Failure Report))
        (FileTree.change (·.write settings.output content) tree).2 := rfl
  rw [saved, FileTree.change]
  change _ = match tree.write settings.output content with | .ok next => _ | .error cause => _
  cases tree.write settings.output content <;> rfl

/-- A run that fails has written nothing. -/
theorem conclude_error {gathered : Except Failure (List Processed)} {cause : Failure}
    (failed : (settings.conclude gathered tree).1 = .error cause) :
    (settings.conclude gathered tree).2 = tree := by
  cases gathered with
  | error cause => rfl
  | ok items =>
    rw [conclude_ok] at failed ⊢
    cases written : tree.write settings.output (Archive.assemble (parts items)) with
    | error cause => rfl
    | ok next =>
      rw [written] at failed
      cases failed

/-- Whenever the archive is opened, it is the one that the input held before the run. -/
theorem read_of_found {found : ByteArray} (mayFind : settings.jobs.MayFind tree seen)
    (read : seen.read settings.input = .ok found) : tree.read settings.input = .ok found := by
  unfold Jobs.MayFind jobs at mayFind
  cases wanted : settings.backup with
  | none =>
    rw [wanted] at mayFind
    rwa [show seen = tree from mayFind] at read
  | some path =>
    rw [wanted] at mayFind
    rcases Process.visits_bind.mp mayFind with visits | last
    · exact Backup.read_of_visited visits read
    · rw [show seen = _ from last] at read
      exact Backup.read_of_visited (Process.visits_run _ _) read

/-- Items are gathered from the archive that the input held before the run. -/
theorem gathered_of_comes {backup : Except Failure Unit}
    (mayFind : settings.jobs.MayFind tree seen)
    (comes : settings.jobs.Comes (Archive.ofRead settings.input (seen.read settings.input)) backup
      (.ok items)) : backup = .ok () ∧ settings.gathered tree = .ok items := by
  obtain ⟨archive, opened, rfl⟩ := saved_of_comes comes
  obtain ⟨bytes, read⟩ := read_of_ofRead opened
  have gathers := eq_processed_of_comes comes
  rw [read, ← read_of_found mayFind read] at gathers
  exact ⟨rfl, gathers.symm⟩

theorem yields_unique (archive : Archive) : Relator.RightUnique (Yields archive) := by
  rintro entry first second ⟨_, data, read, made⟩ ⟨_, other, readAgain, madeAgain⟩
  obtain rfl := Outcome.finished.inj (read.symm.trans readAgain)
  exact Except.ok.inj (made.symm.trans madeAgain)

/-- A run whose entries all yield an item has no first failure. -/
theorem firstFailure?_of_yields (settings : Settings) {archive : Archive}
    (yields : List.Forall₂ (Yields archive) archive.entries items) :
    settings.jobs.firstFailure? archive (.ok ()) = none := by
  have each : ∀ entry ∈ archive.entries, settings.jobs.readFailure? archive entry = none ∧
      settings.jobs.repairFailure? archive entry = none := by
    refine forall_mem_of_forall₂ yields.flip fun item entry yield => ?_
    obtain ⟨_, data, read, made⟩ := yield
    refine ⟨?_, by rw [repairFailure?_eq settings read, made]; rfl⟩
    rw [Jobs.readFailure?, show settings.jobs.read archive entry = .finished data from read]
    rfl
  rw [firstFailure?_eq, List.findSome?_eq_none_iff.mpr, List.findSome?_eq_none_iff.mpr]
  · rfl
  · exact fun entry member => (each entry (List.mem_of_mem_filter member)).2
  · exact fun entry member => (each entry (mem_readingOrder.mp member)).1

theorem yields_of_processed (settings : Settings) {archive : Archive} {backup : Except Failure Unit}
    (done : processed (.ok archive) backup = .ok items) :
    List.Forall₂ (Yields archive) archive.entries items := by
  have makes : List.Forall₂ (settings.jobs.Makes archive) archive.entries items :=
    makes_of_processed done
  exact makes.imp fun _ _ => yields_of_makes

/-- The items are gathered from the opened archive, each from the bytes of its own entry alone. -/
theorem gathered_eq_ok : settings.gathered tree = .ok items ↔
    ∃ archive, Archive.ofRead settings.input (tree.read settings.input) = .ok archive ∧
      List.Forall₂ (Yields archive) archive.entries items := by
  unfold gathered
  constructor
  · intro gathers
    obtain ⟨archive, opened, _⟩ := bind_eq_ok.mp gathers
    rw [opened] at gathers
    exact ⟨archive, opened, yields_of_processed settings gathers⟩
  · rintro ⟨archive, opened, yields⟩
    have none := failure?_processed settings archive (.ok ())
    rw [firstFailure?_of_yields settings yields] at none
    obtain ⟨others, gathers⟩ := failure?_eq_none.mp none
    have alsoYields := yields_of_processed settings gathers
    rw [opened, gathers, List.right_unique_forall₂' (yields_unique archive) yields alsoYields]

/-- The run has gathered the items and written them. -/
def Writes (settings : Settings) (tree : FileTree) (items : List Processed) (report : Report)
    (after : FileTree) : Prop :=
  settings.gathered tree = .ok items ∧ report = .ofProcessed settings.output items ∧
    after.read settings.output = .ok (Archive.assemble (parts items))

theorem writes_of_conclude {report : Report} (gathers : settings.gathered tree = .ok items)
    (done : (settings.conclude (.ok items) seen).1 = .ok report) :
    settings.Writes tree items report (settings.conclude (.ok items) seen).2 := by
  rw [conclude_ok] at done ⊢
  cases written : seen.write settings.output (Archive.assemble (parts items)) with
  | error cause =>
    rw [written] at done
    cases done
  | ok next =>
    rw [written] at done
    cases done
    exact ⟨gathers, rfl, FileTree.read_of_write written⟩

/-- A run ends under every schedule, and if it succeeds, it has written the items that it has gathered
from its input. -/
theorem inevitable_writes (settings : Settings) (tree : FileTree) :
    Inevitable Situation.Step (fun situation => ∃ result after, situation.Ends result after ∧
      ∀ report, result = .ok report → ∃ items, settings.Writes tree items report after)
      (settings.situation settings.jobs tree) := by
  by_cases staffed : settings.workers = 0
  · refine .reached ⟨_, _, RunPlan.ends_of_unstaffed staffed settings.jobs tree, ?_⟩
    intro report done
    cases done
  · refine (RunPlan.inevitable_ofJobs staffed settings.jobs tree).imp fun situation => ?_
    rintro ⟨seen, gathered, mayFind, comes, ends⟩
    refine ⟨_, _, ends, fun report done => ?_⟩
    cases gathered with
    | error cause => cases done
    | ok items => exact ⟨items, writes_of_conclude (gathered_of_comes mayFind comes).2 done⟩

/-- Nothing on the disk stands in the way of the run. -/
structure Unhindered (settings : Settings) (tree : FileTree) : Prop where
  staffed : settings.workers ≠ 0
  saved : (settings.backUp tree).1 = .ok ()
  undisturbed : (settings.backUp tree).2.read settings.input = tree.read settings.input
  writable : ∀ bytes, ∃ next, (settings.backUp tree).2.write settings.output bytes = .ok next

/-- A file can always be replaced without a backup. -/
theorem unhindered_in_place {path : String} {bytes : ByteArray} {workers : Nat}
    (staffed : workers ≠ 0) (read : tree.read path = .ok bytes) :
    Unhindered ⟨path, path, none, workers⟩ tree where
  staffed := staffed
  saved := rfl
  undisturbed := rfl
  writable := FileTree.write_of_read read

/-- An unhindered run writes the items that it gathers. -/
theorem inevitable_of_unhindered (unhindered : settings.Unhindered tree)
    (gathers : settings.gathered tree = .ok items) :
    Inevitable Situation.Step (fun situation => ∃ after,
      situation.Ends (.ok (.ofProcessed settings.output items)) after ∧
      after.read settings.output = .ok (Archive.assemble (parts items)))
      (settings.situation settings.jobs tree) := by
  refine (inevitable_runOn settings tree unhindered.undisturbed).imp fun situation ends => ?_
  obtain ⟨next, written⟩ := unhindered.writable (Archive.assemble (parts items))
  have done : settings.runOn tree = (.ok (.ofProcessed settings.output items), next) := by
    rw [runOn_eq unhindered.staffed, unhindered.saved]
    change settings.conclude (settings.gathered tree) (settings.backUp tree).2 = _
    rw [gathers, conclude_ok, written]
  rw [done] at ends
  exact ⟨next, ends, FileTree.read_of_write written⟩

end Settings

end EnumNames
