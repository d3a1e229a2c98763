import EnumNames.Proofs.Disk.Walk
import EnumNames.Proofs.Schedule.Forecast
import EnumNames.Run.Backup

/-!
The backup as a job of several steps. Main statements: alone with the disk it does what the backup
does in one go, and while it is made the input is found as it was, unless the backup destroys it.
-/

namespace EnumNames

namespace Process

variable {α β : Type}

/-- Alone with the disk the process does what the operation does at once. -/
def Performs (process : Process FileTree α) (operation : StateM FileTree α) : Prop :=
  ∀ tree, process.run tree = operation tree

theorem performs_pure (value : α) : (pure value : Process FileTree α).Performs (pure value) :=
  fun _ => rfl

theorem Performs.bind {first : Process FileTree α} {second : α → Process FileTree β}
    {start : StateM FileTree α} {next : α → StateM FileTree β} (performs : first.Performs start)
    (each : ∀ value, (second value).Performs (next value)) :
    (first >>= second).Performs (start >>= next) := by
  intro tree
  rw [run_bind, performs tree]
  exact each _ _

theorem performs_isSameFile (first second : String) :
    (Disk.isSameFile first second : Process FileTree Bool).Performs (Disk.isSameFile first second) := by
  refine .bind (fun _ => rfl) fun one => .bind (fun _ => rfl) fun two => ?_
  cases one <;> cases two <;> exact performs_pure _

theorem performs_removeStale (path : String) :
    (Backup.removeStale path : Process FileTree (Except OsError Unit)).Performs
      (Backup.removeStale path) := by
  refine .bind (.bind (fun _ => rfl) fun found => performs_pure _) fun isPresent => ?_
  cases isPresent with
  | true => exact fun _ => rfl
  | false => exact performs_pure _

theorem performs_copy (source target : String) :
    (Disk.copy source target : Process FileTree (Except OsError Unit)).Performs
      (Disk.copy source target) := by
  refine .bind (fun _ => rfl) fun found => ?_
  cases found with
  | ok bytes => exact fun _ => rfl
  | error cause => exact performs_pure _

theorem performs_replace (input path : String) :
    (Backup.replace input path : Process FileTree (Except OsError Unit)).Performs
      (Backup.replace input path) := by
  refine .bind (performs_removeStale path) fun removed => ?_
  cases removed with
  | ok _ => exact performs_copy input path
  | error cause => exact performs_pure _

theorem performs_make (input path : String) :
    (Backup.make input path : Process FileTree (Except Failure Unit)).Performs
      (Backup.make input path) := by
  refine .bind (performs_isSameFile input path) fun isSame => ?_
  cases isSame with
  | true => exact performs_pure _
  | false => exact .bind (performs_replace input path) fun copied => performs_pure _

/-- The process only looks at the disk. -/
def Looks (process : Process FileTree α) : Prop :=
  ∀ tree seen, process.Visits tree seen → seen = tree

theorem looks_pure (value : α) : (pure value : Process FileTree α).Looks :=
  fun _ _ visits => visits

theorem Looks.bind {first : Process FileTree α} {second : α → Process FileTree β}
    (looks : first.Looks) (each : ∀ value, (second value).Looks) : (first >>= second).Looks := by
  intro tree seen visits
  rcases visits_bind.mp visits with visits | visits
  · exact looks tree seen visits
  · rw [looks tree _ (visits_run first tree)] at visits
    exact each _ tree seen visits

theorem looks_ofOperation {operation : StateM FileTree α} (still : ∀ tree, (operation tree).2 = tree) :
    (ofOperation operation).Looks := by
  rintro tree seen (rfl | visits)
  · rfl
  · exact visits.trans (still tree)

theorem looks_isSameFile (first second : String) :
    (Disk.isSameFile first second : Process FileTree Bool).Looks := by
  refine (looks_ofOperation fun _ => rfl).bind fun one =>
    (looks_ofOperation fun _ => rfl).bind fun two => ?_
  cases one <;> cases two <;> exact looks_pure _

theorem looks_isPresent (path : String) : (Disk.isPresent path : Process FileTree Bool).Looks :=
  (looks_ofOperation fun _ => rfl).bind fun _ => looks_pure _

/-- What is visited behind a process that only looks. -/
theorem Looks.visits_bind {first : Process FileTree α} {second : α → Process FileTree β}
    {tree seen : FileTree} (looks : first.Looks) (visits : (first >>= second).Visits tree seen) :
    seen = tree ∨ (second (first.run tree).1).Visits tree seen := by
  rcases Process.visits_bind.mp visits with visits | visits
  · exact .inl (looks tree seen visits)
  · rw [looks tree _ (visits_run first tree)] at visits
    exact .inr visits

end Process

namespace FileTree

/-- The disk with at most one thing less. -/
inductive Cleared (tree : FileTree) : FileTree → Prop
  | nothing : tree.Cleared tree
  | erased (location : Location) : tree.Cleared (tree.erase location)

theorem Cleared.read {tree cleared : FileTree} (isCleared : tree.Cleared cleared) {path : String}
    {bytes : ByteArray} (read : cleared.read path = .ok bytes) : tree.read path = .ok bytes := by
  cases isCleared with
  | nothing => exact read
  | erased location => exact read_of_erase read

theorem cleared_remove (tree : FileTree) (path : String) :
    tree.Cleared (change (·.remove path) tree).2 := by
  cases removed : tree.remove path with
  | error cause =>
    rw [change_error removed]
    exact .nothing
  | ok next =>
    obtain ⟨place, _, _, _, rfl⟩ := place_of_remove removed
    rw [change_ok removed]
    exact .erased place.location

end FileTree

namespace Backup

variable {tree seen : FileTree} {input path : String}

theorem removeStale_eq (tree : FileTree) (path : String) :
    (removeStale path : StateM FileTree (Except OsError Unit)) tree =
      if (tree.kind path).isOk then FileTree.change (·.remove path) tree else (.ok (), tree) := by
  have found : (Disk.isPresent path : StateM FileTree Bool) tree = ((tree.kind path).isOk, tree) := rfl
  rw [removeStale, FileTree.bind_apply, found]
  cases (tree.kind path).isOk <;> rfl

theorem cleared_removeStale (tree : FileTree) (path : String) :
    tree.Cleared ((removeStale path : StateM FileTree (Except OsError Unit)) tree).2 := by
  rw [removeStale_eq]
  split
  · exact FileTree.cleared_remove tree path
  · exact .nothing

theorem visits_removeStale
    (visits : (removeStale path : Process FileTree (Except OsError Unit)).Visits tree seen) :
    seen = tree ∨ seen = ((removeStale path : StateM FileTree (Except OsError Unit)) tree).2 := by
  rcases (Process.looks_isPresent path).visits_bind visits with same | visits
  · exact .inl same
  · change (if (tree.kind path).isOk then _ else _ : Process FileTree _).Visits tree seen at visits
    rw [removeStale_eq]
    split at visits
    · rename_i present
      rw [if_pos present]
      rcases visits with same | visits
      · exact .inl same
      · exact .inr visits
    · rename_i absent
      rw [if_neg absent]
      exact .inr visits

theorem copy_eq (tree : FileTree) (source target : String) :
    (Disk.copy source target : StateM FileTree (Except OsError Unit)) tree =
      match tree.read source with
      | .ok bytes => FileTree.change (·.write target bytes) tree
      | .error cause => (.error (if cause = .isDirectory then .notRegular else cause), tree) := by
  have found : (Disk.read source : StateM FileTree (Except OsError ByteArray)) tree =
      (tree.read source, tree) := rfl
  rw [Disk.copy, FileTree.bind_apply, found]
  cases tree.read source <;> rfl

theorem visits_copy {source target : String}
    (visits : (Disk.copy source target : Process FileTree (Except OsError Unit)).Visits tree seen) :
    seen = tree ∨ seen = ((Disk.copy source target : StateM FileTree (Except OsError Unit)) tree).2 := by
  rw [copy_eq]
  rcases (Process.looks_ofOperation fun _ => rfl).visits_bind visits with same | visits
  · exact .inl same
  · change (match tree.read source with | .ok bytes => _ | .error cause => _ :
      Process FileTree (Except OsError Unit)).Visits tree seen at visits
    split at visits
    · exact visits
    · exact .inl visits

theorem replace_eq (tree : FileTree) (input path : String) :
    (replace input path : StateM FileTree (Except OsError Unit)) tree =
      match (removeStale path : StateM FileTree (Except OsError Unit)) tree with
      | (.ok (), cleared) => (Disk.copy input path : StateM FileTree (Except OsError Unit)) cleared
      | (.error cause, cleared) => (.error cause, cleared) := by
  rw [replace, FileTree.bind_apply]
  rcases (removeStale path : StateM FileTree (Except OsError Unit)) tree with ⟨_ | _, _⟩ <;> rfl

theorem isSameFile_eq (tree : FileTree) (first second : String) :
    (Disk.isSameFile first second : StateM FileTree Bool) tree =
      (match tree.canonical first, tree.canonical second with
        | .ok first, .ok second => first == second
        | _, _ => false, tree) := by
  have found (path : String) : (Disk.canonical path : StateM FileTree (Except OsError String)) tree =
      (tree.canonical path, tree) := rfl
  rw [Disk.isSameFile, FileTree.bind_apply, found, FileTree.bind_apply, found]
  cases tree.canonical first <;> cases tree.canonical second <;> rfl

theorem make_eq (tree : FileTree) (input path : String) :
    (make input path : StateM FileTree (Except Failure Unit)) tree =
      if ((Disk.isSameFile input path : StateM FileTree Bool) tree).1 then (.ok (), tree)
      else (((replace input path : StateM FileTree (Except OsError Unit)) tree).1.mapError
          (.backup path), ((replace input path : StateM FileTree (Except OsError Unit)) tree).2) := by
  have untouched : ((Disk.isSameFile input path : StateM FileTree Bool) tree).2 = tree := by
    rw [isSameFile_eq]
  rw [make, FileTree.bind_apply, untouched]
  split <;> rfl

/-- When the stale backup is gone, the input can be read or nothing more happens. -/
theorem read_cleared_or_eq (tree : FileTree) (input path : String) :
    let cleared := ((removeStale path : StateM FileTree (Except OsError Unit)) tree).2
    (∃ bytes, cleared.read input = .ok bytes) ∨
      cleared = ((replace input path : StateM FileTree (Except OsError Unit)) tree).2 := by
  rw [replace_eq]
  rcases (removeStale path : StateM FileTree (Except OsError Unit)) tree with ⟨cause | _, cleared⟩
  · exact .inr rfl
  · dsimp only
    rw [copy_eq]
    cases cleared.read input with
    | ok bytes => exact .inl ⟨bytes, rfl⟩
    | error cause => exact .inr rfl

/-- The disk is seen as it was, with the stale backup removed, or with the backup made. -/
theorem visits_replace
    (visits : (replace input path : Process FileTree (Except OsError Unit)).Visits tree seen) :
    seen = tree ∨ seen = ((removeStale path : StateM FileTree (Except OsError Unit)) tree).2 ∨
      seen = ((replace input path : StateM FileTree (Except OsError Unit)) tree).2 := by
  rcases Process.visits_bind.mp visits with visits | visits
  · rcases visits_removeStale visits with same | same
    · exact .inl same
    · exact .inr (.inl same)
  · rw [Process.performs_removeStale path tree] at visits
    rw [replace_eq]
    generalize (removeStale path : StateM FileTree (Except OsError Unit)) tree = removed at visits ⊢
    rcases removed with ⟨cause | _, cleared⟩
    · exact .inr (.inl visits)
    · exact .inr (visits_copy visits)

/-- Nothing happens to the disk when the backup is the input itself. -/
theorem visits_make
    (visits : (make input path : Process FileTree (Except Failure Unit)).Visits tree seen) :
    seen = tree ∨ ((Disk.isSameFile input path : StateM FileTree Bool) tree).1 = false ∧
      (replace input path : Process FileTree (Except OsError Unit)).Visits tree seen := by
  have compared : (Disk.isSameFile input path : Process FileTree Bool).run tree =
      (Disk.isSameFile input path : StateM FileTree Bool) tree :=
    Process.performs_isSameFile input path tree
  rcases (Process.looks_isSameFile input path).visits_bind visits with same | visits
  · exact .inl same
  · rw [compared] at visits
    cases same : ((Disk.isSameFile input path : StateM FileTree Bool) tree).1 with
    | true =>
      rw [same] at visits
      exact .inl visits
    | false =>
      rw [same] at visits
      refine .inr ⟨rfl, ?_⟩
      rcases Process.visits_bind.mp visits with visits | last
      · exact visits
      · rw [show seen = _ from last]
        exact Process.visits_run _ _

/-- As long as the backup leaves the input as it was, nobody can see that there is one. -/
theorem read_of_visits
    (visits : (make input path : Process FileTree (Except Failure Unit)).Visits tree seen)
    (undisturbed : ((make input path : StateM FileTree (Except Failure Unit)) tree).2.read input =
      tree.read input) :
    seen.read input = tree.read input := by
  rcases visits_make visits with rfl | ⟨different, visits⟩
  · rfl
  · rw [make_eq, different] at undisturbed
    rcases visits_replace visits with rfl | rfl | rfl
    · rfl
    · rcases read_cleared_or_eq tree input path with ⟨bytes, read⟩ | last
      · exact read.trans ((cleared_removeStale tree path).read read).symm
      · rw [last]
        exact undisturbed
    · exact undisturbed

end Backup

end EnumNames
