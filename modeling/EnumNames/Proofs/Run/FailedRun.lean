import EnumNames.Proofs.Disk.Bystander
import EnumNames.Proofs.Run.BackupSurvival
import EnumNames.Proofs.Run.Conclusion

/-!
What a failed run leaves behind. Main statement: a run that fails, because of whichever job and under
whichever schedule, leaves its output as it was, unless the backup lies on the way to the output.
-/

namespace EnumNames

namespace Process

variable {σ α : Type}

/-- The job takes the steps of another job, but it may panic before any of them. -/
inductive CutShort : Process σ (Outcome α) → Process σ (Outcome α) → Prop
  | done (outcome : Outcome α) : CutShort (.done outcome) (.done outcome)
  | panics (payload : PanicPayload) (whole : Process σ (Outcome α)) :
      CutShort (.done (.panicked payload)) whole
  | act (change : σ → σ) {next wholeNext : σ → Process σ (Outcome α)}
      (onward : ∀ state, CutShort (next state) (wholeNext state)) :
      CutShort (.act change next) (.act change wholeNext)

theorem CutShort.refl (job : Process σ (Outcome α)) : job.CutShort job := by
  induction job with
  | done outcome => exact .done outcome
  | act change next inductionHypothesis => exact .act change inductionHypothesis

/-- The job panics after so many steps, unless it is done before. -/
def panicAfter (payload : PanicPayload) : Nat → Process σ (Outcome α) → Process σ (Outcome α)
  | 0, _ => .done (.panicked payload)
  | _ + 1, .done outcome => .done outcome
  | count + 1, .act change next => .act change fun state => panicAfter payload count (next state)

theorem cutShort_panicAfter (payload : PanicPayload) (count : Nat) (job : Process σ (Outcome α)) :
    (job.panicAfter payload count).CutShort job := by
  induction count generalizing job with
  | zero => exact .panics payload job
  | succ count inductionHypothesis =>
    cases job with
    | done outcome => exact .done outcome
    | act change next => exact .act change fun state => inductionHypothesis (next state)

/-- A job that is cut short leaves a state behind that the whole job comes to. -/
theorem CutShort.visits_run {job whole : Process σ (Outcome α)} (cut : job.CutShort whole)
    (state : σ) : whole.Visits state (job.run state).2 := by
  induction cut generalizing state with
  | done outcome => rfl
  | panics payload whole => exact visits_start whole state
  | act change _ inductionHypothesis => exact .inr (inductionHypothesis state (change state))

end Process

namespace Backup

variable {tree seen : FileTree} {input path text : String}

/-- A copy writes its target or nothing at all. -/
theorem write_of_copy (tree : FileTree) (source target : String) :
    let after := ((Disk.copy source target : StateM FileTree (Except OsError Unit)) tree).2
    after = tree ∨ ∃ bytes, tree.write target bytes = .ok after := by
  rw [copy_eq]
  cases tree.read source with
  | error cause => exact .inl rfl
  | ok bytes =>
    dsimp only
    cases written : tree.write target bytes with
    | error cause =>
      rw [FileTree.change_error written]
      exact .inl rfl
    | ok next =>
      rw [FileTree.change_ok written]
      exact .inr ⟨bytes, written⟩

/-- The disk stays as it is, or the path is removed from it. -/
theorem remove_of_removeStale (tree : FileTree) (path : String) :
    let cleared := ((removeStale path : StateM FileTree (Except OsError Unit)) tree).2
    cleared = tree ∨ (tree.kind path).isOk = true ∧ tree.remove path = .ok cleared := by
  rw [removeStale_eq]
  split
  · rename_i present
    cases removed : tree.remove path with
    | error cause =>
      rw [FileTree.change_error removed]
      exact .inl rfl
    | ok next =>
      rw [FileTree.change_ok removed]
      exact .inr ⟨present, rfl⟩
  · exact .inl rfl

theorem keeps_removeStale (grounded : tree.IsGrounded) (apart : tree.Apart path text) :
    tree.Keeps ((removeStale path : StateM FileTree (Except OsError Unit)) tree).2 text := by
  rcases remove_of_removeStale tree path with same | ⟨present, removed⟩
  · rw [same]
    exact .refl tree text
  · exact FileTree.keeps_of_remove grounded apart present removed

theorem keeps_replace (grounded : tree.IsGrounded) (apart : tree.Apart path text) :
    tree.Keeps ((replace input path : StateM FileTree (Except OsError Unit)) tree).2 text := by
  have stale := remove_of_removeStale tree path
  have kept := keeps_removeStale grounded apart
  rw [replace_eq]
  generalize (removeStale path : StateM FileTree (Except OsError Unit)) tree = removed at stale kept ⊢
  obtain ⟨cause | _, cleared⟩ := removed
  · exact kept
  · dsimp only at stale kept ⊢
    rcases write_of_copy cleared input path with same | ⟨bytes, written⟩
    · rw [same]
      exact kept
    · rcases stale with same | ⟨present, removed⟩
      · rw [same] at written ⊢
        exact FileTree.keeps_of_write apart written
      · exact FileTree.keeps_of_replace grounded apart present removed written

/-- A path that the backup stands apart from is kept at every step of the backup. -/
theorem keeps_of_visits (grounded : tree.IsGrounded) (apart : tree.Apart path text)
    (visits : (make input path : Process FileTree (Except Failure Unit)).Visits tree seen) :
    tree.Keeps seen text := by
  rcases visits_make visits with rfl | ⟨_, visits⟩
  · exact .refl _ text
  · rcases visits_replace visits with rfl | rfl | rfl
    · exact .refl _ text
    · exact keeps_removeStale grounded apart
    · exact keeps_replace grounded apart

end Backup

theorem FileTree.origin_root (text : String) : FileTree.origin [] text = [] := by
  unfold FileTree.origin
  split <;> rfl

namespace Settings

variable {settings : Settings} {tree : FileTree} {jobs : Jobs}

/-- Only the backup of the run changes the disk before the end, and a panic may cut it short. -/
def Supplies (settings : Settings) (jobs : Jobs) : Prop :=
  Option.Rel Process.CutShort jobs.backup settings.jobs.backup

/-- The jobs of the run itself are among them. -/
theorem supplies_jobs (settings : Settings) : settings.Supplies settings.jobs := by
  unfold Supplies
  cases settings.jobs.backup with
  | none => exact .none
  | some job => exact .some (.refl job)

/-- The backup stands apart from the output. -/
def BackupApart (settings : Settings) (tree : FileTree) : Prop :=
  ∀ path, settings.backup = some path → tree.Apart path settings.output

theorem keeps_backedUp (supplies : settings.Supplies jobs) (grounded : tree.IsGrounded)
    (apart : settings.BackupApart tree) :
    tree.Keeps (jobs.backedUp tree).2 settings.output := by
  unfold Supplies Settings.jobs at supplies
  unfold Jobs.backedUp
  cases wanted : settings.backup with
  | none =>
    rw [wanted] at supplies
    cases made : jobs.backup with
    | none => exact .refl tree _
    | some job =>
      rw [made] at supplies
      cases supplies
  | some path =>
    rw [wanted] at supplies
    cases made : jobs.backup with
    | none => exact .refl tree _
    | some job =>
      rw [made] at supplies
      cases supplies with
      | some cut =>
        have visits : (Backup.make settings.input path :
            Process FileTree (Except Failure Unit)).Visits tree (job.run tree).2 := by
          rcases Process.visits_bind.mp (cut.visits_run tree) with visits | last
          · exact visits
          · rw [show (job.run tree).2 = _ from last]
            exact Process.visits_run _ _
        exact Backup.keeps_of_visits grounded (apart path wanted) visits

/-- The backup is a link to the directory of the output. -/
def aboveOutput : Settings := ⟨"in", "l/o", some "l", 2⟩

def linkedDirectory : FileTree :=
  ⟨[(["in"], .file .empty), (["d"], .directory), (["o", "d"], .file emptyArchive),
    (["l"], .link "d")], []⟩

theorem runOn_aboveOutput : (aboveOutput.runOn linkedDirectory).1 =
    .error (.archive (.invalid "Invalid zip header")) := by cbv

/-- The link is replaced by the backup, so that no path leads through it any more. -/
theorem read_aboveOutput :
    ((aboveOutput.runOn linkedDirectory).2.read "l/o").toOption = none := by cbv

end Settings

end EnumNames
