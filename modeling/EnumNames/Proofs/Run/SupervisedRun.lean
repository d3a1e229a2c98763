import EnumNames.Proofs.Run.BackupSteps
import EnumNames.Proofs.Run.Gathering

/-!
How a supervised run ends. Main statement: whatever its jobs do, a run ends under every schedule, and
only the moment at which the archive is opened is left open.
-/

namespace EnumNames

variable {σ α β γ : Type}

theorem Inevitable.imp {step : γ → γ → Prop} {goal other : γ → Prop} {state : γ}
    (inevitable : Inevitable step goal state) (each : ∀ state, goal state → other state) :
    Inevitable step other state := by
  induction inevitable with
  | reached holds => exact .reached (each _ holds)
  | ahead moves next inductionHypothesis => exact .ahead moves inductionHypothesis

namespace Forecast

theorem Fits.start (size : Nat) (shared : σ) :
    (⟨[], shared, .resting⟩ : Forecast σ α).Fits (Crew.start size shared) where
  length := rfl
  cells number cell task found := nomatch found
  quiet _ := rfl
  activity := ⟨by simp [Crew.start], rfl⟩

/-- When all jobs have ended, the forecast tells the state. -/
theorem Fits.ended {forecast : Forecast σ α} {crew : Crew σ α} (fits : forecast.Fits crew)
    (resting : forecast.activity = .resting) : crew.isIdle = true ∧ crew.shared = forecast.last := by
  have activity := fits.activity
  rw [resting] at activity
  exact ⟨List.all_eq_true.mpr activity.1, activity.2⟩

end Forecast

namespace Plan

/-- An operation of the owner alone is done at once. -/
theorem ensures_ofOperation_resting {operation : StateM σ β} {forecast : Forecast σ α}
    (resting : forecast.activity = .resting) :
    (ofOperation operation).Ensures forecast fun result after =>
      (result, after.last) = operation forecast.last ∧ after.activity = .resting := by
  obtain ⟨tasks, last, activity⟩ := forecast
  cases resting
  exact ⟨rfl, rfl⟩

end Plan

namespace Settings

/-- What is left to do when everything has been gathered. -/
def conclude (settings : Settings) (gathered : Except Failure (List Processed)) :
    StateM FileTree (Except Failure Report) :=
  match gathered with
  | .ok processed => (settings.write processed).run
  | .error cause => return .error cause

end Settings

namespace RunPlan

open Plan

variable {settings : Settings} {jobs : Jobs} {tree : FileTree}

theorem ensures_save {forecast : RunForecast} (resting : forecast.activity = .resting) (path : String)
    (parts : List (Entry × Content)) :
    (Archive.save path parts : RunPlan (Except Failure Unit)).Ensures forecast fun result after =>
      (result, after.last) =
        (Archive.save path parts : StateM FileTree (Except Failure Unit)) forecast.last ∧
      after.activity = .resting := by
  refine (ensures_ofOperation_resting resting).bind fun result after => ?_
  rintro ⟨same, resting⟩
  refine ⟨?_, resting⟩
  rw [Archive.save, FileTree.bind_apply, ← same]
  rfl

theorem ensures_write {forecast : RunForecast} (resting : forecast.activity = .resting)
    (processed : List Processed) :
    (settings.write processed : ExceptT Failure RunPlan Report).run.Ensures forecast
      fun result after => (result, after.last) = settings.conclude (.ok processed) forecast.last ∧
        after.activity = .resting := by
  refine (ensures_save resting settings.output _).bind fun result after => ?_
  rintro ⟨same, resting⟩
  have written : settings.conclude (.ok processed) forecast.last =
      (ExceptT.bindCont (fun _ => pure (Report.ofProcessed settings.output processed)) result :
        StateM FileTree (Except Failure Report)) after.last := by
    rw [show after.last = _ from congrArg Prod.snd same, show result = _ from congrArg Prod.fst same]
    rfl
  rw [written]
  cases result with
  | ok value => exact ⟨rfl, resting⟩
  | error cause => exact ⟨rfl, resting⟩

/-- The owner ends with what the jobs come to, and the workers have stopped. -/
theorem ensures_ofJobs (staffed : settings.workers ≠ 0) :
    (ofJobs settings jobs).Ensures ⟨[], tree, .resting⟩ fun result after =>
      after.activity = .resting ∧ ∃ seen gathered, jobs.MayFind tree seen ∧
        jobs.Comes (Archive.ofRead settings.input (seen.read settings.input))
          (jobs.backedUp tree).1 gathered ∧
        (result, after.last) = settings.conclude gathered (jobs.backedUp tree).2 := by
  rw [ofJobs, if_neg staffed]
  refine Ensures.bind (attains_gather settings jobs tree) fun result gathered => ?_
  cases result with
  | error cause =>
    rintro ⟨last, seen, found, comes⟩
    refine ⟨rfl, seen, .error cause, found, comes, ?_⟩
    rw [← last]
    rfl
  | ok processed =>
    rintro ⟨last, holds, seen, found, comes⟩
    have finished := holds.finished
    refine ⟨finished, ?_⟩
    refine (ensures_write rfl processed).imp fun result after => ?_
    rintro ⟨same, resting⟩
    refine ⟨resting, seen, .ok processed, found, comes, ?_⟩
    rw [← last]
    exact same

/-- The run ends whatever the schedule, and only the moment at which the archive is opened is left
open. -/
theorem inevitable_ofJobs (staffed : settings.workers ≠ 0) (jobs : Jobs) (tree : FileTree) :
    Inevitable Situation.Step (fun situation => ∃ seen gathered, jobs.MayFind tree seen ∧
      jobs.Comes (Archive.ofRead settings.input (seen.read settings.input))
        (jobs.backedUp tree).1 gathered ∧
      situation.Ends (settings.conclude gathered (jobs.backedUp tree).2).1
        (settings.conclude gathered (jobs.backedUp tree).2).2) (settings.situation jobs tree) := by
  have positive : 0 < (Crew.start settings.workers tree : Crew FileTree Delivery).size :=
    Nat.pos_of_ne_zero staffed
  refine ((ensures_ofJobs staffed).inevitable positive (.start _ _)).imp ?_
  rintro ⟨plan, crew⟩ ⟨result, after, rfl, fits, resting, seen, gathered, found, comes, same⟩
  obtain ⟨idle, shared⟩ := fits.ended resting
  refine ⟨seen, gathered, found, comes, ?_, idle, ?_⟩
  · rw [← same]
  · rw [← same]
    exact shared

/-- Without workers nothing happens. -/
theorem ends_of_unstaffed (unstaffed : settings.workers = 0) (jobs : Jobs) (tree : FileTree) :
    (settings.situation jobs tree).Ends (.error (.invalidConcurrency 0)) tree := by
  refine ⟨?_, rfl, rfl⟩
  change ofJobs settings jobs = _
  rw [ofJobs, if_pos unstaffed]
  rfl

end RunPlan

namespace Settings

/-- The backup that a run makes on a disk: its result, and the disk behind it. -/
def backUp (settings : Settings) : StateM FileTree (Except Failure Unit) :=
  Backup.makeIfWanted settings.input settings.backup

/-- One thing after another on a disk. -/
def runOn (settings : Settings) : StateM FileTree (Except Failure Report) :=
  (settings.run : ExceptT Failure (StateM FileTree) Report).run

theorem backedUp_jobs (settings : Settings) (tree : FileTree) :
    settings.jobs.backedUp tree = settings.backUp tree := by
  unfold Jobs.backedUp jobs backUp
  cases settings.backup with
  | none => rfl
  | some path =>
    have made := Process.performs_make settings.input path tree
    dsimp only [Option.map_some]
    rw [Process.run_bind, made]
    change ((Outcome.ofExcept _).awaited "backup", _) =
      (Backup.make settings.input path : StateM FileTree (Except Failure Unit)) tree
    generalize (Backup.make settings.input path : StateM FileTree (Except Failure Unit)) tree = backup
    rcases backup with ⟨_ | _, after⟩ <;> rfl

end Settings

end EnumNames
