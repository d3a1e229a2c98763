import EnumNames.Proofs.Outcome
import EnumNames.Proofs.Schedule.Ownership
import EnumNames.Run.Supervision

/-!
What the owner of a run gathers from its workers. Main statement: whatever the jobs come to and
whenever the archive is opened, the owner ends with the first failure in a fixed order, or else with
one item for every entry that is made from this entry alone.
-/

namespace EnumNames

/-- The failure of a result, if it is one. -/
def failure? {α : Type} : Except Failure α → Option Failure
  | .ok _ => none
  | .error cause => some cause

namespace Jobs

variable (jobs : Jobs) (archive : Archive)

/-- A failed read names its entry. -/
def readFailure? (entry : Entry) : Option Failure :=
  (failure? ((jobs.read archive entry).awaited entry.name)).map (.entry entry.name)

/-- Only what has been read can be repaired. -/
def repairFailure? (entry : Entry) : Option Failure :=
  match jobs.read archive entry with
  | .finished data => failure? ((jobs.repair entry data).awaited entry.name)
  | _ => none

/-- The reads of classes come first, then the other reads, then the backup, then the repairs; within
each of them the order is that of the entries. -/
def firstFailure? (backup : Except Failure Unit) : Option Failure :=
  (archive.entries.filter (·.isUnit)).findSome? (jobs.readFailure? archive) <|>
  (archive.entries.filter (!·.isUnit)).findSome? (jobs.readFailure? archive) <|>
  failure? backup <|>
  (archive.entries.filter (·.isUnit)).findSome? (jobs.repairFailure? archive)

/-- The item of an entry is made from the bytes of this entry. -/
def Makes (entry : Entry) (item : Processed) : Prop :=
  ∃ data, jobs.read archive entry = .finished data ∧
    if entry.isUnit then jobs.repair entry data = .finished item else item = .ofKept entry data

/-- This is what a run comes to once the archive is opened and the backup is made. -/
def Comes (opened : Except Failure Archive) (backup : Except Failure Unit)
    (result : Except Failure (List Processed)) : Prop :=
  match opened with
  | .error cause => result = .error cause
  | .ok archive =>
    match jobs.firstFailure? archive backup with
    | some cause => result = .error cause
    | none => ∃ items, result = .ok items ∧ List.Forall₂ (jobs.Makes archive) archive.entries items

/-- The result of the backup, and the disk behind it, when nothing else happens to the disk. -/
def backedUp (tree : FileTree) : Except Failure Unit × FileTree :=
  match jobs.backup with
  | none => (.ok (), tree)
  | some job => ((job.run tree).1.awaited "backup", (job.run tree).2)

/-- The disk may look like this when the archive is opened while the backup is made. -/
def MayFind (tree seen : FileTree) : Prop :=
  match jobs.backup with
  | none => seen = tree
  | some job => job.Visits tree seen

end Jobs

open Plan

abbrev RunForecast := Forecast FileTree Delivery

namespace Slot

variable (jobs : Jobs) (archive : Archive) (forecast : RunForecast)

def Reading (place : Entry × Slot) : Prop :=
  ∃ task, place.2 = .reading task ∧
    forecast.Expects task place.1.name ((jobs.read archive place.1).map .bytes)

def Repairing (place : Entry × Slot) : Prop :=
  ∃ task data, place.2 = .repairing task ∧ jobs.read archive place.1 = .finished data ∧
    forecast.Expects task place.1.name ((jobs.repair place.1 data).map .processed)

def Ready (place : Entry × Slot) : Prop :=
  ∃ item, place.2 = .ready item ∧ jobs.Makes archive place.1 item

/-- Classes are being repaired while other entries are still being read. -/
def Submitted (place : Entry × Slot) : Prop :=
  if place.1.isUnit then Repairing jobs archive forecast place else Reading jobs archive forecast place

/-- Classes are being repaired and other entries are ready. -/
def Collected (place : Entry × Slot) : Prop :=
  if place.1.isUnit then Repairing jobs archive forecast place else Ready jobs archive place

variable {jobs archive forecast} {after : RunForecast} {place : Entry × Slot}

theorem Reading.agrees (reading : Reading jobs archive forecast place)
    (agrees : forecast.Agrees after place.2.tasks) : Reading jobs archive after place := by
  obtain ⟨entry, slot⟩ := place
  obtain ⟨task, rfl, expects⟩ := reading
  exact ⟨task, rfl, expects.agrees agrees List.mem_cons_self⟩

theorem Repairing.agrees (repairing : Repairing jobs archive forecast place)
    (agrees : forecast.Agrees after place.2.tasks) : Repairing jobs archive after place := by
  obtain ⟨entry, slot⟩ := place
  obtain ⟨task, data, rfl, read, expects⟩ := repairing
  exact ⟨task, data, rfl, read, expects.agrees agrees List.mem_cons_self⟩

theorem Submitted.agrees (submitted : Submitted jobs archive forecast place)
    (agrees : forecast.Agrees after place.2.tasks) : Submitted jobs archive after place := by
  unfold Submitted at submitted ⊢
  split
  · rename_i unit
    rw [if_pos unit] at submitted
    exact submitted.agrees agrees
  · rename_i other
    rw [if_neg other] at submitted
    exact submitted.agrees agrees

theorem Collected.agrees (collected : Collected jobs archive forecast place)
    (agrees : forecast.Agrees after place.2.tasks) : Collected jobs archive after place := by
  unfold Collected at collected ⊢
  split
  · rename_i unit
    rw [if_pos unit] at collected
    exact collected.agrees agrees
  · rename_i other
    rwa [if_neg other] at collected

end Slot

namespace RunPlan

variable {jobs : Jobs} {archive : Archive}

/-- What a step of a phase does to one slot, whatever else the owner holds. The slot is ready for
the phase before the step and done with it behind, unless its entry fails. -/
def Turns (step : Entry × Slot → RunPlan (Except Failure (Entry × Slot)))
    (fails : Entry → Option Failure) (ready done : RunForecast → Entry × Slot → Prop) : Prop :=
  ∀ (forecast : RunForecast) place others, forecast.Holds (place.2.tasks ++ others) →
    ready forecast place → (step place).Ensures forecast fun result after =>
      after.last = forecast.last ∧ match result with
      | .error cause => fails place.1 = some cause ∧ forecast.tasks.length ≤ after.tasks.length
      | .ok next => fails place.1 = none ∧ next.1 = place.1 ∧ done after next ∧
          after.Holds (next.2.tasks ++ others) ∧ forecast.Agrees after others

theorem attains_orLetGo {β : Type} {held : List Nat} {attempt : RunPlan (Except Failure β)}
    {forecast : RunForecast} {failed : Failure → RunForecast → Prop}
    {wanted : β → RunForecast → Prop}
    (ensures : attempt.Ensures forecast fun result after =>
      match result with
      | .error cause => (∀ task ∈ held, task < after.tasks.length) ∧
          ∀ last : RunForecast, last.last = after.last → failed cause last
      | .ok value => wanted value after) :
    Attains (orLetGo held attempt) forecast failed wanted := by
  refine Ensures.bind ensures fun result after holds => ?_
  cases result with
  | ok value => exact holds
  | error cause =>
    exact Ensures.bind (ensures_dropAll holds.1) fun _ last same => holds.2 last same

/-- A slot that fails in its turn lets go of everything else that the owner holds. -/
theorem attains_turn {step : Entry × Slot → RunPlan (Except Failure (Entry × Slot))}
    {fails : Entry → Option Failure} {ready done : RunForecast → Entry × Slot → Prop}
    (turns : Turns step fails ready done) {forecast : RunForecast} {place : Entry × Slot}
    {others : List Nat} (holds : forecast.Holds (place.2.tasks ++ others))
    (isReady : ready forecast place) :
    Attains (orLetGo others (step place)) forecast
      (fun cause after => fails place.1 = some cause ∧ after.last = forecast.last)
      (fun next after => fails place.1 = none ∧ next.1 = place.1 ∧ done after next ∧
        after.Holds (next.2.tasks ++ others) ∧ forecast.Agrees after others ∧
        after.last = forecast.last) := by
  refine attains_orLetGo ((turns forecast place others holds isReady).imp fun result after => ?_)
  rintro ⟨same, holdsThen⟩
  cases result with
  | ok next =>
    obtain ⟨passes, entry, finished, holdsNext, agrees⟩ := holdsThen
    exact ⟨passes, entry, finished, holdsNext, agrees, same⟩
  | error cause =>
    obtain ⟨failed, longer⟩ := holdsThen
    refine ⟨fun task member => Nat.lt_of_lt_of_le (holds.inside task ?_) longer,
      fun last unchanged => ⟨failed, unchanged.trans same⟩⟩
    exact List.mem_append_right _ member

/-- The slots take their turns one after another, and the first failure ends it. -/
theorem attains_inTurn {step : Entry × Slot → RunPlan (Except Failure (Entry × Slot))}
    {fails : Entry → Option Failure} {ready done : RunForecast → Entry × Slot → Prop}
    (turns : Turns step fails ready done)
    (readyAgrees : ∀ (forecast after : RunForecast) place, forecast.Agrees after place.2.tasks →
      ready forecast place → ready after place)
    (doneAgrees : ∀ (forecast after : RunForecast) place, forecast.Agrees after place.2.tasks →
      done forecast place → done after place)
    {forecast : RunForecast} {held : List Nat} {places : List (Entry × Slot)}
    (holds : forecast.Holds (held ++ places.flatMap (·.2.tasks)))
    (all : ∀ place ∈ places, ready forecast place) :
    Attains (inTurn step held places) forecast
      (fun cause after => (places.map Prod.fst).findSome? fails = some cause ∧
        after.last = forecast.last)
      (fun nexts after => (places.map Prod.fst).findSome? fails = none ∧
        nexts.map Prod.fst = places.map Prod.fst ∧ (∀ next ∈ nexts, done after next) ∧
        after.Holds (held ++ nexts.flatMap (·.2.tasks)) ∧ forecast.Agrees after held ∧
        after.last = forecast.last) := by
  induction places generalizing forecast held with
  | nil => exact ⟨rfl, rfl, by simp, holds, .refl _ _, rfl⟩
  | cons place rest inductionHypothesis =>
    rw [List.forall_mem_cons] at all
    let others := rest.flatMap (·.2.tasks)
    have order : (held ++ (place.2.tasks ++ others)).Perm (place.2.tasks ++ (held ++ others)) :=
      List.perm_append_comm_assoc _ _ _
    have head := attains_turn turns (holds.perm order) all.1
    refine head.bind (fun cause after failed => ?_) fun next after holdsThen => ?_
    · exact ⟨by simp [failed.1], failed.2⟩
    · obtain ⟨passes, entry, finished, holdsNext, agrees, same⟩ := holdsThen
      have nextOrder : (next.2.tasks ++ (held ++ others)).Perm (held ++ next.2.tasks ++ others) := by
        rw [List.append_assoc]
        exact List.perm_append_comm_assoc _ _ _
      have readyRest : ∀ other ∈ rest, ready after other := fun other member =>
        readyAgrees forecast after other (agrees.mono fun task within =>
          List.mem_append_right _ (List.mem_flatMap.mpr ⟨other, member, within⟩)) (all.2 other member)
      have tail := inductionHypothesis (holdsNext.perm nextOrder) readyRest
      refine tail.bind (fun cause last failed => ?_) fun nexts last holdsLast => ?_
      · exact ⟨by simp [passes, failed.1], failed.2.trans same⟩
      · obtain ⟨passRest, entries, finishedRest, holdsLast, agreesLast, sameLast⟩ := holdsLast
        refine ⟨by simp [passes, passRest], by simp [entry, entries], ?_, ?_, ?_, sameLast.trans same⟩
        · refine List.forall_mem_cons.mpr ⟨?_, finishedRest⟩
          exact doneAgrees after last next
            (agreesLast.mono fun task within => List.mem_append_right _ within) finished
        · rwa [List.flatMap_cons, ← List.append_assoc]
        · exact (agrees.mono fun task within => List.mem_append_left _ within).trans
            (agreesLast.mono fun task within => List.mem_append_left _ within)

/-- What a task delivers is what its job has come to. -/
theorem ensures_awaited {α : Type} {outcome : Outcome α} {make : α → Delivery}
    {forecast : RunForecast} {task : Nat} {origin : String} {others : List Nat}
    (holds : forecast.Holds (task :: others))
    (expects : forecast.Expects task origin (outcome.map make)) :
    (wait task).Ensures forecast fun result after =>
      after.last = forecast.last ∧ after.tasks.length = forecast.tasks.length ∧
      forecast.Agrees after others ∧
      ((∃ value, outcome = .finished value ∧ result = .ok (make value) ∧ after.Holds others) ∨
        ∃ cause, outcome.awaited origin = .error cause ∧ result = .error cause) := by
  refine (ensures_wait expects).imp fun result after => ?_
  rintro ⟨rfl, rfl⟩
  refine ⟨rfl, Forecast.length_release, Forecast.agrees_release (List.nodup_cons.mp holds.nodup).1, ?_⟩
  cases outcome with
  | finished value => exact .inl ⟨value, rfl, rfl, holds.release expects rfl⟩
  | failed cause => exact .inr ⟨cause, rfl, rfl⟩
  | panicked payload => exact .inr ⟨_, rfl, rfl⟩

/-- A class that has been read is repaired next. -/
theorem turns_submitRepair :
    Turns (submitRepair jobs)
      (fun entry => if entry.isUnit then jobs.readFailure? archive entry else none)
      (Slot.Reading jobs archive) (Slot.Submitted jobs archive) := by
  rintro forecast ⟨entry, slot⟩ others holds ⟨task, same, expects⟩
  obtain rfl : slot = .reading task := same
  by_cases unit : entry.isUnit = true
  · simp only [submitRepair, if_pos unit, Slot.Submitted]
    refine (ensures_awaited holds expects).bind fun result after => ?_
    rintro ⟨last, length, agrees, ⟨data, read, rfl, holdsAfter⟩ | ⟨cause, read, rfl⟩⟩
    · refine (ensures_queue entry.name _).bind fun repair final => ?_
      rintro ⟨rfl, rfl⟩
      refine ⟨last, ?_, rfl, ?_, holdsAfter.submit rfl, ?_⟩
      · simp [Jobs.readFailure?, read, Outcome.awaited, failure?]
      · rw [if_pos unit]
        exact ⟨_, data, rfl, read, List.getElem?_concat_length⟩
      · exact agrees.trans (Forecast.agrees_append holdsAfter.inside rfl)
    · refine ⟨last, ?_, Nat.le_of_eq length.symm⟩
      simp [Jobs.readFailure?, read, failure?]
  · have passes : submitRepair jobs (entry, .reading task) = pure (.ok (entry, .reading task)) :=
      if_neg unit
    rw [passes]
    refine ⟨rfl, if_neg unit, rfl, ?_, holds, .refl _ _⟩
    rw [Slot.Submitted, if_neg unit]
    exact ⟨task, rfl, expects⟩

theorem turns_collectRead :
    Turns collectRead
      (fun entry => if !entry.isUnit then jobs.readFailure? archive entry else none)
      (Slot.Submitted jobs archive) (Slot.Collected jobs archive) := by
  rintro forecast ⟨entry, slot⟩ others holds submitted
  by_cases unit : entry.isUnit = true
  · simp only [Slot.Submitted, if_pos unit] at submitted
    obtain ⟨task, data, same, read, expects⟩ := submitted
    obtain rfl : slot = .repairing task := same
    refine ⟨rfl, by simp [unit], rfl, ?_, holds, .refl _ _⟩
    rw [Slot.Collected, if_pos unit]
    exact ⟨task, data, rfl, read, expects⟩
  · simp only [Slot.Submitted, if_neg unit] at submitted
    obtain ⟨task, same, expects⟩ := submitted
    obtain rfl : slot = .reading task := same
    refine (ensures_awaited holds expects).bind fun result after => ?_
    rintro ⟨last, length, agrees, ⟨data, read, rfl, holdsAfter⟩ | ⟨cause, read, rfl⟩⟩
    · refine ⟨last, ?_, rfl, ?_, holdsAfter, agrees⟩
      · simp [Jobs.readFailure?, read, Outcome.awaited, failure?]
      · rw [Slot.Collected, if_neg unit]
        exact ⟨_, rfl, data, read, (if_neg unit).mpr rfl⟩
    · refine ⟨last, ?_, Nat.le_of_eq length.symm⟩
      simp [unit, Jobs.readFailure?, read, failure?]

theorem turns_collectRepair :
    Turns collectRepair
      (fun entry => if entry.isUnit then jobs.repairFailure? archive entry else none)
      (Slot.Collected jobs archive) (fun _ => Slot.Ready jobs archive) := by
  rintro forecast ⟨entry, slot⟩ others holds collected
  by_cases unit : entry.isUnit = true
  · simp only [Slot.Collected, if_pos unit] at collected
    obtain ⟨task, data, same, read, expects⟩ := collected
    obtain rfl : slot = .repairing task := same
    simp only [collectRepair, if_pos unit]
    refine (ensures_awaited holds expects).bind fun result after => ?_
    rintro ⟨last, length, agrees, ⟨item, repaired, rfl, holdsAfter⟩ | ⟨cause, repaired, rfl⟩⟩
    · refine ⟨last, ?_, rfl, ?_, holdsAfter, agrees⟩
      · simp [Jobs.repairFailure?, read, repaired, Outcome.awaited, failure?]
      · exact ⟨item, rfl, data, read, (if_pos unit).mpr repaired⟩
    · refine ⟨last, ?_, Nat.le_of_eq length.symm⟩
      simp [Jobs.repairFailure?, read, repaired, failure?]
  · simp only [Slot.Collected, if_neg unit] at collected
    obtain ⟨item, same, makes⟩ := collected
    obtain rfl : slot = .ready item := same
    exact ⟨rfl, if_neg unit, rfl, ⟨item, rfl, makes⟩, holds, .refl _ _⟩

theorem ensures_submitReads {entries : List Entry} {held : List Nat} {forecast : RunForecast}
    (holds : forecast.Holds held) :
    (submitReads (jobs.read archive) entries).Ensures forecast fun places after =>
      places.map Prod.fst = entries ∧ (∀ place ∈ places, Slot.Reading jobs archive after place) ∧
      after.Holds (held ++ places.flatMap (·.2.tasks)) ∧ forecast.Agrees after held ∧
      after.last = forecast.last := by
  induction entries generalizing held forecast with
  | nil => exact ⟨rfl, by simp, by simpa using holds, .refl _ _, rfl⟩
  | cons entry rest inductionHypothesis =>
    refine (ensures_queue entry.name _).bind fun task after => ?_
    rintro ⟨rfl, rfl⟩
    have order : (forecast.tasks.length :: held).Perm (held ++ [forecast.tasks.length]) :=
      (List.perm_append_singleton _ _).symm
    refine (inductionHypothesis ((holds.submit rfl).perm order)).bind fun places after => ?_
    rintro ⟨entries, reading, holdsAfter, agrees, last⟩
    refine ⟨by simp [entries], ?_, ?_, ?_, last⟩
    · refine List.forall_mem_cons.mpr ⟨⟨_, rfl, ?_⟩, reading⟩
      refine Forecast.Expects.agrees ?_ agrees (List.mem_append_right _ List.mem_cons_self)
      exact List.getElem?_concat_length
    · simpa [Slot.tasks] using holdsAfter
    · exact (Forecast.agrees_append holds.inside rfl).trans
        (agrees.mono fun task member => List.mem_append_left _ member)

/-- The owner holds the task of the backup if there is one. -/
def Backed (jobs : Jobs) (tree : FileTree) (held : List Nat) (forecast : RunForecast) : Prop :=
  match jobs.backup with
  | none => held = []
  | some job => ∃ task, held = [task] ∧
      forecast.Expects task "backup" ((job.run tree).1.map fun () => .copied)

theorem Backed.agrees {tree : FileTree} {held : List Nat} {forecast after : RunForecast}
    (backed : Backed jobs tree held forecast) (agrees : forecast.Agrees after held) :
    Backed jobs tree held after := by
  unfold Backed at backed ⊢
  split
  · rename_i none
    rwa [none] at backed
  · rename_i job some
    rw [some] at backed
    obtain ⟨task, rfl, expects⟩ := backed
    exact ⟨task, rfl, expects.agrees agrees List.mem_cons_self⟩

theorem ensures_submitBackup (jobs : Jobs) (tree : FileTree) :
    (submitBackup jobs).Ensures ⟨[], tree, .resting⟩ fun held after =>
      after.Holds held ∧ Backed jobs tree held after ∧ after.last = (jobs.backedUp tree).2 ∧
      ∀ seen, after.Sees seen → jobs.MayFind tree seen := by
  have start : Forecast.Holds (⟨[], tree, .resting⟩ : RunForecast) [] :=
    ⟨.nil, by simp, by simp⟩
  cases wanted : jobs.backup with
  | none =>
    have nothing : submitBackup jobs = pure [] := by
      rw [submitBackup, wanted]
    rw [nothing]
    refine ⟨start, ?_, ?_, fun seen sees => ?_⟩
    · rw [Backed, wanted]
    · rw [Jobs.backedUp, wanted]
    · rw [Jobs.MayFind, wanted]
      exact sees
  | some job =>
    have submits : submitBackup jobs = (do
        let task ← Plan.queue "backup" (do return (← job).map fun () => .copied)
        return [task]) := by
      rw [submitBackup, wanted]
    rw [submits]
    have run := Process.run_bind job (fun outcome => pure (outcome.map fun () => Delivery.copied)) tree
    refine ⟨_, .changer rfl, start.submit rfl, ?_, ?_, fun seen sees => ?_⟩
    · rw [Backed, wanted]
      exact ⟨0, rfl, congrArg (fun outcome => some (⟨"backup", outcome, true⟩ : Expected Delivery))
        (congrArg Prod.fst run)⟩
    · rw [Jobs.backedUp, wanted]
      exact congrArg Prod.snd run
    · rw [Jobs.MayFind, wanted]
      rcases Process.visits_bind.mp sees with visits | last
      · exact visits
      · obtain rfl : seen = (job.run tree).2 := last
        exact Process.visits_run job tree

theorem ensures_load {path : String} {forecast : RunForecast} :
    (Archive.load path : RunPlan (Except Failure Archive)).Ensures forecast fun opened after =>
      after = forecast ∧ ∃ seen, forecast.Sees seen ∧ opened = Archive.ofRead path (seen.read path) := by
  refine (ensures_ofOperation fun _ => rfl).bind fun result after => ?_
  rintro ⟨rfl, seen, sees, rfl⟩
  exact ⟨rfl, seen, sees, rfl⟩

/-- An archive that cannot be opened lets go of everything that the owner holds. -/
theorem attains_load {path : String} {held : List Nat} {forecast : RunForecast}
    (holds : forecast.Holds held) :
    Attains (orLetGo held (Archive.load path)) forecast
      (fun cause after => after.last = forecast.last ∧ ∃ seen, forecast.Sees seen ∧
        Archive.ofRead path (seen.read path) = .error cause)
      (fun archive after => after = forecast ∧ ∃ seen, forecast.Sees seen ∧
        Archive.ofRead path (seen.read path) = .ok archive) := by
  refine attains_orLetGo (ensures_load.imp fun result after => ?_)
  rintro ⟨rfl, seen, sees, same⟩
  cases result with
  | ok archive => exact ⟨rfl, seen, sees, same.symm⟩
  | error cause => exact ⟨holds.inside, fun final unchanged => ⟨unchanged, seen, sees, same.symm⟩⟩

/-- The backup is waited for like any other task. -/
theorem ensures_awaitAll {tree : FileTree} {held others : List Nat} {forecast : RunForecast}
    (holds : forecast.Holds (held ++ others)) (backed : Backed jobs tree held forecast) :
    (awaitAll held).Ensures forecast fun result after =>
      result = (jobs.backedUp tree).1 ∧ after.last = forecast.last ∧
      after.tasks.length = forecast.tasks.length ∧ forecast.Agrees after others ∧
      (result = .ok () → after.Holds others) := by
  cases wanted : jobs.backup with
  | none =>
    simp only [Backed, wanted] at backed
    subst backed
    refine ⟨?_, rfl, rfl, .refl _ _, fun _ => holds⟩
    rw [Jobs.backedUp, wanted]
  | some job =>
    simp only [Backed, wanted] at backed
    obtain ⟨task, rfl, expects⟩ := backed
    refine (ensures_awaited holds expects).bind fun result after => ?_
    rintro ⟨last, length, agrees, ⟨value, made, rfl, holdsAfter⟩ | ⟨cause, failed, rfl⟩⟩
    · refine ⟨?_, last, length, agrees, fun _ => holdsAfter⟩
      simp only [Jobs.backedUp, wanted, made]
      rfl
    · refine ⟨?_, last, length, agrees, fun same => nomatch same⟩
      simp only [Jobs.backedUp, wanted, failed]

/-- A backup that fails lets go of everything else that the owner holds. -/
theorem attains_awaitAll {tree : FileTree} {held others : List Nat} {forecast : RunForecast}
    (holds : forecast.Holds (held ++ others)) (backed : Backed jobs tree held forecast) :
    Attains (orLetGo others (awaitAll held)) forecast
      (fun cause after => after.last = forecast.last ∧ (jobs.backedUp tree).1 = .error cause)
      (fun _ after => after.last = forecast.last ∧ (jobs.backedUp tree).1 = .ok () ∧
        forecast.Agrees after others ∧ after.Holds others) := by
  refine attains_orLetGo ((ensures_awaitAll holds backed).imp fun result after => ?_)
  rintro ⟨same, last, length, agrees, holdsAfter⟩
  cases result with
  | ok value => exact ⟨last, same.symm, agrees, holdsAfter rfl⟩
  | error cause =>
    refine ⟨fun task member => ?_, fun final unchanged => ⟨unchanged.trans last, same.symm⟩⟩
    exact length.symm ▸ holds.inside task (List.mem_append_right _ member)

theorem findSome?_filter {κ ι : Type} (test : ι → Bool) (find : ι → Option κ) (items : List ι) :
    (items.filter test).findSome? find =
      items.findSome? fun item => if test item then find item else none := by
  induction items with
  | nil => rfl
  | cons item rest inductionHypothesis =>
    cases passes : test item <;> simp [passes, inductionHypothesis, List.findSome?_cons]

/-- The phases of a run look for failures one after another. -/
theorem firstFailure?_eq (jobs : Jobs) (archive : Archive) (backup : Except Failure Unit) :
    jobs.firstFailure? archive backup =
      ((archive.entries.findSome? fun entry =>
        if entry.isUnit then jobs.readFailure? archive entry else none) <|>
      (archive.entries.findSome? fun entry =>
        if !entry.isUnit then jobs.readFailure? archive entry else none) <|>
      failure? backup <|>
      archive.entries.findSome? fun entry =>
        if entry.isUnit then jobs.repairFailure? archive entry else none) := by
  rw [Jobs.firstFailure?, findSome?_filter, findSome?_filter, findSome?_filter]

theorem makes_of_ready {places : List (Entry × Slot)}
    (ready : ∀ place ∈ places, Slot.Ready jobs archive place) :
    List.Forall₂ (jobs.Makes archive) (places.map Prod.fst) (places.filterMap (·.2.item?)) := by
  induction places with
  | nil => exact .nil
  | cons place rest inductionHypothesis =>
    obtain ⟨entry, slot⟩ := place
    rw [List.forall_mem_cons] at ready
    obtain ⟨⟨item, same, makes⟩, others⟩ := ready
    obtain rfl : slot = .ready item := same
    exact .cons makes (inductionHypothesis others)

theorem tasks_of_ready {places : List (Entry × Slot)}
    (ready : ∀ place ∈ places, Slot.Ready jobs archive place) :
    places.flatMap (·.2.tasks) = [] := by
  rw [List.flatMap_eq_nil_iff]
  intro place member
  obtain ⟨item, same, _⟩ := ready place member
  rw [same]
  rfl

/-- Once the archive is open, nothing is left to chance. -/
theorem attains_gatherEntries {tree : FileTree} {held : List Nat} {forecast : RunForecast}
    (holds : forecast.Holds held) (backed : Backed jobs tree held forecast) :
    Attains (gatherEntries jobs archive held) forecast
      (fun cause after => after.last = forecast.last ∧
        jobs.firstFailure? archive (jobs.backedUp tree).1 = some cause)
      (fun items after => after.last = forecast.last ∧ after.Holds [] ∧
        jobs.firstFailure? archive (jobs.backedUp tree).1 = none ∧
        List.Forall₂ (jobs.Makes archive) archive.entries items) := by
  unfold gatherEntries
  refine (ensures_submitReads holds).lift.bind (fun _ _ failed => failed) fun reads opened => ?_
  rintro ⟨entries, reading, holdsReads, agreesReads, lastReads⟩
  refine (attains_inTurn turns_submitRepair (fun _ _ _ agrees reading => reading.agrees agrees)
    (fun _ _ _ agrees submitted => submitted.agrees agrees) holdsReads reading).bind
    (fun cause after => ?_) fun submitted second => ?_
  · rintro ⟨failed, last⟩
    rw [entries] at failed
    refine ⟨last.trans lastReads, ?_⟩
    rw [firstFailure?_eq, failed]
    rfl
  rintro ⟨classesRead, sameSubmitted, submittedAll, holdsSubmitted, agreesSubmitted, lastSubmitted⟩
  rw [entries] at classesRead sameSubmitted
  refine (attains_inTurn turns_collectRead (fun _ _ _ agrees submitted => submitted.agrees agrees)
    (fun _ _ _ agrees collected => collected.agrees agrees) holdsSubmitted submittedAll).bind
    (fun cause after => ?_) fun collected third => ?_
  · rintro ⟨failed, last⟩
    rw [sameSubmitted] at failed
    refine ⟨last.trans (lastSubmitted.trans lastReads), ?_⟩
    rw [firstFailure?_eq, classesRead, failed]
    rfl
  rintro ⟨othersRead, sameCollected, collectedAll, holdsCollected, agreesCollected, lastCollected⟩
  rw [sameSubmitted] at othersRead sameCollected
  have backedCollected := ((backed.agrees agreesReads).agrees agreesSubmitted).agrees agreesCollected
  have steady : third.last = forecast.last :=
    lastCollected.trans (lastSubmitted.trans lastReads)
  refine (attains_awaitAll holdsCollected backedCollected).bind (fun cause after => ?_)
    fun _ fourth => ?_
  · rintro ⟨last, failed⟩
    refine ⟨last.trans steady, ?_⟩
    rw [firstFailure?_eq, classesRead, othersRead, failed]
    rfl
  rintro ⟨lastWaited, made, agreesWaited, holdsWaited⟩
  have ready : ∀ place ∈ collected, Slot.Collected jobs archive fourth place :=
    fun place member => (collectedAll place member).agrees (agreesWaited.mono fun task within =>
      List.mem_flatMap.mpr ⟨place, member, within⟩)
  have holdsNothing : fourth.Holds ([] ++ collected.flatMap (·.2.tasks)) := holdsWaited
  refine (attains_inTurn turns_collectRepair (fun _ _ _ agrees collected => collected.agrees agrees)
    (fun _ _ _ _ ready => ready) holdsNothing ready).bind (fun cause after => ?_) fun repaired fifth => ?_
  · rintro ⟨failed, last⟩
    rw [sameCollected] at failed
    refine ⟨last.trans (lastWaited.trans steady), ?_⟩
    rw [firstFailure?_eq, classesRead, othersRead, made, failed]
    rfl
  rintro ⟨classesRepaired, sameRepaired, repairedAll, holdsRepaired, _, lastRepaired⟩
  rw [sameCollected] at classesRepaired sameRepaired
  rw [tasks_of_ready repairedAll] at holdsRepaired
  refine ⟨lastRepaired.trans (lastWaited.trans steady), holdsRepaired, ?_, ?_⟩
  · rw [firstFailure?_eq, classesRead, othersRead, made, classesRepaired]
    rfl
  · rw [← sameRepaired]
    exact makes_of_ready repairedAll

/-- Whatever the archive looks like when it is opened, the owner ends as the jobs want it. -/
theorem attains_gather (settings : Settings) (jobs : Jobs) (tree : FileTree) :
    Attains (gather settings jobs) ⟨[], tree, .resting⟩
      (fun cause after => after.last = (jobs.backedUp tree).2 ∧ ∃ seen, jobs.MayFind tree seen ∧
        jobs.Comes (Archive.ofRead settings.input (seen.read settings.input))
          (jobs.backedUp tree).1 (.error cause))
      (fun items after => after.last = (jobs.backedUp tree).2 ∧ after.Holds [] ∧
        ∃ seen, jobs.MayFind tree seen ∧
          jobs.Comes (Archive.ofRead settings.input (seen.read settings.input))
            (jobs.backedUp tree).1 (.ok items)) := by
  unfold gather
  refine (ensures_submitBackup jobs tree).lift.bind (fun _ _ failed => failed) fun held opening => ?_
  rintro ⟨holds, backed, last, finds⟩
  refine (attains_load holds).bind (fun cause after => ?_) fun archive after => ?_
  · rintro ⟨same, seen, sees, failed⟩
    refine ⟨same.trans last, seen, finds seen sees, ?_⟩
    rw [failed]
    rfl
  rintro ⟨rfl, seen, sees, read⟩
  have found : jobs.MayFind tree seen := finds seen sees
  refine (attains_gatherEntries holds backed).imp fun result after => ?_
  cases result with
  | error cause =>
    rintro ⟨same, failed⟩
    refine ⟨same.trans last, seen, found, ?_⟩
    simp only [Jobs.Comes, read, failed]
  | ok items =>
    rintro ⟨same, holdsNone, passes, makes⟩
    refine ⟨same.trans last, holdsNone, seen, found, ?_⟩
    simp only [Jobs.Comes, read, passes]
    exact ⟨items, rfl, makes⟩

end RunPlan

end EnumNames
