import EnumNames.Proofs.Run.Conclusion
import EnumNames.Proofs.Schedule.Completion
import EnumNames.Proofs.Schedule.Settlement

/-!
The owner of a run waits for every failure. Main statement: whatever the jobs of a run come to and
whichever schedule they run under, no failure is left over for the slot when the crew is shut down,
and after a panic the run ends with a failure and nothing is written.
-/

namespace EnumNames

variable {σ α β γ : Type}

namespace Ledger

/-- The owner still holds the tasks of whose success it has not heard, and it may submit more. -/
structure Owes (ledger : Ledger) (held : List Nat) : Prop where
  isOpen : ledger.isClosed = false
  rest : ∀ task < ledger.submitted, task ∈ ledger.heard ∨ task ∈ held

variable {ledger : Ledger} {held others : List Nat} {task : Nat}

theorem owes_fresh : fresh.Owes [] := ⟨rfl, fun _ below => (nomatch below)⟩

theorem Owes.mono (owes : ledger.Owes held) (subset : held ⊆ others) : ledger.Owes others :=
  ⟨owes.isOpen, fun task below => (owes.rest task below).imp_right fun member => subset member⟩

theorem Owes.submit (owes : ledger.Owes held) : ledger.submit.Owes (ledger.submitted :: held) := by
  refine ⟨owes.isOpen, fun task below => ?_⟩
  rcases Nat.lt_succ_iff_lt_or_eq.mp below with earlier | rfl
  · exact (owes.rest task earlier).imp_right (List.mem_cons_of_mem _)
  · exact .inr List.mem_cons_self

theorem Owes.hear (owes : ledger.Owes (task :: held)) : (ledger.hear task).Owes held := by
  refine ⟨owes.isOpen, fun other below => ?_⟩
  rcases owes.rest other below with heard | member
  · exact .inl (List.mem_append_left _ heard)
  · rcases List.mem_cons.mp member with rfl | member
    · exact .inl (List.mem_append_right _ List.mem_cons_self)
    · exact .inr member

theorem Owes.isClear (owes : ledger.Owes []) : ledger.IsClear :=
  fun task below => (owes.rest task below).resolve_right List.not_mem_nil

end Ledger

namespace Plan

variable {ledger : Ledger} {task : Nat}

theorem Settles.imp {plan : Plan σ α β} {wanted hoped : β → Ledger → Prop}
    (settles : plan.Settles ledger wanted)
    (each : ∀ value after, wanted value after → hoped value after) : plan.Settles ledger hoped := by
  rw [← plan.bind_done]
  exact Settles.bind settles each

theorem settles_queue (isOpen : ledger.isClosed = false) (origin : String)
    (job : Process σ (Outcome α)) : (queue origin job).Settles ledger fun task after =>
      task = ledger.submitted ∧ after = ledger.submit :=
  ⟨isOpen, rfl, rfl⟩

theorem settles_wait (task : Nat) : (wait task : Plan σ α _).Settles ledger fun result after =>
    ∀ value, result = .ok value → after = ledger.hear task :=
  ⟨fun _ _ _ => rfl, fun _ _ same => nomatch same⟩

theorem settles_dropAll (tasks : List Nat) :
    (dropAll tasks : Plan σ α Unit).Settles ledger fun _ _ => True := by
  induction tasks with
  | nil => trivial
  | cons task rest inductionHypothesis => exact inductionHypothesis

/-- An attempt settles, and leaves the books as wanted when it succeeds. -/
def Clears (attempt : ExceptT Failure (Plan σ α) β) (ledger : Ledger)
    (wanted : β → Ledger → Prop) : Prop :=
  attempt.run.Settles ledger fun result after => ∀ value, result = .ok value → wanted value after

theorem Clears.bind {first : ExceptT Failure (Plan σ α) β} {second : β → ExceptT Failure (Plan σ α) γ}
    {wanted : β → Ledger → Prop} {hoped : γ → Ledger → Prop} (clears : Clears first ledger wanted)
    (each : ∀ value after, wanted value after → Clears (second value) after hoped) :
    Clears (first >>= second) ledger hoped := by
  refine Settles.bind clears fun result after holds => ?_
  cases result with
  | ok value => exact each value after (holds value rfl)
  | error cause => exact fun _ same => nomatch same

theorem Settles.lift {plan : Plan σ α β} {wanted : β → Ledger → Prop}
    (settles : plan.Settles ledger wanted) :
    Clears (liftM plan : ExceptT Failure (Plan σ α) β) ledger wanted :=
  Settles.bind settles fun _ _ holds _ same => Except.ok.inj same ▸ holds

end Plan

namespace RunPlan

open Plan

variable {jobs : Jobs} {ledger : Ledger} {held others : List Nat}

/-- A step of a phase moves one slot on. Whatever else is owed stays owed, and a step that succeeds
has waited for the tasks that the slot no longer holds. -/
def Passes (step : Entry × Slot → RunPlan (Except Failure (Entry × Slot)))
    (owed owes : Slot → List Nat) : Prop :=
  ∀ (ledger : Ledger) place others, ledger.Owes (owed place.2 ++ others) →
    (step place).Settles ledger fun result after =>
      ∀ next, result = .ok next → after.Owes (owes next.2 ++ others)

/-- The tasks that are left when all reads have been collected. -/
def repairs : Slot → List Nat
  | .repairing task => [task]
  | _ => []

theorem clears_orLetGo {attempt : RunPlan (Except Failure β)} {wanted : β → Ledger → Prop}
    (settles : attempt.Settles ledger fun result after =>
      ∀ value, result = .ok value → wanted value after) :
    Clears (orLetGo held attempt) ledger wanted := by
  refine Settles.bind settles fun result after holds => ?_
  cases result with
  | ok value => exact holds
  | error cause => exact Settles.bind (settles_dropAll held) fun _ _ _ _ same => nomatch same

/-- The slots take their turns one after another; the induction carries what is owed to the slots that
have had theirs. -/
theorem clears_inTurn {step : Entry × Slot → RunPlan (Except Failure (Entry × Slot))}
    {owed owes : Slot → List Nat} (passes : Passes step owed owes) {owing : List Nat}
    {places : List (Entry × Slot)} (before : ledger.Owes (owing ++ places.flatMap (owed ·.2))) :
    Clears (inTurn step held places) ledger
      fun nexts after => after.Owes (owing ++ nexts.flatMap (owes ·.2)) := by
  induction places generalizing ledger held owing with
  | nil =>
    intro nexts same
    cases same
    exact before
  | cons place rest inductionHypothesis =>
    let others := rest.flatMap (owed ·.2)
    have order : (owing ++ (owed place.2 ++ others)).Perm (owed place.2 ++ (owing ++ others)) :=
      List.perm_append_comm_assoc _ _ _
    refine (clears_orLetGo (passes ledger place _ (before.mono order.subset))).bind
      fun next after holds => ?_
    have nextOrder : (owes next.2 ++ (owing ++ others)).Perm (owing ++ owes next.2 ++ others) := by
      rw [List.append_assoc]
      exact List.perm_append_comm_assoc _ _ _
    refine (inductionHypothesis (holds.mono nextOrder.subset)).bind fun nexts last holdsLast => ?_
    intro value same
    cases same
    rwa [List.flatMap_cons, ← List.append_assoc]

theorem passes_submitRepair : Passes (submitRepair jobs) Slot.tasks Slot.tasks := by
  rintro ledger ⟨entry, slot⟩ others owes
  cases slot with
  | reading task =>
    by_cases unit : entry.isUnit = true
    · simp only [submitRepair, if_pos unit]
      refine (settles_wait task).bind fun result after heard => ?_
      cases result with
      | error cause => rintro next ⟨⟩
      | ok delivery =>
        obtain rfl := heard delivery rfl
        refine (settles_queue owes.hear.isOpen entry.name _).bind fun repair last => ?_
        rintro ⟨rfl, rfl⟩ next same
        cases same
        exact owes.hear.submit
    · have passes : submitRepair jobs (entry, .reading task) = pure (.ok (entry, .reading task)) :=
        if_neg unit
      rw [passes]
      rintro next ⟨⟩
      exact owes
  | repairing task =>
    rintro next ⟨⟩
    exact owes
  | ready item =>
    rintro next ⟨⟩
    exact owes

theorem passes_collectRead : Passes collectRead Slot.tasks repairs := by
  rintro ledger ⟨entry, slot⟩ others owes
  cases slot with
  | reading task =>
    refine (settles_wait task).bind fun result after heard => ?_
    cases result with
    | error cause => exact fun _ same => nomatch same
    | ok delivery =>
      rintro next ⟨⟩
      obtain rfl := heard delivery rfl
      exact owes.hear
  | repairing task =>
    rintro next ⟨⟩
    exact owes
  | ready item =>
    rintro next ⟨⟩
    exact owes

theorem passes_collectRepair : Passes collectRepair repairs fun _ => [] := by
  rintro ledger ⟨entry, slot⟩ others owes
  cases slot with
  | reading task =>
    rintro next ⟨⟩
    exact owes
  | repairing task =>
    refine (settles_wait task).bind fun result after heard => ?_
    cases result with
    | error cause => exact fun _ same => nomatch same
    | ok delivery =>
      rintro next ⟨⟩
      obtain rfl := heard delivery rfl
      exact owes.hear
  | ready item =>
    rintro next ⟨⟩
    exact owes

theorem settles_submitReads {read : Entry → Outcome ByteArray} {entries : List Entry}
    (owes : ledger.Owes held) : (submitReads read entries).Settles ledger fun places after =>
      after.Owes (held ++ places.flatMap (·.2.tasks)) := by
  induction entries generalizing ledger held with
  | nil =>
    refine owes.mono ?_
    simp
  | cons entry rest inductionHypothesis =>
    refine (settles_queue owes.isOpen entry.name _).bind fun task after => ?_
    rintro ⟨rfl, rfl⟩
    refine (inductionHypothesis owes.submit).bind fun places last holds => holds.mono ?_
    have order : (ledger.submitted :: (held ++ places.flatMap (·.2.tasks))).Perm
        (held ++ ledger.submitted :: places.flatMap (·.2.tasks)) := List.perm_middle.symm
    exact order.subset

theorem settles_submitBackup (jobs : Jobs) :
    (submitBackup jobs).Settles .fresh fun held after => after.Owes held := by
  unfold submitBackup
  split
  · exact Ledger.owes_fresh
  · exact ⟨rfl, Ledger.owes_fresh.submit⟩

theorem settles_awaitAll (owes : ledger.Owes (held ++ others)) :
    (awaitAll held).Settles ledger fun result after =>
      ∀ value, result = .ok value → after.Owes others := by
  induction held generalizing ledger with
  | nil => exact fun _ _ => owes
  | cons task rest inductionHypothesis =>
    refine (settles_wait task).bind fun result after heard => ?_
    cases result with
    | error cause => exact fun _ same => nomatch same
    | ok delivery =>
      obtain rfl := heard delivery rfl
      exact inductionHypothesis owes.hear

theorem clears_gatherEntries {archive : Archive} (owes : ledger.Owes held) :
    Clears (gatherEntries jobs archive held) ledger fun _ after => after.Owes [] := by
  unfold gatherEntries
  refine (settles_submitReads owes).lift.bind fun reads opened owesReads => ?_
  refine (clears_inTurn passes_submitRepair owesReads).bind fun submitted second owesSubmitted => ?_
  refine (clears_inTurn passes_collectRead owesSubmitted).bind fun collected third owesRepairs => ?_
  refine (clears_orLetGo (settles_awaitAll owesRepairs)).bind fun _ fourth owesNone => ?_
  have nothing : fourth.Owes ([] ++ collected.flatMap (repairs ·.2)) := owesNone
  refine (clears_inTurn passes_collectRepair nothing).bind fun repaired fifth holds => ?_
  rintro items ⟨⟩
  refine holds.mono ?_
  simp

/-- Opening the archive leaves the disk as it is. -/
theorem settles_load (path : String) : (Archive.load path : RunPlan (Except Failure Archive)).Settles
    ledger fun _ after => after = ledger :=
  .inl fun _ => ⟨rfl, rfl⟩

theorem clears_gather (settings : Settings) (jobs : Jobs) :
    Clears (gather settings jobs) .fresh fun _ after => after.Owes [] := by
  unfold gather
  refine (settles_submitBackup jobs).lift.bind fun held opening owes => ?_
  have loads : Clears (orLetGo held (Archive.load settings.input)) opening
      fun _ after => after.Owes held :=
    clears_orLetGo ((settles_load settings.input).imp fun _ after same _ _ => same ▸ owes)
  exact loads.bind fun archive after owes => clears_gatherEntries owes

theorem settles_write {settings : Settings} {processed : List Processed} (clear : ledger.IsClear) :
    (settings.write processed : ExceptT Failure RunPlan Report).run.Settles ledger
      fun _ after => after.IsClear := by
  refine .inr ⟨clear, fun tree => ?_⟩
  change Settles (ExceptT.bindCont (m := RunPlan)
    (fun _ => pure (Report.ofProcessed settings.output processed)) _) ledger.close _
  unfold ExceptT.bindCont
  split <;> exact clear

/-- The owner of a run that succeeds has heard of the success of all its tasks. -/
theorem settles_ofJobs (settings : Settings) (jobs : Jobs) :
    (ofJobs settings jobs).Settles .fresh fun result after =>
      ∀ report, result = .ok report → after.IsClear := by
  unfold ofJobs
  split
  · exact fun _ same => nomatch same
  · refine Settles.bind (clears_gather settings jobs) fun result after owes => ?_
    cases result with
    | error cause => exact fun _ same => nomatch same
    | ok processed =>
      have clear := (owes processed rfl).isClear
      exact ⟨clear, (settles_write clear).imp fun _ _ holds _ _ => holds⟩

end RunPlan

section Reaching

variable {κ : Type} {step : κ → κ → Prop} {goal : κ → Prop} {first last : κ}

/-- A goal behind which nothing happens lies ahead of every state on the way to it. -/
theorem Inevitable.persists (stops : ∀ state next, goal state → ¬ step state next)
    (inevitable : Inevitable step goal first) (steps : Relation.ReflTransGen step first last) :
    Inevitable step goal last := by
  induction steps with
  | refl => exact inevitable
  | tail _ moves inductionHypothesis =>
    cases inductionHypothesis with
    | reached holds => exact absurd moves (stops _ _ holds)
    | ahead _ each => exact each _ moves

theorem Inevitable.reach (inevitable : Inevitable step goal first) :
    Inevitable step (fun state => goal state ∧ Relation.ReflTransGen step first state) first := by
  induction inevitable with
  | reached holds => exact .reached ⟨holds, .refl⟩
  | ahead moves _ inductionHypothesis =>
    exact .ahead moves fun next moved => (inductionHypothesis next moved).imp
      fun state reached => ⟨reached.1, .head moved reached.2⟩

theorem Inevitable.exists_reached (inevitable : Inevitable step goal first) :
    ∃ state, goal state ∧ Relation.ReflTransGen step first state := by
  induction inevitable with
  | reached holds => exact ⟨_, holds, .refl⟩
  | ahead moves _ inductionHypothesis =>
    obtain ⟨next, moved⟩ := moves
    obtain ⟨state, holds, steps⟩ := inductionHypothesis next moved
    exact ⟨state, holds, .head moved steps⟩

end Reaching

namespace Situation

variable {first last next : Situation σ α β} {deeds later : List (Deed α)}

theorem Ends.not_step {value : β} {shared : σ} (ends : first.Ends value shared) :
    ¬ first.Step next := by
  obtain ⟨plan, crew⟩ := first
  obtain rfl : plan = .done value := ends.plan
  intro step
  cases step with
  | owner moves => cases moves
  | worker step => exact Crew.not_step ends.idle step

/-- An owner that is done does nothing any more. -/
theorem plan_of_done {value : β} (done : first.plan = .done value)
    (steps : Relation.ReflTransGen Step first last) : last.plan = .done value := by
  induction steps with
  | refl => exact done
  | tail _ step inductionHypothesis =>
    cases step with
    | owner moves =>
      rw [inductionHypothesis] at moves
      cases moves
    | worker step => exact inductionHypothesis

end Situation

namespace Jobs

/-- No job makes up a failure that only the slot reports. -/
structure IsCaught (jobs : Jobs) : Prop where
  backup : ∀ job ∈ jobs.backup, ∀ tree origin cause,
    (job.run tree).1 ≠ .failed (.uncaught origin cause)
  repair : ∀ entry data origin cause, jobs.repair entry data ≠ .failed (.uncaught origin cause)

variable {jobs : Jobs} {origin : String} {cause : Failure}

theorem awaited_ne_uncaught {outcome : Outcome α} (caught : outcome ≠ .failed (.uncaught origin cause))
    (own : String) : failure? (outcome.awaited own) ≠ some (.uncaught origin cause) := by
  cases outcome with
  | finished value => exact nofun
  | failed found =>
    intro same
    obtain rfl := Option.some.inj same
    exact caught rfl
  | panicked payload =>
    intro same
    cases same

theorem IsCaught.backedUp (caught : jobs.IsCaught) (tree : FileTree) :
    failure? (jobs.backedUp tree).1 ≠ some (.uncaught origin cause) := by
  unfold Jobs.backedUp
  split
  · exact nofun
  · rename_i job made
    exact awaited_ne_uncaught (caught.backup job made tree origin cause) _

/-- A run looks for the failures of the reads, of the backup and of the repairs, and finds none that
only the slot reports. -/
theorem IsCaught.firstFailure? (caught : jobs.IsCaught) (archive : Archive) (tree : FileTree) :
    jobs.firstFailure? archive (jobs.backedUp tree).1 ≠ some (.uncaught origin cause) := by
  have reads (entries : List Entry) :
      entries.findSome? (jobs.readFailure? archive) ≠ some (.uncaught origin cause) := by
    intro found
    obtain ⟨entry, _, same⟩ := List.exists_of_findSome?_eq_some found
    obtain ⟨inner, _, named⟩ := Option.map_eq_some_iff.mp same
    cases named
  have repairs (entries : List Entry) :
      entries.findSome? (jobs.repairFailure? archive) ≠ some (.uncaught origin cause) := by
    intro found
    obtain ⟨entry, _, same⟩ := List.exists_of_findSome?_eq_some found
    unfold Jobs.repairFailure? at same
    split at same
    · exact awaited_ne_uncaught (caught.repair entry _ origin cause) _ same
    · cases same
  intro found
  simp only [Jobs.firstFailure?, Option.orElse_eq_some] at found
  rcases found with same | ⟨_, same | ⟨_, same | ⟨_, same⟩⟩⟩
  · exact reads _ same
  · exact reads _ same
  · exact caught.backedUp tree same
  · exact repairs _ same

end Jobs

theorem Outcome.error_of_ofExcept {result : Except Failure α} {cause : Failure}
    (failed : Outcome.ofExcept result = .failed cause) : result = .error cause := by
  cases result with
  | ok value => cases failed
  | error found =>
    obtain rfl := Outcome.failed.inj failed
    rfl

/-- A backup fails in its own name. -/
theorem Backup.error_of_make {input path : String} {tree : FileTree} {cause : Failure}
    (failed : ((make input path : StateM FileTree (Except Failure Unit)) tree).1 = .error cause) :
    ∃ inner, cause = .backup path inner := by
  rw [make_eq] at failed
  split at failed
  · cases failed
  · cases made : ((replace input path : StateM FileTree (Except OsError Unit)) tree).1 with
    | ok value =>
      rw [made] at failed
      cases failed
    | error inner =>
      rw [made] at failed
      exact ⟨inner, (Except.error.inj failed).symm⟩

namespace Settings

variable {settings : Settings} {jobs : Jobs} {tree : FileTree} {origin : String} {cause : Failure}

/-- The jobs of the run itself are among them. -/
theorem isCaught_jobs (settings : Settings) : settings.jobs.IsCaught where
  backup := by
    intro job made tree origin cause failed
    obtain ⟨path, _, rfl⟩ := Option.map_eq_some_iff.mp made
    rw [Process.run_bind, Process.performs_make] at failed
    obtain ⟨inner, same⟩ := Backup.error_of_make (Outcome.error_of_ofExcept failed)
    cases same
  repair := by
    intro entry data origin cause failed
    have made : Processed.ofEntry entry data = .error _ := Outcome.error_of_ofExcept failed
    unfold Processed.ofEntry at made
    split at made
    · cases found : Processed.ofClass entry data <;> rw [found] at made <;> cases made
    · cases made

/-- What a run comes to is no failure that only the slot reports. -/
theorem conclude_caught {gathered : Except Failure (List Processed)} (caught : jobs.IsCaught)
    {seen : FileTree}
    (comes : jobs.Comes (Archive.ofRead settings.input (seen.read settings.input))
      (jobs.backedUp tree).1 gathered) :
    (settings.conclude gathered (jobs.backedUp tree).2).1 ≠ .error (.uncaught origin cause) := by
  cases gathered with
  | ok items =>
    rw [conclude_ok]
    split <;> exact nofun
  | error found =>
    intro same
    obtain rfl : found = .uncaught origin cause := Except.error.inj same
    unfold Jobs.Comes at comes
    split at comes
    · rename_i opened
      obtain rfl := Except.error.inj comes
      unfold Archive.ofRead at opened
      split at opened
      · rename_i bytes _
        cases read : Archive.open bytes <;> rw [read] at opened <;> cases opened
      · cases opened
      · cases opened
    · split at comes
      · rename_i failed
        obtain rfl := Except.error.inj comes
        exact caught.firstFailure? _ tree failed
      · obtain ⟨items, same, _⟩ := comes
        cases same

/-- A run ends under every schedule, and not with a failure that only the slot reports. -/
theorem inevitable_end (settings : Settings) (jobs : Jobs) (tree : FileTree) :
    Inevitable Situation.Step (fun situation => ∃ result after, situation.Ends result after ∧
      (jobs.IsCaught → ∀ origin cause, result ≠ .error (.uncaught origin cause)))
      (settings.situation jobs tree) := by
  by_cases staffed : settings.workers = 0
  · exact .reached ⟨_, _, RunPlan.ends_of_unstaffed staffed jobs tree, fun _ _ _ => nofun⟩
  · refine (RunPlan.inevitable_ofJobs staffed jobs tree).imp fun situation => ?_
    rintro ⟨seen, gathered, _, comes, ends⟩
    exact ⟨_, _, ends, fun caught _ _ => conclude_caught caught comes⟩

variable {deeds : List (Deed Delivery)}
  {last : Situation FileTree Delivery (Except Failure Report)}

theorem inevitable_end_of_chronicle (chronicle : (settings.situation jobs tree).Chronicle deeds last) :
    Inevitable Situation.Step (fun situation => ∃ result after, situation.Ends result after ∧
      (jobs.IsCaught → ∀ origin cause, result ≠ .error (.uncaught origin cause))) last := by
  refine (inevitable_end settings jobs tree).persists (fun situation next => ?_)
    (Situation.exists_chronicle.mp ⟨deeds, chronicle⟩)
  rintro ⟨result, after, ends, _⟩
  exact ends.not_step

/-- After a panic a run ends with a failure, since an owner that succeeds has heard of the success of
every task. -/
theorem inevitable_failure (chronicle : (settings.situation jobs tree).Chronicle deeds last)
    {task : Nat} {payload : PanicPayload} (panicked : .came task (.panicked payload) ∈ deeds) :
    Inevitable Situation.Step (fun situation => ∃ cause after, situation.Ends (.error cause) after)
      last := by
  refine (inevitable_end_of_chronicle chronicle).reach.imp fun situation => ?_
  rintro ⟨⟨result, after, ends, _⟩, onward⟩
  cases result with
  | error cause => exact ⟨cause, after, ends⟩
  | ok report =>
    obtain ⟨later, onward⟩ := Situation.exists_chronicle.mpr onward
    have whole := chronicle.trans onward
    have among := List.mem_append_left later panicked
    obtain ⟨ledger, settled⟩ := whole.exists_settled (RunPlan.settles_ofJobs settings jobs)
    have settles := settled.settles
    rw [ends.plan] at settles
    obtain ⟨value, heard⟩ := settled.exists_heard (settles report rfl) (whole.inside rfl among rfl)
    cases whole.came_of_heard rfl heard among

/-- Whatever the jobs of a run come to and whichever schedule they run under: the run never fails with
a failure that only the slot reports, since its own jobs do not make up such a failure. When it shuts
its crew down, the slot is empty, and the owner has heard of the success of every task. When a job
panics, the run ends with a failure, and at no time does its owner change the disk. -/
theorem failures_are_waited_for (settings : Settings) (jobs : Jobs) (tree : FileTree)
    (chronicle : (settings.situation jobs tree).Chronicle deeds last) :
    settings.jobs.IsCaught ∧
    (jobs.IsCaught → Inevitable Situation.Step (fun situation => ∃ result after,
        situation.Ends result after ∧ ∀ origin cause, result ≠ .error (.uncaught origin cause)) last ∧
      ∀ origin cause, last.plan ≠ .done (.error (.uncaught origin cause))) ∧
    (last.plan.isShutdown = true → last.crew.pending = .empty ∧
      ∀ task < last.crew.cells.length, ∃ value, .received task (.ok value) ∈ deeds) ∧
    ∀ task payload, .came task (.panicked payload) ∈ deeds →
      Inevitable Situation.Step (fun situation => ∃ cause after, situation.Ends (.error cause) after)
        last ∧
      (settings.situation jobs tree).IsStill deeds last := by
  have ahead := inevitable_end_of_chronicle chronicle
  refine ⟨isCaught_jobs settings, fun caught => ⟨ahead.imp fun situation => ?_, ?_⟩,
    fun shutdown => ?_, fun task payload panicked => ?_⟩
  · rintro ⟨result, after, ends, never⟩
    exact ⟨result, after, ends, never caught⟩
  · intro origin cause done
    obtain ⟨situation, ⟨result, after, ends, never⟩, onward⟩ := ahead.exists_reached
    have same := (Situation.plan_of_done done onward).symm.trans ends.plan
    exact never caught origin cause (Plan.done.inj same).symm
  · obtain ⟨ledger, settled⟩ := chronicle.exists_settled (RunPlan.settles_ofJobs settings jobs)
    have clear := settled.settles.isClear shutdown
    exact ⟨settled.quiet clear chronicle rfl rfl, fun task inside => settled.exists_heard clear inside⟩
  · exact ⟨inevitable_failure chronicle panicked,
      Situation.isStill_of_panicked (RunPlan.settles_ofJobs settings jobs) panicked⟩

/-- The backup does nothing but come to this outcome. -/
def exampleJobs (outcome : Outcome Unit) : Jobs :=
  { (⟨"in", "out", some "b", 1⟩ : Settings).jobs with backup := some (.done outcome) }

/-- What is left to do when the archive has been opened. -/
def exampleOpening (found : Except Failure Archive) : RunPlan (Except Failure Report) := do
  let entries : ExceptT Failure RunPlan (List Processed) := do
    let archive ← RunPlan.orLetGo [0] (.done found)
    RunPlan.gatherEntries (exampleJobs (.finished ())) archive [0]
  match ← entries.run with
  | .error cause =>
    Plan.joined
    return .error cause
  | .ok processed =>
    Plan.joined
    match ← Plan.checked with
    | .error cause => return .error cause
    | .ok () => ((⟨"in", "out", some "b", 1⟩ : Settings).write processed).run

/-- One run comes to its shutdown with a backup that succeeds. The other one has a backup that
panics. -/
theorem failures_are_waited_for_example :
    let settings : Settings := ⟨"in", "out", some "b", 1⟩
    let tree : FileTree := ⟨[(["in"], .file emptyArchive)], []⟩
    let panic : PanicPayload := .text "out of memory"
    (∃ deeds last, (settings.situation (exampleJobs (.finished ())) tree).Chronicle deeds last ∧
      last.plan.isShutdown = true ∧ last.crew.pending = .empty ∧
      ∃ value, .received 0 (.ok value) ∈ deeds) ∧
    ∃ last, (settings.situation (exampleJobs (.panicked panic)) tree).Chronicle
        [.came 0 (.panicked panic)] last ∧
      Inevitable Situation.Step (fun situation => ∃ result after, situation.Ends result after ∧
        ∀ origin cause, result ≠ .error (.uncaught origin cause)) last ∧
      Inevitable Situation.Step (fun situation => ∃ cause after, situation.Ends (.error cause) after)
        last ∧
      (settings.situation (exampleJobs (.panicked panic)) tree).IsStill
        [.came 0 (.panicked panic)] last := by
  intro settings tree panic
  constructor
  · have begun : (settings.situation (exampleJobs (.finished ())) tree).Chronicle [] _ := .start
    have submitted := begun.next (.owner .submit)
    have opened : Situation.Chronicle _ [] ⟨exampleOpening (Archive.ofRead "in" (tree.read "in")), _⟩ :=
      submitted.next (.owner .act)
    have read : Archive.ofRead "in" (tree.read "in") = .ok ⟨emptyArchive, #[]⟩ := by cbv
    rw [read] at opened
    have taken := opened.goesOn rfl rfl (.inl (by decide))
    have came := taken.goesOn rfl rfl (.inr rfl)
    have received := came.next (.owner (.receive rfl rfl))
    have collected := received.next (.owner (.collect rfl))
    have closed := collected.next (.owner (.close rfl))
    obtain ⟨_, _, shutdown, _⟩ := failures_are_waited_for settings _ tree closed
    obtain ⟨quiet, heard⟩ := shutdown rfl
    exact ⟨_, _, closed, rfl, quiet, heard 0 (by decide)⟩
  · have begun : (settings.situation (exampleJobs (.panicked panic)) tree).Chronicle [] _ := .start
    have submitted := begun.next (.owner .submit)
    have taken := submitted.goesOn rfl rfl (.inl (by decide))
    have came := taken.goesOn rfl rfl (.inr rfl)
    obtain ⟨⟨_, repair⟩, never, _, fails⟩ := failures_are_waited_for settings _ tree came
    have caught : (exampleJobs (.panicked panic)).IsCaught := by
      refine ⟨?_, repair⟩
      rintro job ⟨⟩ tree origin cause same
      cases same
    obtain ⟨fails, still⟩ := fails 0 panic List.mem_cons_self
    exact ⟨_, came, (never caught).1, fails, still⟩

end Settings

end EnumNames
