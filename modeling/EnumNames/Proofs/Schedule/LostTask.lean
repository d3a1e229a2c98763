import EnumNames.Proofs.Schedule.Roster

/-!
Lost tasks. The worker records a panic while it still holds the sender, so nobody can find a task
lost before its panic is on record. Main statement: a task that its owner finds lost has panicked,
the panic has been offered before, and the shutdown of the crew reports a failure; only a job that
returns this very failure itself looks the same to its owner.
-/

namespace EnumNames

variable {σ α β : Type}

/-- The owner has done nothing yet to the channel of the task. -/
def Deed.Untouched (task : Nat) (deeds : List (Deed α)) : Prop :=
  ∀ deed ∈ ofTask task deeds, deed.isOwners = false

namespace Plan

/-- The failure that is taken out of the slot is the one that a check reports. -/
def taken : Plan σ α (Option (String × Failure)) := .check fun
  | .error (.uncaught origin cause) => .done (some (origin, cause))
  | _ => .done none

theorem next?_taken (crew : Crew σ α) : (taken : Plan σ α _).next? crew =
    some (.done crew.pending.take.1, { crew with pending := crew.pending.take.2 }) := by
  obtain ⟨size, cells, ⟨held⟩, offers, shared⟩ := crew
  cases held <;> rfl

end Plan

namespace Cell

variable {task : Nat} {cell : Cell σ α} {own : List (Deed α)} {origin : String}

/-- A task is found lost in two ways only: the job itself has returned such a failure, or it has
panicked, and the worker has offered the panic and let go of the channel. -/
theorem Accounts.lost (accounts : cell.Accounts task own)
    (untouched : ∀ deed ∈ own, deed.isOwners = false)
    (lost : cell.channel.receive cell.origin = some (.error (.taskLost origin))) :
    .came task (.failed (.taskLost origin)) ∈ own ∨ ∃ payload, .came task (.panicked payload) ∈ own ∧
      .offered task origin (.workerPanic payload.message) ∈ own := by
  rcases accounts with atWork | ⟨outcome, hasCome⟩
  · cases (atWork.receive _).symm.trans lost
  have settled := hasCome.untouched untouched
  unfold Channel.receive at lost
  split at lost
  · rename_i message there
    obtain rfl := Option.some.inj lost
    have sent := settled.symm.trans there
    cases outcome with
    | finished value => cases sent
    | failed cause =>
      cases sent
      exact .inl hasCome.came
    | panicked payload => cases sent
  · rename_i empty
    split at lost
    · cases lost
    · rename_i gone
      obtain rfl := Failure.taskLost.inj (Except.error.inj (Option.some.inj lost))
      have silent := settled.symm.trans empty
      cases outcome with
      | finished value => cases silent
      | failed cause => cases silent
      | panicked payload =>
        refine .inr ⟨payload, hasCome.came, (hasCome.panicked payload rfl).resolve_left fun offering => ?_⟩
        rw [hasCome.sender, offering] at gone
        exact gone rfl

end Cell

namespace Situation

variable {first before after last : Situation σ α β} {deeds earlier later : List (Deed α)}
  {task : Nat} {origin : String}

/-- Only the owner receives anything, and from the channel of the task. -/
theorem Does.received {result : Except Failure α}
    (does : before.Does (some (.received task result)) after) :
    ∃ cell, before.crew.cells[task]? = some cell ∧
      cell.channel.receive cell.origin = some result := by
  generalize same : some (Deed.received task result) = deed? at does
  cases does with
  | worker found allowed =>
    unfold Cell.deed? at same
    split at same <;> cases same
  | owner moves =>
    obtain ⟨plan, crew⟩ := before
    cases moves with
    | receive found there =>
      cases same
      exact ⟨_, found, there⟩
    | _ => cases same

/-- The panic of a lost task was offered before its owner learnt that the task was lost. -/
theorem Chronicle.lost (chronicle : first.Chronicle deeds last) (empty : first.crew.cells = [])
    (split : deeds = earlier ++ .received task (.error (.taskLost origin)) :: later)
    (untouched : Deed.Untouched task earlier) :
    .came task (.failed (.taskLost origin)) ∈ earlier ∨
    ∃ payload, .came task (.panicked payload) ∈ earlier ∧
      .offered task origin (.workerPanic payload.message) ∈ earlier := by
  obtain ⟨before, after, reached, does⟩ := chronicle.moment split
  obtain ⟨cell, found, lost⟩ := does.received
  have accounts := (reached.accounts empty).1 task cell found
  rcases accounts.lost untouched lost with own | ⟨payload, came, offered⟩
  · exact .inl (Deed.mem_ofTask.mp own).1
  · exact .inr ⟨payload, (Deed.mem_ofTask.mp came).1, (Deed.mem_ofTask.mp offered).1⟩

/-- As long as nobody empties the slot, it holds the first failure that was offered. -/
theorem Chronicle.held_of_unchecked (chronicle : first.Chronicle deeds last)
    (empty : first.crew.pending = .empty) (unchecked : .checked ∉ deeds) :
    last.crew.pending.held = (deeds.filterMap Deed.offer?).head? := by
  have all : (deeds.rtakeWhile fun deed => !deed.isChecked) = deeds := by
    refine List.rtakeWhile_eq_self_iff.mpr fun deed member => ?_
    cases deed with
    | checked => exact absurd member unchecked
    | _ => rfl
  rw [chronicle.held empty, all]

theorem Chronicle.size_eq (chronicle : first.Chronicle deeds last) :
    last.crew.size = first.crew.size := by
  induction chronicle with
  | start => rfl
  | next earlier does inductionHypothesis => exact does.size_eq.trans inductionHypothesis

/-- Shutting the crew down reports the first failure that was offered. -/
theorem Chronicle.shutdown {crew : Crew σ α} {next : Except Failure Unit → Plan σ α β}
    {offer : String × Failure} (chronicle : first.Chronicle deeds ⟨.join (.check next), crew⟩)
    (empty : first.crew.pending = .empty) (positive : 0 < first.crew.size)
    (unchecked : .checked ∉ deeds) (offered : (deeds.filterMap Deed.offer?).head? = some offer) :
    Inevitable Step (·.plan = next (.error (.uncaught offer.1 offer.2)))
      ⟨.join (.check next), crew⟩ := by
  have held : crew.pending.held = some offer :=
    (chronicle.held_of_unchecked empty unchecked).trans offered
  exact inevitable_uncaught (chronicle.size_eq.symm ▸ positive) held

/-- Whatever steps owner and workers take: when the owner finds a task lost that it has not touched
before, the job has returned this very failure itself, or it has panicked, the panic has been offered
before, and unless somebody empties the slot the shutdown reports the first failure that was offered.
The worker of any job that is over can take the next job of the queue, and all jobs end. -/
theorem lost_task_on_record (plan : Plan σ α β) {size : Nat} (positive : 0 < size) (shared : σ) :
    let first : Situation σ α β := ⟨plan, .start size shared⟩
    (∀ {deeds earlier later : List (Deed α)} {last : Situation σ α β} {task : Nat} {origin : String},
      first.Chronicle deeds last →
      deeds = earlier ++ .received task (.error (.taskLost origin)) :: later →
      Deed.Untouched task earlier →
        .came task (.failed (.taskLost origin)) ∈ earlier ∨
        ∃ payload, .came task (.panicked payload) ∈ earlier ∧
          .offered task origin (.workerPanic payload.message) ∈ earlier ∧
          (.checked ∉ deeds → ∀ next, last.plan = .join (.check next) →
            ∃ offer, last.crew.offers.head? = some offer ∧
              Inevitable Step (·.plan = next (.error (.uncaught offer.1 offer.2))) last)) ∧
    (∀ {posts : List (Option Nat)} {now : Situation σ α β} {worker number : Nat} {cell : Cell σ α},
      first.Shift posts now → posts[worker]? = some (some number) →
      now.crew.cells[number]? = some cell → cell.stage.job? = none →
        ∃ crew, first.Shift (posts.set worker none) ⟨now.plan, crew⟩ ∧
          (∃ ended : Cell σ α, ended.stage = .ended ∧
            crew.cells = now.crew.cells.set number ended) ∧
          ∀ (place : Nat) (waiting : Cell σ α) (job : Process σ (Outcome α)),
            crew.IsNext place waiting → waiting.stage = .queued job → ∃ later,
              first.Shift (posts.set worker (some place)) ⟨now.plan, later⟩ ∧
              later.cells = crew.cells.set place { waiting with stage := .running job }) ∧
    ∀ {last : Situation σ α β}, Relation.ReflTransGen Step first last →
      Inevitable Step IsAtRest last := by
  intro first
  refine ⟨fun {deeds earlier later last task origin} chronicle split untouched => ?_,
    fun shift there found jobless => shift.survives rfl there found jobless, fun {last} steps => ?_⟩
  · refine (chronicle.lost rfl split untouched).imp_right ?_
    rintro ⟨payload, came, offered⟩
    refine ⟨payload, came, offered, fun unchecked next shuts => ?_⟩
    obtain ⟨plan, crew⟩ := last
    obtain rfl : plan = .join (.check next) := shuts
    have among : (origin, .workerPanic payload.message) ∈ deeds.filterMap Deed.offer? := by
      rw [split]
      exact List.mem_filterMap.mpr ⟨_, List.mem_append_left _ offered, rfl⟩
    obtain ⟨offer, head⟩ := Option.isSome_iff_exists.mp
      (List.isSome_head?.mpr (List.ne_nil_of_mem among))
    refine ⟨offer, ?_, chronicle.shutdown rfl positive unchecked head⟩
    rw [chronicle.offers]
    exact head
  · obtain ⟨deeds, chronicle⟩ := exists_chronicle.mpr steps
    obtain ⟨plan, crew⟩ := last
    have size : crew.size = size := chronicle.size_eq
    exact inevitable_rest plan (size ▸ positive)

/-- The owner waits for a job that does nothing but come to this outcome, and then has another job
done before the crew is shut down. -/
def exampleLoss (outcome : Outcome Unit) : Situation Unit Unit (Except Failure Unit) where
  plan := .submit "boom" (.done outcome) fun task => .receive task fun _ =>
    .submit "after" (.done (.finished ())) fun _ => .join (.check .done)
  crew := .start 1 ()

/-- The job panics before its owner waits for it, and the shutdown reports the panic. The only worker
is free again when it has left the job. -/
theorem lost_task_on_record_panic :
    let panic : Outcome Unit := .panicked (.text "exploded")
    let lost : Deed Unit := .received 0 (.error (.taskLost "boom"))
    (∃ earlier last, (exampleLoss panic).Chronicle (earlier ++ [lost]) last ∧
      .offered 0 "boom" (.workerPanic "exploded") ∈ earlier ∧
      Inevitable Step (·.plan = .done (.error (.uncaught "boom" (.workerPanic "exploded")))) last) ∧
    ∃ now crew, (exampleLoss panic).Shift [some 0] now ∧
      (exampleLoss panic).Shift [none] ⟨now.plan, crew⟩ ∧ Inevitable Step IsAtRest now := by
  intro panic lost
  obtain ⟨onRecord, survives, rest⟩ :=
    lost_task_on_record (exampleLoss panic).plan (by decide : 0 < 1) ()
  constructor
  · have submitted := (Chronicle.start : (exampleLoss panic).Chronicle [] _).next (.owner .submit)
    have taken := submitted.goesOn rfl rfl (.inl (by decide))
    have came := taken.goesOn rfl rfl (.inr rfl)
    have offered := came.goesOn rfl rfl (.inr rfl)
    have left := offered.goesOn rfl rfl (.inr rfl)
    have found := left.next (.owner (.receive rfl rfl))
    let earlier : List (Deed Unit) := [.came 0 panic, .offered 0 "boom" (.workerPanic "exploded")]
    have shuts : (exampleLoss panic).Chronicle (earlier ++ [lost]) _ := found.next (.owner .submit)
    have untouched : Deed.Untouched 0 earlier := by
      simp [earlier, Deed.Untouched, Deed.ofTask, Deed.task?, Deed.isOwners]
    refine ⟨earlier, _, shuts, by simp [earlier], ?_⟩
    have split : earlier ++ [lost] = earlier ++ lost :: [] := rfl
    rcases onRecord shuts split untouched with own | ⟨payload, came, offered, told⟩
    · simp [earlier, panic] at own
    · obtain ⟨offer, head, inevitable⟩ := told (by simp [earlier, lost]) _ rfl
      cases head
      exact inevitable
  · have submitted := (Shift.start : (exampleLoss panic).Shift [none] _).owner rfl
    have free : ([none] : List (Option Nat))[0]? = some none := rfl
    have busy : ([some 0] : List (Option Nat))[0]? = some (some 0) := rfl
    have taken : (exampleLoss panic).Shift [some 0] _ := submitted.takes free ⟨rfl, rfl, by simp⟩
    have came : (exampleLoss panic).Shift [some 0] _ := taken.goesOn busy rfl
    obtain ⟨crew, free, _, _⟩ := survives came busy rfl rfl
    exact ⟨_, crew, came, free, rest ((exists_shift rfl).mp ⟨_, came⟩)⟩

/-- A job can say itself that its task is lost, and then no panic is on record. -/
theorem lost_task_without_panic : ¬ ∀ (first last : Situation Unit Unit (Except Failure Unit))
    (deeds earlier later : List (Deed Unit)) (task : Nat) (origin : String),
    first.crew = .start 1 () → first.Chronicle deeds last →
    deeds = earlier ++ .received task (.error (.taskLost origin)) :: later →
    Deed.Untouched task earlier → ∃ words, .offered task origin (.workerPanic words) ∈ earlier := by
  intro claimed
  let own : Outcome Unit := .failed (.taskLost "boom")
  have submitted := (Chronicle.start : (exampleLoss own).Chronicle [] _).next (.owner .submit)
  have taken := submitted.goesOn rfl rfl (.inl (by decide))
  have came := taken.goesOn rfl rfl (.inr rfl)
  have found : (exampleLoss own).Chronicle
      [.came 0 own, .received 0 (.error (.taskLost "boom"))] _ := came.next (.owner (.receive rfl rfl))
  have untouched : Deed.Untouched 0 [.came 0 own] := by
    simp [Deed.Untouched, Deed.ofTask, Deed.task?, Deed.isOwners]
  obtain ⟨words, offered⟩ := claimed _ _ _ [.came 0 own] [] 0 "boom" rfl found rfl untouched
  simp at offered

end Situation

end EnumNames
