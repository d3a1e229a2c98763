import EnumNames.Proofs.Schedule.Chronicle

/-!
Turns that nobody interrupts. A worker takes a job and stays with it to its end, or the owner follows a
plan to its end, while everybody else stands still. Main statements: each such turn replaces one cell,
and these are the failures that are offered at it.
-/

namespace EnumNames

variable {σ α β : Type}

namespace PendingFailure

/-- The offers are made one after another. -/
def recordAll (slot : PendingFailure) (offers : List (String × Failure)) : PendingFailure :=
  offers.foldl (fun slot offer => (slot.record offer.1 offer.2).2) slot

theorem recordAll_append (slot : PendingFailure) (first second : List (String × Failure)) :
    slot.recordAll (first ++ second) = (slot.recordAll first).recordAll second :=
  List.foldl_append

theorem held_recordAll (slot : PendingFailure) (offers : List (String × Failure)) :
    (slot.recordAll offers).held = slot.held.or offers.head? := by
  induction offers generalizing slot with
  | nil => exact (Option.or_none).symm
  | cons offer rest inductionHypothesis =>
    refine (inductionHypothesis _).trans ?_
    obtain ⟨_ | held⟩ := slot <;> rfl

end PendingFailure

namespace Outcome

/-- The failure that a job returns. -/
def error? : Outcome α → Option Failure
  | .failed cause => some cause
  | _ => none

/-- The failure that a worker makes of a panic. -/
def panic? : Outcome α → Option Failure
  | .panicked payload => some (.workerPanic payload.message)
  | _ => none

/-- What a worker offers at the end of a job: a panic always, a failure only when it cannot be
delivered. -/
def undelivered? (outcome : Outcome α) (isOwned : Bool) : Option Failure :=
  if isOwned then outcome.panic? else outcome.cause?

end Outcome

/-- The offer of a failure, if there is one. -/
def offersOf (origin : String) (cause? : Option Failure) : List (String × Failure) :=
  (cause?.map (origin, ·)).toList

namespace Crew

/-- One cell has been replaced, and the failures have been offered meanwhile. -/
structure Tends (crew after : Crew σ α) (number : Nat) (cell : Cell σ α)
    (made : List (String × Failure)) : Prop where
  cells : after.cells = crew.cells.set number cell
  offers : after.offers = crew.offers ++ made
  pending : after.pending = crew.pending.recordAll made
  size : after.size = crew.size

variable {crew middle after other : Crew σ α} {number : Nat} {cell next : Cell σ α}
  {offers more : List (String × Failure)} {origin : String} {channel : Channel α} {shared : σ}

theorem Tends.trans (first : crew.Tends middle number cell offers)
    (second : middle.Tends after number next more) :
    crew.Tends after number next (offers ++ more) where
  cells := by rw [second.cells, first.cells, List.set_set]
  offers := by rw [second.offers, first.offers, List.append_assoc]
  pending := by rw [second.pending, first.pending, PendingFailure.recordAll_append]
  size := second.size.trans first.size

theorem Tends.self (tends : crew.Tends after number next offers)
    (found : crew.cells[number]? = some cell) : after.cells[number]? = some next := by
  rw [tends.cells, List.getElem?_set_self (List.getElem?_eq_some_iff.mp found).1]

theorem tends_replace : crew.Tends (crew.replace number cell) number cell [] :=
  ⟨rfl, (List.append_nil _).symm, rfl, rfl⟩

theorem tends_work : crew.Tends (crew.work number cell) number (cell.work crew.shared).2.1
    (offersOf cell.origin (cell.work crew.shared).1) := by
  refine ⟨cells_work, ?_, ?_, size_work⟩
  · unfold work
    rcases cell.work crew.shared with ⟨_ | cause, next, shared⟩
    · exact (List.append_nil _).symm
    · rfl
  · unfold work
    rcases cell.work crew.shared with ⟨_ | cause, next, shared⟩ <;> rfl

theorem tends_collect : crew.Tends (crew.collect number cell) number
    { cell with channel := cell.channel.take.2 } cell.failure?.toList := by
  unfold collect Cell.failure?
  rcases same : cell.channel.message with _ | cause | value
  · exact tends_replace
  · exact ⟨rfl, rfl, rfl, rfl⟩
  · exact tends_replace

theorem getElem?_work (found : crew.cells[number]? = some cell) :
    (crew.work number cell).cells[number]? = some (cell.work crew.shared).2.1 :=
  tends_work.self found

/-- A worker stays with a job until the job has ended. -/
inductive Finishes (number : Nat) : Crew σ α → Crew σ α → Prop
  | ended {crew : Crew σ α} {cell : Cell σ α} (found : crew.cells[number]? = some cell)
      (ended : cell.stage.isEnded = true) : Finishes number crew crew
  | work {crew after : Crew σ α} {cell : Cell σ α} (found : crew.cells[number]? = some cell)
      (active : cell.stage.isEnded = false) (rest : Finishes number (crew.work number cell) after) :
      Finishes number crew after

/-- A worker alone cannot do different things. -/
theorem Finishes.unique (finishes : Finishes number crew after) (others : Finishes number crew other) :
    after = other := by
  induction finishes with
  | ended found ended =>
    cases others with
    | ended => rfl
    | work again active =>
      obtain rfl := Option.some.inj (found.symm.trans again)
      cases ended.symm.trans active
  | work found active _ inductionHypothesis =>
    cases others with
    | ended again ended =>
      obtain rfl := Option.some.inj (found.symm.trans again)
      cases ended.symm.trans active
    | work again _ rest =>
      obtain rfl := Option.some.inj (found.symm.trans again)
      exact inductionHypothesis rest

/-- The worker finishes the job: this is the cell behind it, and the failures offered meanwhile. -/
def FinishesAs (crew : Crew σ α) (number : Nat) (cell : Cell σ α)
    (offers : List (String × Failure)) (shared : σ) : Prop :=
  ∃ after, Finishes number crew after ∧ crew.Tends after number cell offers ∧ after.shared = shared

/-- The worker takes its next step first. -/
theorem FinishesAs.work (found : crew.cells[number]? = some cell)
    (active : cell.stage.isEnded = false)
    (rest : (crew.work number cell).FinishesAs number next offers shared) :
    crew.FinishesAs number next (offersOf cell.origin (cell.work crew.shared).1 ++ offers) shared := by
  obtain ⟨after, finishes, tends, same⟩ := rest
  exact ⟨after, .work found active finishes, tends_work.trans tends, same⟩

theorem finishesAs_leaving (found : crew.cells[number]? = some ⟨origin, .leaving, channel⟩) :
    crew.FinishesAs number ⟨origin, .ended, channel.closeSender⟩ [] crew.shared :=
  ⟨_, .work found rfl (.ended (getElem?_work found) rfl), tends_work, rfl⟩

theorem finishesAs_offering {cause : Failure}
    (found : crew.cells[number]? = some ⟨origin, .offering cause, channel⟩) :
    crew.FinishesAs number ⟨origin, .ended, channel.closeSender⟩ [(origin, cause)] crew.shared :=
  .work found rfl (finishesAs_leaving (getElem?_work found))

/-- A job has come to its outcome; the receiver is there as long as the task is owned. -/
theorem finishesAs_done {outcome : Outcome α} {isOwned : Bool}
    (found : crew.cells[number]? = some ⟨origin, .running (.done outcome), ⟨none, true, isOwned⟩⟩) :
    crew.FinishesAs number ⟨origin, .ended, ⟨if isOwned then outcome.message? else none, false, isOwned⟩⟩
      (offersOf origin (outcome.undelivered? isOwned)) crew.shared := by
  refine FinishesAs.work found rfl ?_
  have behind := getElem?_work found
  cases outcome with
  | finished value => cases isOwned <;> exact finishesAs_leaving behind
  | failed cause =>
    cases isOwned with
    | true => exact finishesAs_leaving behind
    | false => exact finishesAs_offering behind
  | panicked payload => cases isOwned <;> exact finishesAs_offering behind

/-- The induction is on the steps of the job. -/
theorem finishesAs_running {job : Process σ (Outcome α)} {isOwned : Bool}
    (found : crew.cells[number]? = some ⟨origin, .running job, ⟨none, true, isOwned⟩⟩) :
    crew.FinishesAs number
      ⟨origin, .ended, ⟨if isOwned then (job.run crew.shared).1.message? else none, false, isOwned⟩⟩
      (offersOf origin ((job.run crew.shared).1.undelivered? isOwned)) (job.run crew.shared).2 := by
  induction job generalizing crew with
  | done outcome => exact finishesAs_done found
  | act change next inductionHypothesis =>
    exact .work found rfl (inductionHypothesis crew.shared (getElem?_work found))

/-- A queued job is run to its end. -/
theorem finishesAs_queued {job : Process σ (Outcome α)} {isOwned : Bool}
    (found : crew.cells[number]? = some ⟨origin, .queued job, ⟨none, true, isOwned⟩⟩) :
    crew.FinishesAs number
      ⟨origin, .ended, ⟨if isOwned then (job.run crew.shared).1.message? else none, false, isOwned⟩⟩
      (offersOf origin ((job.run crew.shared).1.undelivered? isOwned)) (job.run crew.shared).2 :=
  .work found rfl (finishesAs_running (getElem?_work found))

end Crew

namespace Plan

/-- The owner follows a plan to its end. -/
inductive Alone : Plan σ α β → Crew σ α → β → Crew σ α → Prop
  | done {value : β} {crew : Crew σ α} : Alone (.done value) crew value crew
  | next {plan onward : Plan σ α β} {crew middle after : Crew σ α} {value : β}
      (moves : plan.next? crew = some (onward, middle)) (rest : Alone onward middle value after) :
      Alone plan crew value after

variable {plan : Plan σ α β} {crew after other : Crew σ α} {value found : β} {number : Nat}

/-- An owner alone cannot do different things. -/
theorem Alone.unique (alone : plan.Alone crew value after) (others : plan.Alone crew found other) :
    value = found ∧ after = other := by
  induction alone with
  | done =>
    cases others with
    | done => exact ⟨rfl, rfl⟩
    | next moves => cases moves
  | next moves _ inductionHypothesis =>
    cases others with
    | done => cases moves
    | next again rest =>
      obtain ⟨rfl, rfl⟩ := Prod.mk.inj (Option.some.inj (moves.symm.trans again))
      exact inductionHypothesis rest

/-- A task is let go in two steps, and nothing comes in between. -/
theorem exists_letGo {cell : Cell σ α} (found : crew.cells[number]? = some cell) (value : β) :
    ∃ after, Alone (.collect number (.close number (.done value))) crew value after ∧
      crew.Tends after number { cell with channel := ⟨none, cell.channel.hasSender, false⟩ }
        cell.failure?.toList ∧ after.shared = crew.shared := by
  have collects : (Plan.collect number (.close number (.done value)) : Plan σ α β).next? crew =
      some (.close number (.done value), crew.collect number cell) := by simp [next?, found]
  have behind : (crew.collect number cell).cells[number]? =
      some { cell with channel := cell.channel.take.2 } := Crew.tends_collect.self found
  have closes : (Plan.close number (.done value) : Plan σ α β).next? (crew.collect number cell) =
      some (.done value, (crew.collect number cell).close number
        { cell with channel := cell.channel.take.2 }) := by simp [next?, behind]
  refine ⟨_, .next collects (.next closes .done), ?_, ?_⟩
  · rw [← List.append_nil cell.failure?.toList]
    exact Crew.tends_collect.trans Crew.tends_replace
  · change (crew.collect number cell).shared = crew.shared
    unfold Crew.collect
    split <;> rfl

/-- Whoever has waited for a task lets it go, and then its channel is empty. -/
theorem exists_wait {cell : Cell σ α} (found : crew.cells[number]? = some cell)
    {result : Except Failure α} (there : cell.channel.receive cell.origin = some result) :
    ∃ after, (wait number).Alone crew result after ∧
      crew.Tends after number { cell with channel := ⟨none, cell.channel.hasSender, false⟩ } [] ∧
      after.shared = crew.shared := by
  have receives : (wait number : Plan σ α _).next? crew =
      some (.collect number (.close number (.done result)), crew.take number cell) := by
    simp [wait, next?, found, there]
  obtain ⟨after, alone, tends, same⟩ := exists_letGo (Crew.tends_replace.self found) result
  exact ⟨after, .next receives alone, Crew.tends_replace.trans tends, same⟩

/-- An owner who has waited for a task has received something. -/
theorem Alone.received {cell : Cell σ α} {result : Except Failure α}
    (alone : (wait number).Alone crew result after) (found : crew.cells[number]? = some cell) :
    cell.channel.receive cell.origin = some result := by
  cases alone with
  | next moves rest =>
    cases there : cell.channel.receive cell.origin with
    | none => simp [wait, next?, found, there] at moves
    | some other =>
      obtain ⟨_, whole, _⟩ := exists_wait found there
      rw [(whole.unique (.next moves rest)).1]

end Plan

end EnumNames
