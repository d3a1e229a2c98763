import EnumNames.Proofs.Schedule.Assurance
import Mathlib.Data.List.DropRight
import Mathlib.Logic.Relation

/-!
What workers and the owner have done about the results of the jobs, one deed after another. Main
statement: under every schedule the cell of a task is what its own deeds have made of it, and the
failure slot is what the offers have made of it.
-/

namespace EnumNames

variable {σ α β : Type}

/-- A worker brings a job to its outcome and offers a failure; the rest is done by the owner. -/
inductive Deed (α : Type) where
  | came (task : Nat) (outcome : Outcome α)
  | offered (task : Nat) (origin : String) (cause : Failure)
  | received (task : Nat) (result : Except Failure α)
  | collected (task : Nat) (found : Option (String × Failure))
  | closed (task : Nat)
  | checked

namespace Deed

def task? : Deed α → Option Nat
  | .came task _ | .offered task _ _ | .received task _ | .collected task _ | .closed task => some task
  | .checked => none

def outcome? : Deed α → Option (Outcome α)
  | .came _ outcome => some outcome
  | _ => none

def offer? : Deed α → Option (String × Failure)
  | .offered _ origin cause => some (origin, cause)
  | .collected _ found => found
  | _ => none

/-- The owner does something to the channel of a task. -/
def isOwners : Deed α → Bool
  | .received _ _ | .collected _ _ | .closed _ => true
  | _ => false

def isChecked : Deed α → Bool
  | .checked => true
  | _ => false

/-- The deeds that were done to one task. -/
def ofTask (task : Nat) (deeds : List (Deed α)) : List (Deed α) :=
  deeds.filter (·.task? == some task)

theorem ofTask_append (task : Nat) (first second : List (Deed α)) :
    ofTask task (first ++ second) = ofTask task first ++ ofTask task second :=
  List.filter_append ..

theorem mem_ofTask {task : Nat} {deeds : List (Deed α)} {deed : Deed α} :
    deed ∈ ofTask task deeds ↔ deed ∈ deeds ∧ deed.task? = some task := by
  simp [ofTask]

theorem ofTask_same {task : Nat} {deed? : Option (Deed α)}
    (own : ∀ deed ∈ deed?, deed.task? = some task) : ofTask task deed?.toList = deed?.toList :=
  List.filter_eq_self.mpr fun deed member => by simp [own deed (Option.mem_toList.mp member)]

theorem ofTask_other {task number : Nat} (different : number ≠ task) {deed? : Option (Deed α)}
    (own : ∀ deed ∈ deed?, deed.task? = some number) : ofTask task deed?.toList = [] :=
  List.filter_eq_nil_iff.mpr fun deed member => by
    simp [own deed (Option.mem_toList.mp member), different]

end Deed

/-- What a job comes to when nobody is there to hear of it. -/
def Outcome.cause? : Outcome α → Option Failure
  | .finished _ => none
  | .failed cause => some cause
  | .panicked payload => some (.workerPanic payload.message)

namespace Cell

/-- The failure that has been delivered and not been taken. -/
def failure? (cell : Cell σ α) : Option (String × Failure) :=
  match cell.channel.message with
  | some (.error cause) => some (cell.origin, cause)
  | _ => none

/-- What the worker of the task does at its next step. -/
def deed? (task : Nat) (cell : Cell σ α) : Option (Deed α) :=
  match cell.stage with
  | .running (.done outcome) => some (.came task outcome)
  | .offering cause => some (.offered task cell.origin cause)
  | _ => none

/-- Somebody does something to a task: its worker, or the owner. -/
inductive Turn (task : Nat) (cell : Cell σ α) : Option (Deed α) → Cell σ α → Prop
  | worked (shared : σ) (active : cell.stage.isEnded = false) :
      Turn task cell (cell.deed? task) (cell.work shared).2.1
  | received {result : Except Failure α} (there : cell.channel.receive cell.origin = some result) :
      Turn task cell (some (.received task result)) { cell with channel := cell.channel.take.2 }
  | collected : Turn task cell (some (.collected task cell.failure?))
      { cell with channel := cell.channel.take.2 }
  | closed : Turn task cell (some (.closed task))
      { cell with channel := cell.channel.closeReceiver }

/-- The job still has to come to something, so its owner has not found anything. -/
structure IsAtWork (task : Nat) (cell : Cell σ α) (own : List (Deed α)) : Prop where
  works : cell.stage.job?.isSome = true
  quiet : ∀ deed ∈ own, deed = .collected task none ∨ deed = .closed task
  sender : cell.channel.hasSender = true
  message : cell.channel.message = none
  receiver : own = [] → cell.channel.hasReceiver = true

/-- The job has come to an outcome. The channel is only closed behind a panic when the panic has been
offered. -/
structure HasCome (task : Nat) (cell : Cell σ α) (own : List (Deed α)) (outcome : Outcome α) :
    Prop where
  idle : cell.stage.job? = none
  came : .came task outcome ∈ own
  once : own.filterMap Deed.outcome? = [outcome]
  sender : cell.channel.hasSender = !cell.stage.isEnded
  offering : ∀ cause, cell.stage = .offering cause → outcome.cause? = some cause
  panicked : ∀ payload, outcome = .panicked payload →
    cell.stage = .offering (.workerPanic payload.message) ∨
      .offered task cell.origin (.workerPanic payload.message) ∈ own
  message : ∀ message, cell.channel.message = some message → outcome.message? = some message
  untouched : (∀ deed ∈ own, deed.isOwners = false) → cell.channel.message = outcome.message?
  received : ∀ result, .received task result ∈ own →
    result = outcome.awaited cell.origin ∨ result = .error (.taskLost cell.origin)
  offered : ∀ deed ∈ own, ∀ offer, deed.offer? = some offer →
    offer.1 = cell.origin ∧ outcome.cause? = some offer.2

/-- The cell is what the deeds done to its task have made of it. -/
def Accounts (task : Nat) (cell : Cell σ α) (own : List (Deed α)) : Prop :=
  cell.IsAtWork task own ∨ ∃ outcome, cell.HasCome task own outcome

variable {task : Nat} {cell next : Cell σ α} {own : List (Deed α)} {outcome : Outcome α}

theorem accounts_submitted (task : Nat) (origin : String) (job : Process σ (Outcome α)) :
    (submitted origin job).Accounts task [] :=
  .inl ⟨rfl, by simp, rfl, rfl, fun _ => rfl⟩

theorem Turn.task?_eq {deed? : Option (Deed α)} (turn : cell.Turn task deed? next) :
    ∀ deed ∈ deed?, deed.task? = some task := by
  cases turn with
  | worked shared active =>
    unfold Cell.deed?
    split
    · rintro _ ⟨⟩
      rfl
    · rintro _ ⟨⟩
      rfl
    · simp
  | received there => rintro _ ⟨⟩; rfl
  | collected => rintro _ ⟨⟩; rfl
  | closed => rintro _ ⟨⟩; rfl

theorem IsAtWork.eq_nil (atWork : cell.IsAtWork task own)
    (untouched : ∀ deed ∈ own, deed.isOwners = false) : own = [] := by
  refine List.eq_nil_iff_forall_not_mem.mpr fun deed member => ?_
  have others := untouched deed member
  rcases atWork.quiet deed member with rfl | rfl <;> cases others

/-- The owner waits as long as the job is at work. -/
theorem IsAtWork.receive (atWork : cell.IsAtWork task own) (origin : String) :
    cell.channel.receive origin = none := by
  simp [Channel.receive, atWork.message, atWork.sender]

/-- What the worker makes of the cell when the job has come to its outcome. -/
theorem IsAtWork.hasCome (atWork : cell.IsAtWork task own) (idle : next.stage.job? = none)
    (sender : next.channel.hasSender = !next.stage.isEnded)
    (offering : ∀ cause, next.stage = .offering cause → outcome.cause? = some cause)
    (panicked : ∀ payload, outcome = .panicked payload →
      next.stage = .offering (.workerPanic payload.message))
    (message : ∀ message, next.channel.message = some message → outcome.message? = some message)
    (untouched : own = [] → next.channel.message = outcome.message?) :
    next.HasCome task (own ++ [.came task outcome]) outcome where
  idle
  came := List.mem_append_right _ List.mem_cons_self
  once := by
    have silent : own.filterMap Deed.outcome? = [] := by
      refine List.filterMap_eq_nil_iff.mpr fun deed member => ?_
      rcases atWork.quiet deed member with rfl | rfl <;> rfl
    rw [List.filterMap_append, silent]
    rfl
  sender
  offering
  panicked payload same := .inl (panicked payload same)
  message
  untouched others := untouched (atWork.eq_nil fun deed member =>
    others deed (List.mem_append_left _ member))
  received result member := by
    rcases List.mem_append.mp member with member | member
    · rcases atWork.quiet _ member with same | same <;> cases same
    · simp at member
  offered deed member offer same := by
    rcases List.mem_append.mp member with member | member
    · rcases atWork.quiet deed member with rfl | rfl <;> cases same
    · obtain rfl := List.mem_singleton.mp member
      cases same

theorem IsAtWork.deliver (atWork : cell.IsAtWork task own) {message : Except Failure α}
    (comes : outcome = .ofExcept message) :
    (cell.deliver message).HasCome task (own ++ [.came task outcome]) outcome := by
  have sent : outcome.message? = some message := by
    subst comes
    cases message <;> rfl
  have calm (payload : PanicPayload) : outcome ≠ .panicked payload := by
    subst comes
    cases message <;> exact nofun
  obtain ⟨origin, stage, inside, hasSender, hasReceiver⟩ := cell
  obtain rfl : inside = none := atWork.message
  obtain rfl : hasSender = true := atWork.sender
  cases hasReceiver with
  | true =>
    exact atWork.hasCome rfl rfl nofun (fun payload same => absurd same (calm payload))
      (fun other same => Option.some.inj same ▸ sent) fun _ => sent.symm
  | false =>
    have touched : own ≠ [] := fun same => nomatch atWork.receiver same
    cases message with
    | ok value =>
      exact atWork.hasCome rfl rfl nofun (fun payload same => absurd same (calm payload)) nofun
        fun same => absurd same touched
    | error cause =>
      refine atWork.hasCome rfl rfl (fun other same => ?_)
        (fun payload same => absurd same (calm payload)) nofun fun same => absurd same touched
      cases same
      subst comes
      rfl

theorem IsAtWork.finish (atWork : cell.IsAtWork task own) (outcome : Outcome α) :
    (cell.finish outcome).HasCome task (own ++ [.came task outcome]) outcome := by
  cases outcome with
  | finished value => exact atWork.deliver rfl
  | failed cause => exact atWork.deliver rfl
  | panicked payload =>
    obtain ⟨origin, stage, message, hasSender, hasReceiver⟩ := cell
    obtain rfl : message = none := atWork.message
    obtain rfl : hasSender = true := atWork.sender
    exact atWork.hasCome rfl rfl (fun cause same => Stage.offering.inj same ▸ rfl)
      (fun _ same => Outcome.panicked.inj same ▸ rfl) nofun fun _ => rfl

/-- The worker of the task takes a step. -/
theorem Accounts.work (accounts : cell.Accounts task own) (shared : σ)
    (active : cell.stage.isEnded = false) :
    (cell.work shared).2.1.Accounts task (own ++ (cell.deed? task).toList) := by
  obtain ⟨origin, stage, channel⟩ := cell
  rcases accounts with atWork | ⟨outcome, hasCome⟩
  · cases stage with
    | queued job =>
      rw [show deed? task _ = none from rfl, Option.toList_none, List.append_nil]
      exact .inl ⟨rfl, atWork.quiet, atWork.sender, atWork.message, atWork.receiver⟩
    | running job =>
      cases job with
      | act change following =>
        rw [show deed? task _ = none from rfl, Option.toList_none, List.append_nil]
        exact .inl ⟨rfl, atWork.quiet, atWork.sender, atWork.message, atWork.receiver⟩
      | done outcome => exact .inr ⟨outcome, atWork.finish outcome⟩
    | offering cause => cases atWork.works
    | leaving => cases atWork.works
    | ended => cases atWork.works
  · refine .inr ⟨outcome, ?_⟩
    cases stage with
    | queued job => cases hasCome.idle
    | running job => cases hasCome.idle
    | offering cause =>
      have comes := hasCome.offering cause rfl
      have latest : deed? task (⟨origin, .offering cause, channel⟩ : Cell σ α) =
        some (.offered task origin cause) := rfl
      rw [latest]
      refine ⟨rfl, List.mem_append_left _ hasCome.came, ?_, hasCome.sender, nofun, fun payload same => .inr ?_, hasCome.message,
        fun others => ?_, fun result member => ?_, ?_⟩
      · rw [List.filterMap_append, hasCome.once]
        rfl
      · subst same
        obtain rfl := Option.some.inj comes
        exact List.mem_append_right _ List.mem_cons_self
      · exact hasCome.untouched fun deed member => others deed (List.mem_append_left _ member)
      · refine hasCome.received result ((List.mem_append.mp member).resolve_right ?_)
        simp
      · intro deed member offer same
        rcases List.mem_append.mp member with member | member
        · exact hasCome.offered deed member offer same
        · obtain rfl := List.mem_singleton.mp member
          obtain rfl := Option.some.inj same
          exact ⟨rfl, comes⟩
    | leaving =>
      rw [show deed? task _ = none from rfl, Option.toList_none, List.append_nil]
      exact ⟨rfl, hasCome.came, hasCome.once, rfl, nofun,
        fun payload same => .inr ((hasCome.panicked payload same).resolve_left nofun),
        hasCome.message, hasCome.untouched, hasCome.received, hasCome.offered⟩
    | ended => cases active

/-- The owner has emptied the channel. -/
theorem HasCome.emptied (hasCome : cell.HasCome task own outcome) {deed : Deed α} {channel : Channel α}
    (owners : deed.isOwners = true) (empty : channel.message = none)
    (sender : channel.hasSender = cell.channel.hasSender)
    (received : ∀ result, deed = .received task result →
      result = outcome.awaited cell.origin ∨ result = .error (.taskLost cell.origin))
    (offered : ∀ offer, deed.offer? = some offer →
      offer.1 = cell.origin ∧ outcome.cause? = some offer.2) :
    HasCome task { cell with channel } (own ++ [deed]) outcome where
  idle := hasCome.idle
  came := List.mem_append_left _ hasCome.came
  once := by
    have silent : deed.outcome? = none := by
      cases deed <;> first | rfl | cases owners
    rw [List.filterMap_append, hasCome.once, List.filterMap_cons_none silent]
    rfl
  sender := sender.trans hasCome.sender
  offering := hasCome.offering
  panicked payload same := (hasCome.panicked payload same).imp_right (List.mem_append_left _)
  message message there := nomatch empty.symm.trans there
  untouched others := by
    cases owners.symm.trans (others deed (List.mem_append_right _ List.mem_cons_self))
  received result member := by
    rcases List.mem_append.mp member with member | member
    · exact hasCome.received result member
    · exact received result (List.mem_singleton.mp member).symm
  offered other member offer same := by
    rcases List.mem_append.mp member with member | member
    · exact hasCome.offered other member offer same
    · obtain rfl := List.mem_singleton.mp member
      exact offered offer same

/-- The owner looks into a channel in which nothing has arrived, or closes it. -/
theorem IsAtWork.emptied (atWork : cell.IsAtWork task own) {deed : Deed α} {channel : Channel α}
    (quiet : deed = .collected task none ∨ deed = .closed task) (empty : channel.message = none)
    (sender : channel.hasSender = cell.channel.hasSender) :
    IsAtWork task { cell with channel } (own ++ [deed]) where
  works := atWork.works
  quiet other member := by
    rcases List.mem_append.mp member with member | member
    · exact atWork.quiet other member
    · obtain rfl := List.mem_singleton.mp member
      exact quiet
  sender := sender.trans atWork.sender
  message := empty
  receiver none := by simp at none

/-- A job comes to nothing else later. -/
theorem HasCome.eq (hasCome : cell.HasCome task own outcome) {other : Outcome α}
    (came : .came task other ∈ own) : other = outcome := by
  have member : other ∈ own.filterMap Deed.outcome? := List.mem_filterMap.mpr ⟨_, came, rfl⟩
  rw [hasCome.once] at member
  exact List.mem_singleton.mp member

/-- Whoever waits for a job gets what it came to, or learns that its task is lost. -/
theorem HasCome.receive (hasCome : cell.HasCome task own outcome) {result : Except Failure α}
    (there : cell.channel.receive cell.origin = some result) :
    result = outcome.awaited cell.origin ∨ result = .error (.taskLost cell.origin) := by
  unfold Channel.receive at there
  split at there
  · rename_i message found
    obtain rfl := Option.some.inj there
    exact .inl (Outcome.awaited_of_message? (hasCome.message message found) _).symm
  · split at there
    · cases there
    · exact .inr (Option.some.inj there).symm

theorem HasCome.failure? (hasCome : cell.HasCome task own outcome) {offer : String × Failure}
    (found : cell.failure? = some offer) : offer.1 = cell.origin ∧ outcome.cause? = some offer.2 := by
  unfold Cell.failure? at found
  split at found
  · rename_i cause there
    obtain rfl := Option.some.inj found
    have sent := hasCome.message _ there
    refine ⟨rfl, ?_⟩
    cases outcome with
    | finished value => cases sent
    | failed other =>
      cases sent
      rfl
    | panicked payload => cases sent
  · cases found

/-- Whoever does something to a task, its cell is still accounted for. -/
theorem Accounts.turn (accounts : cell.Accounts task own) {deed? : Option (Deed α)}
    (turn : cell.Turn task deed? next) : next.Accounts task (own ++ deed?.toList) := by
  cases turn with
  | worked shared active => exact accounts.work shared active
  | received there =>
    rcases accounts with atWork | ⟨outcome, hasCome⟩
    · cases (atWork.receive _).symm.trans there
    · refine .inr ⟨outcome, hasCome.emptied rfl rfl rfl (fun result same => ?_) nofun⟩
      cases same
      exact hasCome.receive there
  | collected =>
    rcases accounts with atWork | ⟨outcome, hasCome⟩
    · have nothing : cell.failure? = none := by simp [Cell.failure?, atWork.message]
      exact .inl (atWork.emptied (.inl (congrArg _ nothing)) rfl rfl)
    · exact .inr ⟨outcome, hasCome.emptied rfl rfl rfl nofun fun offer => hasCome.failure?⟩
  | closed =>
    rcases accounts with atWork | ⟨outcome, hasCome⟩
    · exact .inl (atWork.emptied (.inr rfl) rfl rfl)
    · exact .inr ⟨outcome, hasCome.emptied rfl rfl rfl nofun nofun⟩

end Cell

namespace Plan

/-- The next step of the owner, and what is done by it. -/
inductive Moves : Plan σ α β → Crew σ α → Option (Deed α) → Plan σ α β → Crew σ α → Prop
  | act {change : σ → σ} {next : σ → Plan σ α β} {crew : Crew σ α} :
      Moves (.act change next) crew none (next crew.shared) { crew with shared := change crew.shared }
  | submit {origin : String} {job : Process σ (Outcome α)} {next : Nat → Plan σ α β}
      {crew : Crew σ α} :
      Moves (.submit origin job next) crew none (next crew.cells.length) (crew.submit origin job)
  | receive {task : Nat} {next : Except Failure α → Plan σ α β} {crew : Crew σ α} {cell : Cell σ α}
      {result : Except Failure α} (found : crew.cells[task]? = some cell)
      (there : cell.channel.receive cell.origin = some result) :
      Moves (.receive task next) crew (some (.received task result)) (next result)
        (crew.take task cell)
  | collect {task : Nat} {next : Plan σ α β} {crew : Crew σ α} {cell : Cell σ α}
      (found : crew.cells[task]? = some cell) :
      Moves (.collect task next) crew (some (.collected task cell.failure?)) next
        (crew.collect task cell)
  | close {task : Nat} {next : Plan σ α β} {crew : Crew σ α} {cell : Cell σ α}
      (found : crew.cells[task]? = some cell) :
      Moves (.close task next) crew (some (.closed task)) next (crew.close task cell)
  | join {next : Plan σ α β} {crew : Crew σ α} (idle : crew.isIdle = true) :
      Moves (.join next) crew none next crew
  | check {next : Except Failure Unit → Plan σ α β} {crew : Crew σ α} :
      Moves (.check next) crew (some .checked) (next crew.pending.check.1)
        { crew with pending := crew.pending.check.2 }

theorem moves_iff {plan next : Plan σ α β} {crew after : Crew σ α} :
    plan.next? crew = some (next, after) ↔ ∃ deed?, plan.Moves crew deed? next after := by
  constructor
  · intro moves
    cases plan with
    | done value => cases moves
    | act change onward =>
      cases moves
      exact ⟨_, .act⟩
    | submit origin job onward =>
      cases moves
      exact ⟨_, .submit⟩
    | receive task onward =>
      obtain ⟨cell, found, moves⟩ := Option.bind_eq_some_iff.mp moves
      obtain ⟨result, there, moves⟩ := Option.bind_eq_some_iff.mp moves
      cases moves
      exact ⟨_, .receive found there⟩
    | collect task onward =>
      obtain ⟨cell, found, moves⟩ := Option.bind_eq_some_iff.mp moves
      cases moves
      exact ⟨_, .collect found⟩
    | close task onward =>
      obtain ⟨cell, found, moves⟩ := Option.bind_eq_some_iff.mp moves
      cases moves
      exact ⟨_, .close found⟩
    | join onward =>
      obtain ⟨idle, moves⟩ := Option.ite_none_right_eq_some.mp moves
      cases moves
      exact ⟨_, .join idle⟩
    | check onward =>
      cases moves
      exact ⟨_, .check⟩
  · rintro ⟨deed?, moves⟩
    cases moves with
    | act => rfl
    | submit => rfl
    | receive found there => simp [next?, found, there]
    | collect found => simp [next?, found]
    | close found => simp [next?, found]
    | join idle => simp [next?, idle]
    | check => rfl

end Plan

/-- What an offer makes of the slot. -/
def PendingFailure.recordAny (slot : PendingFailure) : Option (String × Failure) → PendingFailure
  | some (origin, cause) => (slot.record origin cause).2
  | none => slot

/-- A check empties the slot; otherwise it is filled by offers only. -/
def PendingFailure.after (slot : PendingFailure) : Option (Deed α) → PendingFailure
  | none => slot
  | some .checked => .empty
  | some deed => slot.recordAny deed.offer?

theorem PendingFailure.held_recordAny (slot : PendingFailure) (offer? : Option (String × Failure)) :
    (slot.recordAny offer?).held = slot.held.or offer? := by
  obtain ⟨_ | held⟩ := slot <;> cases offer? <;> rfl

namespace Crew

variable {crew : Crew σ α} {task : Nat} {cell : Cell σ α}

/-- The worker of a task tends its cell and makes the offer that the deed is. -/
theorem work_tends : (crew.work task cell).cells = crew.cells.set task (cell.work crew.shared).2.1 ∧
    (crew.work task cell).offers = crew.offers ++ ((cell.deed? task).bind Deed.offer?).toList ∧
    (crew.work task cell).pending = crew.pending.after (cell.deed? task) := by
  refine ⟨cells_work, ?_⟩
  obtain ⟨origin, stage, channel⟩ := cell
  rcases stage with job | (⟨_ | _ | _⟩ | _) | cause | _ | _ <;>
    simp [work, Cell.work, Cell.deed?, offerAny, offer, replace, Deed.offer?, PendingFailure.after,
      PendingFailure.recordAny]

/-- The owner looks into the channel and offers what it finds there. -/
theorem collect_tends : (crew.collect task cell).cells =
      crew.cells.set task { cell with channel := cell.channel.take.2 } ∧
    (crew.collect task cell).offers = crew.offers ++ cell.failure?.toList ∧
    (crew.collect task cell).pending = crew.pending.recordAny cell.failure? := by
  unfold collect Cell.failure?
  rcases cell.channel.message with _ | cause | value <;>
    simp [take, replace, offer, PendingFailure.recordAny]

end Crew

namespace Situation

/-- A step of the owner or of a worker, and the deed that it is. -/
inductive Does (before : Situation σ α β) : Option (Deed α) → Situation σ α β → Prop
  | owner {deed? : Option (Deed α)} {plan : Plan σ α β} {crew : Crew σ α}
      (moves : before.plan.Moves before.crew deed? plan crew) : before.Does deed? ⟨plan, crew⟩
  | worker {number : Nat} {cell : Cell σ α} (found : before.crew.cells[number]? = some cell)
      (allowed : before.crew.MayWork number cell) :
      before.Does (cell.deed? number) ⟨before.plan, before.crew.work number cell⟩

/-- Steps that lead from the first situation to another one, and all that is done by them. -/
inductive Chronicle (first : Situation σ α β) : List (Deed α) → Situation σ α β → Prop
  | start : Chronicle first [] first
  | next {deeds : List (Deed α)} {before after : Situation σ α β} {deed? : Option (Deed α)}
      (earlier : Chronicle first deeds before) (does : before.Does deed? after) :
      Chronicle first (deeds ++ deed?.toList) after

variable {first before after last : Situation σ α β} {deeds : List (Deed α)}
  {deed? : Option (Deed α)}

theorem step_iff : before.Step after ↔ ∃ deed?, before.Does deed? after := by
  constructor
  · intro step
    cases step with
    | owner moves =>
      obtain ⟨deed?, moves⟩ := Plan.moves_iff.mp moves
      exact ⟨deed?, .owner moves⟩
    | worker moves =>
      obtain ⟨found, allowed⟩ := moves
      exact ⟨_, .worker found allowed⟩
  · rintro ⟨deed?, does⟩
    cases does with
    | owner moves => exact .owner (Plan.moves_iff.mpr ⟨deed?, moves⟩)
    | worker found allowed => exact .worker (.work found allowed)

/-- Every schedule has a chronicle, and every chronicle belongs to a schedule. -/
theorem exists_chronicle :
    (∃ deeds, first.Chronicle deeds last) ↔ Relation.ReflTransGen Step first last := by
  constructor
  · rintro ⟨deeds, chronicle⟩
    induction chronicle with
    | start => exact .refl
    | next earlier does inductionHypothesis =>
      exact inductionHypothesis.tail (step_iff.mpr ⟨_, does⟩)
  · intro steps
    induction steps with
    | refl => exact ⟨[], .start⟩
    | tail _ step inductionHypothesis =>
      obtain ⟨deeds, chronicle⟩ := inductionHypothesis
      obtain ⟨deed?, does⟩ := step_iff.mp step
      exact ⟨_, chronicle.next does⟩

/-- Each deed was done at some moment, when all the deeds before it had been done. -/
theorem Chronicle.moment {deed : Deed α} {earlier later : List (Deed α)}
    (chronicle : first.Chronicle deeds last) (split : deeds = earlier ++ deed :: later) :
    ∃ before after, first.Chronicle earlier before ∧ before.Does (some deed) after := by
  induction chronicle generalizing later with
  | start => simp at split
  | @next deeds before after deed? chronicle does inductionHypothesis =>
    cases deed? with
    | none =>
      rw [Option.toList_none, List.append_nil] at split
      exact inductionHypothesis split
    | some latest =>
      rw [Option.toList_some] at split
      rcases later.eq_nil_or_concat with rfl | ⟨rest, other, rfl⟩
      · obtain ⟨rfl, same⟩ := List.append_inj' split rfl
        obtain rfl := List.singleton_inj.mp same
        exact ⟨before, after, chronicle, does⟩
      · rw [List.concat_eq_append, ← List.cons_append, ← List.append_assoc] at split
        exact inductionHypothesis (List.append_inj' split rfl).1

/-- The first job can go on, but as long as it is queued a worker has to be free for it. -/
theorem Chronicle.goesOn {cell : Cell σ α} (earlier : first.Chronicle deeds before)
    (found : before.crew.cells[0]? = some cell) (active : cell.stage.isEnded = false)
    (free : before.crew.cells.countP (·.stage.isBusy) < before.crew.size ∨
      cell.stage.isQueued = false) :
    first.Chronicle (deeds ++ (cell.deed? 0).toList) ⟨before.plan, before.crew.work 0 cell⟩ := by
  refine earlier.next (.worker found ⟨active, fun queued => ⟨by simp, ?_⟩⟩)
  exact free.resolve_right (by simp [queued])

/-- A step adds a cell, tends one, or leaves all cells alone. -/
theorem Does.cells (does : before.Does deed? after) :
    (after.crew.cells = before.crew.cells ∧ ∀ deed ∈ deed?, deed.task? = none) ∨
    (∃ origin job next, before.plan = .submit origin job next ∧ deed? = none ∧
      after.crew.cells = before.crew.cells ++ [.submitted origin job]) ∨
    ∃ task cell next, before.crew.cells[task]? = some cell ∧ cell.Turn task deed? next ∧
      after.crew.cells = before.crew.cells.set task next := by
  cases does with
  | worker found allowed =>
    exact .inr (.inr ⟨_, _, _, found, .worked _ allowed.1, Crew.work_tends.1⟩)
  | owner moves =>
    obtain ⟨plan, crew⟩ := before
    cases moves with
    | act => exact .inl ⟨rfl, nofun⟩
    | submit => exact .inr (.inl ⟨_, _, _, rfl, rfl, rfl⟩)
    | receive found there => exact .inr (.inr ⟨_, _, _, found, .received there, rfl⟩)
    | collect found => exact .inr (.inr ⟨_, _, _, found, .collected, Crew.collect_tends.1⟩)
    | close found => exact .inr (.inr ⟨_, _, _, found, .closed, rfl⟩)
    | join idle => exact .inl ⟨rfl, nofun⟩
    | check => exact .inl ⟨rfl, by rintro _ ⟨⟩; rfl⟩

/-- Only the deeds that are offers and checks have to do with the slot. -/
theorem Does.offers (does : before.Does deed? after) :
    after.crew.offers = before.crew.offers ++ (deed?.bind Deed.offer?).toList ∧
    after.crew.pending = before.crew.pending.after deed? := by
  cases does with
  | worker found allowed => exact Crew.work_tends.2
  | owner moves =>
    obtain ⟨plan, crew⟩ := before
    cases moves with
    | collect found => exact Crew.collect_tends.2
    | check =>
      refine ⟨(List.append_nil _).symm, ?_⟩
      unfold PendingFailure.check
      split <;> rfl
    | _ => exact ⟨(List.append_nil _).symm, rfl⟩

theorem Does.size_eq (does : before.Does deed? after) : after.crew.size = before.crew.size := by
  cases does with
  | worker found allowed => exact Crew.size_work
  | owner moves =>
    obtain ⟨plan, crew⟩ := before
    cases moves with
    | collect found => exact Forecast.size_collect ..
    | _ => rfl

/-- Every cell of a crew that has started without any is accounted for by its own deeds, and no deeds
were done to tasks that do not exist yet. -/
theorem Chronicle.accounts (chronicle : first.Chronicle deeds last) (empty : first.crew.cells = []) :
    (∀ (task : Nat) (cell : Cell σ α), last.crew.cells[task]? = some cell →
      cell.Accounts task (Deed.ofTask task deeds)) ∧
    ∀ task, last.crew.cells.length ≤ task → Deed.ofTask task deeds = [] := by
  induction chronicle with
  | start =>
    rw [empty]
    exact ⟨fun _ _ there => (nomatch there), fun _ _ => rfl⟩
  | @next deeds before after deed? earlier does inductionHypothesis =>
    obtain ⟨accounts, fresh⟩ := inductionHypothesis
    rcases does.cells with ⟨same, nobodys⟩ | ⟨origin, job, _, _, rfl, same⟩ |
      ⟨number, cell, next, found, turn, same⟩
    · have silent (task : Nat) : Deed.ofTask task deed?.toList = [] :=
        List.filter_eq_nil_iff.mpr fun deed member => by
          simp [nobodys deed (Option.mem_toList.mp member)]
      simp only [same, Deed.ofTask_append, silent, List.append_nil]
      exact ⟨accounts, fresh⟩
    · simp only [same, Option.toList_none, List.append_nil]
      refine ⟨fun task cell there => ?_, fun task outside => fresh task ?_⟩
      · rcases getElem?_concat there with there | ⟨rfl, rfl⟩
        · exact accounts task cell there
        · rw [fresh _ (Nat.le_refl _)]
          exact Cell.accounts_submitted _ origin job
      · rw [List.length_append] at outside
        exact Nat.le_of_add_right_le outside
    · have inside := (List.getElem?_eq_some_iff.mp found).1
      simp only [same, Deed.ofTask_append, List.length_set]
      refine ⟨fun task other there => ?_, fun task outside => ?_⟩
      · by_cases here : number = task
        · subst here
          rw [List.getElem?_set_self inside] at there
          obtain rfl := Option.some.inj there
          rw [Deed.ofTask_same turn.task?_eq]
          exact (accounts number cell found).turn turn
        · rw [List.getElem?_set_ne here] at there
          rw [Deed.ofTask_other here turn.task?_eq, List.append_nil]
          exact accounts task other there
      · have different : number ≠ task := Nat.ne_of_lt (Nat.lt_of_lt_of_le inside outside)
        rw [Deed.ofTask_other different turn.task?_eq, List.append_nil]
        exact fresh task outside

/-- Nothing but the deeds among them offers a failure. -/
theorem Chronicle.offers (chronicle : first.Chronicle deeds last) :
    last.crew.offers = first.crew.offers ++ deeds.filterMap Deed.offer? := by
  induction chronicle with
  | start => simp
  | @next deeds before after deed? earlier does inductionHypothesis =>
    rw [does.offers.1, inductionHypothesis, List.filterMap_append, List.append_assoc]
    cases deed? with
    | none => rfl
    | some deed => cases same : deed.offer? <;> simp [same]

/-- The slot holds the first offer since it was last checked. -/
theorem Chronicle.held (chronicle : first.Chronicle deeds last) (empty : first.crew.pending = .empty) :
    last.crew.pending.held =
      ((deeds.rtakeWhile fun deed => !deed.isChecked).filterMap Deed.offer?).head? := by
  induction chronicle with
  | start =>
    rw [empty]
    rfl
  | @next deeds before after deed? earlier does inductionHypothesis =>
    rw [does.offers.2]
    cases deed? with
    | none =>
      rw [Option.toList_none, List.append_nil]
      exact inductionHypothesis
    | some deed =>
      rw [Option.toList_some]
      cases checks : deed.isChecked with
      | true =>
        rw [List.rtakeWhile_concat_neg _ _ _ (by simp [checks])]
        cases deed <;> first | rfl | cases checks
      | false =>
        rw [List.rtakeWhile_concat_pos _ _ _ (by simp [checks]), List.filterMap_append,
          List.head?_append, ← inductionHypothesis]
        have same : before.crew.pending.after (some deed) =
            before.crew.pending.recordAny deed.offer? := by
          cases deed <;> first | rfl | cases checks
        rw [same, PendingFailure.held_recordAny]
        cases offered : deed.offer? <;> simp [offered]

end Situation

end EnumNames
