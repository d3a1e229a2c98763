import EnumNames.Proofs.Schedule.Completion
import EnumNames.Proofs.Schedule.PoolAgreement

/-!
The balance of the books. What is written down about a task adds up, and so do the offers and the slot.
Main statement: every job runs once, a failure reaches the one who waits for it or is offered once when
nobody does, a panic is offered once, and the shutdown reports the first offer since the slot was emptied.
-/

namespace EnumNames

variable {σ α : Type}

open Line

/-- What the lines of a task come to behind its submission. The job has run once at most, and its task
has been waited for or dropped, never both. -/
structure Balances (origin : String) (job : Process σ (Outcome α)) (rest : List (Line σ α)) : Prop where
  ran : runs rest = [] ∨ ∃ state, runs rest = [(job.run state).1]
  waited : ∀ result ∈ waits rest, ∃ outcome, runs rest = [outcome] ∧ result = outcome.awaited origin
  once : (waits rest).length + drops rest ≤ 1
  notYet : runs rest = [] → allOffers rest = []
  finished : ∀ value, runs rest = [.finished value] → allOffers rest = []
  failed : ∀ cause, runs rest = [.failed cause] →
    allOffers rest = if drops rest = 1 then [(origin, cause)] else []
  /-- Nobody offers a failure that somebody has waited for. -/
  heard : ∀ cause, runs rest = [.failed cause] → waits rest ≠ [] → allOffers rest = []
  panicked : ∀ payload, runs rest = [.panicked payload] →
    allOffers rest = [(origin, .workerPanic payload.message)]

namespace Account

variable {task : Nat} {origin : String} {job : Process σ (Outcome α)} {own rest : List (Line σ α)}
  {cell : Cell σ α}

theorem balances_of_notYet (ran : runs rest = []) (waited : waits rest = []) (once : drops rest ≤ 1)
    (offers : allOffers rest = []) : Balances origin job rest where
  ran := .inl ran
  waited := by simp [waited]
  once := by simpa [waited] using once
  notYet _ := offers
  finished _ _ := offers
  failed cause came := nomatch ran.symm.trans came
  heard cause came := nomatch ran.symm.trans came
  panicked payload came := nomatch ran.symm.trans came

/-- The failure of a job that has run is offered when its task is dropped, and a panic in any case. -/
theorem balances_of_ran {state : σ} (ran : runs rest = [(job.run state).1])
    (waited : ∀ result ∈ waits rest, result = (job.run state).1.awaited origin)
    (once : (waits rest).length + drops rest ≤ 1)
    (offers : allOffers rest =
      offersOf origin (if drops rest = 1 then (job.run state).1.cause? else (job.run state).1.panic?)) :
    Balances origin job rest := by
  generalize came : (job.run state).1 = outcome at ran waited offers
  have same {other : Outcome α} (also : runs rest = [other]) : outcome = other :=
    List.singleton_inj.mp (ran.symm.trans also)
  refine ⟨.inr ⟨state, came ▸ ran⟩, fun result member => ⟨outcome, ran, waited result member⟩, once,
    fun none => ?_, fun value also => ?_, fun cause also => ?_, fun cause also some => ?_,
    fun payload also => ?_⟩
  · cases ran.symm.trans none
  · obtain rfl := same also
    rw [offers]
    split <;> rfl
  · obtain rfl := same also
    rw [offers]
    split <;> rfl
  · obtain rfl := same also
    have kept : drops rest ≠ 1 := by
      have positive := List.length_pos_iff.mpr some
      omega
    rw [offers, if_neg kept]
    rfl
  · obtain rfl := same also
    rw [offers]
    split <;> rfl

theorem offersOf_cause? (origin : String) (outcome : Outcome α) :
    offersOf origin outcome.panic? ++ offersOf origin outcome.error? =
      offersOf origin outcome.cause? := by
  cases outcome <;> rfl

/-- The books of a task balance at any time, and its job has run when its cell is done with it. -/
theorem balances (account : Account task origin job own cell) :
    ∃ rest, own = ⟨.submitted task origin job, []⟩ :: rest ∧ Balances origin job rest ∧
      (cell.stage.isEnded = true → runs rest ≠ []) := by
  cases account with
  | queued => exact ⟨_, rfl, balances_of_notYet rfl rfl (Nat.zero_le _) rfl, nofun⟩
  | abandoned => exact ⟨_, rfl, balances_of_notYet rfl rfl (Nat.le_refl _) rfl, nofun⟩
  | unheard state =>
    exact ⟨_, rfl, balances_of_ran rfl nofun (Nat.le_refl _) (List.append_nil _), fun _ => nofun⟩
  | delivered state =>
    exact ⟨_, rfl, balances_of_ran rfl nofun (Nat.zero_le _) (List.append_nil _), fun _ => nofun⟩
  | heard state =>
    refine ⟨_, rfl, balances_of_ran rfl (fun result member => ?_) (Nat.le_refl _) (List.append_nil _),
      fun _ => nofun⟩
    exact List.mem_singleton.mp member
  | collected state =>
    refine ⟨_, rfl, balances_of_ran rfl nofun (Nat.le_refl _) ?_, fun _ => nofun⟩
    have both := offersOf_cause? origin (job.run state).1
    simpa [allOffers, drops, Operation.isDropped] using both

end Account

/-- A queued job has not come to anything yet. -/
theorem Account.isQueued {task : Nat} {origin : String} {job : Process σ (Outcome α)}
    {own : List (Line σ α)} {cell : Cell σ α} (account : Account task origin job own cell)
    (active : cell.stage.isEnded = false) :
    ∃ isOwned, cell = ⟨origin, .queued job, ⟨none, true, isOwned⟩⟩ := by
  cases account with
  | queued => exact ⟨true, rfl⟩
  | abandoned => exact ⟨false, rfl⟩
  | unheard state => cases active
  | delivered state => cases active
  | heard state => cases active
  | collected state => cases active

/-- A check empties the slot and reports what was in it. -/
theorem PendingFailure.check_eq (slot : PendingFailure) : slot.check =
    (match slot.held with
      | some (origin, cause) => .error (.uncaught origin cause)
      | none => .ok (), .empty) := by
  obtain ⟨_ | ⟨origin, cause⟩⟩ := slot
  · rfl
  · exact PendingFailure.check_of_held rfl

namespace Plan

/-- The workers stop, and a failure that is left in the slot is reported. -/
def shutdown : Plan σ α (Except Failure Unit) := do
  joined
  checked

/-- The shutdown reports what is in the slot when all jobs have ended. -/
theorem alone_shutdown {crew after : Crew σ α} {result : Except Failure Unit} :
    shutdown.Alone crew result after ↔ crew.isIdle = true ∧
      after = { crew with pending := .empty } ∧ result = match crew.pending.held with
        | some (origin, cause) => .error (.uncaught origin cause)
        | none => .ok () := by
  have alone (idle : crew.isIdle = true) :
      shutdown.Alone crew crew.pending.check.1 { crew with pending := crew.pending.check.2 } :=
    .next (if_pos idle) (.next rfl .done)
  rw [PendingFailure.check_eq] at alone
  constructor
  · intro shuts
    have idle : crew.isIdle = true := by
      cases shuts with
      | next joins _ => exact (Option.ite_none_right_eq_some.mp joins).1
    obtain ⟨rfl, rfl⟩ := shuts.unique (alone idle)
    exact ⟨idle, rfl, rfl⟩
  · rintro ⟨idle, rfl, rfl⟩
    exact alone idle

end Plan

namespace Session

variable {before after last : Session σ α} {lines : List (Line σ α)} {number size : Nat}
  {cell : Cell σ α} {shared : σ}

/-- A job that has not run yet can be the next one. -/
theorem Stands.run (stands : Stands lines before) (free : before.isHeld = false)
    (staffed : 0 < before.crew.size) (found : before.crew.cells[number]? = some cell)
    (active : cell.stage.isEnded = false) : ∃ outcome after next,
      before.Does (.ran number outcome) after ∧ after.isHeld = false ∧
      after.crew.cells = before.crew.cells.set number next ∧ next.stage.isEnded = true := by
  obtain ⟨origin, job, account⟩ := stands.tasks _ _ found
  obtain ⟨isOwned, rfl⟩ := account.isQueued active
  obtain ⟨crew, finishes, tends, _⟩ := Crew.finishesAs_queued found
  exact ⟨_, _, _, .run free staffed found rfl finishes, free, tends.cells, rfl⟩

/-- The numbers of all jobs that have not run yet, in any order. -/
structure IsOrder (session : Session σ α) (order : List Nat) : Prop where
  nodup : order.Nodup
  waiting : ∀ number, number ∈ order ↔
    ∃ cell, session.crew.cells[number]? = some cell ∧ cell.stage.isEnded = false

/-- The jobs that have not run yet can be run in any order, and then none is left. -/
theorem History.exists_runs (history : History size shared lines last) (positive : 0 < size)
    (free : last.isHeld = false) {order : List Nat} (isOrder : last.IsOrder order) :
    ∃ more final, History size shared (lines ++ more) final ∧
      more.map (·.operation.ran?) = order.map some ∧ final.crew.isIdle = true := by
  induction order generalizing lines last with
  | nil =>
    refine ⟨[], last, (List.append_nil lines).symm ▸ history, rfl, ?_⟩
    refine List.all_eq_true.mpr fun cell member => ?_
    obtain ⟨number, found⟩ := List.mem_iff_getElem?.mp member
    cases ended : cell.stage.isEnded with
    | true => rfl
    | false => cases (isOrder.waiting number).mpr ⟨cell, found, ended⟩
  | cons number rest inductionHypothesis =>
    obtain ⟨cell, found, active⟩ := (isOrder.waiting number).mp List.mem_cons_self
    have keeps := history.keeps
    obtain ⟨outcome, after, next, does, still, cells, ended⟩ :=
      keeps.stands.run free (keeps.size.symm ▸ positive) found active
    obtain ⟨fresh, nodup⟩ := List.nodup_cons.mp isOrder.nodup
    have order : after.IsOrder rest := by
      refine ⟨nodup, fun other => ?_⟩
      rw [cells]
      by_cases here : number = other
      · subst here
        rw [List.getElem?_set_self (List.getElem?_eq_some_iff.mp found).1]
        refine ⟨fun member => absurd member fresh, ?_⟩
        rintro ⟨_, ⟨⟩, works⟩
        cases ended.symm.trans works
      · rw [List.getElem?_set_ne here, ← isOrder.waiting other, List.mem_cons,
          or_iff_right (Ne.symm here)]
    obtain ⟨more, final, onward, ran, idle⟩ := inductionHypothesis (history.next does) still order
    rw [List.append_assoc] at onward
    refine ⟨_, final, onward, ?_, idle⟩
    rw [List.singleton_append, List.map_cons, List.map_cons, ran]
    rfl

/-- What the books of a crew say after any operations. -/
structure IsBalanced (size : Nat) (shared : σ) (lines : List (Line σ α)) (last : Session σ α) :
    Prop where
  /-- Whatever is done to a task is done after its submission and adds up. When all jobs have ended,
  each of them has run. -/
  tasks : ∀ line ∈ lines, ∀ task, line.operation.task? = some task →
    ∃ origin job rest, ofTask task lines = ⟨.submitted task origin job, []⟩ :: rest ∧
      Balances origin job rest ∧ (last.crew.isIdle = true → runs rest ≠ [])
  /-- Without a task, a failure is offered only when somebody records it. -/
  recorded : ∀ line ∈ lines, line.operation.task? = none →
    line.offers = line.operation.recorded?.toList
  /-- There are no other offers. -/
  offers : last.crew.offers = allOffers lines
  /-- The slot holds the first offer since it was emptied. -/
  slot : last.crew.pending.held =
    (allOffers (lines.rtakeWhile fun line => !line.operation.isEmptying)).head?
  /-- A crew is shut down when all jobs have ended, and then it reports what is in the slot. -/
  shutdown : ∀ result after, Plan.shutdown.Alone last.crew result after ↔
    last.crew.isIdle = true ∧ after = { last.crew with pending := .empty } ∧
      result = match last.crew.pending.held with
        | some (origin, cause) => .error (.uncaught origin cause)
        | none => .ok ()
  /-- The jobs that have not run yet may be run in any order. -/
  anyOrder : last.isHeld = false → ∀ order, last.IsOrder order → ∃ more final,
    History size shared (lines ++ more) final ∧ more.map (·.operation.ran?) = order.map some ∧
      final.crew.isIdle = true
  /-- Whoever owns a task can drop it, and gets its outcome as soon as it has run. -/
  owned : ∀ number cell, last.crew.cells[number]? = some cell → cell.channel.hasReceiver = true →
    (∃ after, last.Does (.dropped number) after) ∧
    (cell.stage.isEnded = true → ∃ outcome after, runs (ofTask number lines) = [outcome] ∧
      last.Does (.waited number (outcome.awaited cell.origin)) after)
  /-- A pool on which the same is done gives the same answers, has the same failure in its slot, and
  reports the same in the end. -/
  pool : ∃ outcomes first pool, WorkerPool.start size = .ok first ∧
    first.PerformsAll outcomes (lines.map Line.operation) pool ∧
    pool.pending = last.crew.pending ∧
    (last.crew.isIdle = true → pool.shutdown = last.crew.pending.check.1)

/-- Whatever is done with a crew, and in whichever order its jobs are run: every job runs once, its
failure reaches the one who waits for it or is offered once when the task has been dropped, a panic is
offered once, and the slot holds the first offer since it was emptied, which the shutdown reports. -/
theorem failures_are_accounted_for (positive : 0 < size)
    (history : History size shared lines last) : IsBalanced size shared lines last := by
  have keeps := history.keeps
  refine ⟨fun line member task own => ?_, keeps.recorded, keeps.offers, keeps.pending,
    fun _ _ => Plan.alone_shutdown, fun free _ => history.exists_runs positive free,
    fun number cell found owned => ⟨?_, fun ended => ?_⟩, history.exists_pool positive⟩
  · have inside : task < last.crew.cells.length := by
      by_contra outside
      have among := Line.mem_ofTask.mpr ⟨member, own⟩
      rw [keeps.stands.fresh task (Nat.le_of_not_lt outside)] at among
      cases among
    obtain ⟨origin, job, account⟩ := keeps.stands.tasks task _ (List.getElem?_eq_getElem inside)
    obtain ⟨rest, same, balances, ran⟩ := account.balances
    exact ⟨origin, job, rest, same, balances, fun idle =>
      ran (List.all_eq_true.mp idle _ (List.getElem_mem inside))⟩
  · obtain ⟨crew, alone, _⟩ := Plan.exists_letGo found ()
    exact ⟨_, .drop found owned alone⟩
  · obtain ⟨origin, job, account⟩ := keeps.stands.tasks number cell found
    rcases account.owned owned with ⟨works, _⟩ | ⟨outcome, ran, _, there, _⟩
    · cases works.symm.trans ended
    · obtain ⟨crew, alone, _⟩ := Plan.exists_wait found there
      exact ⟨outcome, _, ran, .wait found owned alone⟩

/-- A job fails after its task has been dropped, but before that another job has panicked. -/
theorem failures_are_accounted_for_example :
    let fails : Process Unit (Outcome Unit) := .done (.failed (.taskLost "inner"))
    let panics : Process Unit (Outcome Unit) := .done (.panicked (.text "exploded"))
    ∃ last : Session Unit Unit, IsBalanced 1 ()
      [⟨.held, []⟩, ⟨.submitted 0 "lost" fails, []⟩, ⟨.dropped 0, []⟩,
        ⟨.submitted 1 "boom" panics, []⟩, ⟨.released, []⟩,
        ⟨.ran 1 (.panicked (.text "exploded")), [("boom", .workerPanic "exploded")]⟩,
        ⟨.ran 0 (.failed (.taskLost "inner")), [("lost", .taskLost "inner")]⟩] last ∧
      Plan.shutdown.Alone last.crew (.error (.uncaught "boom" (.workerPanic "exploded")))
        { last.crew with pending := .empty } := by
  intro fails panics
  have begun : History 1 () [] (_ : Session Unit Unit) := .start
  have held := begun.next .hold
  have first := held.next (.submit "lost" fails)
  have dropped := first.next (@Does.drop _ _ _ 0 _ _ rfl rfl (.next rfl (.next rfl .done)))
  have second := dropped.next (.submit "boom" panics)
  have released := second.next .release
  have panicked := released.next (@Does.run _ _ _ 1 _ _ _ rfl (by decide) rfl rfl
    (.work rfl rfl (.work rfl rfl (.work rfl rfl (.work rfl rfl (.ended rfl rfl))))))
  have failed := panicked.next (@Does.run _ _ _ 0 _ _ _ rfl (by decide) rfl rfl
    (.work rfl rfl (.work rfl rfl (.work rfl rfl (.work rfl rfl (.ended rfl rfl))))))
  have balanced := failures_are_accounted_for (by decide) failed
  exact ⟨_, balanced, (balanced.shutdown _ _).mpr ⟨rfl, rfl, rfl⟩⟩

end Session

end EnumNames
