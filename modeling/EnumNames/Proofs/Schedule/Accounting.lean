import EnumNames.Proofs.Schedule.Undivided

/-!
The books of a crew over whole histories. Every operation is done to its end before the next one
starts: jobs are submitted, run in any order, waited for and dropped, and the slot is used by anybody.
Main statement: after any operations there is one account for each task that agrees with its cell, and
the slot holds the first offer since it was emptied.
-/

namespace EnumNames

variable {σ α : Type}

/-- Tasks are numbered in the order of their submission. -/
inductive Operation (σ α : Type) where
  | submitted (task : Nat) (origin : String) (job : Process σ (Outcome α))
  | ran (task : Nat) (outcome : Outcome α)
  | waited (task : Nat) (result : Except Failure α)
  | dropped (task : Nat)
  | recorded (origin : String) (cause : Failure)
  | taken (found : Option (String × Failure))
  | checked (result : Except Failure Unit)
  | held
  | released

namespace Operation

def task? : Operation σ α → Option Nat
  | .submitted task _ _ | .ran task _ | .waited task _ | .dropped task => some task
  | _ => none

def outcome? : Operation σ α → Option (Outcome α)
  | .ran _ outcome => some outcome
  | _ => none

def result? : Operation σ α → Option (Except Failure α)
  | .waited _ result => some result
  | _ => none

def isDropped : Operation σ α → Bool
  | .dropped _ => true
  | _ => false

/-- The task whose job is run. -/
def ran? : Operation σ α → Option Nat
  | .ran task _ => some task
  | _ => none

/-- The failure that somebody records without any task. -/
def recorded? : Operation σ α → Option (String × Failure)
  | .recorded origin cause => some (origin, cause)
  | _ => none

/-- The slot is empty afterwards. -/
def isEmptying : Operation σ α → Bool
  | .taken _ | .checked _ => true
  | _ => false

end Operation

/-- An operation and the failures that were offered while it was done. -/
structure Line (σ α : Type) where
  operation : Operation σ α
  offers : List (String × Failure)

namespace Line

/-- The lines of one task. -/
def ofTask (task : Nat) (lines : List (Line σ α)) : List (Line σ α) :=
  lines.filter (·.operation.task? == some task)

/-- What the job of the task has come to, each time it was run. -/
def runs (lines : List (Line σ α)) : List (Outcome α) := lines.filterMap (·.operation.outcome?)

def waits (lines : List (Line σ α)) : List (Except Failure α) :=
  lines.filterMap (·.operation.result?)

def drops (lines : List (Line σ α)) : Nat := lines.countP (·.operation.isDropped)

def allOffers (lines : List (Line σ α)) : List (String × Failure) := lines.flatMap Line.offers

theorem ofTask_append (task : Nat) (first second : List (Line σ α)) :
    ofTask task (first ++ second) = ofTask task first ++ ofTask task second :=
  List.filter_append ..

theorem ofTask_same {task : Nat} {line : Line σ α} (own : line.operation.task? = some task) :
    ofTask task [line] = [line] := by simp [ofTask, own]

theorem ofTask_other {task : Nat} {line : Line σ α} (other : line.operation.task? ≠ some task) :
    ofTask task [line] = [] := by simp [ofTask, other]

theorem mem_ofTask {task : Nat} {lines : List (Line σ α)} {line : Line σ α} :
    line ∈ ofTask task lines ↔ line ∈ lines ∧ line.operation.task? = some task := by
  simp [ofTask]

end Line

/-- A crew between two operations. While its workers are held no job is run. -/
structure Session (σ α : Type) where
  crew : Crew σ α
  isHeld : Bool

namespace Session

/-- What can be done next. Any of the queued jobs may be run, and only a task that is still owned may be
waited for or dropped. -/
inductive Does (before : Session σ α) : Operation σ α → Session σ α → Prop
  | submit (origin : String) (job : Process σ (Outcome α)) :
      before.Does (.submitted before.crew.cells.length origin job)
        { before with crew := before.crew.submit origin job }
  | run {number : Nat} {cell : Cell σ α} {job : Process σ (Outcome α)} {crew : Crew σ α}
      (free : before.isHeld = false) (staffed : 0 < before.crew.size)
      (found : before.crew.cells[number]? = some cell) (queued : cell.stage = .queued job)
      (finishes : Crew.Finishes number before.crew crew) :
      before.Does (.ran number (job.run before.crew.shared).1) { before with crew }
  | wait {number : Nat} {cell : Cell σ α} {result : Except Failure α} {crew : Crew σ α}
      (found : before.crew.cells[number]? = some cell) (owned : cell.channel.hasReceiver = true)
      (waits : (Plan.wait number).Alone before.crew result crew) :
      before.Does (.waited number result) { before with crew }
  | drop {number : Nat} {cell : Cell σ α} {crew : Crew σ α}
      (found : before.crew.cells[number]? = some cell) (owned : cell.channel.hasReceiver = true)
      (drops : (Plan.drop number).Alone before.crew () crew) :
      before.Does (.dropped number) { before with crew }
  | record (origin : String) (cause : Failure) :
      before.Does (.recorded origin cause) { before with crew := before.crew.offer origin cause }
  | take : before.Does (.taken before.crew.pending.take.1)
      { before with crew := { before.crew with pending := before.crew.pending.take.2 } }
  | check : before.Does (.checked before.crew.pending.check.1)
      { before with crew := { before.crew with pending := before.crew.pending.check.2 } }
  | hold : before.Does .held { before with isHeld := true }
  | release : before.Does .released { before with isHeld := false }

/-- Operations one after another, from the start of the crew on. Each line has the offers that its
operation has added to those before it. -/
inductive History (size : Nat) (shared : σ) : List (Line σ α) → Session σ α → Prop
  | start : History size shared [] ⟨.start size shared, false⟩
  | next {lines : List (Line σ α)} {before after : Session σ α} {operation : Operation σ α}
      (earlier : History size shared lines before) (does : before.Does operation after) :
      History size shared
        (lines ++ [⟨operation, after.crew.offers.drop before.crew.offers.length⟩]) after

end Session

open Line

/-- All that can be written down about one task, and the cell behind it. -/
inductive Account (task : Nat) (origin : String) (job : Process σ (Outcome α)) :
    List (Line σ α) → Cell σ α → Prop
  | queued : Account task origin job [⟨.submitted task origin job, []⟩]
      ⟨origin, .queued job, ⟨none, true, true⟩⟩
  | abandoned : Account task origin job [⟨.submitted task origin job, []⟩, ⟨.dropped task, []⟩]
      ⟨origin, .queued job, ⟨none, true, false⟩⟩
  | unheard (state : σ) : Account task origin job
      [⟨.submitted task origin job, []⟩, ⟨.dropped task, []⟩,
        ⟨.ran task (job.run state).1, offersOf origin (job.run state).1.cause?⟩]
      ⟨origin, .ended, ⟨none, false, false⟩⟩
  | delivered (state : σ) : Account task origin job
      [⟨.submitted task origin job, []⟩,
        ⟨.ran task (job.run state).1, offersOf origin (job.run state).1.panic?⟩]
      ⟨origin, .ended, ⟨(job.run state).1.message?, false, true⟩⟩
  | heard (state : σ) : Account task origin job
      [⟨.submitted task origin job, []⟩,
        ⟨.ran task (job.run state).1, offersOf origin (job.run state).1.panic?⟩,
        ⟨.waited task ((job.run state).1.awaited origin), []⟩]
      ⟨origin, .ended, ⟨none, false, false⟩⟩
  | collected (state : σ) : Account task origin job
      [⟨.submitted task origin job, []⟩,
        ⟨.ran task (job.run state).1, offersOf origin (job.run state).1.panic?⟩,
        ⟨.dropped task, offersOf origin (job.run state).1.error?⟩]
      ⟨origin, .ended, ⟨none, false, false⟩⟩

namespace Account

variable {task : Nat} {origin : String} {job : Process σ (Outcome α)} {own : List (Line σ α)}
  {cell : Cell σ α}

/-- A queued job is run. -/
theorem run (account : Account task origin job own cell) {queued : Process σ (Outcome α)}
    (isQueued : cell.stage = .queued queued) : queued = job ∧ ∃ isOwned,
      cell = ⟨origin, .queued job, ⟨none, true, isOwned⟩⟩ ∧
      ∀ state, Account task origin job
        (own ++ [⟨.ran task (job.run state).1, offersOf origin ((job.run state).1.undelivered? isOwned)⟩])
        ⟨origin, .ended, ⟨if isOwned then (job.run state).1.message? else none, false, isOwned⟩⟩ := by
  cases account with
  | queued => exact ⟨(Stage.queued.inj isQueued).symm, true, rfl, .delivered⟩
  | abandoned => exact ⟨(Stage.queued.inj isQueued).symm, false, rfl, .unheard⟩
  | unheard state => cases isQueued
  | delivered state => cases isQueued
  | heard state => cases isQueued
  | collected state => cases isQueued

/-- The owner waits for the task. -/
theorem wait (account : Account task origin job own cell) (owned : cell.channel.hasReceiver = true)
    {result : Except Failure α} (there : cell.channel.receive cell.origin = some result) :
    Account task origin job (own ++ [⟨.waited task result, []⟩])
      { cell with channel := ⟨none, cell.channel.hasSender, false⟩ } := by
  cases account with
  | queued => cases there
  | abandoned => cases owned
  | unheard state => cases owned
  | delivered state =>
    have same : (job.run state).1.awaited origin = result := by
      cases came : (job.run state).1 <;> rw [came] at there <;> exact Option.some.inj there
    exact same ▸ .heard state
  | heard state => cases owned
  | collected state => cases owned

/-- The owner drops the task. -/
theorem drop (account : Account task origin job own cell) (owned : cell.channel.hasReceiver = true) :
    Account task origin job (own ++ [⟨.dropped task, cell.failure?.toList⟩])
      { cell with channel := ⟨none, cell.channel.hasSender, false⟩ } := by
  cases account with
  | queued => exact .abandoned
  | abandoned => cases owned
  | unheard state => cases owned
  | delivered state =>
    have same : offersOf origin (job.run state).1.error? = (Cell.failure? (σ := σ)
        ⟨origin, .ended, ⟨(job.run state).1.message?, false, true⟩⟩).toList := by
      cases (job.run state).1 <;> rfl
    exact same ▸ .collected state
  | heard state => cases owned
  | collected state => cases owned

/-- The owner of a task that has not run yet finds nothing. After that, whoever waits for the task is
told its outcome, and whoever drops it finds its failure. -/
theorem owned (account : Account task origin job own cell) (owned : cell.channel.hasReceiver = true) :
    cell.stage.isEnded = false ∧ cell.failure? = none ∧ cell.channel.receive cell.origin = none ∨
    ∃ outcome, runs own = [outcome] ∧ cell.stage.isEnded = true ∧
      cell.channel.receive cell.origin = some (outcome.awaited cell.origin) ∧
      cell.failure?.toList = offersOf cell.origin outcome.error? := by
  cases account with
  | queued => exact .inl ⟨rfl, rfl, rfl⟩
  | abandoned => cases owned
  | unheard state => cases owned
  | delivered state =>
    refine .inr ⟨_, rfl, rfl, ?_⟩
    cases (job.run state).1 <;> exact ⟨rfl, rfl⟩
  | heard state => cases owned
  | collected state => cases owned

end Account

namespace Session

variable {before after last : Session σ α} {lines : List (Line σ α)} {line : Line σ α}
  {operation : Operation σ α} {made : List (String × Failure)} {number size : Nat} {cell next : Cell σ α}
  {shared : σ}

/-- Every task is accounted for, and nothing is written down about tasks that do not exist yet. -/
structure Stands (lines : List (Line σ α)) (session : Session σ α) : Prop where
  tasks : ∀ (number : Nat) (cell : Cell σ α), session.crew.cells[number]? = some cell →
    ∃ origin job, Account number origin job (ofTask number lines) cell
  fresh : ∀ number, session.crew.cells.length ≤ number → ofTask number lines = []

/-- What an operation does to the offers and to the slot. -/
structure Enters (before after : Session σ α) (operation : Operation σ α)
    (made : List (String × Failure)) : Prop where
  offers : after.crew.offers = before.crew.offers ++ made
  pending : after.crew.pending =
    if operation.isEmptying then .empty else before.crew.pending.recordAll made
  size : after.crew.size = before.crew.size
  recorded : operation.task? = none → made = operation.recorded?.toList

theorem Stands.leave (stands : Stands lines before) (same : after.crew.cells = before.crew.cells)
    (none : line.operation.task? = none) : Stands (lines ++ [line]) after := by
  have silent (number : Nat) : ofTask number (lines ++ [line]) = ofTask number lines := by
    rw [ofTask_append, ofTask_other (by simp [none]), List.append_nil]
  refine ⟨fun number cell there => ?_, fun number outside => ?_⟩
  · rw [silent]
    exact stands.tasks number cell (same ▸ there)
  · rw [silent]
    exact stands.fresh number (same ▸ outside)

theorem Stands.submit (stands : Stands lines before) (origin : String) (job : Process σ (Outcome α)) :
    Stands (lines ++ [⟨.submitted before.crew.cells.length origin job, []⟩])
      { before with crew := before.crew.submit origin job } := by
  have fresh := stands.fresh _ (Nat.le_refl _)
  refine ⟨fun number cell there => ?_, fun number outside => ?_⟩
  · rw [ofTask_append]
    rcases getElem?_concat there with there | ⟨rfl, rfl⟩
    · have different : before.crew.cells.length ≠ number :=
        Nat.ne_of_gt (List.getElem?_eq_some_iff.mp there).1
      rw [ofTask_other (by simpa [Operation.task?] using different), List.append_nil]
      exact stands.tasks number cell there
    · rw [fresh, ofTask_same rfl]
      exact ⟨origin, job, .queued⟩
  · have length : before.crew.cells.length + 1 ≤ number := by simpa [Crew.submit] using outside
    rw [ofTask_append, stands.fresh number (Nat.le_of_succ_le length),
      ofTask_other (by simpa [Operation.task?] using Nat.ne_of_lt length)]
    rfl

/-- One cell has been replaced, and its task has got one more line. -/
theorem Stands.tend (stands : Stands lines before) (found : before.crew.cells[number]? = some cell)
    (own : line.operation.task? = some number)
    (cells : after.crew.cells = before.crew.cells.set number next)
    (account : ∃ origin job, Account number origin job (ofTask number lines ++ [line]) next) :
    Stands (lines ++ [line]) after := by
  have inside := (List.getElem?_eq_some_iff.mp found).1
  refine ⟨fun other cell there => ?_, fun other outside => ?_⟩
  · rw [cells] at there
    rw [ofTask_append]
    by_cases here : number = other
    · subst here
      rw [List.getElem?_set_self inside] at there
      obtain rfl := Option.some.inj there
      rwa [ofTask_same own]
    · rw [List.getElem?_set_ne here] at there
      rw [ofTask_other (by simp [own, here]), List.append_nil]
      exact stands.tasks other cell there
  · rw [cells, List.length_set] at outside
    have different : number ≠ other := Nat.ne_of_lt (Nat.lt_of_lt_of_le inside outside)
    rw [ofTask_append, ofTask_other (by simp [own, different]), List.append_nil]
    exact stands.fresh other outside

/-- One task has got one more line, and its cell has been replaced. -/
structure Tended (lines : List (Line σ α)) (crew after : Crew σ α) (number : Nat)
    (operation : Operation σ α) (next : Cell σ α) (made : List (String × Failure)) : Prop where
  account : ∃ origin job, Account number origin job (ofTask number lines ++ [⟨operation, made⟩]) next
  tends : crew.Tends after number next made

theorem Stands.ran (stands : Stands lines before) (found : before.crew.cells[number]? = some cell)
    {job : Process σ (Outcome α)} (queued : cell.stage = .queued job) {crew : Crew σ α}
    (finishes : Crew.Finishes number before.crew crew) :
    let outcome := (job.run before.crew.shared).1
    ∃ origin isOwned, cell = ⟨origin, .queued job, ⟨none, true, isOwned⟩⟩ ∧
      Tended lines before.crew crew number (.ran number outcome)
        ⟨origin, .ended, ⟨if isOwned then outcome.message? else none, false, isOwned⟩⟩
        (offersOf origin (outcome.undelivered? isOwned)) := by
  obtain ⟨origin, job, account⟩ := stands.tasks _ _ found
  obtain ⟨rfl, isOwned, rfl, onward⟩ := account.run queued
  obtain ⟨crew, alone, tends, _⟩ := Crew.finishesAs_queued found
  obtain rfl := alone.unique finishes
  exact ⟨origin, isOwned, rfl, ⟨origin, _, onward before.crew.shared⟩, tends⟩

theorem Stands.waited (stands : Stands lines before) (found : before.crew.cells[number]? = some cell)
    (owned : cell.channel.hasReceiver = true) {result : Except Failure α} {crew : Crew σ α}
    (waits : (Plan.wait number).Alone before.crew result crew) :
    Tended lines before.crew crew number (.waited number result)
      { cell with channel := ⟨none, cell.channel.hasSender, false⟩ } [] := by
  obtain ⟨origin, job, account⟩ := stands.tasks _ _ found
  have there := waits.received found
  obtain ⟨crew, alone, tends, _⟩ := Plan.exists_wait found there
  obtain rfl := (alone.unique waits).2
  exact ⟨⟨origin, job, account.wait owned there⟩, tends⟩

theorem Stands.dropped (stands : Stands lines before)
    (found : before.crew.cells[number]? = some cell) (owned : cell.channel.hasReceiver = true)
    {crew : Crew σ α} (drops : (Plan.drop number).Alone before.crew () crew) :
    Tended lines before.crew crew number (.dropped number)
      { cell with channel := ⟨none, cell.channel.hasSender, false⟩ } cell.failure?.toList := by
  obtain ⟨origin, job, account⟩ := stands.tasks _ _ found
  obtain ⟨crew, alone, tends, _⟩ := Plan.exists_letGo found ()
  obtain rfl := (alone.unique drops).2
  exact ⟨⟨origin, job, account.drop owned⟩, tends⟩

theorem Stands.tended (stands : Stands lines before)
    (found : before.crew.cells[number]? = some cell)
    (tended : Tended lines before.crew after.crew number operation next made)
    (own : operation.task? = some number) (keeps : operation.isEmptying = false) :
    ∃ made, before.Enters after operation made ∧ Stands (lines ++ [⟨operation, made⟩]) after := by
  refine ⟨made, ⟨tended.tends.offers, ?_, tended.tends.size, fun none => ?_⟩,
    stands.tend found own tended.tends.cells tended.account⟩
  · rw [keeps]
    exact tended.tends.pending
  · cases own.symm.trans none

/-- Whatever is done next, the books still stand. -/
theorem Stands.does (stands : Stands lines before) (does : before.Does operation after) :
    ∃ made, before.Enters after operation made ∧ Stands (lines ++ [⟨operation, made⟩]) after := by
  cases does with
  | submit origin job =>
    exact ⟨[], ⟨(List.append_nil _).symm, rfl, rfl, nofun⟩, stands.submit origin job⟩
  | run free staffed found queued finishes =>
    obtain ⟨origin, isOwned, _, tended⟩ := stands.ran found queued finishes
    exact stands.tended found tended rfl rfl
  | wait found owned waits => exact stands.tended found (stands.waited found owned waits) rfl rfl
  | drop found owned drops => exact stands.tended found (stands.dropped found owned drops) rfl rfl
  | record origin cause =>
    exact ⟨[(origin, cause)], ⟨rfl, rfl, rfl, fun _ => rfl⟩, stands.leave rfl rfl⟩
  | take => exact ⟨[], ⟨(List.append_nil _).symm, rfl, rfl, fun _ => rfl⟩, stands.leave rfl rfl⟩
  | check =>
    refine ⟨[], ⟨(List.append_nil _).symm, ?_, rfl, fun _ => rfl⟩, stands.leave rfl rfl⟩
    change before.crew.pending.check.2 = .empty
    unfold PendingFailure.check
    split <;> rfl
  | hold => exact ⟨[], ⟨(List.append_nil _).symm, rfl, rfl, fun _ => rfl⟩, stands.leave rfl rfl⟩
  | release => exact ⟨[], ⟨(List.append_nil _).symm, rfl, rfl, fun _ => rfl⟩, stands.leave rfl rfl⟩

/-- The books of a whole history. -/
structure Keeps (size : Nat) (lines : List (Line σ α)) (session : Session σ α) : Prop where
  stands : Stands lines session
  size : session.crew.size = size
  offers : session.crew.offers = allOffers lines
  pending : session.crew.pending.held =
    (allOffers (lines.rtakeWhile fun line => !line.operation.isEmptying)).head?
  recorded : ∀ line ∈ lines, line.operation.task? = none →
    line.offers = line.operation.recorded?.toList

theorem Keeps.enters (keeps : Keeps size lines before) (enters : before.Enters after operation made)
    (stands : Stands (lines ++ [⟨operation, made⟩]) after) :
    Keeps size (lines ++ [⟨operation, made⟩]) after where
  stands
  size := enters.size.trans keeps.size
  offers := by
    rw [enters.offers, keeps.offers, allOffers, allOffers, List.flatMap_append]
    simp
  pending := by
    rw [enters.pending]
    cases empties : operation.isEmptying with
    | true =>
      rw [List.rtakeWhile_concat_neg _ _ _ (by simp [empties])]
      rfl
    | false =>
      rw [List.rtakeWhile_concat_pos _ _ _ (by simp [empties]), allOffers, List.flatMap_append,
        List.head?_append]
      refine (PendingFailure.held_recordAll _ _).trans ?_
      rw [keeps.pending]
      simp [allOffers]
  recorded line member none := by
    rcases List.mem_append.mp member with member | member
    · exact keeps.recorded line member none
    · obtain rfl := List.mem_singleton.mp member
      exact enters.recorded none

theorem History.keeps (history : History size shared lines last) : Keeps size lines last := by
  induction history with
  | start =>
    exact ⟨⟨fun _ _ there => (nomatch there), fun _ _ => rfl⟩, rfl, rfl, rfl, by simp⟩
  | next earlier does inductionHypothesis =>
    obtain ⟨made, enters, stands⟩ := inductionHypothesis.stands.does does
    rw [enters.offers, List.drop_left]
    exact inductionHypothesis.enters enters stands

end Session

end EnumNames
