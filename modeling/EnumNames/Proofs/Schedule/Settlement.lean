import EnumNames.Proofs.Schedule.Chronicle

/-!
What an owner still owes to its tasks. An owner owes nothing when it has heard of the success of every
task it has submitted. A plan settles when the owner owes nothing before it checks the slot or changes
the shared state. Main statements: the slot of an owner that owes nothing is empty, whichever steps the
workers have taken, and when a job panics no step of an owner that settles changes the shared state.
-/

namespace EnumNames

variable {σ α β γ : Type}

/-- The success that the owner hears of. -/
def Deed.heard? : Deed α → Option Nat
  | .received task (.ok _) => some task
  | _ => none

theorem Deed.mem_heard {task : Nat} {deeds : List (Deed α)} :
    task ∈ deeds.filterMap Deed.heard? ↔ ∃ value, .received task (.ok value) ∈ deeds := by
  rw [List.mem_filterMap]
  constructor
  · rintro ⟨deed, member, same⟩
    cases deed with
    | received other result =>
      cases result with
      | ok value =>
        obtain rfl := Option.some.inj same
        exact ⟨value, member⟩
      | error cause => cases same
    | _ => cases same
  · rintro ⟨value, member⟩
    exact ⟨_, member, rfl⟩

theorem Deed.filterMap_heard?_of_silent {deed? : Option (Deed α)}
    (silent : ∀ deed ∈ deed?, deed.heard? = none) : deed?.toList.filterMap Deed.heard? = [] :=
  List.filterMap_eq_nil_iff.mpr fun deed member => silent deed (Option.mem_toList.mp member)

theorem Deed.task?_of_offer {deed : Deed α} {offer : String × Failure}
    (offered : deed.offer? = some offer) : ∃ task, deed.task? = some task := by
  cases deed with
  | offered task origin cause => exact ⟨task, rfl⟩
  | collected task found => exact ⟨task, rfl⟩
  | _ => cases offered

/-- The books of an owner: how many tasks were submitted, of which of them a success was heard, and
whether the owner has changed the shared state, after which it submits nothing more. -/
structure Ledger where
  submitted : Nat
  heard : List Nat
  isClosed : Bool

namespace Ledger

def fresh : Ledger := ⟨0, [], false⟩

def submit (ledger : Ledger) : Ledger := { ledger with submitted := ledger.submitted + 1 }

def hear (ledger : Ledger) (task : Nat) : Ledger := { ledger with heard := ledger.heard ++ [task] }

def close (ledger : Ledger) : Ledger := { ledger with isClosed := true }

/-- Nothing is owed to any task. -/
def IsClear (ledger : Ledger) : Prop := ∀ task < ledger.submitted, task ∈ ledger.heard

end Ledger

namespace Plan

/-- Whatever the owner sees and hears, it owes nothing when it checks the slot and when it changes the
shared state, and it ends as wanted. A check that finds a failure is left out, since nothing is in the
slot of an owner that owes nothing. -/
def Settles : Plan σ α β → Ledger → (β → Ledger → Prop) → Prop
  | .done value, ledger, wanted => wanted value ledger
  | .act change next, ledger, wanted =>
    (∀ state, change state = state ∧ (next state).Settles ledger wanted) ∨
      ledger.IsClear ∧ ∀ state, (next state).Settles ledger.close wanted
  | .submit _ _ next, ledger, wanted =>
    ledger.isClosed = false ∧ (next ledger.submitted).Settles ledger.submit wanted
  | .receive task next, ledger, wanted =>
    (∀ value, (next (.ok value)).Settles (ledger.hear task) wanted) ∧
      ∀ cause, (next (.error cause)).Settles ledger wanted
  | .collect _ next, ledger, wanted | .close _ next, ledger, wanted | .join next, ledger, wanted =>
    next.Settles ledger wanted
  | .check next, ledger, wanted => ledger.IsClear ∧ (next (.ok ())).Settles ledger wanted

variable {plan next : Plan σ α β} {ledger : Ledger} {wanted : β → Ledger → Prop}
  {crew after : Crew σ α} {deed? : Option (Deed α)}

/-- A plan that goes on with another one settles when that one does from any books it may meet. -/
theorem Settles.bind {second : β → Plan σ α γ} {hoped : γ → Ledger → Prop}
    (settles : plan.Settles ledger wanted)
    (each : ∀ value after, wanted value after → (second value).Settles after hoped) :
    (plan >>= second).Settles ledger hoped := by
  change (plan.bind second).Settles ledger hoped
  induction plan generalizing ledger with
  | done value => exact each value ledger settles
  | act change next inductionHypothesis =>
    rcases settles with unchanged | ⟨clear, rest⟩
    · exact .inl fun state => ⟨(unchanged state).1, inductionHypothesis state (unchanged state).2⟩
    · exact .inr ⟨clear, fun state => inductionHypothesis state (rest state)⟩
  | submit origin job next inductionHypothesis =>
    exact ⟨settles.1, inductionHypothesis _ settles.2⟩
  | receive task next inductionHypothesis =>
    exact ⟨fun value => inductionHypothesis _ (settles.1 value),
      fun cause => inductionHypothesis _ (settles.2 cause)⟩
  | collect task next inductionHypothesis => exact inductionHypothesis settles
  | close task next inductionHypothesis => exact inductionHypothesis settles
  | join next inductionHypothesis => exact inductionHypothesis settles
  | check next inductionHypothesis => exact ⟨settles.1, inductionHypothesis _ settles.2⟩

/-- The owner shuts the crew down: the workers stop, and the slot is checked. -/
def isShutdown : Plan σ α β → Bool
  | .join (.check _) | .check _ => true
  | _ => false

theorem Settles.isClear (settles : plan.Settles ledger wanted) (shutdown : plan.isShutdown = true) :
    ledger.IsClear := by
  unfold isShutdown at shutdown
  split at shutdown
  · exact settles.1
  · exact settles.1
  · cases shutdown

/-- A step of the owner is entered in the books. -/
theorem Moves.settles (moves : plan.Moves crew deed? next after) (settles : plan.Settles ledger wanted)
    (submitted : ledger.submitted = crew.cells.length)
    (quiet : ledger.IsClear → crew.pending = .empty) :
    ∃ later : Ledger, next.Settles later wanted ∧ later.submitted = after.cells.length ∧
      later.heard = ledger.heard ++ deed?.toList.filterMap Deed.heard? ∧
      (ledger.isClosed = true → later.isClosed = true ∧ after.cells.length = crew.cells.length) := by
  have same {deed? : Option (Deed α)} (silent : ∀ deed ∈ deed?, deed.heard? = none) :
      ledger.heard = ledger.heard ++ deed?.toList.filterMap Deed.heard? := by
    rw [Deed.filterMap_heard?_of_silent silent, List.append_nil]
  cases moves with
  | act =>
    rcases settles with unchanged | ⟨clear, rest⟩
    · exact ⟨ledger, (unchanged _).2, submitted, same nofun, fun closed => ⟨closed, rfl⟩⟩
    · exact ⟨ledger.close, rest _, submitted, same nofun, fun _ => ⟨rfl, rfl⟩⟩
  | submit =>
    refine ⟨ledger.submit, submitted ▸ settles.2, ?_, same nofun, fun closed => ?_⟩
    · simp [Ledger.submit, Crew.submit, submitted]
    · cases settles.1.symm.trans closed
  | @receive task onward crew cell result found there =>
    have length : (crew.take task cell).cells.length = crew.cells.length := List.length_set ..
    cases result with
    | ok value =>
      exact ⟨ledger.hear task, settles.1 value, submitted.trans length.symm, rfl,
        fun closed => ⟨closed, length⟩⟩
    | error cause =>
      refine ⟨ledger, settles.2 cause, submitted.trans length.symm, same ?_,
        fun closed => ⟨closed, length⟩⟩
      rintro _ ⟨⟩
      rfl
  | @collect task onward crew cell found =>
    have length : (crew.collect task cell).cells.length = crew.cells.length := by
      rw [Crew.collect_tends.1, List.length_set]
    refine ⟨ledger, settles, submitted.trans length.symm, same ?_, fun closed => ⟨closed, length⟩⟩
    rintro _ ⟨⟩
    rfl
  | @close task onward crew cell found =>
    have length : (crew.close task cell).cells.length = crew.cells.length := List.length_set ..
    refine ⟨ledger, settles, submitted.trans length.symm, same ?_, fun closed => ⟨closed, length⟩⟩
    rintro _ ⟨⟩
    rfl
  | join idle => exact ⟨ledger, settles, submitted, same nofun, fun closed => ⟨closed, rfl⟩⟩
  | check =>
    rw [quiet settles.1]
    refine ⟨ledger, settles.2, submitted, same ?_, fun closed => ⟨closed, rfl⟩⟩
    rintro _ ⟨⟩
    rfl

end Plan

theorem Cell.heard?_deed? {task : Nat} {cell : Cell σ α} :
    ∀ deed ∈ cell.deed? task, deed.heard? = none := by
  unfold Cell.deed?
  split
  · rintro _ ⟨⟩
    rfl
  · rintro _ ⟨⟩
    rfl
  · exact nofun

/-- Whoever hears of a success hears of the outcome. -/
theorem Cell.HasCome.finished {task : Nat} {cell : Cell σ α} {own : List (Deed α)}
    {outcome : Outcome α} {value : α} (hasCome : cell.HasCome task own outcome)
    (heard : .received task (.ok value) ∈ own) : outcome = .finished value := by
  rcases hasCome.received _ heard with same | same
  · cases outcome with
    | finished found =>
      obtain rfl := Except.ok.inj same
      rfl
    | failed cause => cases same
    | panicked payload => cases same
  · cases same

namespace Situation

variable {first before last : Situation σ α β} {deeds later : List (Deed α)} {ledger : Ledger}
  {wanted : β → Ledger → Prop} {task : Nat} {value : α}

theorem Chronicle.trans (earlier : first.Chronicle deeds before)
    (chronicle : before.Chronicle later last) : first.Chronicle (deeds ++ later) last := by
  induction chronicle with
  | start => rwa [List.append_nil]
  | next _ does inductionHypothesis =>
    rw [← List.append_assoc]
    exact inductionHypothesis.next does

theorem Chronicle.inside (chronicle : first.Chronicle deeds last) (empty : first.crew.cells = [])
    {deed : Deed α} (member : deed ∈ deeds) (own : deed.task? = some task) :
    task < last.crew.cells.length := by
  by_contra outside
  have among := Deed.mem_ofTask.mpr ⟨member, own⟩
  rw [(chronicle.accounts empty).2 task (Nat.le_of_not_lt outside)] at among
  cases among

/-- A task of whose success the owner has heard has come to this value. -/
theorem Chronicle.hasCome (chronicle : first.Chronicle deeds last) (empty : first.crew.cells = [])
    (heard : .received task (.ok value) ∈ deeds) :
    ∃ cell, Cell.HasCome task (cell : Cell σ α) (Deed.ofTask task deeds) (.finished value) := by
  have inside := chronicle.inside empty heard rfl
  have own := Deed.mem_ofTask.mpr ⟨heard, rfl⟩
  rcases (chronicle.accounts empty).1 task _ (List.getElem?_eq_getElem inside) with
    atWork | ⟨outcome, hasCome⟩
  · rcases atWork.quiet _ own with same | same <;> cases same
  · obtain rfl := hasCome.finished own
    exact ⟨_, hasCome⟩

theorem Chronicle.came_of_heard (chronicle : first.Chronicle deeds last)
    (empty : first.crew.cells = []) (heard : .received task (.ok value) ∈ deeds)
    {outcome : Outcome α} (came : .came task outcome ∈ deeds) : outcome = .finished value := by
  obtain ⟨cell, hasCome⟩ := chronicle.hasCome empty heard
  exact hasCome.eq (Deed.mem_ofTask.mpr ⟨came, rfl⟩)

/-- Nobody offers a failure of a task that has succeeded. -/
theorem Chronicle.offer_of_heard (chronicle : first.Chronicle deeds last)
    (empty : first.crew.cells = []) (heard : .received task (.ok value) ∈ deeds) {deed : Deed α}
    (member : deed ∈ deeds) (own : deed.task? = some task) : deed.offer? = none := by
  obtain ⟨cell, hasCome⟩ := chronicle.hasCome empty heard
  refine Option.eq_none_iff_forall_ne_some.mpr fun offer same => ?_
  have cause := (hasCome.offered deed (Deed.mem_ofTask.mpr ⟨member, own⟩) offer same).2
  cases cause

/-- The owner goes on from these books, which agree with all that has been done. -/
structure IsSettledBy (situation : Situation σ α β) (deeds : List (Deed α)) (ledger : Ledger)
    (wanted : β → Ledger → Prop) : Prop where
  settles : situation.plan.Settles ledger wanted
  submitted : ledger.submitted = situation.crew.cells.length
  heard : ledger.heard = deeds.filterMap Deed.heard?

theorem IsSettledBy.exists_heard (settled : last.IsSettledBy deeds ledger wanted)
    (clear : ledger.IsClear) (inside : task < last.crew.cells.length) :
    ∃ value, .received task (.ok value) ∈ deeds :=
  Deed.mem_heard.mp (settled.heard ▸ clear task (settled.submitted ▸ inside))

/-- The slot of an owner that owes nothing is empty, even while some workers have not left their
jobs. -/
theorem IsSettledBy.quiet (settled : last.IsSettledBy deeds ledger wanted) (clear : ledger.IsClear)
    (chronicle : first.Chronicle deeds last) (empty : first.crew.cells = [])
    (quiet : first.crew.pending = .empty) : last.crew.pending = .empty := by
  have silent : ∀ deed ∈ deeds, deed.offer? = none := by
    intro deed member
    refine Option.eq_none_iff_forall_ne_some.mpr fun offer offered => ?_
    obtain ⟨task, own⟩ := Deed.task?_of_offer offered
    obtain ⟨value, heard⟩ := settled.exists_heard clear (chronicle.inside empty member own)
    cases offered.symm.trans (chronicle.offer_of_heard empty heard member own)
  have held := chronicle.held quiet
  have nothing : (deeds.rtakeWhile fun deed => !deed.isChecked).filterMap Deed.offer? = [] :=
    List.filterMap_eq_nil_iff.mpr fun deed member =>
      silent deed ((List.rtakeWhile_suffix _ _).subset member)
  rw [nothing] at held
  exact congrArg PendingFailure.mk held

/-- The books are kept over any further steps. Once they are closed no task is added. -/
theorem Chronicle.settled (chronicle : before.Chronicle later last)
    (earlier : first.Chronicle deeds before) (empty : first.crew.cells = [])
    (quiet : first.crew.pending = .empty) (settled : before.IsSettledBy deeds ledger wanted) :
    ∃ after, last.IsSettledBy (deeds ++ later) after wanted ∧ (ledger.isClosed = true →
      after.isClosed = true ∧ last.crew.cells.length = before.crew.cells.length) := by
  induction chronicle with
  | start => exact ⟨ledger, by rwa [List.append_nil], fun closed => ⟨closed, rfl⟩⟩
  | @next later middle last deed? sofar does inductionHypothesis =>
    obtain ⟨books, kept, closed⟩ := inductionHypothesis
    cases does with
    | @worker number cell found allowed =>
      have length : (middle.crew.work number cell).cells.length = middle.crew.cells.length := by
        rw [Crew.cells_work, List.length_set]
      refine ⟨books, ⟨kept.settles, kept.submitted.trans length.symm, ?_⟩, fun isClosed =>
        ⟨(closed isClosed).1, length.trans (closed isClosed).2⟩⟩
      have silent : (cell.deed? number).toList.filterMap Deed.heard? = [] :=
        Deed.filterMap_heard?_of_silent Cell.heard?_deed?
      simp only [kept.heard, List.filterMap_append, silent, List.append_nil]
    | owner moves =>
      have still : books.IsClear → middle.crew.pending = .empty := fun clear =>
        kept.quiet clear (earlier.trans sofar) empty quiet
      obtain ⟨after, settles, submitted, heard, stays⟩ :=
        moves.settles kept.settles kept.submitted still
      refine ⟨after, ⟨settles, submitted, ?_⟩, fun isClosed => ?_⟩
      · simp only [heard, kept.heard, List.filterMap_append, List.append_assoc]
      · obtain ⟨isClosed, length⟩ := closed isClosed
        exact ⟨(stays isClosed).1, (stays isClosed).2.trans length⟩

theorem Chronicle.exists_settled {plan : Plan σ α β} {size : Nat} {shared : σ}
    (chronicle : Chronicle ⟨plan, .start size shared⟩ deeds last)
    (settles : plan.Settles .fresh wanted) : ∃ ledger, last.IsSettledBy deeds ledger wanted := by
  obtain ⟨ledger, settled, _⟩ := chronicle.settled .start rfl rfl ⟨settles, rfl, rfl⟩
  exact ⟨ledger, settled⟩

/-- When a job panics at any time of a run, the shared state is the same before and after each step
of the owner. -/
theorem IsSettledBy.still (settled : before.IsSettledBy deeds ledger wanted)
    (earlier : first.Chronicle deeds before) (empty : first.crew.cells = [])
    (quiet : first.crew.pending = .empty) {deed? : Option (Deed α)} {plan : Plan σ α β}
    {crew : Crew σ α} (moves : before.plan.Moves before.crew deed? plan crew)
    (onward : Chronicle ⟨plan, crew⟩ later last) {payload : PanicPayload}
    (panicked : .came task (.panicked payload) ∈ deeds ++ deed?.toList ++ later) :
    crew.shared = before.crew.shared := by
  have chronicle := (earlier.next (.owner moves)).trans onward
  obtain ⟨start, present⟩ := before
  cases moves with
  | @act change next crew =>
    rcases settled.settles with unchanged | ⟨clear, rest⟩
    · exact (unchanged present.shared).1
    · -- Nothing is owed from here on, and no task is added, so the job that panics has succeeded.
      have behind : IsSettledBy ⟨next present.shared, { present with shared := change present.shared }⟩
          (deeds ++ []) ledger.close wanted :=
        ⟨rest _, settled.submitted, by rw [List.append_nil]; exact settled.heard⟩
      obtain ⟨_, _, closed⟩ := onward.settled (earlier.next (.owner .act)) empty quiet behind
      have inside := chronicle.inside empty panicked rfl
      rw [(closed rfl).2] at inside
      obtain ⟨value, heard⟩ := settled.exists_heard clear inside
      have among : .received task (.ok value) ∈ deeds ++ [] ++ later :=
        List.mem_append_left _ (List.mem_append_left _ heard)
      cases chronicle.came_of_heard empty among panicked
  | collect found =>
    unfold Crew.collect
    split <;> rfl
  | _ => rfl

/-- Wherever the owner has taken a step between the two situations, the shared state was the same
before and after it. -/
def IsStill (first : Situation σ α β) (deeds : List (Deed α)) (last : Situation σ α β) : Prop :=
  ∀ ⦃earlier before deed? plan crew later⦄, first.Chronicle earlier before →
    before.plan.Moves before.crew deed? plan crew → Chronicle ⟨plan, crew⟩ later last →
    deeds = earlier ++ deed?.toList ++ later → crew.shared = before.crew.shared

theorem isStill_of_panicked {plan : Plan σ α β} (settles : plan.Settles .fresh wanted) {size : Nat}
    {shared : σ} {payload : PanicPayload} (panicked : .came task (.panicked payload) ∈ deeds) :
    IsStill ⟨plan, .start size shared⟩ deeds last := by
  intro earlier before deed? next crew later reached moves onward split
  obtain ⟨ledger, settled⟩ := reached.exists_settled settles
  exact settled.still reached rfl rfl moves onward (split ▸ panicked)

end Situation

end EnumNames
