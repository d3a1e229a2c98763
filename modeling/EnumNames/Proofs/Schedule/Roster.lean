import EnumNames.Proofs.Schedule.Completion
import Mathlib.Data.List.Count

/-!
Workers by their names. A roster tells which job each worker is busy with. Main statements: every
schedule is one in which the workers have names, and a worker whose job has come to its outcome, be
it a panic, is free again after its own next steps and can take the next job of the queue.
-/

namespace EnumNames

variable {σ α β : Type}

/-- Only one item of a list changes. -/
theorem countP_set_add {ι : Type} (counts : ι → Bool) {items : List ι} {place : Nat} {item : ι}
    (found : items[place]? = some item) (value : ι) :
    (items.set place value).countP counts + (if counts item then 1 else 0) =
      items.countP counts + if counts value then 1 else 0 := by
  obtain ⟨inside, rfl⟩ := List.getElem?_eq_some_iff.mp found
  have positive (counted : counts items[place] = true) : 0 < items.countP counts :=
    List.countP_pos_iff.mpr ⟨_, List.getElem_mem inside, counted⟩
  rw [List.countP_set inside]
  split
  · rename_i counted
    have some := positive counted
    omega
  · omega

theorem set_eq_self {ι : Type} {items : List ι} {place : Nat} {item : ι}
    (there : items[place]? = some item) : items.set place item = items := by
  obtain ⟨inside, rfl⟩ := List.getElem?_eq_some_iff.mp there
  exact List.set_getElem_self inside

namespace Cell

/-- A worker who has taken a job stays with it until it has ended. -/
theorem isBusy_work {cell : Cell σ α} (active : cell.stage.isEnded = false) (shared : σ) :
    (cell.work shared).2.1.stage.isBusy = !(cell.work shared).2.1.stage.isEnded := by
  obtain ⟨origin, stage, channel⟩ := cell
  cases stage with
  | running job =>
    cases job with
    | act change next => rfl
    | done outcome =>
      change (finish _ outcome).stage.isBusy = !(finish _ outcome).stage.isEnded
      rcases stage_finish (⟨origin, .running (.done outcome), channel⟩ : Cell σ α) outcome with
        same | ⟨cause, same⟩ <;> rw [same] <;> rfl
  | ended => cases active
  | _ => rfl

end Cell

namespace Crew

variable {crew after : Crew σ α} {posts : List (Option Nat)} {number worker : Nat}
  {cell next : Cell σ α}

/-- Each worker of the crew is busy with the job at its post, and nobody else is. -/
structure Staffed (posts : List (Option Nat)) (crew : Crew σ α) : Prop where
  length : posts.length = crew.size
  busy : ∀ number : Nat, (∃ worker : Nat, posts[worker]? = some (some number)) ↔
    ∃ cell : Cell σ α, crew.cells[number]? = some cell ∧ cell.stage.isBusy = true
  once : ∀ worker other number : Nat, posts[worker]? = some (some number) →
    posts[other]? = some (some number) → worker = other
  count : posts.countP Option.isSome = crew.cells.countP (·.stage.isBusy)

/-- The job is the first one that is queued. -/
structure IsNext (crew : Crew σ α) (number : Nat) (cell : Cell σ α) : Prop where
  found : crew.cells[number]? = some cell
  queued : cell.stage.isQueued = true
  first : ∀ earlier ∈ crew.cells.take number, earlier.stage.isQueued = false

/-- There is a free worker as long as fewer jobs are at work than there are workers. -/
theorem Staffed.exists_free (staffed : crew.Staffed posts)
    (room : crew.cells.countP (·.stage.isBusy) < crew.size) :
    ∃ worker : Nat, posts[worker]? = some none := by
  rw [← staffed.count, ← staffed.length, List.countP_lt_length_iff] at room
  obtain ⟨post, member, free⟩ := room
  cases post with
  | none => exact List.mem_iff_getElem?.mp member
  | some number => cases free

theorem Staffed.room (staffed : crew.Staffed posts) (free : posts[worker]? = some none) :
    crew.cells.countP (·.stage.isBusy) < crew.size := by
  rw [← staffed.count, ← staffed.length, List.countP_lt_length_iff]
  exact ⟨none, List.mem_of_getElem? free, rfl⟩

/-- The cells of busy workers before and after one cell has changed. -/
theorem busy_set (found : crew.cells[number]? = some cell)
    (cells : after.cells = crew.cells.set number next) (other : Nat) :
    (∃ cell : Cell σ α, after.cells[other]? = some cell ∧ cell.stage.isBusy = true) ↔
      if number = other then next.stage.isBusy = true
      else ∃ cell : Cell σ α, crew.cells[other]? = some cell ∧ cell.stage.isBusy = true := by
  have inside := (List.getElem?_eq_some_iff.mp found).1
  rw [cells, List.getElem?_set, if_pos inside]
  split
  · simp
  · rfl

/-- A cell changes, and its job stays with its worker or in the queue. -/
theorem Staffed.keeps (staffed : crew.Staffed posts) (found : crew.cells[number]? = some cell)
    (size : after.size = crew.size) (cells : after.cells = crew.cells.set number next)
    (same : next.stage.isBusy = cell.stage.isBusy) : after.Staffed posts where
  length := staffed.length.trans size.symm
  busy other := by
    rw [staffed.busy, busy_set found cells]
    split
    · rename_i here
      subst here
      simp [found, same]
    · rfl
  once := staffed.once
  count := by
    have counts := countP_set_add (fun cell : Cell σ α => cell.stage.isBusy) found next
    rw [staffed.count, cells]
    simp only [same] at counts
    omega

/-- A free worker takes a job. -/
theorem Staffed.takes (staffed : crew.Staffed posts) (free : posts[worker]? = some none)
    (found : crew.cells[number]? = some cell) (size : after.size = crew.size)
    (cells : after.cells = crew.cells.set number next) (idle : cell.stage.isBusy = false)
    (busy : next.stage.isBusy = true) : after.Staffed (posts.set worker (some number)) := by
  have inside := (List.getElem?_eq_some_iff.mp free).1
  have nobody (other : Nat) : posts[other]? ≠ some (some number) := by
    intro there
    obtain ⟨busyCell, again, works⟩ := (staffed.busy number).mp ⟨other, there⟩
    obtain rfl := Option.some.inj (found.symm.trans again)
    cases idle.symm.trans works
  have self : (posts.set worker (some number))[worker]? = some (some number) :=
    List.getElem?_set_self inside
  have others {other : Nat} (different : worker ≠ other) :
      (posts.set worker (some number))[other]? = posts[other]? := List.getElem?_set_ne different
  refine ⟨?_, fun place => ?_, fun first second place => ?_, ?_⟩
  · rw [List.length_set, staffed.length, size]
  · rw [busy_set found cells]
    split
    · rename_i here
      subst here
      exact ⟨fun _ => busy, fun _ => ⟨worker, self⟩⟩
    · rename_i elsewhere
      rw [← staffed.busy]
      constructor
      · rintro ⟨other, there⟩
        by_cases same : worker = other
        · subst same
          exact absurd (Option.some.inj (Option.some.inj (self.symm.trans there))) elsewhere
        · exact ⟨other, others same ▸ there⟩
      · rintro ⟨other, there⟩
        refine ⟨other, (others ?_).trans there⟩
        rintro rfl
        cases free.symm.trans there
  · intro firstThere secondThere
    by_cases isFirst : worker = first <;> by_cases isSecond : worker = second
    · exact isFirst.symm.trans isSecond
    · subst isFirst
      obtain rfl := Option.some.inj (Option.some.inj (self.symm.trans firstThere))
      exact absurd (others isSecond ▸ secondThere) (nobody second)
    · subst isSecond
      obtain rfl := Option.some.inj (Option.some.inj (self.symm.trans secondThere))
      exact absurd (others isFirst ▸ firstThere) (nobody first)
    · exact staffed.once first second place (others isFirst ▸ firstThere)
        (others isSecond ▸ secondThere)
  · have posted := countP_set_add Option.isSome free (some number)
    have counts := countP_set_add (fun cell : Cell σ α => cell.stage.isBusy) found next
    have before := staffed.count
    rw [cells]
    simp [idle, busy] at posted counts
    omega

/-- A worker is done with a job. -/
theorem Staffed.leaves (staffed : crew.Staffed posts) (there : posts[worker]? = some (some number))
    (found : crew.cells[number]? = some cell) (size : after.size = crew.size)
    (cells : after.cells = crew.cells.set number next) (busy : cell.stage.isBusy = true)
    (idle : next.stage.isBusy = false) : after.Staffed (posts.set worker none) := by
  have inside := (List.getElem?_eq_some_iff.mp there).1
  have self : (posts.set worker none)[worker]? = some none := List.getElem?_set_self inside
  have others {other : Nat} (different : worker ≠ other) :
      (posts.set worker none)[other]? = posts[other]? := List.getElem?_set_ne different
  have kept {other place : Nat} (busyThere : (posts.set worker none)[other]? = some (some place)) :
      worker ≠ other ∧ posts[other]? = some (some place) := by
    have different : worker ≠ other := by
      rintro rfl
      cases self.symm.trans busyThere
    exact ⟨different, others different ▸ busyThere⟩
  refine ⟨?_, fun place => ?_, fun first second place firstThere secondThere => ?_, ?_⟩
  · rw [List.length_set, staffed.length, size]
  · rw [busy_set found cells]
    split
    · rename_i here
      subst here
      refine ⟨fun ⟨other, busyThere⟩ => ?_, fun works => ?_⟩
      · obtain ⟨different, same⟩ := kept busyThere
        exact absurd (staffed.once worker other number there same) different
      · cases idle.symm.trans works
    · rename_i elsewhere
      rw [← staffed.busy]
      refine ⟨fun ⟨other, busyThere⟩ => ⟨other, (kept busyThere).2⟩, fun ⟨other, busyThere⟩ => ?_⟩
      refine ⟨other, (others ?_).trans busyThere⟩
      rintro rfl
      exact elsewhere (Option.some.inj (Option.some.inj (there.symm.trans busyThere)))
  · exact staffed.once first second place (kept firstThere).2 (kept secondThere).2
  · have posted := countP_set_add Option.isSome there none
    have counts := countP_set_add (fun cell : Cell σ α => cell.stage.isBusy) found next
    have before := staffed.count
    rw [cells]
    simp [idle, busy] at posted counts
    omega

end Crew

namespace Plan

variable {plan next : Plan σ α β} {crew after : Crew σ α} {posts : List (Option Nat)}

/-- The owner keeps nobody from work. -/
theorem Moves.staffed {deed? : Option (Deed α)} (moves : plan.Moves crew deed? next after)
    (staffed : crew.Staffed posts) : after.Staffed posts := by
  cases moves with
  | act => exact ⟨staffed.length, staffed.busy, staffed.once, staffed.count⟩
  | check => exact ⟨staffed.length, staffed.busy, staffed.once, staffed.count⟩
  | join idle => exact staffed
  | receive found there => exact staffed.keeps found rfl rfl rfl
  | close found => exact staffed.keeps found rfl rfl rfl
  | collect found => exact staffed.keeps found (Forecast.size_collect ..) Crew.collect_tends.1 rfl
  | @submit origin job onward =>
    refine ⟨staffed.length, fun number => ?_, staffed.once, ?_⟩
    · rw [staffed.busy]
      constructor
      · rintro ⟨cell, found, busy⟩
        exact ⟨cell, (List.getElem?_append_left (List.getElem?_eq_some_iff.mp found).1).trans found, busy⟩
      · rintro ⟨cell, found, busy⟩
        rcases getElem?_concat found with found | ⟨_, rfl⟩
        · exact ⟨cell, found, busy⟩
        · cases busy
    · rw [staffed.count, Crew.submit, List.countP_append]
      rfl

end Plan

namespace Situation

/-- Steps that lead from the first situation to another one when every worker has a name. A worker
who is free takes the first job of the queue and stays with it until it has ended. -/
inductive Shift (first : Situation σ α β) : List (Option Nat) → Situation σ α β → Prop
  | start : Shift first (.replicate first.crew.size none) first
  | owner {posts : List (Option Nat)} {before : Situation σ α β} {plan : Plan σ α β}
      {crew : Crew σ α} (earlier : Shift first posts before)
      (moves : before.plan.next? before.crew = some (plan, crew)) : Shift first posts ⟨plan, crew⟩
  | takes {posts : List (Option Nat)} {before : Situation σ α β} {worker number : Nat}
      {cell : Cell σ α} (earlier : Shift first posts before) (free : posts[worker]? = some none)
      (next : before.crew.IsNext number cell) :
      Shift first (posts.set worker (some number)) ⟨before.plan, before.crew.work number cell⟩
  | goesOn {posts : List (Option Nat)} {before : Situation σ α β} {worker number : Nat}
      {cell : Cell σ α} (earlier : Shift first posts before)
      (there : posts[worker]? = some (some number))
      (found : before.crew.cells[number]? = some cell) :
      Shift first (posts.set worker (if (cell.work before.crew.shared).2.1.stage.isEnded then none
        else some number)) ⟨before.plan, before.crew.work number cell⟩

variable {first last : Situation σ α β} {posts : List (Option Nat)} {worker number : Nat}
  {cell : Cell σ α}

theorem staffed_start (empty : first.crew.cells = []) :
    first.crew.Staffed (.replicate first.crew.size none) where
  length := List.length_replicate
  busy number := by simp [empty, List.getElem?_replicate]
  once worker other number there := by simp [List.getElem?_replicate] at there
  count := by simp [empty]

/-- The posts tell the truth at every moment. -/
theorem Shift.staffed (shift : first.Shift posts last) (empty : first.crew.cells = []) :
    last.crew.Staffed posts := by
  induction shift with
  | start => exact staffed_start empty
  | owner earlier moves inductionHypothesis =>
    obtain ⟨deed?, moves⟩ := Plan.moves_iff.mp moves
    exact moves.staffed inductionHypothesis
  | @takes posts before worker number cell earlier free next inductionHypothesis =>
    have active := Stage.isEnded_of_isQueued next.queued
    refine inductionHypothesis.takes free next.found Crew.size_work Crew.cells_work ?_ ?_
    · simp [Stage.isBusy, next.queued]
    · obtain ⟨origin, stage, channel⟩ := cell
      cases stage with
      | queued job => rfl
      | _ => cases next.queued
  | @goesOn posts before worker number cell earlier there found inductionHypothesis =>
    obtain ⟨other, again, busy⟩ := (inductionHypothesis.busy number).mp ⟨worker, there⟩
    obtain rfl := Option.some.inj (found.symm.trans again)
    have active : cell.stage.isEnded = false := by
      simp only [Stage.isBusy, Bool.and_eq_true, Bool.not_eq_true'] at busy
      exact busy.2
    have still := Cell.isBusy_work active before.crew.shared
    split
    · rename_i ended
      exact inductionHypothesis.leaves there found Crew.size_work Crew.cells_work busy
        (by rw [still, ended]; rfl)
    · rename_i works
      rw [set_eq_self there]
      exact inductionHypothesis.keeps found Crew.size_work Crew.cells_work
        (by rw [still, busy]; simp [works])

/-- The workers may have names: each schedule is one in which every step of a worker is the step of a
worker of that name. -/
theorem exists_shift (empty : first.crew.cells = []) :
    (∃ posts, first.Shift posts last) ↔ Relation.ReflTransGen Step first last := by
  constructor
  · rintro ⟨posts, shift⟩
    induction shift with
    | start => exact .refl
    | owner earlier moves inductionHypothesis => exact inductionHypothesis.tail (.owner moves)
    | takes earlier free next inductionHypothesis =>
      refine inductionHypothesis.tail (.worker (.work next.found ⟨?_, fun _ => ⟨next.first, ?_⟩⟩))
      · exact Stage.isEnded_of_isQueued next.queued
      · exact (earlier.staffed empty).room free
    | @goesOn posts before worker number cell earlier there found inductionHypothesis =>
      obtain ⟨other, again, busy⟩ := ((earlier.staffed empty).busy number).mp ⟨worker, there⟩
      obtain rfl := Option.some.inj (found.symm.trans again)
      simp only [Stage.isBusy, Bool.and_eq_true, Bool.not_eq_true'] at busy
      refine inductionHypothesis.tail (.worker (.work found ⟨busy.2, fun queued => ?_⟩))
      cases busy.1.symm.trans queued
  · intro steps
    induction steps with
    | refl => exact ⟨_, .start⟩
    | tail _ step inductionHypothesis =>
      obtain ⟨posts, shift⟩ := inductionHypothesis
      cases step with
      | owner moves => exact ⟨_, shift.owner moves⟩
      | worker step =>
        obtain @⟨number, cell, found, allowed⟩ := step
        cases queued : cell.stage.isQueued with
        | true =>
          obtain ⟨first, room⟩ := allowed.2 queued
          obtain ⟨worker, free⟩ := (shift.staffed empty).exists_free room
          exact ⟨_, shift.takes free ⟨found, queued, first⟩⟩
        | false =>
          have busy : cell.stage.isBusy = true := by simp [Stage.isBusy, queued, allowed.1]
          obtain ⟨worker, there⟩ := ((shift.staffed empty).busy number).mpr ⟨cell, found, busy⟩
          exact ⟨_, shift.goesOn there found⟩

/-- The worker is about to leave its job. -/
theorem Shift.leaves (shift : first.Shift posts last) (there : posts[worker]? = some (some number))
    (found : last.crew.cells[number]? = some cell) (leaving : cell.stage = .leaving) :
    ∃ crew, first.Shift (posts.set worker none) ⟨last.plan, crew⟩ ∧
      ∃ ended : Cell σ α, ended.stage = .ended ∧ crew.cells = last.crew.cells.set number ended := by
  have stage : (cell.work last.crew.shared).2.1.stage = .ended := by rw [Cell.work, leaving]
  have gone := shift.goesOn there found
  rw [stage] at gone
  exact ⟨_, gone, _, stage, Crew.cells_work⟩

/-- A worker whose job has come to its outcome needs nobody else to be free again, and then it can
take the next job of the queue. -/
theorem Shift.survives (shift : first.Shift posts last) (empty : first.crew.cells = [])
    (there : posts[worker]? = some (some number))
    (found : last.crew.cells[number]? = some cell) (jobless : cell.stage.job? = none) :
    ∃ crew, first.Shift (posts.set worker none) ⟨last.plan, crew⟩ ∧
      (∃ ended : Cell σ α, ended.stage = .ended ∧ crew.cells = last.crew.cells.set number ended) ∧
      ∀ (place : Nat) (waiting : Cell σ α) (job : Process σ (Outcome α)), crew.IsNext place waiting →
        waiting.stage = .queued job → ∃ after, first.Shift (posts.set worker (some place))
          ⟨last.plan, after⟩ ∧ after.cells = crew.cells.set place { waiting with stage := .running job } := by
  have inside := (List.getElem?_eq_some_iff.mp found).1
  obtain ⟨crew, gone, ended, stage, cells⟩ : ∃ crew,
      first.Shift (posts.set worker none) ⟨last.plan, crew⟩ ∧
        ∃ ended : Cell σ α, ended.stage = .ended ∧
          crew.cells = last.crew.cells.set number ended := by
    obtain ⟨other, again, busy⟩ := ((shift.staffed empty).busy number).mp ⟨worker, there⟩
    obtain rfl := Option.some.inj (found.symm.trans again)
    cases same : cell.stage with
    | queued job => cases same ▸ jobless
    | running job => cases same ▸ jobless
    | ended => cases same ▸ busy
    | leaving => exact shift.leaves there found same
    | offering cause =>
      have leaving : (cell.work last.crew.shared).2.1.stage = .leaving := by rw [Cell.work, same]
      have offered := shift.goesOn there found
      rw [leaving] at offered
      change first.Shift (posts.set worker (some number)) _ at offered
      rw [set_eq_self there] at offered
      have next : (last.crew.work number cell).cells[number]? =
          some (cell.work last.crew.shared).2.1 := by
        rw [Crew.cells_work, List.getElem?_set_self inside]
      obtain ⟨crew, gone, ended, stage, cells⟩ := offered.leaves there next leaving
      refine ⟨crew, gone, ended, stage, ?_⟩
      rw [cells, Crew.cells_work, List.set_set]
  refine ⟨crew, gone, ⟨ended, stage, cells⟩, fun place waiting job isNext queued => ?_⟩
  have free : (posts.set worker none)[worker]? = some none :=
    List.getElem?_set_self (List.getElem?_eq_some_iff.mp there).1
  have taken := gone.takes free isNext
  rw [List.set_set] at taken
  refine ⟨_, taken, ?_⟩
  rw [Crew.cells_work]
  simp [Cell.work, queued]

end Situation

end EnumNames
