import EnumNames.Proofs.Schedule.Assurance

/-!
Tasks that the owner of a crew still holds. A task is held from its submission until it is waited
for or dropped, and each task is held once. When every task was waited for in vain of no failure,
no failure is left for the slot.
-/

namespace EnumNames

variable {σ α β γ : Type}

namespace Forecast

variable {forecast after : Forecast σ α} {task : Nat} {held others : List Nat}
  {origin : String} {outcome : Outcome α}

/-- The owner holds the task and will get this outcome from it. -/
def Expects (forecast : Forecast σ α) (task : Nat) (origin : String) (outcome : Outcome α) : Prop :=
  forecast.tasks[task]? = some ⟨origin, outcome, true⟩

/-- Nothing has happened to the tasks in between. -/
def Agrees (forecast after : Forecast σ α) (tasks : List Nat) : Prop :=
  ∀ task ∈ tasks, after.tasks[task]? = forecast.tasks[task]?

/-- The owner holds these tasks and no others, and the others have not failed. -/
structure Holds (forecast : Forecast σ α) (held : List Nat) : Prop where
  nodup : held.Nodup
  inside : ∀ task ∈ held, task < forecast.tasks.length
  others : ∀ task expected, forecast.tasks[task]? = some expected → task ∉ held →
    expected.outcome.isFinished = true

theorem Agrees.refl (forecast : Forecast σ α) (tasks : List Nat) : forecast.Agrees forecast tasks :=
  fun _ _ => rfl

theorem Agrees.trans {last : Forecast σ α} {tasks : List Nat} (first : forecast.Agrees after tasks)
    (second : after.Agrees last tasks) : forecast.Agrees last tasks :=
  fun task member => (second task member).trans (first task member)

theorem Agrees.mono {tasks fewer : List Nat} (agrees : forecast.Agrees after tasks)
    (subset : ∀ task ∈ fewer, task ∈ tasks) : forecast.Agrees after fewer :=
  fun task member => agrees task (subset task member)

theorem Expects.agrees {tasks : List Nat} (expects : forecast.Expects task origin outcome)
    (agrees : forecast.Agrees after tasks) (member : task ∈ tasks) :
    after.Expects task origin outcome :=
  (agrees task member).trans expects

theorem Holds.perm {other : List Nat} (holds : forecast.Holds held) (same : held.Perm other) :
    forecast.Holds other where
  nodup := same.nodup_iff.mp holds.nodup
  inside task member := holds.inside task (same.mem_iff.mpr member)
  others task expected there outside :=
    holds.others task expected there fun member => outside (same.mem_iff.mp member)

/-- When nothing is held, nothing has failed. -/
theorem Holds.finished (holds : forecast.Holds []) :
    ∀ expected ∈ forecast.tasks, expected.outcome.isFinished = true := by
  intro expected member
  obtain ⟨task, there⟩ := List.mem_iff_getElem?.mp member
  exact holds.others task expected there List.not_mem_nil

theorem length_release : (forecast.release task).tasks.length = forecast.tasks.length := by
  simp [release]

theorem agrees_release (outside : task ∉ others) :
    forecast.Agrees (forecast.release task) others := by
  intro other member
  have different : task ≠ other := fun same => outside (same ▸ member)
  simp [release, different]

theorem release_release : (forecast.release task).release task = forecast.release task := by
  unfold release
  congr 1
  refine List.ext_getElem? fun place => ?_
  simp only [List.getElem?_modify]
  cases forecast.tasks[place]? with
  | none => rfl
  | some expected =>
    by_cases same : task = place <;> simp [same]

/-- A task that did not fail may be let go. -/
theorem Holds.release (holds : forecast.Holds (task :: others))
    (expects : forecast.Expects task origin outcome) (finished : outcome.isFinished = true) :
    (forecast.release task).Holds others where
  nodup := (List.nodup_cons.mp holds.nodup).2
  inside other member := length_release.symm ▸ holds.inside other (List.mem_cons_of_mem _ member)
  others other expected there outside := by
    obtain ⟨before, known, rfl⟩ := getElem?_release.mp there
    by_cases same : task = other
    · subst same
      obtain rfl := Option.some.inj (expects.symm.trans known)
      rw [if_pos rfl]
      exact finished
    · rw [if_neg same]
      refine holds.others other before known fun member => ?_
      rcases List.mem_cons.mp member with here | member
      · exact same here.symm
      · exact outside member

theorem agrees_append {tasks : List (Expected α)} (inside : ∀ task ∈ others, task < forecast.tasks.length)
    (same : after.tasks = forecast.tasks ++ tasks) : forecast.Agrees after others := by
  intro task member
  rw [same, List.getElem?_append_left (inside task member)]

/-- A task that was just submitted is held along with the others. -/
theorem Holds.submit {expected : Expected α} (holds : forecast.Holds others)
    (same : after.tasks = forecast.tasks ++ [expected]) :
    after.Holds (forecast.tasks.length :: others) where
  nodup := List.nodup_cons.mpr ⟨fun member => Nat.lt_irrefl _ (holds.inside _ member), holds.nodup⟩
  inside task member := by
    rw [same, List.length_append, List.length_singleton]
    rcases List.mem_cons.mp member with rfl | member
    · exact Nat.lt_succ_self _
    · exact Nat.lt_succ_of_lt (holds.inside task member)
  others task found there outside := by
    rw [same] at there
    rcases getElem?_concat there with there | ⟨here, _⟩
    · exact holds.others task found there fun member => outside (List.mem_cons_of_mem _ member)
    · exact absurd (here ▸ List.mem_cons_self) outside

/-- The shared state may be one of these when the owner looks at it. -/
def Sees (forecast : Forecast σ α) (state : σ) : Prop :=
  match forecast.activity with
  | .changing _ seen => seen state
  | _ => state = forecast.last

end Forecast

namespace Plan

variable {forecast : Forecast σ α} {task : Nat} {origin : String} {outcome : Outcome α}

/-- An operation that changes nothing may be done while the jobs are at work. -/
theorem ensures_ofOperation {operation : StateM σ β}
    (still : ∀ state, (operation state).2 = state) :
    (ofOperation operation).Ensures forecast fun result after =>
      after = forecast ∧ ∃ state, forecast.Sees state ∧ result = (operation state).1 := by
  obtain ⟨tasks, last, activity⟩ := forecast
  cases activity with
  | changing task seen => exact fun state visited => ⟨still state, rfl, state, visited, rfl⟩
  | resting => exact ⟨by simp only [still], last, rfl, rfl⟩
  | reading => exact ⟨by simp only [still], last, rfl, rfl⟩

theorem ensures_wait (expects : forecast.Expects task origin outcome) :
    (wait task).Ensures forecast fun result after =>
      result = outcome.awaited origin ∧ after = forecast.release task := by
  have inside : task < forecast.tasks.length := (List.getElem?_eq_some_iff.mp expects).1
  refine ⟨_, expects, rfl, ?_, ?_, rfl, ?_⟩
  · exact Forecast.length_release.symm ▸ inside
  · exact Forecast.length_release.symm ▸ Forecast.length_release.symm ▸ inside
  · rw [Forecast.release_release, Forecast.release_release]

theorem ensures_queue (origin : String) (outcome : Outcome α) :
    (queue origin (.done outcome)).Ensures forecast fun task after =>
      task = forecast.tasks.length ∧ after = forecast.expect origin outcome :=
  ⟨_, .reader outcome, rfl, rfl⟩

theorem ensures_dropAll {tasks : List Nat} (inside : ∀ task ∈ tasks, task < forecast.tasks.length) :
    (dropAll tasks).Ensures forecast fun _ after => after.last = forecast.last := by
  induction tasks generalizing forecast with
  | nil => exact rfl
  | cons task rest inductionHypothesis =>
    rw [List.forall_mem_cons] at inside
    refine ⟨inside.1, Forecast.length_release.symm ▸ inside.1, ?_⟩
    refine inductionHypothesis fun other member => ?_
    rw [Forecast.length_release, Forecast.length_release]
    exact inside.2 other member

/-- An attempt succeeds with a value and a forecast as wanted, or fails as it may. -/
def Attains (attempt : ExceptT Failure (Plan σ α) β) (forecast : Forecast σ α)
    (failed : Failure → Forecast σ α → Prop) (wanted : β → Forecast σ α → Prop) : Prop :=
  attempt.run.Ensures forecast fun result after =>
    match result with
    | .ok value => wanted value after
    | .error cause => failed cause after

theorem Attains.bind {first : ExceptT Failure (Plan σ α) β} {second : β → ExceptT Failure (Plan σ α) γ}
    {failed other : Failure → Forecast σ α → Prop} {wanted : β → Forecast σ α → Prop}
    {hoped : γ → Forecast σ α → Prop} (attains : Attains first forecast failed wanted)
    (fails : ∀ cause after, failed cause after → other cause after)
    (each : ∀ value after, wanted value after → Attains (second value) after other hoped) :
    Attains (first >>= second) forecast other hoped := by
  refine Ensures.bind attains fun result after holds => ?_
  cases result with
  | ok value => exact each value after holds
  | error cause => exact fails cause after holds

theorem Ensures.lift {plan : Plan σ α β} {failed : Failure → Forecast σ α → Prop}
    {wanted : β → Forecast σ α → Prop} (ensures : plan.Ensures forecast wanted) :
    Attains (liftM plan) forecast failed wanted :=
  Ensures.bind ensures fun _ _ holds => holds

end Plan

end EnumNames
