import EnumNames.Proofs.EnumUnit.Observation
import Mathlib.Data.List.Induction

/-!
Which static initializers the machine accepts. An accepted list of steps consists of one group for
every constant, in the order of the constants, with pauses around the groups; any other list fails
at a known step or at its end.
-/

namespace EnumNames

namespace Construction

/-- The machine is fed with one step after the other, and each step is answered. -/
def run (machine : Construction) : List Step → Except Failure (Construction × List Action)
  | [] => return (machine, [])
  | step :: rest => do
    let (next, action) ← machine.observe step
    let (last, actions) ← next.run rest
    return (last, action :: actions)

end Construction

namespace EnumUnit

/-- All steps are fed to the machine, which then has to be finished. -/
def construct (unit : EnumUnit) (steps : List Step) : Except Failure (Nat × List Action) := do
  let (machine, actions) ← (Construction.start unit).run steps
  let count ← machine.finish
  return (count, actions)

/-- This step stores a constant into its own field. -/
def storeOf (unit : EnumUnit) (name : String) : Step :=
  .store ⟨unit.name, name, objectDescriptor unit.name⟩

end EnumUnit

/-- Every step is answered by passing it on. -/
def Step.forwarded (steps : List Step) : List Action := steps.map fun _ => .forward

/-- No step of a pause starts a construction. -/
def Step.Quiet (steps : List Step) : Prop := ∀ className, Step.allocate className ∉ steps

/-- The steps of one construction: the object is allocated, its first literal is a string, and the
next store into the field of the constant ends the group. -/
structure Group (unit : EnumUnit) (name : String) where
  className : String
  before : List Step
  value : String
  after : List Step
  noLoad : ∀ literal, Step.load literal ∉ before
  noStore : unit.storeOf name ∉ after

namespace Group

variable {unit : EnumUnit} {name : String}

def steps (group : Group unit name) : List Step :=
  .allocate group.className :: (group.before ++ .load (.string group.value) ::
    (group.after ++ [unit.storeOf name]))

/-- Only the first literal is substituted. -/
def actions (group : Group unit name) : List Action :=
  .forward :: (Step.forwarded group.before ++ .substitute name ::
    (Step.forwarded group.after ++ [.forward]))

end Group

/-- The groups of some constants stand one after the other, with a pause before each of them. -/
inductive Completed (unit : EnumUnit) : List String → List Step → List Action → Prop where
  | none : Completed unit [] [] []
  | next {names : List String} {name : String} {steps pause : List Step} {actions : List Action}
      (earlier : Completed unit names steps actions) (quiet : Step.Quiet pause)
      (group : Group unit name) :
      Completed unit (names ++ [name]) (steps ++ (pause ++ group.steps))
        (actions ++ (Step.forwarded pause ++ group.actions))

namespace EnumUnit

/-- The groups of all constants are followed by steps that allocate no further constant. -/
inductive Accepts (unit : EnumUnit) : List Step → List Action → Prop where
  | intro {steps rest : List Step} {actions : List Action}
      (completed : Completed unit unit.constants steps actions)
      (closed : Step.allocate unit.name ∉ rest) :
      unit.Accepts (steps ++ rest) (actions ++ Step.forwarded rest)

/-- A step after some others breaks the shape: the first literal of a group is no string, or one
constant more is allocated. -/
inductive StopsAt (unit : EnumUnit) : List Step → Step → Failure → Prop where
  | literal {names others : List String} {name className description : String}
      {steps pause before : List Step} {actions : List Action}
      (declared : unit.constants = names ++ name :: others)
      (completed : Completed unit names steps actions) (quiet : Step.Quiet pause)
      (noLoad : ∀ literal, Step.load literal ∉ before) :
      unit.StopsAt (steps ++ (pause ++ .allocate className :: before))
        (.load (.other description)) (.nonStringLiteral unit.name description)
  | allocate {steps rest : List Step} {actions : List Action}
      (completed : Completed unit unit.constants steps actions)
      (closed : Step.allocate unit.name ∉ rest) :
      unit.StopsAt (steps ++ rest) (.allocate unit.name)
        (.constructionCountMismatch unit.name unit.constants.length (unit.constants.length + 1))

/-- The steps end before all groups are complete: between two groups, before the literal of a group
or before its store. -/
inductive Unfinished (unit : EnumUnit) : List Step → Failure → Prop where
  | idle {names others : List String} {name : String} {steps pause : List Step}
      {actions : List Action} (declared : unit.constants = names ++ name :: others)
      (completed : Completed unit names steps actions) (quiet : Step.Quiet pause) :
      unit.Unfinished (steps ++ pause)
        (.constructionCountMismatch unit.name unit.constants.length names.length)
  | literal {names others : List String} {name className : String}
      {steps pause before : List Step} {actions : List Action}
      (declared : unit.constants = names ++ name :: others)
      (completed : Completed unit names steps actions) (quiet : Step.Quiet pause)
      (noLoad : ∀ literal, Step.load literal ∉ before) :
      unit.Unfinished (steps ++ (pause ++ .allocate className :: before))
        (.incompleteConstruction unit.name "awaiting the name literal")
  | store {names others : List String} {name className value : String}
      {steps pause before after : List Step} {actions : List Action}
      (declared : unit.constants = names ++ name :: others)
      (completed : Completed unit names steps actions) (quiet : Step.Quiet pause)
      (noLoad : ∀ literal, Step.load literal ∉ before) (noStore : unit.storeOf name ∉ after) :
      unit.Unfinished
        (steps ++ (pause ++ .allocate className :: (before ++ .load (.string value) :: after)))
        (.incompleteConstruction unit.name "awaiting the constant's putstatic")

end EnumUnit

namespace Construction

variable {unit : EnumUnit} {machine next last : Construction} {step : Step} {action : Action}
  {name : String}

section Observe

theorem observe_pause (idle : machine.phase = .idle) (quiet : ∀ className, step ≠ .allocate className) :
    machine.observe step = .ok (machine, .forward) := by
  unfold observe
  rw [idle]
  cases step with
  | allocate className => exact absurd rfl (quiet className)
  | load literal => rfl
  | store field => rfl
  | other => rfl

theorem observe_closed (idle : machine.phase = .idle) (used : machine.remaining = [])
    (other : step ≠ .allocate machine.unit.name) : machine.observe step = .ok (machine, .forward) := by
  cases step with
  | allocate className =>
    have different : className ≠ machine.unit.name := fun same => other (by rw [same])
    unfold observe
    rw [idle]
    dsimp only
    rw [used]
    exact if_neg different
  | load literal => exact observe_pause idle (by simp)
  | store field => exact observe_pause idle (by simp)
  | other => exact observe_pause idle (by simp)

theorem observe_awaitingLiteral (waiting : machine.phase = .awaitingLiteral name)
    (noLoad : ∀ literal, step ≠ .load literal) : machine.observe step = .ok (machine, .forward) := by
  unfold observe
  rw [waiting]
  cases step with
  | allocate className => rfl
  | load literal => exact absurd rfl (noLoad literal)
  | store field => rfl
  | other => rfl

theorem observe_store (waiting : machine.phase = .awaitingStore name) :
    machine.observe (machine.unit.storeOf name) = .ok ({ machine with phase := .idle }, .forward) := by
  unfold observe EnumUnit.storeOf
  rw [waiting]
  exact if_pos (beq_self_eq_true _)

theorem observe_awaitingStore (waiting : machine.phase = .awaitingStore name)
    (noStore : step ≠ machine.unit.storeOf name) :
    machine.observe step = .ok (machine, .forward) := by
  unfold observe
  rw [waiting]
  cases step with
  | store field =>
    refine if_neg fun same => noStore ?_
    rw [eq_of_beq same]
    rfl
  | allocate className => rfl
  | load literal => rfl
  | other => rfl

/-- Observing fails for a literal that is no string and for one allocation too many. -/
theorem observe_eq_error {failure : Failure} : machine.observe step = .error failure ↔
    (∃ name description, machine.phase = .awaitingLiteral name ∧
      step = .load (.other description) ∧
      failure = .nonStringLiteral machine.unit.name description) ∨
    (machine.phase = .idle ∧ machine.remaining = [] ∧ step = .allocate machine.unit.name ∧
      failure = .constructionCountMismatch machine.unit.name machine.unit.constants.length
        (machine.consumed + 1)) := by
  constructor
  · intro failed
    unfold observe at failed
    split at failed
    · rename_i idle
      split at failed
      · cases failed
      · rename_i used
        split at failed
        · rename_i own
          cases failed
          exact .inr ⟨idle, used, by rw [own], rfl⟩
        · cases failed
    · cases failed
    · rename_i waiting
      cases failed
      exact .inl ⟨_, _, waiting, rfl, rfl⟩
    · split at failed <;> cases failed
    · cases failed
  · rintro (⟨name, description, waiting, rfl, rfl⟩ | ⟨idle, used, rfl, rfl⟩)
    · unfold observe
      rw [waiting]
    · unfold observe
      rw [idle]
      dsimp only
      rw [used]
      exact if_pos rfl

end Observe

section Run

theorem run_cons_eq_ok {rest : List Step} {actions : List Action} :
    machine.run (step :: rest) = .ok (last, actions) ↔ ∃ next action later,
      machine.observe step = .ok (next, action) ∧ next.run rest = .ok (last, later) ∧
        actions = action :: later := by
  rw [run, bind_eq_ok]
  constructor
  · rintro ⟨⟨next, action⟩, observed, done⟩
    obtain ⟨⟨_, later⟩, further, same⟩ := bind_eq_ok.mp done
    cases same
    exact ⟨next, action, later, observed, further, rfl⟩
  · rintro ⟨next, action, later, observed, done, rfl⟩
    exact ⟨_, observed, bind_eq_ok.mpr ⟨_, done, rfl⟩⟩

theorem run_append (machine : Construction) (first second : List Step) :
    machine.run (first ++ second) = (do
      let (middle, left) ← machine.run first
      let (last, right) ← middle.run second
      return (last, left ++ right)) := by
  induction first generalizing machine with
  | nil =>
    change machine.run second = machine.run second >>= pure
    rw [bind_pure]
  | cons step rest inductionHypothesis =>
    simp only [List.cons_append, run, inductionHypothesis, bind_assoc, pure_bind]

theorem run_append_eq_ok {first second : List Step} {actions : List Action} :
    machine.run (first ++ second) = .ok (last, actions) ↔ ∃ middle left right,
      machine.run first = .ok (middle, left) ∧ middle.run second = .ok (last, right) ∧
        actions = left ++ right := by
  rw [run_append, bind_eq_ok]
  constructor
  · rintro ⟨⟨middle, left⟩, opened, done⟩
    obtain ⟨⟨_, right⟩, closed, same⟩ := bind_eq_ok.mp done
    cases same
    exact ⟨middle, left, right, opened, closed, rfl⟩
  · rintro ⟨middle, left, right, opened, closed, rfl⟩
    exact ⟨_, opened, bind_eq_ok.mpr ⟨_, closed, rfl⟩⟩

/-- One step more is observed in the state that the steps before it lead to. -/
theorem run_concat_eq_ok {steps : List Step} {actions : List Action} :
    machine.run (steps ++ [step]) = .ok (last, actions) ↔ ∃ middle earlier action,
      machine.run steps = .ok (middle, earlier) ∧ middle.observe step = .ok (last, action) ∧
        actions = earlier ++ [action] := by
  rw [run_append_eq_ok]
  constructor
  · rintro ⟨middle, earlier, _, opened, closed, rfl⟩
    obtain ⟨_, action, _, observed, done, rfl⟩ := run_cons_eq_ok.mp closed
    cases done
    exact ⟨middle, earlier, action, opened, observed, rfl⟩
  · rintro ⟨middle, earlier, action, opened, observed, rfl⟩
    exact ⟨middle, earlier, [action], opened,
      run_cons_eq_ok.mpr ⟨last, action, [], observed, rfl, rfl⟩, rfl⟩

/-- Steps that leave the machine as it is are all passed on. -/
theorem run_forwarded {steps : List Step}
    (ignored : ∀ step ∈ steps, machine.observe step = .ok (machine, .forward)) :
    machine.run steps = .ok (machine, Step.forwarded steps) := by
  induction steps with
  | nil => rfl
  | cons step rest inductionHypothesis =>
    rw [List.forall_mem_cons] at ignored
    exact run_cons_eq_ok.mpr ⟨_, _, _, ignored.1, inductionHypothesis ignored.2, rfl⟩

/-- A run fails at one of its steps, which it reaches without a failure. -/
theorem run_eq_error {steps : List Step} {failure : Failure} :
    machine.run steps = .error failure ↔ ∃ before step after middle actions,
      steps = before ++ step :: after ∧ machine.run before = .ok (middle, actions) ∧
        middle.observe step = .error failure := by
  constructor
  · intro failed
    induction steps generalizing machine with
    | nil => cases failed
    | cons first rest inductionHypothesis =>
      cases observed : machine.observe first with
      | error other =>
        rw [run, observed] at failed
        cases failed
        exact ⟨[], first, rest, machine, [], rfl, rfl, observed⟩
      | ok result =>
        obtain ⟨next, action⟩ := result
        cases later : next.run rest with
        | error other =>
          rw [run, observed, ok_bind] at failed
          dsimp only at failed
          rw [later] at failed
          cases failed
          obtain ⟨before, step, after, middle, actions, rfl, opened, failed⟩ :=
            inductionHypothesis later
          exact ⟨first :: before, step, after, middle, action :: actions, rfl,
            run_cons_eq_ok.mpr ⟨next, action, actions, observed, opened, rfl⟩, failed⟩
        | ok done =>
          rw [run_cons_eq_ok.mpr ⟨next, action, done.2, observed, later, rfl⟩] at failed
          cases failed
  · rintro ⟨before, step, after, middle, actions, rfl, opened, failed⟩
    rw [run_append, opened, ok_bind]
    dsimp only
    rw [run, failed]
    rfl

end Run

end Construction

/-- How far the machine has come in the shape of a static initializer when some steps are read. -/
inductive Reads (unit : EnumUnit) : List Step → List Action → Construction → Prop where
  | pause {names others : List String} {steps : List Step} {actions : List Action}
      (pause : List Step) (declared : unit.constants = names ++ others)
      (completed : Completed unit names steps actions)
      (quiet : others ≠ [] → Step.Quiet pause)
      (closed : others = [] → Step.allocate unit.name ∉ pause) :
      Reads unit (steps ++ pause) (actions ++ Step.forwarded pause)
        ⟨unit, names.length, others, .idle⟩
  | literal {names others : List String} {name : String} {steps pause : List Step}
      {actions : List Action} (className : String) (before : List Step)
      (declared : unit.constants = names ++ name :: others)
      (completed : Completed unit names steps actions) (quiet : Step.Quiet pause)
      (noLoad : ∀ literal, Step.load literal ∉ before) :
      Reads unit (steps ++ (pause ++ .allocate className :: before))
        (actions ++ (Step.forwarded pause ++ .forward :: Step.forwarded before))
        ⟨unit, names.length, name :: others, .awaitingLiteral name⟩
  | store {names others : List String} {name : String} {steps pause before : List Step}
      {actions : List Action} (className value : String) (after : List Step)
      (declared : unit.constants = names ++ name :: others)
      (completed : Completed unit names steps actions) (quiet : Step.Quiet pause)
      (noLoad : ∀ literal, Step.load literal ∉ before) (noStore : unit.storeOf name ∉ after) :
      Reads unit
        (steps ++ (pause ++ .allocate className :: (before ++ .load (.string value) :: after)))
        (actions ++ (Step.forwarded pause ++ .forward ::
          (Step.forwarded before ++ .substitute name :: Step.forwarded after)))
        ⟨unit, names.length + 1, others, .awaitingStore name⟩

namespace Step

@[simp] theorem forwarded_nil : forwarded [] = [] := rfl

@[simp] theorem forwarded_cons (step : Step) (rest : List Step) :
    forwarded (step :: rest) = .forward :: forwarded rest := rfl

@[simp] theorem forwarded_append (first second : List Step) :
    forwarded (first ++ second) = forwarded first ++ forwarded second := List.map_append

theorem Quiet.concat {steps : List Step} {step : Step} (quiet : Quiet steps)
    (other : ∀ className, step ≠ .allocate className) : Quiet (steps ++ [step]) := by
  intro className member
  rcases List.mem_append.mp member with member | member
  · exact quiet className member
  · exact other className (List.mem_singleton.mp member).symm

end Step

namespace Reads

variable {unit : EnumUnit} {steps : List Step} {actions : List Action}
  {machine next : Construction} {step : Step} {action : Action}

theorem start (unit : EnumUnit) : Reads unit [] [] (Construction.start unit) := by
  have none : Reads unit ([] ++ []) ([] ++ Step.forwarded []) (Construction.start unit) :=
    .pause [] rfl .none (by simp [Step.Quiet]) (by simp)
  exact none

theorem of_eq {otherSteps : List Step} {otherActions : List Action}
    (reads : Reads unit steps actions machine) (sameSteps : otherSteps = steps)
    (sameActions : otherActions = actions) : Reads unit otherSteps otherActions machine := by
  rw [sameSteps, sameActions]
  exact reads

/-- One step more leads from one place in the shape to the next. -/
theorem concat (reads : Reads unit steps actions machine)
    (observed : machine.observe step = .ok (next, action)) :
    Reads unit (steps ++ [step]) (actions ++ [action]) next := by
  cases reads with
  | @pause names others steps actions pause declared completed quiet closed =>
    by_cases starts : ∃ className, step = .allocate className
    · obtain ⟨className, rfl⟩ := starts
      cases others with
      | cons name others =>
        cases observed
        exact (literal className [] declared completed (quiet (by simp)) (by simp)).of_eq
          (by simp) (by simp)
      | nil =>
        by_cases own : className = unit.name
        · rw [Construction.observe_eq_error.mpr (.inr ⟨rfl, rfl, by rw [own], rfl⟩)] at observed
          cases observed
        · rw [Construction.observe_closed rfl rfl (by simpa using own)] at observed
          cases observed
          refine (Reads.pause (pause ++ [.allocate className]) declared completed (by simp)
            fun used => ?_).of_eq (by simp) (by simp)
          simpa using ⟨closed used, fun same => own same.symm⟩
    · have other (className : String) : step ≠ .allocate className :=
        fun same => starts ⟨className, same⟩
      rw [Construction.observe_pause rfl other] at observed
      cases observed
      refine (Reads.pause (pause ++ [step]) declared completed
        (fun more => (quiet more).concat other) fun used => ?_).of_eq (by simp) (by simp)
      simpa using ⟨closed used, (other unit.name).symm⟩
  | @literal names others name steps pause actions className before declared completed quiet noLoad =>
    by_cases loads : ∃ literal, step = .load literal
    · obtain ⟨literal, rfl⟩ := loads
      cases literal with
      | string value =>
        cases observed
        exact (store className value [] declared completed quiet noLoad (by simp)).of_eq
          (by simp) (by simp)
      | other description => cases observed
    · have other (literal : Literal) : step ≠ .load literal := fun same => loads ⟨literal, same⟩
      rw [Construction.observe_awaitingLiteral rfl other] at observed
      cases observed
      refine (Reads.literal className (before ++ [step]) declared completed quiet
        fun literal => ?_).of_eq (by simp) (by simp)
      simpa using ⟨noLoad literal, (other literal).symm⟩
  | @store names others name steps pause before actions className value after declared completed
      quiet noLoad noStore =>
    by_cases ends : step = unit.storeOf name
    · subst ends
      rw [Construction.observe_store rfl] at observed
      cases observed
      let group : Group unit name := ⟨className, before, value, after, noLoad, noStore⟩
      have count : names.length + 1 = (names ++ [name]).length := by simp
      have whole : unit.constants = (names ++ [name]) ++ others := by simpa using declared
      dsimp only
      rw [count]
      refine (Reads.pause [] whole (completed.next quiet group) (by simp [Step.Quiet])
        (by simp)).of_eq ?_ ?_
      · simp [group, Group.steps]
      · simp [group, Group.actions]
    · rw [Construction.observe_awaitingStore rfl ends] at observed
      cases observed
      refine (Reads.store className value (after ++ [step]) declared completed quiet noLoad
        ?_).of_eq (by simp) (by simp)
      simpa using ⟨noStore, fun same => ends same.symm⟩

end Reads

section Accepted

open Construction (start run_append_eq_ok run_cons_eq_ok run_concat_eq_ok run_forwarded)

variable {unit : EnumUnit} {names others : List String} {name : String}
  {steps pause before after : List Step} {actions : List Action}

theorem run_pause (consumed : Nat) (quiet : Step.Quiet pause) :
    (⟨unit, consumed, others, .idle⟩ : Construction).run pause =
      .ok (⟨unit, consumed, others, .idle⟩, Step.forwarded pause) :=
  run_forwarded fun _ member => Construction.observe_pause rfl fun className same =>
    quiet className (same ▸ member)

/-- From the allocation on, the machine waits for the first literal. -/
theorem run_before (consumed : Nat) (className : String)
    (noLoad : ∀ literal, Step.load literal ∉ before) :
    (⟨unit, consumed, name :: others, .idle⟩ : Construction).run (.allocate className :: before) =
      .ok (⟨unit, consumed, name :: others, .awaitingLiteral name⟩,
        .forward :: Step.forwarded before) := by
  refine run_cons_eq_ok.mpr ⟨_, _, _, rfl, run_forwarded fun step member => ?_, rfl⟩
  exact Construction.observe_awaitingLiteral rfl fun literal same => noLoad literal (same ▸ member)

/-- From the literal on, the machine waits for the store. -/
theorem run_after (consumed : Nat) (value : String) (noStore : unit.storeOf name ∉ after) :
    (⟨unit, consumed, name :: others, .awaitingLiteral name⟩ : Construction).run
        (.load (.string value) :: after) =
      .ok (⟨unit, consumed + 1, others, .awaitingStore name⟩,
        .substitute name :: Step.forwarded after) := by
  refine run_cons_eq_ok.mpr ⟨_, _, _, rfl, run_forwarded fun step member => ?_, rfl⟩
  exact Construction.observe_awaitingStore rfl fun same => noStore (same ▸ member)

/-- A group uses up one name. -/
theorem Group.run (group : Group unit name) (consumed : Nat) :
    (⟨unit, consumed, name :: others, .idle⟩ : Construction).run group.steps =
      .ok (⟨unit, consumed + 1, others, .idle⟩, group.actions) := by
  have store : (⟨unit, consumed + 1, others, .awaitingStore name⟩ : Construction).run
      [unit.storeOf name] = .ok (⟨unit, consumed + 1, others, .idle⟩, [.forward]) :=
    run_cons_eq_ok.mpr ⟨_, _, _, Construction.observe_store rfl, rfl, rfl⟩
  have tail := run_append_eq_ok.mpr
    ⟨_, _, _, run_after consumed group.value group.noStore, store, rfl⟩
  exact run_append_eq_ok.mpr
    ⟨_, _, _, run_before consumed group.className group.noLoad, tail, rfl⟩

/-- The induction is on the groups; after them the machine is idle and has their names used up. -/
theorem Completed.run (completed : Completed unit names steps actions)
    (declared : unit.constants = names ++ others) :
    (start unit).run steps = .ok (⟨unit, names.length, others, .idle⟩, actions) := by
  induction completed generalizing others with
  | none =>
    rw [List.nil_append] at declared
    rw [Construction.start, declared]
    rfl
  | @next names name steps pause actions earlier quiet group inductionHypothesis =>
    have opened := inductionHypothesis (declared.trans (by rw [List.append_assoc]))
    have count : (names ++ [name]).length = names.length + 1 := by simp
    rw [count]
    refine run_append_eq_ok.mpr ⟨_, _, _, opened, ?_, rfl⟩
    exact run_append_eq_ok.mpr ⟨_, _, _, run_pause _ quiet, group.run _, rfl⟩

/-- The machine reaches the places of the shape and no others. -/
theorem run_eq_ok_iff {machine : Construction} :
    (start unit).run steps = .ok (machine, actions) ↔ Reads unit steps actions machine := by
  constructor
  · intro done
    induction steps using List.reverseRecOn generalizing machine actions with
    | nil =>
      cases done
      exact .start unit
    | append_singleton steps step inductionHypothesis =>
      obtain ⟨middle, earlier, action, opened, observed, rfl⟩ := run_concat_eq_ok.mp done
      exact (inductionHypothesis opened).concat observed
  · rintro (⟨pause, declared, completed, quiet, closed⟩ |
      ⟨className, before, declared, completed, quiet, noLoad⟩ |
      ⟨className, value, after, declared, completed, quiet, noLoad, noStore⟩)
    · rename_i others _ _
      refine run_append_eq_ok.mpr ⟨_, _, _, completed.run declared, ?_, rfl⟩
      cases others with
      | cons name others => exact run_pause _ (quiet (by simp))
      | nil =>
        refine run_forwarded fun step member => Construction.observe_closed rfl rfl fun same => ?_
        exact closed rfl (same ▸ member)
    · refine run_append_eq_ok.mpr ⟨_, _, _, completed.run declared, ?_, rfl⟩
      exact run_append_eq_ok.mpr ⟨_, _, _, run_pause _ quiet, run_before _ _ noLoad, rfl⟩
    · refine run_append_eq_ok.mpr ⟨_, _, _, completed.run declared, ?_, rfl⟩
      refine run_append_eq_ok.mpr ⟨_, _, _, run_pause _ quiet, ?_, rfl⟩
      exact run_append_eq_ok.mpr ⟨_, _, _, run_before _ _ noLoad, run_after _ _ noStore, rfl⟩

end Accepted

namespace Construction

variable {machine : Construction}

theorem finish_eq_ok_iff {count : Nat} : machine.finish = .ok count ↔
    machine.phase = .idle ∧ machine.consumed = machine.unit.constants.length ∧
      count = machine.unit.constants.length := by
  constructor
  · intro finished
    obtain ⟨all, same⟩ := finish_eq_ok finished
    refine ⟨?_, all, same⟩
    unfold finish at finished
    split at finished
    · cases finished
    · rename_i idle
      exact Decidable.not_not.mp idle
  · rintro ⟨idle, all, rfl⟩
    rw [finish, if_neg (not_not_intro idle), if_neg (not_not_intro all), all]

theorem finish_eq_error {failure : Failure} : machine.finish = .error failure ↔
    (machine.phase ≠ .idle ∧
      failure = .incompleteConstruction machine.unit.name machine.phase.description) ∨
    (machine.phase = .idle ∧ machine.consumed ≠ machine.unit.constants.length ∧
      failure = .constructionCountMismatch machine.unit.name machine.unit.constants.length
        machine.consumed) := by
  unfold finish
  by_cases idle : machine.phase = .idle
  · rw [if_neg (not_not_intro idle)]
    by_cases all : machine.consumed = machine.unit.constants.length
    · simp [idle, all]
    · rw [if_pos all, mismatch]
      simp [idle, all, eq_comm]
  · rw [if_pos idle]
    simp [idle, eq_comm]

end Construction

namespace EnumUnit

open Construction (start)

variable {unit : EnumUnit} {steps : List Step}

theorem construct_eq_ok_iff {count : Nat} {actions : List Action} :
    unit.construct steps = .ok (count, actions) ↔
      unit.Accepts steps actions ∧ count = unit.constants.length := by
  constructor
  · intro done
    obtain ⟨⟨machine, answers⟩, run, done⟩ := bind_eq_ok.mp done
    obtain ⟨number, finished, same⟩ := bind_eq_ok.mp done
    cases same
    obtain ⟨idle, all, same⟩ := Construction.finish_eq_ok_iff.mp finished
    cases run_eq_ok_iff.mp run with
    | @pause names others steps actions pause declared completed quiet closed =>
      have none : others = [] := by
        have length := congrArg List.length declared
        rw [List.length_append] at length
        exact List.length_eq_zero_iff.mp (by dsimp only at all; omega)
      rw [none, List.append_nil] at declared
      exact ⟨⟨declared ▸ completed, closed none⟩, same⟩
    | literal => cases idle
    | store => cases idle
  · rintro ⟨⟨completed, closed⟩, rfl⟩
    have declared : unit.constants = unit.constants ++ [] := (List.append_nil _).symm
    have run := run_eq_ok_iff.mpr (.pause _ declared completed (by simp) fun _ => closed)
    refine bind_eq_ok.mpr ⟨_, run, bind_eq_ok.mpr ⟨_, ?_, rfl⟩⟩
    exact Construction.finish_eq_ok_iff.mpr ⟨rfl, rfl, rfl⟩

/-- The machine refuses a step exactly where the shape breaks. -/
theorem observe_error_iff {step : Step} {failure : Failure} :
    (∃ machine actions, (start unit).run steps = .ok (machine, actions) ∧
      machine.observe step = .error failure) ↔ unit.StopsAt steps step failure := by
  constructor
  · rintro ⟨machine, actions, run, failed⟩
    obtain ⟨name, description, waiting, rfl, rfl⟩ | ⟨idle, used, rfl, rfl⟩ :=
      Construction.observe_eq_error.mp failed
    · cases run_eq_ok_iff.mp run with
      | pause => cases waiting
      | literal _ _ declared completed quiet noLoad => exact .literal declared completed quiet noLoad
      | store => cases waiting
    · cases run_eq_ok_iff.mp run with
      | pause _ declared completed quiet closed =>
        cases used
        rw [List.append_nil] at declared
        rw [← declared]
        exact .allocate (declared ▸ completed) (closed rfl)
      | literal => cases idle
      | store => cases idle
  · rintro (⟨declared, completed, quiet, noLoad⟩ | ⟨completed, closed⟩)
    · refine ⟨_, _, run_eq_ok_iff.mpr (.literal _ _ declared completed quiet noLoad), ?_⟩
      exact Construction.observe_eq_error.mpr (.inl ⟨_, _, rfl, rfl, rfl⟩)
    · have declared : unit.constants = unit.constants ++ [] := (List.append_nil _).symm
      refine ⟨_, _, run_eq_ok_iff.mpr (.pause _ declared completed (by simp) fun _ => closed), ?_⟩
      exact Construction.observe_eq_error.mpr (.inr ⟨rfl, rfl, rfl, rfl⟩)

/-- The machine cannot be finished exactly when the shape is incomplete. -/
theorem finish_error_iff {failure : Failure} :
    (∃ machine actions, (start unit).run steps = .ok (machine, actions) ∧
      machine.finish = .error failure) ↔ unit.Unfinished steps failure := by
  constructor
  · rintro ⟨machine, actions, run, failed⟩
    cases run_eq_ok_iff.mp run with
    | @pause names others steps actions pause declared completed quiet closed =>
      obtain ⟨busy, _⟩ | ⟨_, missing, rfl⟩ := Construction.finish_eq_error.mp failed
      · exact absurd rfl busy
      · cases others with
        | nil =>
          rw [List.append_nil] at declared
          exact absurd (congrArg List.length declared).symm missing
        | cons name others => exact .idle declared completed (quiet (by simp))
    | literal _ _ declared completed quiet noLoad =>
      cases failed
      exact .literal declared completed quiet noLoad
    | store _ _ _ declared completed quiet noLoad noStore =>
      cases failed
      exact .store declared completed quiet noLoad noStore
  · rintro (⟨declared, completed, quiet⟩ | ⟨declared, completed, quiet, noLoad⟩ |
      ⟨declared, completed, quiet, noLoad, noStore⟩)
    · refine ⟨_, _, run_eq_ok_iff.mpr (.pause _ declared completed (fun _ => quiet) (by simp)), ?_⟩
      refine Construction.finish_eq_error.mpr (.inr ⟨rfl, ?_, rfl⟩)
      rw [declared, List.length_append, List.length_cons]
      dsimp only
      omega
    · exact ⟨_, _, run_eq_ok_iff.mpr (.literal _ _ declared completed quiet noLoad), rfl⟩
    · exact ⟨_, _, run_eq_ok_iff.mpr (.store _ _ _ declared completed quiet noLoad noStore), rfl⟩

/-- A failure comes from a step or from the end of the steps. -/
theorem construct_eq_error_iff {failure : Failure} : unit.construct steps = .error failure ↔
    (∃ before step after, steps = before ++ step :: after ∧ unit.StopsAt before step failure) ∨
      unit.Unfinished steps failure := by
  simp only [← finish_error_iff, ← observe_error_iff]
  unfold construct
  rw [bind_eq_error, Construction.run_eq_error]
  constructor
  · rintro (⟨before, step, after, machine, actions, same, run, failed⟩ |
      ⟨⟨machine, actions⟩, run, failed⟩)
    · exact .inl ⟨before, step, after, same, machine, actions, run, failed⟩
    · obtain failed | ⟨_, _, impossible⟩ := bind_eq_error.mp failed
      · exact .inr ⟨machine, actions, run, failed⟩
      · cases impossible
  · rintro (⟨before, step, after, same, machine, actions, run, failed⟩ |
      ⟨machine, actions, run, failed⟩)
    · exact .inl ⟨before, step, after, machine, actions, same, run, failed⟩
    · exact .inr ⟨_, run, bind_eq_error.mpr (.inl failed)⟩

/-- A list of steps is accepted exactly when it has the shape of a static initializer. Otherwise it
fails at the step where the shape breaks, or at the end of the steps if the shape is incomplete. -/
theorem construct_outcome (unit : EnumUnit) (steps : List Step) :
    (∀ count actions, unit.construct steps = .ok (count, actions) ↔
      unit.Accepts steps actions ∧ count = unit.constants.length) ∧
    ((∀ actions, ¬ unit.Accepts steps actions) →
      ∃! failure, unit.construct steps = .error failure) ∧
    (∀ failure, unit.construct steps = .error failure ↔
      (∃ before step after, steps = before ++ step :: after ∧ unit.StopsAt before step failure) ∨
        unit.Unfinished steps failure) ∧
    (∀ before step failure, unit.StopsAt before step failure ↔ ∃ machine actions,
      (start unit).run before = .ok (machine, actions) ∧ machine.observe step = .error failure) ∧
    ∀ failure, unit.Unfinished steps failure ↔ ∃ machine actions,
      (start unit).run steps = .ok (machine, actions) ∧ machine.finish = .error failure := by
  refine ⟨fun _ _ => construct_eq_ok_iff, fun refused => ?_, fun _ => construct_eq_error_iff,
    fun _ _ _ => observe_error_iff.symm, fun _ => finish_error_iff.symm⟩
  cases done : unit.construct steps with
  | ok result => exact absurd (construct_eq_ok_iff.mp done).1 (refused result.2)
  | error failure => exact ⟨failure, rfl, fun other same => (Except.error.inj same).symm⟩

end EnumUnit

end EnumNames
