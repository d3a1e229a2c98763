import EnumNames.Proofs.EnumUnit.Acceptance
import EnumNames.Proofs.EnumUnit.RepairedClass

/-!
The order in which an accepted static initializer stores its constants. Each constant is stored by
one step only, so the store that ends its group is that step, and the groups of two constants cannot
overlap.
-/

namespace EnumNames

/-- An item that is not repeated stands at one place. -/
theorem getElem?_eq_some_iff_of_notMem {α : Type} {left right : List α} {item : α}
    (notLeft : item ∉ left) (notRight : item ∉ right) (place : Nat) :
    (left ++ item :: right)[place]? = some item ↔ place = left.length := by
  constructor
  · intro found
    rcases Nat.lt_trichotomy place left.length with before | same | behind
    · rw [List.getElem?_append_left before] at found
      exact absurd (List.mem_of_getElem? found) notLeft
    · exact same
    · rw [List.getElem?_append_right (Nat.le_of_lt behind)] at found
      obtain ⟨distance, same⟩ : ∃ distance, place - left.length = distance + 1 :=
        ⟨place - left.length - 1, by omega⟩
      rw [same, List.getElem?_cons_succ] at found
      exact absurd (List.mem_of_getElem? found) notRight
  · rintro rfl
    simp

namespace Step

theorem substitute_notMem_forwarded (name : String) (steps : List Step) :
    Action.substitute name ∉ forwarded steps := by
  simp [forwarded]

@[simp] theorem length_forwarded (steps : List Step) :
    (forwarded steps).length = steps.length := List.length_map ..

end Step

/-- The steps around the literal and the store of one constant, with their answers. -/
structure Surrounded (unit : EnumUnit) (earlier : List String) (name : String)
    (later : List String) (steps : List Step) (actions : List Action) where
  left : List Step
  value : String
  middle : List Step
  right : List Step
  leftActions : List Action
  middleActions : List Action
  rightActions : List Action
  steps_eq : steps = left ++ .load (.string value) :: (middle ++ unit.storeOf name :: right)
  actions_eq :
    actions = leftActions ++ .substitute name :: (middleActions ++ .forward :: rightActions)
  leftLength : leftActions.length = left.length
  middleLength : middleActions.length = middle.length
  stored : ∀ other ∈ earlier, unit.storeOf other ∈ left
  leftNames : ∀ other, .substitute other ∈ leftActions → other ∈ earlier
  middleNames : ∀ other, .substitute other ∉ middleActions
  rightNames : ∀ other, .substitute other ∈ rightActions → other ∈ later

namespace Surrounded

variable {unit : EnumUnit} {earlier later : List String} {name : String} {steps : List Step}
  {actions : List Action}

/-- A name that is declared once is substituted once. -/
theorem loaded (around : Surrounded unit earlier name later steps actions)
    (notEarlier : name ∉ earlier) (notLater : name ∉ later) (place : Nat) :
    actions[place]? = some (.substitute name) ↔ place = around.left.length := by
  obtain ⟨left, value, middle, right, leftActions, middleActions, rightActions, rfl, rfl, leftLength,
    middleLength, stored, leftNames, middleNames, rightNames⟩ := around
  dsimp only
  rw [← leftLength]
  refine getElem?_eq_some_iff_of_notMem (fun member => notEarlier (leftNames _ member)) ?_ _
  intro member
  rcases List.mem_append.mp member with member | member
  · exact middleNames _ member
  · exact notLater (rightNames _ ((List.mem_cons.mp member).resolve_left (by simp)))

theorem literal (around : Surrounded unit earlier name later steps actions) :
    steps[around.left.length]? = some (.load (.string around.value)) := by
  obtain ⟨left, value, middle, right, leftActions, middleActions, rightActions, rfl, rfl, leftLength,
    middleLength, stored, leftNames, middleNames, rightNames⟩ := around
  simp

/-- The only store of the constant is the one that ends its group. -/
theorem stored_iff (around : Surrounded unit earlier name later steps actions)
    (once : steps.count (unit.storeOf name) = 1) (place : Nat) :
    steps[place]? = some (unit.storeOf name) ↔
      place = around.left.length + 1 + around.middle.length := by
  obtain ⟨left, value, middle, right, leftActions, middleActions, rightActions, rfl, rfl, leftLength,
    middleLength, stored, leftNames, middleNames, rightNames⟩ := around
  have split : left ++ .load (.string value) :: (middle ++ unit.storeOf name :: right) =
      (left ++ .load (.string value) :: middle) ++ unit.storeOf name :: right := by simp
  have length : left.length + 1 + middle.length =
      (left ++ .load (.string value) :: middle).length := by
    simp only [List.length_append, List.length_cons]
    omega
  rw [split, List.count_append, List.count_cons_self] at once
  dsimp only
  rw [split, length]
  exact getElem?_eq_some_iff_of_notMem (List.count_eq_zero.mp (by omega))
    (List.count_eq_zero.mp (by omega)) place

/-- The earlier constants are stored before the literal is loaded. -/
theorem exists_stored (around : Surrounded unit earlier name later steps actions) {other : String}
    (member : other ∈ earlier) :
    ∃ place < around.left.length, steps[place]? = some (unit.storeOf other) := by
  obtain ⟨place, inside, found⟩ := List.getElem_of_mem (around.stored other member)
  obtain ⟨left, value, middle, right, leftActions, middleActions, rightActions, rfl, rfl, leftLength,
    middleLength, _, leftNames, middleNames, rightNames⟩ := around
  refine ⟨place, inside, ?_⟩
  rw [List.getElem?_append_left inside, List.getElem?_eq_getElem inside, found]

end Surrounded

namespace Completed

variable {unit : EnumUnit} {names : List String} {steps : List Step} {actions : List Action}

theorem length_eq (completed : Completed unit names steps actions) :
    actions.length = steps.length := by
  induction completed with
  | none => rfl
  | next earlier quiet group inductionHypothesis =>
    simp [inductionHypothesis, Group.steps, Group.actions]

theorem store_mem (completed : Completed unit names steps actions) :
    ∀ name ∈ names, unit.storeOf name ∈ steps := by
  induction completed with
  | none => simp
  | next earlier quiet group inductionHypothesis =>
    intro name member
    rcases List.mem_append.mp member with member | member
    · exact List.mem_append_left _ (inductionHypothesis name member)
    · rw [List.mem_singleton.mp member]
      simp [Group.steps]

theorem substitute_mem (completed : Completed unit names steps actions) :
    ∀ name, .substitute name ∈ actions → name ∈ names := by
  induction completed with
  | none => simp
  | @next names last _ _ _ earlier quiet group inductionHypothesis =>
    intro name member
    rcases List.mem_append.mp member with member | member
    · exact List.mem_append_left _ (inductionHypothesis name member)
    · have same : name = last := by
        simpa [Group.actions, Step.substitute_notMem_forwarded] using member
      simp [same]

/-- Each group has the groups of the earlier constants in front of it and those of the later ones
behind it. -/
theorem surrounded (completed : Completed unit names steps actions) {earlier later : List String}
    {name : String} (declared : names = earlier ++ name :: later) :
    Nonempty (Surrounded unit earlier name later steps actions) := by
  induction completed generalizing later with
  | none => simp at declared
  | @next names last steps pause actions completed quiet group inductionHypothesis =>
    rcases later.eq_nil_or_concat' with rfl | ⟨later, other, rfl⟩
    · obtain ⟨rfl, same⟩ := List.append_inj' declared rfl
      cases same
      exact ⟨{
        left := steps ++ (pause ++ .allocate group.className :: group.before)
        value := group.value
        middle := group.after
        right := []
        leftActions := actions ++ (Step.forwarded pause ++ .forward :: Step.forwarded group.before)
        middleActions := Step.forwarded group.after
        rightActions := []
        steps_eq := by simp [Group.steps]
        actions_eq := by simp [Group.actions]
        leftLength := by simp [completed.length_eq]
        middleLength := by simp
        stored := fun other member => List.mem_append_left _ (completed.store_mem other member)
        leftNames := fun other member => by
          refine completed.substitute_mem other ?_
          simpa [Step.substitute_notMem_forwarded] using member
        middleNames := fun other => Step.substitute_notMem_forwarded other _
        rightNames := by simp }⟩
    · have parts : names ++ [last] = (earlier ++ name :: later) ++ [other] := by
        simpa using declared
      obtain ⟨rfl, same⟩ := List.append_inj' parts rfl
      cases same
      obtain ⟨around⟩ := inductionHypothesis rfl
      exact ⟨{ around with
        right := around.right ++ (pause ++ group.steps)
        rightActions := around.rightActions ++ (Step.forwarded pause ++ group.actions)
        steps_eq := by
          conv_lhs => rw [around.steps_eq]
          simp
        actions_eq := by
          conv_lhs => rw [around.actions_eq]
          simp
        rightNames := fun other member => by
          rcases List.mem_append.mp member with member | member
          · exact List.mem_append_left _ (around.rightNames other member)
          · have same : other = last := by
              simpa [Group.actions, Step.substitute_notMem_forwarded] using member
            simp [same] }⟩

end Completed

namespace EnumUnit

variable {unit : EnumUnit} {steps : List Step} {actions : List Action}

/-- The groups of all constants are surrounded by those of the others. -/
theorem Accepts.surrounded (accepted : unit.Accepts steps actions) {earlier later : List String}
    {name : String} (declared : unit.constants = earlier ++ name :: later) :
    Nonempty (Surrounded unit earlier name later steps actions) := by
  obtain ⟨completed, closed⟩ := accepted
  rename_i steps rest actions
  obtain ⟨around⟩ := completed.surrounded declared
  exact ⟨{ around with
    right := around.right ++ rest
    rightActions := around.rightActions ++ Step.forwarded rest
    steps_eq := by
      conv_lhs => rw [around.steps_eq]
      simp
    actions_eq := by
      conv_lhs => rw [around.actions_eq]
      simp
    rightNames := fun other member => by
      refine around.rightNames other ?_
      simpa [Step.substitute_notMem_forwarded] using member }⟩

/-- The literal of every constant is substituted at one place and the constant is stored at another
one. All of this happens behind the stores of the earlier constants. -/
structure InOrder (unit : EnumUnit) (steps : List Step) (actions : List Action)
    (loads stores : Fin unit.constants.length → Nat) : Prop where
  loaded : ∀ constant place,
    actions[place]? = some (.substitute unit.constants[constant]) ↔ place = loads constant
  literal : ∀ constant, ∃ value, steps[loads constant]? = some (.load (.string value))
  stored : ∀ constant place,
    steps[place]? = some (unit.storeOf unit.constants[constant]) ↔ place = stores constant
  before : ∀ constant, loads constant < stores constant
  behind : ∀ first second, first < second → stores first < loads second
  apart : ∀ constant other,
    ¬ (loads constant < stores other ∧ stores other < stores constant)

/-- When every constant has one store, the store that ends its group is that one. -/
theorem Accepts.inOrder (accepted : unit.Accepts steps actions) (distinct : unit.constants.Nodup)
    (once : ∀ name ∈ unit.constants, steps.count (unit.storeOf name) = 1) :
    ∃ loads stores, unit.InOrder steps actions loads stores := by
  have each (constant : Fin unit.constants.length) : ∃ load store : Nat,
      (∀ place, actions[place]? = some (Action.substitute unit.constants[constant]) ↔
        place = load) ∧
      (∃ value, steps[load]? = some (Step.load (.string value))) ∧
      (∀ place, steps[place]? = some (unit.storeOf unit.constants[constant]) ↔ place = store) ∧
      load < store ∧ ∀ earlier < constant, ∃ place < load,
        steps[place]? = some (unit.storeOf unit.constants[earlier]) := by
    have declared : unit.constants = unit.constants.take constant ++ unit.constants[constant] ::
        unit.constants.drop (constant + 1) := by
      rw [Fin.getElem_fin, List.getElem_cons_drop, List.take_append_drop]
    obtain ⟨around⟩ := accepted.surrounded declared
    have apart := distinct
    rw [declared, List.nodup_append, List.nodup_cons] at apart
    obtain ⟨_, ⟨notLater, _⟩, disjoint⟩ := apart
    have notEarlier : unit.constants[constant] ∉ unit.constants.take constant :=
      fun member => disjoint _ member _ List.mem_cons_self rfl
    refine ⟨_, _, around.loaded notEarlier notLater, ⟨_, around.literal⟩,
      around.stored_iff (once _ (List.getElem_mem _)), by omega, fun earlier less => ?_⟩
    exact around.exists_stored (List.mem_take_iff_getElem.mpr ⟨earlier, by omega, rfl⟩)
  choose loads stores loaded literal stored before earlier using each
  have behind (first second) (less : first < second) : stores first < loads second := by
    obtain ⟨place, inside, found⟩ := earlier second first less
    rwa [(stored first place).mp found] at inside
  refine ⟨loads, stores, loaded, literal, stored, before, behind, ?_⟩
  rintro constant other ⟨after, beforeStore⟩
  rcases Nat.lt_trichotomy constant other with less | same | greater
  · have := behind constant other less
    have := before other
    omega
  · rw [Fin.ext same] at beforeStore
    omega
  · have := behind other constant greater
    omega

end EnumUnit

namespace Construction

/-- The instructions of a static initializer are fed to the machine as steps. -/
theorem run_of_observeAll {pool : ConstantPool} {code : ByteArray} {machine last : Construction}
    {instructions : List Instruction} {found : List Substitution} {steps : List Step}
    (read : instructions.mapM (Step.ofInstruction pool code) = .ok steps)
    (done : machine.observeAll pool code instructions = .ok (last, found)) :
    ∃ actions, machine.run steps = .ok (last, actions) := by
  induction instructions generalizing machine found steps with
  | nil =>
    cases read
    cases done
    exact ⟨[], rfl⟩
  | cons instruction rest inductionHypothesis =>
    obtain ⟨step, others, taken, further, rfl⟩ := mapM_cons_eq_ok.mp read
    obtain ⟨_, again, done⟩ := bind_eq_ok.mp done
    cases taken.symm.trans again
    obtain ⟨⟨next, action⟩, observed, done⟩ := bind_eq_ok.mp done
    obtain ⟨⟨final, later⟩, run, same⟩ := bind_eq_ok.mp done
    have ends : final = last := by
      cases action <;> cases same <;> rfl
    obtain ⟨actions, whole⟩ := inductionHypothesis further (ends ▸ run)
    exact ⟨action :: actions,
      run_cons_eq_ok.mpr ⟨next, action, actions, observed, whole, rfl⟩⟩

end Construction

/-- A repair only succeeds for a static initializer that the machine accepts. -/
theorem StaticInitializer.construct_of_repair {unit : EnumUnit} {data : ByteArray}
    {repaired : Repaired} {steps : List Step} (initializer : StaticInitializer data)
    (read : initializer.instructions.mapM
      (Step.ofInstruction initializer.layout.pool initializer.code) = .ok steps)
    (done : unit.repair data = .ok repaired) :
    ∃ actions, unit.construct steps = .ok (repaired.substitutions, actions) := by
  rw [EnumUnit.repair_eq unit initializer] at done
  obtain ⟨form, _, layout, _⟩ := InitializerForm.exists_form initializer
  have fits : initializer.layout.pool.count < 65536 := by
    rw [layout]
    exact form.front.fewConstants
  obtain ⟨progress, observed, done⟩ := bind_eq_ok.mp done
  obtain ⟨substitutions, finished, done⟩ := bind_eq_ok.mp done
  obtain ⟨_, sites, found, _, _, _, same, run⟩ :=
    Progress.observeAll_run observed (.refl _) fits
  have observedAll := run.observeAll
  rw [same] at observedAll
  obtain ⟨actions, whole⟩ := Construction.run_of_observeAll read observedAll
  have accepted : unit.construct steps = .ok (substitutions, actions) :=
    bind_eq_ok.mpr ⟨_, whole, bind_eq_ok.mpr ⟨_, finished, rfl⟩⟩
  refine ⟨actions, ?_⟩
  dsimp only at done
  split at done
  · cases done
    exact accepted
  · obtain ⟨_, _, done⟩ := bind_eq_ok.mp done
    obtain ⟨_, _, done⟩ := bind_eq_ok.mp done
    obtain ⟨_, _, done⟩ := bind_eq_ok.mp done
    cases done
    exact accepted

namespace EnumUnit

variable {unit : EnumUnit} {steps : List Step}

/-- No literal is given to a wrong constant. An accepted static initializer that stores every
constant once stores them in their order, and a static initializer with any other order is refused
and never repaired. -/
theorem stores_in_order (distinct : unit.constants.Nodup)
    (once : ∀ name ∈ unit.constants, steps.count (unit.storeOf name) = 1) :
    (∀ count actions, unit.construct steps = .ok (count, actions) →
      ∃ loads stores, unit.InOrder steps actions loads stores) ∧
    ∀ (first second : Fin unit.constants.length) (place later : Nat), first < second →
      steps[place]? = some (unit.storeOf unit.constants[second]) →
      steps[later]? = some (unit.storeOf unit.constants[first]) → place < later →
      (∃ failure, unit.construct steps = .error failure) ∧
        ∀ (data : ByteArray) (initializer : StaticInitializer data),
          initializer.instructions.mapM
            (Step.ofInstruction initializer.layout.pool initializer.code) = .ok steps →
          ∃ failure, unit.repair data = .error failure := by
  refine ⟨fun _ _ done => (construct_eq_ok_iff.mp done).1.inOrder distinct once, ?_⟩
  intro first second place later less secondStored firstStored reversed
  have refused (result : Nat × List Action) : unit.construct steps ≠ .ok result := by
    intro done
    obtain ⟨loads, stores, order⟩ :=
      (construct_eq_ok_iff.mp done).1.inOrder distinct once
    have behind := order.behind first second less
    have before := order.before second
    rw [← (order.stored second place).mp secondStored] at before
    rw [← (order.stored first later).mp firstStored] at behind
    omega
  constructor
  · cases done : unit.construct steps with
    | ok result => exact absurd done (refused result)
    | error failure => exact ⟨failure, rfl⟩
  · intro data initializer read
    cases done : unit.repair data with
    | ok repaired =>
      obtain ⟨actions, accepted⟩ := initializer.construct_of_repair read done
      exact absurd accepted (refused _)
    | error failure => exact ⟨failure, rfl⟩

/-- The first initializer constructs another object inside the group of its first constant; the second
one stores its constants in the wrong order. -/
theorem stores_in_order_example :
    let unit : EnumUnit := ⟨"E", ["A", "B"]⟩
    let steps : List Step := [.allocate "E", .load (.string "X"), .allocate "T",
      .load (.string "Y"), .store ⟨"T", "A", "LE;"⟩, unit.storeOf "A", .other, .allocate "E$1",
      .load (.string "Z"), unit.storeOf "B", .allocate "T"]
    let actions : List Action := [.forward, .substitute "A", .forward, .forward, .forward, .forward,
      .forward, .forward, .substitute "B", .forward, .forward]
    let swapped : List Step := [.allocate "E", .load (.string "X"), unit.storeOf "B",
      .allocate "E", .load (.string "Y"), unit.storeOf "A"]
    unit.constants.Nodup ∧ (∀ name ∈ unit.constants, steps.count (unit.storeOf name) = 1) ∧
      (∀ name ∈ unit.constants, swapped.count (unit.storeOf name) = 1) ∧
      unit.construct steps = .ok (2, actions) ∧
      (∃ loads stores, unit.InOrder steps actions loads stores) ∧
      ∃ failure, unit.construct swapped = .error failure := by
  intro unit steps actions swapped
  have distinct : unit.constants.Nodup := by decide
  have once : ∀ name ∈ unit.constants, steps.count (unit.storeOf name) = 1 := by decide +kernel
  have onceSwapped : ∀ name ∈ unit.constants, swapped.count (unit.storeOf name) = 1 := by
    decide +kernel
  have accepted : unit.construct steps = .ok (2, actions) := by decide +kernel
  refine ⟨distinct, once, onceSwapped, accepted, ?_, ?_⟩
  · exact (stores_in_order distinct once).1 2 actions accepted
  · exact ((stores_in_order distinct onceSwapped).2 ⟨0, by decide⟩ ⟨1, by decide⟩ 2 5 (by decide)
      rfl rfl (by decide)).1

end EnumUnit

end EnumNames
