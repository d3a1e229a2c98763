import EnumNames.Proofs.ClassFile.PoolExtension
import EnumNames.Proofs.EnumUnit.RepairedCode

/-!
The machine over the instructions of a static initializer. It gives out the names of the constants
in their order, and it cannot tell repaired code from the code before the repair.
-/

namespace EnumNames

/-- A substitution is a load that has to yield a name. -/
structure Substitution where
  instruction : Instruction
  name : String

namespace Substitution

/-- This is the string that the load yields, if it yields a string. -/
def literal (pool : ConstantPool) (code : ByteArray) (substitution : Substitution) :
    Except Failure (Option String) := do
  pool.stringValue (← substitution.instruction.loadIndex code)

/-- The load yields its name already. -/
def Matches (pool : ConstantPool) (code : ByteArray) (substitution : Substitution) : Prop :=
  substitution.literal pool code = .ok (some substitution.name)

/-- The load yields anything but its name. -/
def differs (pool : ConstantPool) (code : ByteArray) (substitution : Substitution) : Bool :=
  match substitution.literal pool code with
  | .ok (some value) => value != substitution.name
  | _ => true

theorem differs_eq_false_iff {pool : ConstantPool} {code : ByteArray}
    {substitution : Substitution} :
    substitution.differs pool code = false ↔ substitution.Matches pool code := by
  unfold differs Matches
  split
  · rename_i value read
    simp [read]
  · rename_i other
    constructor
    · intro same
      cases same
    · intro read
      exact absurd read (other _)

end Substitution

namespace Construction

/-- The machine observes all instructions; its substitutions are in the order of the code. -/
def observeAll (pool : ConstantPool) (code : ByteArray) (machine : Construction) :
    List Instruction → Except Failure (Construction × List Substitution)
  | [] => return (machine, [])
  | instruction :: rest => do
    let (machine, action) ← machine.observe (← Step.ofInstruction pool code instruction)
    let (machine, later) ← observeAll pool code machine rest
    match action with
    | .forward => return (machine, later)
    | .substitute name => return (machine, ⟨instruction, name⟩ :: later)

end Construction

/-- The machine starts at the first instruction and accepts at the end. -/
def EnumUnit.substitutions (unit : EnumUnit) (pool : ConstantPool) (code : ByteArray)
    (instructions : List Instruction) : Except Failure (List Substitution) := do
  let (machine, found) ← (Construction.start unit).observeAll pool code instructions
  let _ ← machine.finish
  return found

namespace Construction

variable {unit : EnumUnit} {machine next last : Construction} {step : Step} {action : Action}
  {name : String}

/-- Only a string literal is substituted, and only when the machine waits for it. -/
theorem observe_substitute (observed : machine.observe step = .ok (next, .substitute name)) :
    machine.phase = .awaitingLiteral name ∧ (∃ value, step = .load (.string value)) ∧
      next = { machine with
        consumed := machine.consumed + 1
        remaining := machine.remaining.tail
        phase := .awaitingStore name } := by
  unfold observe at observed
  split at observed
  · split at observed
    · cases observed
    · split at observed <;> cases observed
  · rename_i waiting
    cases observed
    exact ⟨waiting, ⟨_, rfl⟩, rfl⟩
  · cases observed
  · split at observed <;> cases observed
  · cases observed

/-- Without a substitution no name is used up. -/
theorem observe_forward (observed : machine.observe step = .ok (next, .forward)) :
    next.unit = machine.unit ∧ next.consumed = machine.consumed ∧
      next.remaining = machine.remaining ∧ ∀ name, next.phase = .awaitingLiteral name →
        machine.phase = .awaitingLiteral name ∨ machine.remaining.head? = some name := by
  unfold observe at observed
  split at observed
  · split at observed
    · rename_i first rest remaining
      cases observed
      refine ⟨rfl, rfl, rfl, fun name same => .inr ?_⟩
      rw [remaining, List.head?_cons, ← Phase.awaitingLiteral.inj same]
    · split at observed
      · cases observed
      · cases observed
        exact ⟨rfl, rfl, rfl, fun _ same => .inl same⟩
  · cases observed
  · cases observed
  · split at observed
    · cases observed
      exact ⟨rfl, rfl, rfl, fun _ same => by cases same⟩
    · cases observed
      exact ⟨rfl, rfl, rfl, fun _ same => .inl same⟩
  · cases observed
    exact ⟨rfl, rfl, rfl, fun _ same => .inl same⟩

/-- The machine does not look at the value of a string literal. -/
theorem observe_string (machine : Construction) (first second : String) :
    machine.observe (.load (.string first)) = machine.observe (.load (.string second)) := by
  unfold observe
  cases machine.phase <;> rfl

/-- The names are given out in their order, and the machine remembers the one it waits with. -/
structure Progressed (unit : EnumUnit) (machine : Construction) : Prop where
  same : machine.unit = unit
  remaining : machine.remaining = unit.constants.drop machine.consumed
  awaiting : ∀ name, machine.phase = .awaitingLiteral name → machine.remaining.head? = some name

theorem progressed_start (unit : EnumUnit) : Progressed unit (start unit) :=
  ⟨rfl, rfl, fun _ same => by cases same⟩

theorem Progressed.forward (progressed : Progressed unit machine)
    (observed : machine.observe step = .ok (next, .forward)) : Progressed unit next := by
  obtain ⟨same, consumed, remaining, awaiting⟩ := observe_forward observed
  refine ⟨same.trans progressed.same, ?_, fun name waiting => ?_⟩
  · rw [remaining, consumed, progressed.remaining]
  · rw [remaining]
    exact (awaiting name waiting).elim (progressed.awaiting name) id

theorem Progressed.substitute (progressed : Progressed unit machine)
    (observed : machine.observe step = .ok (next, .substitute name)) :
    Progressed unit next ∧ unit.constants.drop machine.consumed =
      name :: unit.constants.drop next.consumed := by
  obtain ⟨waiting, _, rfl⟩ := observe_substitute observed
  have first := progressed.awaiting name waiting
  rw [progressed.remaining] at first
  have tail : machine.remaining.tail = unit.constants.drop (machine.consumed + 1) := by
    rw [progressed.remaining, List.tail_drop]
  refine ⟨⟨progressed.same, tail, fun _ same => by cases same⟩, ?_⟩
  rw [← List.cons_head?_tail first, List.tail_drop]

/-- A run gives out the names between the two numbers of consumed names. -/
theorem observeAll_names {pool : ConstantPool} {code : ByteArray} {instructions : List Instruction}
    {found : List Substitution} (progressed : Progressed unit machine)
    (done : machine.observeAll pool code instructions = .ok (last, found)) :
    Progressed unit last ∧ unit.constants.drop machine.consumed =
      found.map (·.name) ++ unit.constants.drop last.consumed := by
  induction instructions generalizing machine found with
  | nil =>
    cases done
    exact ⟨progressed, rfl⟩
  | cons instruction rest inductionHypothesis =>
    obtain ⟨step, _, done⟩ := bind_eq_ok.mp done
    obtain ⟨⟨next, action⟩, observed, done⟩ := bind_eq_ok.mp done
    obtain ⟨⟨machine', later⟩, run, done⟩ := bind_eq_ok.mp done
    cases action with
    | forward =>
      cases done
      obtain ⟨_, consumed, _⟩ := observe_forward observed
      rw [← consumed]
      exact inductionHypothesis (progressed.forward observed) run
    | substitute name =>
      cases done
      obtain ⟨progressed, head⟩ := progressed.substitute observed
      obtain ⟨ended, tail⟩ := inductionHypothesis progressed run
      exact ⟨ended, by rw [head, tail]; rfl⟩

theorem finish_eq_ok {count : Nat} (finished : machine.finish = .ok count) :
    machine.consumed = machine.unit.constants.length ∧ count = machine.unit.constants.length := by
  unfold finish at finished
  split at finished
  · cases finished
  · split at finished
    · cases finished
    · rename_i all
      cases finished
      exact ⟨Decidable.not_not.mp all, Decidable.not_not.mp all⟩

end Construction

/-- An accepted run gives out the names of all constants in their order. -/
theorem EnumUnit.substitutions_names {unit : EnumUnit} {pool : ConstantPool} {code : ByteArray}
    {instructions : List Instruction} {found : List Substitution}
    (done : unit.substitutions pool code instructions = .ok found) :
    found.map (·.name) = unit.constants := by
  obtain ⟨⟨last, names⟩, run, done⟩ := bind_eq_ok.mp done
  obtain ⟨count, finished, same⟩ := bind_eq_ok.mp done
  cases same
  obtain ⟨ended, all⟩ := Construction.observeAll_names (Construction.progressed_start unit) run
  have consumed := (Construction.finish_eq_ok finished).1
  rw [ended.same] at consumed
  rw [consumed, List.drop_length, List.append_nil] at all
  exact all.symm

/-- What stands inside an instruction without a jump stands inside the reloaded one. -/
theorem Site.Reloads.operand {code out piece : ByteArray} {site : Site} {moved : Instruction}
    (reloads : site.Reloads code out moved) (unpatched : site.index = none)
    (plain : site.instruction.jump? = none)
    (fits : 1 + piece.size ≤ site.instruction.length)
    (stands : Stands code (site.instruction.offset + 1) piece) :
    Stands out (moved.offset + 1) piece := by
  obtain ⟨bytes, old, new⟩ := reloads.bytes unpatched plain
  obtain ⟨width, oldStands⟩ := Access.slice_eq_ok.mp old
  obtain ⟨_, newStands⟩ := Access.slice_eq_ok.mp new
  have whole : bytes.size = site.instruction.length := (Nat.add_left_cancel width).symm
  exact newStands.inside 1 (oldStands.restrict 1 stands (by rwa [whole]))

theorem Site.Reloads.loadIndex {code out : ByteArray} {site : Site} {moved : Instruction}
    {index : UInt16} (reloads : site.Reloads code out moved)
    (decoded : Instruction.decode code site.instruction.offset = .ok site.instruction)
    (unpatched : site.index = none) (load : Opcode.isLoad site.instruction.opcode = true)
    (read : site.instruction.loadIndex code = .ok index) : moved.loadIndex out = .ok index := by
  have length := Instruction.length_of_isLoad decoded load
  have plain : site.instruction.jump? = none := (Opcode.shape_of_isLoad load).1
  unfold Instruction.loadIndex at read ⊢
  rw [reloads.opcode unpatched]
  split at read
  · rename_i narrow
    rw [if_pos narrow] at length ⊢
    obtain ⟨byte, byteRead, same⟩ := bind_eq_ok.mp read
    refine bind_eq_ok.mpr ⟨byte, Access.u1_eq_ok.mpr ?_, same⟩
    refine reloads.operand unpatched plain ?_ (Access.u1_eq_ok.mp byteRead)
    rw [length]
    exact Nat.le_refl 2
  · rename_i wide
    rw [if_neg wide] at length ⊢
    refine Access.u2_eq_ok.mpr (reloads.operand unpatched plain ?_ (Access.u2_eq_ok.mp read))
    rw [length]
    exact Nat.le_refl 3

namespace Step

variable {source pool : ConstantPool} {code out : ByteArray} {instruction moved : Instruction}

/-- A load is a step by what its constant is. -/
theorem ofInstruction_load (load : Opcode.isLoad instruction.opcode = true) :
    ofInstruction pool code instruction = instruction.loadIndex code >>= ofLoad pool := by
  have other : instruction.opcode ≠ Opcode.new := by
    intro same
    rw [same] at load
    cases load
  rw [ofInstruction, if_neg other, if_pos load]

theorem ofLoad_eq_string {index : UInt16} {value : String} :
    ofLoad pool index = .ok (.load (.string value)) ↔
      pool.stringValue index = .ok (some value) := by
  unfold ofLoad
  rw [bind_eq_ok]
  constructor
  · rintro ⟨found, read, done⟩
    cases found with
    | some found =>
      cases done
      exact read
    | none =>
      obtain ⟨constant, _, same⟩ := bind_eq_ok.mp done
      cases same
  · intro read
    exact ⟨some value, read, rfl⟩

/-- A string is the literal of a load only. -/
theorem ofInstruction_eq_string {value : String}
    (done : ofInstruction pool code instruction = .ok (.load (.string value))) :
    Opcode.isLoad instruction.opcode = true ∧ ∃ index,
      instruction.loadIndex code = .ok index ∧ pool.stringValue index = .ok (some value) := by
  unfold ofInstruction at done
  split at done
  · obtain ⟨_, _, done⟩ := bind_eq_ok.mp done
    obtain ⟨_, _, same⟩ := bind_eq_ok.mp done
    cases same
  · split at done
    · rename_i load
      obtain ⟨index, read, done⟩ := bind_eq_ok.mp done
      exact ⟨load, index, read, ofLoad_eq_string.mp done⟩
    · split at done
      · obtain ⟨_, _, done⟩ := bind_eq_ok.mp done
        obtain ⟨_, _, same⟩ := bind_eq_ok.mp done
        cases same
      · cases done

/-- A load keeps its step in a grown pool. -/
theorem ofLoad_mono {index : UInt16} {step : Step} (extension : pool.Extends source)
    (done : ofLoad source index = .ok step) : ofLoad pool index = .ok step := by
  obtain ⟨found, read, done⟩ := bind_eq_ok.mp done
  refine bind_eq_ok.mpr ⟨found, extension.stringValue read, ?_⟩
  cases found with
  | some value => exact done
  | none =>
    obtain ⟨constant, reference, same⟩ := bind_eq_ok.mp done
    exact bind_eq_ok.mpr ⟨constant, extension.get reference, same⟩

/-- An instruction with the same opcode and the same bytes is the same step. -/
theorem ofInstruction_reloads {site : Site} {step : Step} (extension : pool.Extends source)
    (decoded : Instruction.decode code site.instruction.offset = .ok site.instruction)
    (reloads : site.Reloads code out moved) (unpatched : site.index = none)
    (done : ofInstruction source code site.instruction = .ok step) :
    ofInstruction pool out moved = .ok step := by
  have reference {index : UInt16} (kind : site.instruction.opcode = Opcode.new ∨
        site.instruction.opcode = Opcode.putStatic)
      (read : site.instruction.index code = .ok index) : moved.index out = .ok index := by
    have plain : site.instruction.jump? = none := by
      rcases kind with kind | kind <;> rw [Instruction.jump?, kind] <;> decide
    have length : site.instruction.length = 3 := by
      have shape : Opcode.shape site.instruction.opcode = .fixed 3 (by decide) := by
        rcases kind with kind | kind <;> rw [kind] <;> decide
      exact Instruction.length_of_fixed decoded shape
    exact Access.u2_eq_ok.mpr (reloads.operand unpatched plain (by rw [length]; exact Nat.le_refl 3)
      (Access.u2_eq_ok.mp read))
  unfold ofInstruction at done ⊢
  rw [reloads.opcode unpatched]
  split at done
  · rename_i kind
    obtain ⟨index, read, done⟩ := bind_eq_ok.mp done
    obtain ⟨name, found, same⟩ := bind_eq_ok.mp done
    rw [if_pos kind]
    exact bind_eq_ok.mpr ⟨index, reference (.inl kind) read,
      bind_eq_ok.mpr ⟨name, extension.className found, same⟩⟩
  · rename_i other
    rw [if_neg other]
    split at done
    · rename_i load
      obtain ⟨index, read, done⟩ := bind_eq_ok.mp done
      rw [if_pos load]
      exact bind_eq_ok.mpr ⟨index, reloads.loadIndex decoded unpatched load read,
        ofLoad_mono extension done⟩
    · rename_i notLoad
      rw [if_neg notLoad]
      split at done
      · rename_i kind
        obtain ⟨index, read, done⟩ := bind_eq_ok.mp done
        obtain ⟨field, found, same⟩ := bind_eq_ok.mp done
        rw [if_pos kind]
        exact bind_eq_ok.mpr ⟨index, reference (.inr kind) read,
          bind_eq_ok.mpr ⟨field, extension.memberRef found, same⟩⟩
      · rename_i plain
        rw [if_neg plain]
        exact done

end Step

end EnumNames
