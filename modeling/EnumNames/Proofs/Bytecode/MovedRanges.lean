import EnumNames.EnumUnit.Repair
import EnumNames.Proofs.Bytecode.Boundaries
import EnumNames.Proofs.Bytecode.TableRows

/-!
Exception handlers, lines and variables of relocated code. Main statement: every row is kept in its
place, and what it covers are the same instructions as before.
-/

namespace EnumNames

namespace Relocation

variable {unit : String} {code out : ByteArray} {relocation : Relocation}
  {instructions : List Instruction}

/-- The handler stands at the same instruction and is entered from the same instructions. -/
def KeepsException (relocation : Relocation) (instructions : List Instruction)
    (old new : ExceptionRow) : Prop :=
  relocation.MovesException old new ∧ relocation.SameInstructions instructions
    old.start.toNat old.stop.toNat new.start.toNat new.stop.toNat

/-- The variable is found in the same instructions, unless its range leads out of every code. -/
def KeepsVariable (relocation : Relocation) (instructions : List Instruction)
    (old new : VariableRow) : Prop :=
  relocation.MovesVariable old new ∧ (old.stop ≤ 65535 →
    relocation.map old.stop = .ok new.stop ∧ relocation.SameInstructions instructions
      old.start.toNat old.stop new.start.toNat new.stop)

theorem LaysOut.keepsException (laysOut : relocation.LaysOut code instructions)
    {old new : ExceptionRow} (moves : relocation.MovesException old new) :
    relocation.KeepsException instructions old new :=
  ⟨moves, laysOut.sameInstructions moves.start moves.stop⟩

theorem LaysOut.keepsVariable (laysOut : relocation.LaysOut code instructions)
    {old new : VariableRow} (moves : relocation.MovesVariable old new) :
    relocation.KeepsVariable instructions old new := by
  refine ⟨moves, fun inside => ?_⟩
  have stop := moves.stop
  rw [Nat.min_eq_left inside] at stop
  exact ⟨stop, laysOut.sameInstructions moves.start stop⟩

/-- The rows of an exception table are written one by one. -/
theorem encodeExceptions_eq_ok {rows : List ExceptionRow} {written : List ByteArray}
    (done : rows.mapM (CodeAttribute.encodeException (some relocation)) = .ok written) :
    ∃ news, List.Forall₂ relocation.MovesException rows news ∧
      written = news.map ExceptionRow.encode := by
  induction rows generalizing written with
  | nil =>
    cases done
    exact ⟨[], .nil, rfl⟩
  | cons row rest inductionHypothesis =>
    obtain ⟨bytes, others, head, tail, rfl⟩ := mapM_cons_eq_ok.mp done
    obtain ⟨new, moved, same⟩ := bind_eq_ok.mp head
    obtain ⟨news, all, rfl⟩ := inductionHypothesis tail
    cases same
    exact ⟨new :: news, .cons (exceptionRow_eq_ok.mp moved) all, rfl⟩

/-- After a relocation the rows of all tables name the new places of their old offsets in their old
order, and they cover the same instructions. -/
theorem relocate_keeps_ranges {patches : Nat → Option UInt16}
    (decoded : Instruction.decodeAll code = .ok instructions)
    (done : relocate unit code (patchedSites patches instructions) = .ok (out, relocation)) :
    (∀ rows written, rows.mapM (CodeAttribute.encodeException (some relocation)) = .ok written →
      ∃ news, List.Forall₂ (relocation.KeepsException instructions) rows news ∧
        written = news.map ExceptionRow.encode) ∧
    (∀ body moved, relocation.attributeBody "LineNumberTable" body = .ok moved →
      MovesRows LineRow.encode relocation.MovesLine body moved) ∧
    ∀ name body moved, name = "LocalVariableTable" ∨ name = "LocalVariableTypeTable" →
      relocation.attributeBody name body = .ok moved →
      MovesRows VariableRow.encode (relocation.KeepsVariable instructions) body moved := by
  have laysOut := laysOut_of_relocate decoded done
  refine ⟨?_, ?_, ?_⟩
  · intro rows written exceptions
    obtain ⟨news, all, same⟩ := encodeExceptions_eq_ok exceptions
    exact ⟨news, all.imp fun _ _ => laysOut.keepsException, same⟩
  · intro body moved
    exact attributeBody_lines.mp
  · intro name body moved known done
    have rows := (attributeBody_variables laysOut.bounded known).mp done
    exact rows.mono fun _ _ => laysOut.keepsVariable

/-- The handler, the line and the variable all lead behind the load that becomes longer. -/
theorem relocate_keeps_ranges_load :
    let code : ByteArray := ⟨#[0xA7, 0, 5, 0x12, 1, 0xB1]⟩
    let instructions : List Instruction :=
      [⟨0, 0xA7, 3, by decide⟩, ⟨3, 0x12, 2, by decide⟩, ⟨5, 0xB1, 1, by decide⟩]
    let patches : Nat → Option UInt16 := fun offset => if offset = 3 then some 300 else none
    let relocation : Relocation :=
      ⟨"Example", #[some 0, none, none, some 3, none, some 6, some 7], 7⟩
    relocate "Example" code (patchedSites patches instructions) =
        .ok (⟨#[0xA7, 0, 6, 0x13, 1, 44, 0xB1]⟩, relocation) ∧
      (∃ news, List.Forall₂ (relocation.KeepsException instructions) [⟨0, 5, 3, 0⟩] news ∧
        [ExceptionRow.encode ⟨0, 6, 3, 0⟩] = news.map ExceptionRow.encode) ∧
      MovesRows LineRow.encode relocation.MovesLine ⟨#[0, 1, 0, 5, 0, 9]⟩ ⟨#[0, 1, 0, 6, 0, 9]⟩ ∧
      MovesRows VariableRow.encode (relocation.KeepsVariable instructions)
        ⟨#[0, 1, 0, 3, 0, 3, 0, 1, 0, 2, 0, 0]⟩ ⟨#[0, 1, 0, 3, 0, 4, 0, 1, 0, 2, 0, 0]⟩ := by
  intro code instructions patches relocation
  have decoded : Instruction.decodeAll code = .ok instructions :=
    Instruction.decodeAll_eq_ok.mpr (.step rfl (.step rfl (.step rfl .done)))
  have done : relocate "Example" code (patchedSites patches instructions) =
      .ok (⟨#[0xA7, 0, 6, 0x13, 1, 44, 0xB1]⟩, relocation) :=
    relocate_eq_of_parts (by decide +kernel)
  obtain ⟨exceptions, lines, ranges⟩ := relocate_keeps_ranges decoded done
  exact ⟨done, exceptions _ _ rfl, lines _ _ (by decide +kernel),
    ranges _ _ _ (.inl rfl) (by decide +kernel)⟩

end Relocation

end EnumNames
