import EnumNames.Bytecode.Relocation
import EnumNames.Proofs.Bytecode.Decoding

/-!
Where instructions jump to. The branch of an instruction is read from its code, and a moved branch
leads to the new places of its old targets.
-/

namespace EnumNames

/-- These are the distances of the jumps of an instruction from its own offset, together with the
numbers that choose between them. -/
inductive Branch where
  | none
  | jump (distance : Int)
  | table (default low high : Int) (cases : List Int)
  | lookup (default : Int) (pairs : List (Int × Int))
  deriving DecidableEq, Repr

namespace Instruction

/-- The operands of a switch start behind its padding. -/
def operands (instruction : Instruction) : Nat :=
  instruction.offset + 1 + switchPadding instruction.offset

def word (code : ByteArray) (instruction : Instruction) (index : Nat) : Except Failure Int :=
  switchWord code index instruction.offset

/-- The key of a pair stands in front of its distance. -/
def pair (code : ByteArray) (instruction : Instruction) (index : Nat) :
    Except Failure (Int × Int) := do
  let key ← instruction.word code index
  let distance ← instruction.word code (index + 4)
  return (key, distance)

def tableBranch (code : ByteArray) (instruction : Instruction) : Except Failure Branch := do
  let default ← instruction.word code instruction.operands
  let low ← instruction.word code (instruction.operands + 4)
  let high ← instruction.word code (instruction.operands + 8)
  let cases ← (List.range (high - low + 1).toNat).mapM fun number =>
    instruction.word code (instruction.operands + 12 + 4 * number)
  return .table default low high cases

def lookupBranch (code : ByteArray) (instruction : Instruction) : Except Failure Branch := do
  let default ← instruction.word code instruction.operands
  let count ← instruction.word code (instruction.operands + 4)
  let pairs ← (List.range count.toNat).mapM fun number =>
    instruction.pair code (instruction.operands + 8 + 8 * number)
  return .lookup default pairs

def branch (code : ByteArray) (instruction : Instruction) : Except Failure Branch := do
  match instruction.jump? with
  | none => return .none
  | some .short => return .jump (← instruction.index code).toInt16.toInt
  | some .long => return .jump (← instruction.word code (instruction.offset + 1))
  | some .switch =>
    if instruction.opcode = Opcode.tableSwitch then
      instruction.tableBranch code
    else
      instruction.lookupBranch code

end Instruction

namespace Relocation

/-- A distance follows its target when the new one leads to the new place of the old target. -/
def Follows (relocation : Relocation) (old new : Nat) (before after : Int) : Prop :=
  ∃ target moved : Nat, (target : Int) = old + before ∧ (moved : Int) = new + after ∧
    relocation.map target = .ok moved

/-- Every distance follows its target, and nothing else about a branch changes. -/
inductive Moves (relocation : Relocation) (old new : Nat) : Branch → Branch → Prop where
  | none : Moves relocation old new .none .none
  | jump {before after : Int} (follows : relocation.Follows old new before after) :
      Moves relocation old new (.jump before) (.jump after)
  | table {low high before after : Int} {casesBefore casesAfter : List Int}
      (default : relocation.Follows old new before after)
      (cases : List.Forall₂ (relocation.Follows old new) casesBefore casesAfter) :
      Moves relocation old new (.table before low high casesBefore)
        (.table after low high casesAfter)
  | lookup {before after : Int} {pairsBefore pairsAfter : List (Int × Int)}
      (default : relocation.Follows old new before after)
      (pairs : List.Forall₂ (fun first second => first.1 = second.1 ∧
        relocation.Follows old new first.2 second.2) pairsBefore pairsAfter) :
      Moves relocation old new (.lookup before pairsBefore) (.lookup after pairsAfter)

end Relocation

/-- Items of one width that stand one after the other are read by their number. -/
theorem mapM_range_of_stands {α : Type} {encode : α → ByteArray} {width : Nat}
    (sizes : ∀ item, (encode item).size = width) {bytes : ByteArray} {index : Nat}
    {items : List α} (stands : Stands bytes index (Relocation.concat (items.map encode)))
    {read : Nat → Except Failure α}
    (reads : ∀ number, ∀ item ∈ items, Stands bytes (index + width * number) (encode item) →
      read number = .ok item) :
    (List.range items.length).mapM read = .ok items := by
  rw [mapM_eq_ok, List.forall₂_iff_get]
  refine ⟨List.length_range, fun number inside bound => ?_⟩
  rw [List.get_eq_getElem, List.getElem_range]
  refine reads number _ (List.get_mem items ⟨number, bound⟩) (stands.item ?_ ?_)
  · intro piece member
    obtain ⟨item, _, rfl⟩ := List.mem_map.mp member
    exact sizes item
  · rw [List.getElem?_map, List.getElem?_eq_getElem bound]
    rfl

end EnumNames
