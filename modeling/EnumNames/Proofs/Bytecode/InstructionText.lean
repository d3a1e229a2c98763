import EnumNames.Proofs.Bytecode.SwitchEmission

/-!
The bytes of an instruction. Those of a load are determined by its index, and those of a jump by its
branch, apart from the padding of a switch.
-/

namespace EnumNames

/-- Items of one width that stand at equal distances stand one after the other. -/
theorem stands_of_items {α : Type} {encode : α → ByteArray} {width : Nat}
    (sizes : ∀ item, (encode item).size = width) {bytes : ByteArray} {index : Nat}
    (inside : index ≤ bytes.size) {items : List α}
    (each : ∀ number item, items[number]? = some item →
      Stands bytes (index + width * number) (encode item)) :
    Stands bytes index (Relocation.concat (items.map encode)) := by
  induction items generalizing index with
  | nil =>
    obtain ⟨piece, size, stands⟩ := Stands.exists_of_le (show index + 0 ≤ bytes.size from inside)
    rwa [ByteArray.size_eq_zero_iff.mp size] at stands
  | cons item rest inductionHypothesis =>
    have head := each 0 item rfl
    have room := head.within
    rw [List.map_cons, Relocation.concat_cons, stands_append]
    refine ⟨head, inductionHypothesis room fun number other found => ?_⟩
    have stands := each (number + 1) other found
    rwa [sizes, Nat.add_assoc, Nat.add_comm width, ← Nat.mul_succ]

/-- Items that are read by their number stand one after the other. -/
theorem stands_of_mapM_range {α : Type} {encode : α → ByteArray} {width : Nat}
    (sizes : ∀ item, (encode item).size = width) {bytes : ByteArray} {index count : Nat}
    (inside : index ≤ bytes.size) {read : Nat → Except Failure α} {items : List α}
    (done : (List.range count).mapM read = .ok items)
    (reads : ∀ number item, read number = .ok item →
      Stands bytes (index + width * number) (encode item)) :
    Stands bytes index (Relocation.concat (items.map encode)) := by
  obtain ⟨_, each⟩ := List.forall₂_iff_get.mp (mapM_eq_ok.mp done)
  refine stands_of_items sizes inside fun number item found => reads number item ?_
  obtain ⟨bound, rfl⟩ := List.getElem?_eq_some_iff.mp found
  have same := each number (by rwa [(mapM_eq_ok.mp done).length_eq]) bound
  rwa [List.get_eq_getElem, List.getElem_range] at same

namespace Branch.Written

/-- The operands of a switch are determined by its branch. -/
theorem unique {opcode : UInt8} {branch : Branch} {first second : ByteArray}
    (one : Written opcode branch first) (other : Written opcode branch second) :
    first = second := by
  cases one with
  | table => cases other with
    | table => rfl
  | lookup _ _ _ _ natural length => cases other with
    | lookup _ _ _ _ otherNatural otherLength =>
      have same := length.symm.trans otherLength
      congr 3
      omega

end Branch.Written

namespace Instruction

variable {code out : ByteArray} {instruction : Instruction} {branch : Branch}

/-- The bytes behind the padding of a switch are the written form of its branch. -/
def Operands (code : ByteArray) (instruction : Instruction) (branch : Branch)
    (operands : ByteArray) : Prop :=
  Branch.Written instruction.opcode branch operands ∧
    Stands code instruction.operands operands ∧
    instruction.length = 1 + switchPadding instruction.offset + operands.size

theorem operands_of_tableBranch (decoded : decode code instruction.offset = .ok instruction)
    (kind : instruction.opcode = Opcode.tableSwitch)
    (read : instruction.tableBranch code = .ok branch) :
    ∃ operands, instruction.Operands code branch operands := by
  obtain ⟨default, defaultRead, read⟩ := bind_eq_ok.mp read
  obtain ⟨low, lowRead, read⟩ := bind_eq_ok.mp read
  obtain ⟨high, highRead, read⟩ := bind_eq_ok.mp read
  obtain ⟨cases, casesRead, same⟩ := bind_eq_ok.mp read
  cases same
  obtain ⟨ordered, length⟩ := length_of_table decoded kind lowRead highRead
  have count := Relocation.mapM_range_length casesRead
  obtain ⟨defaultFits, defaultStands⟩ := switchWord_eq_ok.mp defaultRead
  obtain ⟨lowFits, lowStands⟩ := switchWord_eq_ok.mp lowRead
  obtain ⟨highFits, highStands⟩ := switchWord_eq_ok.mp highRead
  have casesFit : ∀ distance ∈ cases, FitsWord distance :=
    forall_mem_of_forall₂ (mapM_eq_ok.mp casesRead) fun _ _ found => (switchWord_eq_ok.mp found).1
  have casesStand : Stands code (instruction.operands + 12)
      (Relocation.concat (cases.map BigEndian.encodeSigned32)) :=
    stands_of_mapM_range size_encodeSigned32 highStands.within casesRead
      fun _ _ found => (switchWord_eq_ok.mp found).2
  refine ⟨_, .table kind defaultFits lowFits highFits casesFit ordered count, ?_, ?_⟩
  · simp only [stands_append, size_encodeSigned32]
    exact ⟨defaultStands, lowStands, highStands, casesStand⟩
  · simp only [ByteArray.size_append, size_encodeSigned32,
      size_concat_map size_encodeSigned32, count]
    omega

theorem operands_of_lookupBranch (decoded : decode code instruction.offset = .ok instruction)
    (kind : instruction.opcode = Opcode.lookupSwitch)
    (read : instruction.lookupBranch code = .ok branch) :
    ∃ operands, instruction.Operands code branch operands := by
  obtain ⟨default, defaultRead, read⟩ := bind_eq_ok.mp read
  obtain ⟨count, countRead, read⟩ := bind_eq_ok.mp read
  obtain ⟨pairs, pairsRead, same⟩ := bind_eq_ok.mp read
  cases same
  obtain ⟨natural, whole⟩ := length_of_lookup decoded kind countRead
  have length := Relocation.mapM_range_length pairsRead
  obtain ⟨defaultFits, defaultStands⟩ := switchWord_eq_ok.mp defaultRead
  obtain ⟨countFits, countStands⟩ := switchWord_eq_ok.mp countRead
  have stands (index : Nat) (pair : Int × Int) (found : instruction.pair code index = .ok pair) :
      (FitsWord pair.1 ∧ FitsWord pair.2) ∧ Stands code index (encodePair pair) := by
    obtain ⟨key, keyRead, found⟩ := bind_eq_ok.mp found
    obtain ⟨distance, distanceRead, same⟩ := bind_eq_ok.mp found
    cases same
    obtain ⟨keyFits, keyStands⟩ := switchWord_eq_ok.mp keyRead
    obtain ⟨distanceFits, distanceStands⟩ := switchWord_eq_ok.mp distanceRead
    exact ⟨⟨keyFits, distanceFits⟩, stands_append.mpr ⟨keyStands, distanceStands⟩⟩
  have pairsFit : ∀ pair ∈ pairs, FitsWord pair.1 ∧ FitsWord pair.2 :=
    forall_mem_of_forall₂ (mapM_eq_ok.mp pairsRead) fun _ _ found => (stands _ _ found).1
  have pairsStand : Stands code (instruction.operands + 8)
      (Relocation.concat (pairs.map encodePair)) :=
    stands_of_mapM_range size_encodePair countStands.within pairsRead
      fun _ _ found => (stands _ _ found).2
  refine ⟨_, .lookup kind defaultFits countFits pairsFit natural length, ?_, ?_⟩
  · simp only [stands_append, size_encodeSigned32]
    exact ⟨defaultStands, countStands, pairsStand⟩
  · simp only [ByteArray.size_append, size_encodeSigned32, size_concat_map size_encodePair, length]
    omega

theorem operands_of_branch (decoded : decode code instruction.offset = .ok instruction)
    (switch : instruction.jump? = some .switch) (read : instruction.branch code = .ok branch) :
    ∃ operands, instruction.Operands code branch operands := by
  rw [Instruction.branch, switch] at read
  rcases Opcode.jump?_eq_switch_iff.mp switch with kind | kind
  · exact operands_of_tableBranch decoded kind ((if_pos kind).symm.trans read)
  · have other : instruction.opcode ≠ Opcode.tableSwitch := by
      rw [kind]
      decide
    exact operands_of_lookupBranch decoded kind ((if_neg other).symm.trans read)

/-- The padding of a switch is zero, and other instructions have none. -/
def ZeroPadded (code : ByteArray) (instruction : Instruction) : Prop :=
  instruction.jump? = some .switch →
    Access.slice code ⟨instruction.offset + 1, instruction.operands⟩ =
      .ok (List.replicate (switchPadding instruction.offset) 0).toByteArray

/-- An instruction stands in some code with all its bytes. -/
def Text (code : ByteArray) (instruction : Instruction) (text : ByteArray) : Prop :=
  Access.slice code ⟨instruction.offset, instruction.stop⟩ = .ok text

theorem text_iff {text : ByteArray} : instruction.Text code text ↔
    text.size = instruction.length ∧ Stands code instruction.offset text := by
  rw [Text, Access.slice_eq_ok, stop, Nat.add_left_cancel_iff, eq_comm]

/-- A decoded jump of fixed length consists of its opcode and its operand. -/
theorem text_of_fixed {width : Nat} {positive : 0 < width} {operand : ByteArray}
    (decoded : decode code instruction.offset = .ok instruction)
    (shape : Opcode.shape instruction.opcode = .fixed width positive)
    (size : operand.size + 1 = width) (stands : Stands code (instruction.offset + 1) operand) :
    instruction.Text code (⟨#[instruction.opcode]⟩ ++ operand) := by
  have opcode := (decode_eq_ok.mp decoded).2.1
  rw [text_iff, length_of_fixed decoded shape, stands_append]
  refine ⟨?_, opcode, stands⟩
  rw [ByteArray.size_append, ← size, Nat.add_comm]
  rfl

/-- Some bytes follow the opcode of every instruction. -/
theorem exists_text (decoded : decode code instruction.offset = .ok instruction) :
    ∃ rest, instruction.Text code (⟨#[instruction.opcode]⟩ ++ rest) := by
  obtain ⟨_, opcode, _, inside⟩ := decode_eq_ok.mp decoded
  have positive := instruction.positive
  unfold stop at inside
  have room : instruction.offset + 1 + (instruction.length - 1) ≤ code.size := by omega
  obtain ⟨rest, size, stands⟩ := Stands.exists_of_le room
  refine ⟨rest, text_iff.mpr ⟨?_, stands_append.mpr ⟨opcode, stands⟩⟩⟩
  rw [ByteArray.size_append, size, size_mk, List.length_singleton]
  omega

/-- A narrow load has one byte for its index. -/
def loadOperand (opcode : UInt8) (index : UInt16) : ByteArray :=
  if opcode = Opcode.loadConstant then ⟨#[index.toUInt8]⟩ else BigEndian.encode16 index

theorem text_of_load {index : UInt16}
    (decoded : decode code instruction.offset = .ok instruction)
    (load : Opcode.isLoad instruction.opcode = true)
    (found : instruction.loadIndex code = .ok index) :
    instruction.Text code (⟨#[instruction.opcode]⟩ ++ loadOperand instruction.opcode index) := by
  have shape := (Opcode.shape_of_isLoad load).2
  unfold loadIndex at found
  unfold loadOperand
  split at found
  · rename_i narrow
    rw [if_pos narrow] at shape ⊢
    obtain ⟨byte, read, same⟩ := bind_eq_ok.mp found
    cases same
    rw [UInt8.toUInt8_toUInt16]
    exact text_of_fixed decoded shape rfl (Access.u1_eq_ok.mp read)
  · rename_i wide
    rw [if_neg wide] at shape ⊢
    exact text_of_fixed decoded shape rfl (Access.u2_eq_ok.mp found)

theorem text_of_switch {operands : ByteArray}
    (decoded : decode code instruction.offset = .ok instruction)
    (switch : instruction.jump? = some .switch) (padded : instruction.ZeroPadded code)
    (found : instruction.Operands code branch operands) :
    instruction.Text code ((instruction.opcode ::
      List.replicate (switchPadding instruction.offset) 0).toByteArray ++ operands) := by
  obtain ⟨_, stands, length⟩ := found
  have opcode := (decode_eq_ok.mp decoded).2.1
  have zeros := (Access.slice_eq_ok.mp (padded switch)).2
  rw [text_iff, Relocation.size_switch, Relocation.stands_switch, length]
  exact ⟨rfl, opcode, zeros, stands⟩

theorem text_of_short {number : UInt16} (decoded : decode code instruction.offset = .ok instruction)
    (short : instruction.jump? = some .short) (read : instruction.index code = .ok number) :
    instruction.Text code (⟨#[instruction.opcode]⟩ ++ BigEndian.encode16 number) :=
  text_of_fixed decoded (Opcode.shape_of_short short) rfl (Access.u2_eq_ok.mp read)

theorem text_of_long {distance : Int} (decoded : decode code instruction.offset = .ok instruction)
    (long : instruction.jump? = some .long)
    (read : instruction.word code (instruction.offset + 1) = .ok distance) :
    instruction.Text code (⟨#[instruction.opcode]⟩ ++ BigEndian.encodeSigned32 distance) :=
  text_of_fixed decoded (Opcode.shape_of_long long) rfl (switchWord_eq_ok.mp read).2

/-- The branch of a short jump tells its operand. -/
theorem branch_of_short (short : instruction.jump? = some .short)
    (read : instruction.branch code = .ok branch) : ∃ number : UInt16,
      instruction.index code = .ok number ∧ branch = .jump number.toInt16.toInt := by
  rw [Instruction.branch, short] at read
  obtain ⟨number, numberRead, same⟩ := bind_eq_ok.mp read
  cases same
  exact ⟨number, numberRead, rfl⟩

theorem branch_of_long (long : instruction.jump? = some .long)
    (read : instruction.branch code = .ok branch) : ∃ distance,
      instruction.word code (instruction.offset + 1) = .ok distance ∧ branch = .jump distance := by
  rw [Instruction.branch, long] at read
  obtain ⟨distance, distanceRead, same⟩ := bind_eq_ok.mp read
  cases same
  exact ⟨distance, distanceRead, rfl⟩

/-- Two jumps with one opcode that lead equally far from one offset consist of the same bytes. -/
theorem exists_text_of_branch {moved : Instruction}
    (decoded : decode code instruction.offset = .ok instruction)
    (movedDecoded : decode out moved.offset = .ok moved)
    (offset : moved.offset = instruction.offset) (opcode : moved.opcode = instruction.opcode)
    (jumps : instruction.jump? ≠ none) (read : instruction.branch code = .ok branch)
    (movedRead : moved.branch out = .ok branch) (padded : instruction.ZeroPadded code)
    (movedPadded : moved.ZeroPadded out) :
    ∃ text, instruction.Text code text ∧ moved.Text out text := by
  have kind : moved.jump? = instruction.jump? := congrArg Opcode.jump? opcode
  cases jump : instruction.jump? with
  | none => exact absurd jump jumps
  | some form =>
    cases form with
    | short =>
      obtain ⟨number, found, rfl⟩ := branch_of_short jump read
      obtain ⟨other, movedFound, same⟩ := branch_of_short (kind.trans jump) movedRead
      rw [Branch.jump.injEq, Int16.toInt_inj] at same
      have equal : number = other := congrArg Int16.toUInt16 same
      subst equal
      refine ⟨_, text_of_short decoded jump found, ?_⟩
      rw [← opcode]
      exact text_of_short movedDecoded (kind.trans jump) movedFound
    | long =>
      obtain ⟨distance, found, rfl⟩ := branch_of_long jump read
      obtain ⟨other, movedFound, same⟩ := branch_of_long (kind.trans jump) movedRead
      cases same
      refine ⟨_, text_of_long decoded jump found, ?_⟩
      rw [← opcode]
      exact text_of_long movedDecoded (kind.trans jump) movedFound
    | switch =>
      obtain ⟨operands, found⟩ := operands_of_branch decoded jump read
      obtain ⟨others, movedFound⟩ := operands_of_branch movedDecoded (kind.trans jump) movedRead
      have written := movedFound.1
      rw [opcode] at written
      obtain rfl := found.1.unique written
      refine ⟨_, text_of_switch decoded jump padded found, ?_⟩
      rw [← opcode, ← offset]
      exact text_of_switch movedDecoded (kind.trans jump) movedPadded movedFound

end Instruction

end EnumNames
