import EnumNames.Proofs.Bytecode.InstructionText
import EnumNames.Proofs.Bytecode.Relocatable

/-!
The grammar of instructions. Most opcodes are followed by operands of fixed width; a switch has
aligned operands whose number it names itself, and a widened instruction has longer ones. Bytes are
decoded as an instruction exactly when they are one by this grammar.
-/

namespace EnumNames

/-- This is what an operand of fixed width stands for. -/
inductive Operand where
  | variableNumber
  | byte
  | short
  | entry
  | wideEntry
  | jump
  | wideJump
  deriving DecidableEq, Repr

namespace Operand

def width : Operand → Nat
  | variableNumber | byte | entry => 1
  | short | wideEntry | jump => 2
  | wideJump => 4

def widths (operands : List Operand) : Nat := (operands.map width).sum

end Operand

namespace Opcode

def wide : UInt8 := 0xC4

/-- Opcodes are listed in ranges under the operands that follow them. -/
def operandTable : List (List Operand × List (Nat × Nat)) :=
  [([], [(0x00, 0x0F), (0x1A, 0x35), (0x3B, 0x83), (0x85, 0x98), (0xAC, 0xB1), (0xBE, 0xBF),
      (0xC2, 0xC3)]),
    ([.variableNumber], [(0x15, 0x19), (0x36, 0x3A), (0xA9, 0xA9)]),
    ([.variableNumber, .byte], [(0x84, 0x84)]),
    ([.byte], [(0x10, 0x10), (0xBC, 0xBC)]),
    ([.short], [(0x11, 0x11)]),
    ([.entry], [(0x12, 0x12)]),
    ([.wideEntry], [(0x13, 0x14), (0xB2, 0xB8), (0xBB, 0xBB), (0xBD, 0xBD), (0xC0, 0xC1)]),
    ([.wideEntry, .byte], [(0xC5, 0xC5)]),
    ([.wideEntry, .byte, .byte], [(0xB9, 0xBA)]),
    ([.jump], [(0x99, 0xA8), (0xC6, 0xC7)]),
    ([.wideJump], [(0xC8, 0xC9)])]

/-- The operands of fixed width, for an opcode that has only such. -/
def operands? (opcode : UInt8) : Option (List Operand) :=
  (operandTable.find? fun row => row.2.any fun range =>
    range.1 ≤ opcode.toNat && opcode.toNat ≤ range.2).map Prod.fst

/-- The lengths in use are those of the table. It is checked opcode by opcode. -/
theorem shape_eq (opcode : UInt8) : shape opcode =
    match operands? opcode with
    | some operands => .fixed (1 + Operand.widths operands) (Nat.add_pos_left Nat.one_pos _)
    | none =>
      if opcode = tableSwitch then .tableSwitch
      else if opcode = lookupSwitch then .lookupSwitch
      else if opcode = wide then .wide
      else .invalid := by
  induction opcode using forall_byte with
  | each number =>
    revert number
    decide +kernel

variable {opcode : UInt8}

theorem shape_of_operands {operands : List Operand} (listed : operands? opcode = some operands) :
    shape opcode = .fixed (1 + Operand.widths operands) (Nat.add_pos_left Nat.one_pos _) := by
  rw [shape_eq, listed]

theorem operands_of_shape {width : Nat} {positive : 0 < width}
    (fixed : shape opcode = .fixed width positive) :
    ∃ operands, operands? opcode = some operands ∧ width = 1 + Operand.widths operands := by
  cases listed : operands? opcode with
  | some operands =>
    rw [shape_of_operands listed] at fixed
    exact ⟨operands, rfl, by cases fixed; rfl⟩
  | none =>
    rw [shape_eq, listed] at fixed
    dsimp only at fixed
    split_ifs at fixed

theorem shape_wide : shape wide = .wide := rfl

theorem eq_wide_of_shape (widened : shape opcode = .wide) : opcode = wide := by
  rw [shape_eq] at widened
  split at widened
  · cases widened
  · split_ifs at widened
    assumption

end Opcode

/-- The bytes behind an opcode complete it to an instruction at this offset. A switch has its
operands at the next multiple of four. -/
inductive Completes (offset : Nat) : UInt8 → ByteArray → Prop where
  | fixed {opcode : UInt8} {operands : List Operand} {rest : ByteArray}
      (listed : Opcode.operands? opcode = some operands)
      (size : rest.size = Operand.widths operands) : Completes offset opcode rest
  | widened {opcode : UInt8} {rest : ByteArray}
      (size : rest.size = if opcode = Opcode.increment then 4 else 2) :
      Completes offset Opcode.wide (⟨#[opcode]⟩ ++ rest)
  | switch {opcode : UInt8} {branch : Branch} {padding operands : ByteArray}
      (few : padding.size < 4) (aligned : (offset + 1 + padding.size) % 4 = 0)
      (written : Branch.Written opcode branch operands) :
      Completes offset opcode (padding ++ operands)

/-- The padding of a switch is shorter than a word, so its size follows from the offset. -/
theorem eq_switchPadding {offset size : Nat} (few : size < 4)
    (aligned : (offset + 1 + size) % 4 = 0) : size = switchPadding offset := by
  unfold switchPadding
  omega

namespace Instruction

/-- All bytes of the instruction stand in some code, and they are an instruction there. -/
def StandsIn (code : ByteArray) (instruction : Instruction) : Prop :=
  ∃ rest, Completes instruction.offset instruction.opcode rest ∧
    Stands code instruction.offset (⟨#[instruction.opcode]⟩ ++ rest) ∧
    instruction.length = 1 + rest.size

variable {code : ByteArray} {instruction : Instruction}

theorem length_of_completes {rest : ByteArray}
    (completes : Completes instruction.offset instruction.opcode rest)
    (stands : Stands code (instruction.offset + 1) rest) :
    decodeLength code instruction.offset instruction.opcode =
      .ok ⟨1 + rest.size, Nat.add_pos_left Nat.one_pos _⟩ := by
  obtain ⟨offset, opcode, length, positive⟩ := instruction
  dsimp only at completes stands ⊢
  cases completes with
  | fixed listed size => simp only [decodeLength, Opcode.shape_of_operands listed, size]
  | @widened widened rest size =>
    refine wideLength_eq_ok.mpr ⟨widened, (stands_append.mp stands).1, ?_⟩
    rw [ByteArray.size_append, size, size_mk, List.length_singleton]
    split <;> rfl
  | @switch _ branch padding operands few aligned written =>
    have same := eq_switchPadding few aligned
    have behind := (stands_append.mp stands).2
    rw [same] at behind
    have length := written.decodeLength behind
    simp only [ByteArray.size_append, same, ← Nat.add_assoc]
    exact length

theorem decode_of_standsIn (stands : instruction.StandsIn code) :
    decode code instruction.offset = .ok instruction := by
  obtain ⟨rest, completes, stands, length⟩ := stands
  obtain ⟨opcode, behind⟩ := stands_append.mp stands
  have inside := behind.within
  refine decode_eq_ok.mpr ⟨rfl, opcode, ?_, ?_⟩
  · rw [length_of_completes completes behind]
    exact congrArg Except.ok (Subtype.ext length.symm)
  · rw [stop, length]
    rw [size_mk, List.length_singleton] at inside
    omega

/-- The bytes of a decoded switch behind its opcode are some padding and written operands. -/
theorem completes_of_operands {branch : Branch} {rest operands : ByteArray}
    (text : instruction.Text code (⟨#[instruction.opcode]⟩ ++ rest))
    (found : instruction.Operands code branch operands) :
    Completes instruction.offset instruction.opcode rest := by
  obtain ⟨written, stands, length⟩ := found
  obtain ⟨size, present⟩ := text_iff.mp text
  rw [ByteArray.size_append, size_mk, List.length_singleton, length] at size
  obtain ⟨padding, tail, rfl, width⟩ := exists_append_of_le_size
    (show switchPadding instruction.offset ≤ rest.size by omega)
  rw [ByteArray.size_append] at size
  have behind := (stands_append.mp (stands_append.mp present).2).2
  rw [width] at behind
  obtain rfl : tail = operands := behind.unique stands (by omega)
  refine .switch ?_ ?_ written
  · rw [width]
    exact Nat.mod_lt _ (by decide)
  · rw [width]
    exact switchPadding_aligns _

theorem completes_of_decode {rest : ByteArray}
    (decoded : decode code instruction.offset = .ok instruction)
    (text : instruction.Text code (⟨#[instruction.opcode]⟩ ++ rest)) :
    Completes instruction.offset instruction.opcode rest := by
  have length := (decode_eq_ok.mp decoded).2.2.1
  obtain ⟨size, present⟩ := text_iff.mp text
  rw [ByteArray.size_append, size_mk, List.length_singleton] at size
  cases shape : Opcode.shape instruction.opcode with
  | fixed width positive =>
    obtain ⟨operands, listed, same⟩ := Opcode.operands_of_shape shape
    have whole := length_of_fixed decoded shape
    exact .fixed listed (by omega)
  | tableSwitch =>
    have kind := Opcode.shape_eq_tableSwitch_iff.mp shape
    obtain ⟨default, low, high, cases, defaultRead, lowRead, highRead, casesRead⟩ :=
      @Relocation.exists_tableBranch code ⟨⟨instruction, none⟩, 0⟩ decoded kind
    obtain ⟨operands, found⟩ := operands_of_tableBranch decoded kind
      (bind_eq_ok.mpr ⟨default, defaultRead, bind_eq_ok.mpr ⟨low, lowRead,
        bind_eq_ok.mpr ⟨high, highRead, bind_eq_ok.mpr ⟨cases, casesRead, rfl⟩⟩⟩⟩)
    exact completes_of_operands text found
  | lookupSwitch =>
    have kind := Opcode.shape_eq_lookupSwitch_iff.mp shape
    obtain ⟨default, count, pairs, defaultRead, countRead, pairsRead⟩ :=
      @Relocation.exists_lookupBranch code ⟨⟨instruction, none⟩, 0⟩ decoded kind
    obtain ⟨operands, found⟩ := operands_of_lookupBranch decoded kind
      (bind_eq_ok.mpr ⟨default, defaultRead, bind_eq_ok.mpr ⟨count, countRead,
        bind_eq_ok.mpr ⟨pairs, pairsRead, rfl⟩⟩⟩)
    exact completes_of_operands text found
  | wide =>
    rw [decodeLength, shape] at length
    obtain ⟨widened, stands, whole⟩ := wideLength_eq_ok.mp length
    dsimp only at whole
    have room : 1 ≤ rest.size := by
      split_ifs at whole <;> omega
    obtain ⟨first, tail, rfl, one⟩ := exists_append_of_le_size room
    have second := (stands_append.mp (stands_append.mp present).2).1
    obtain rfl : first = ⟨#[widened]⟩ := second.unique stands one
    rw [ByteArray.size_append, one, whole] at size
    rw [Opcode.eq_wide_of_shape shape]
    refine .widened ?_
    split_ifs at size ⊢ <;> omega
  | invalid =>
    rw [decodeLength, shape] at length
    cases length

/-- The decoder accepts exactly the instructions of the grammar. -/
theorem decode_eq_ok_iff_standsIn {offset : Nat} :
    decode code offset = .ok instruction ↔
      instruction.offset = offset ∧ instruction.StandsIn code := by
  constructor
  · intro decoded
    obtain ⟨rfl, _⟩ := decode_eq_ok.mp decoded
    obtain ⟨rest, text⟩ := exists_text decoded
    obtain ⟨size, stands⟩ := text_iff.mp text
    refine ⟨rfl, rest, completes_of_decode decoded text, stands, ?_⟩
    rw [← size, ByteArray.size_append, size_mk, List.length_singleton]
  · rintro ⟨rfl, stands⟩
    exact decode_of_standsIn stands

end Instruction

end EnumNames
