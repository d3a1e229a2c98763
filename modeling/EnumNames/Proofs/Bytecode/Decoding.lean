import EnumNames.Bytecode.Instruction
import EnumNames.Proofs.Bytes.Stands

/-!
When instructions are decoded. An instruction depends only on the bytes it covers, and on its
offset when it is a switch; the instructions of some code follow one another without a gap.
-/

namespace EnumNames

namespace Opcode

/-- A shape is known by its kind and its fixed length. -/
def Shape.tag : Shape → Nat × Nat
  | .fixed length _ => (0, length)
  | .tableSwitch => (1, 0)
  | .lookupSwitch => (2, 0)
  | .wide => (3, 0)
  | .invalid => (4, 0)

theorem Shape.tag_injective : Function.Injective Shape.tag := by
  intro first second same
  cases first <;> cases second <;> simp_all [tag]

instance : DecidableEq Shape := Shape.tag_injective.decidableEq

/-- This is all that is needed of the table of shapes. It is checked opcode by opcode. -/
theorem shape_table (opcode : UInt8) :
    (jump? opcode = some .short → shape opcode = .fixed 3 (by decide)) ∧
    (jump? opcode = some .long → shape opcode = .fixed 5 (by decide)) ∧
    (jump? opcode = some .switch ↔ opcode = tableSwitch ∨ opcode = lookupSwitch) ∧
    (shape opcode = .tableSwitch ↔ opcode = tableSwitch) ∧
    (shape opcode = .lookupSwitch ↔ opcode = lookupSwitch) ∧
    (isLoad opcode = true → jump? opcode = none ∧ shape opcode =
      if opcode = loadConstant then .fixed 2 (by decide) else .fixed 3 (by decide)) := by
  induction opcode using forall_byte with
  | each number =>
    revert number
    decide +kernel

variable {opcode : UInt8}

theorem shape_of_short : jump? opcode = some .short → shape opcode = .fixed 3 (by decide) :=
  (shape_table opcode).1

theorem shape_of_long : jump? opcode = some .long → shape opcode = .fixed 5 (by decide) :=
  (shape_table opcode).2.1

theorem jump?_eq_switch_iff :
    jump? opcode = some .switch ↔ opcode = tableSwitch ∨ opcode = lookupSwitch :=
  (shape_table opcode).2.2.1

theorem shape_eq_tableSwitch_iff : shape opcode = .tableSwitch ↔ opcode = tableSwitch :=
  (shape_table opcode).2.2.2.1

theorem shape_eq_lookupSwitch_iff : shape opcode = .lookupSwitch ↔ opcode = lookupSwitch :=
  (shape_table opcode).2.2.2.2.1

/-- A load is no jump, and its length is fixed. -/
theorem shape_of_isLoad : isLoad opcode = true → jump? opcode = none ∧ shape opcode =
    if opcode = loadConstant then .fixed 2 (by decide) else .fixed 3 (by decide) :=
  (shape_table opcode).2.2.2.2.2

end Opcode

namespace Instruction

/-- Words of a switch have 32 bits with sign. -/
def FitsWord (number : Int) : Prop := -0x80000000 ≤ number ∧ number < 0x80000000

theorem switchWord_eq_ok {code : ByteArray} {index offset : Nat} {word : Int} :
    switchWord code index offset = .ok word ↔
      FitsWord word ∧ Stands code index (BigEndian.encodeSigned32 word) := by
  unfold switchWord
  constructor
  · intro done
    split at done
    · rename_i number found
      cases done
      refine ⟨⟨number.le_toInt, number.toInt_lt⟩, ?_⟩
      rw [BigEndian.encodeSigned32, Int32.ofInt_toInt]
      exact Access.i4?_eq_some.mp found
    · cases done
  · rintro ⟨⟨low, high⟩, stands⟩
    rw [Access.i4?_eq_some.mpr stands]
    exact congrArg Except.ok (Int32.toInt_ofInt_of_le low high)

/-- Any four bytes are a word. -/
theorem exists_word_of_stands {code piece : ByteArray} {index : Nat}
    (stands : Stands code index piece) (size : piece.size = 4) (offset : Nat) :
    ∃ word, switchWord code index offset = .ok word ∧ piece = BigEndian.encodeSigned32 word := by
  obtain ⟨⟨list⟩⟩ := piece
  match list, size with
  | [first, second, third, fourth], _ =>
    obtain ⟨number, same⟩ : ∃ number : Int32, number =
        (BigEndian.decode32 first second third fourth).toInt32 := ⟨_, rfl⟩
    have written : (⟨#[first, second, third, fourth]⟩ : ByteArray) =
        BigEndian.encodeSigned32 number.toInt := by
      rw [BigEndian.encodeSigned32, Int32.ofInt_toInt, same, UInt32.toUInt32_toInt32,
        BigEndian.encode32_decode32]
    refine ⟨number.toInt, ?_, written⟩
    rw [written] at stands
    exact switchWord_eq_ok.mpr ⟨⟨number.le_toInt, number.toInt_lt⟩, stands⟩

theorem tableSwitchLength_eq_ok {code : ByteArray} {offset : Nat} {length : Length} :
    tableSwitchLength code offset = .ok length ↔ ∃ low high,
      switchWord code (offset + 1 + switchPadding offset + 4) offset = .ok low ∧
      switchWord code (offset + 1 + switchPadding offset + 8) offset = .ok high ∧ low ≤ high ∧
      length.val = 1 + switchPadding offset + 12 + (high - low + 1).toNat * 4 := by
  unfold tableSwitchLength
  constructor
  · intro done
    obtain ⟨low, lowRead, done⟩ := bind_eq_ok.mp done
    obtain ⟨high, highRead, done⟩ := bind_eq_ok.mp done
    split at done
    · cases done
    · rename_i ordered
      cases done
      exact ⟨low, high, lowRead, highRead, Int.not_lt.mp ordered, rfl⟩
  · rintro ⟨low, high, lowRead, highRead, ordered, same⟩
    refine bind_eq_ok.mpr ⟨low, lowRead, bind_eq_ok.mpr ⟨high, highRead, ?_⟩⟩
    rw [if_neg (Int.not_lt.mpr ordered)]
    exact congrArg Except.ok (Subtype.ext same.symm)

theorem lookupSwitchLength_eq_ok {code : ByteArray} {offset : Nat} {length : Length} :
    lookupSwitchLength code offset = .ok length ↔ ∃ pairs,
      switchWord code (offset + 1 + switchPadding offset + 4) offset = .ok pairs ∧ 0 ≤ pairs ∧
      length.val = 1 + switchPadding offset + 8 + pairs.toNat * 8 := by
  unfold lookupSwitchLength
  constructor
  · intro done
    obtain ⟨pairs, read, done⟩ := bind_eq_ok.mp done
    split at done
    · cases done
    · rename_i natural
      cases done
      exact ⟨pairs, read, Int.not_lt.mp natural, rfl⟩
  · rintro ⟨pairs, read, natural, same⟩
    refine bind_eq_ok.mpr ⟨pairs, read, ?_⟩
    rw [if_neg (Int.not_lt.mpr natural)]
    exact congrArg Except.ok (Subtype.ext same.symm)

theorem wideLength_eq_ok {code : ByteArray} {offset : Nat} {length : Length} :
    wideLength code offset = .ok length ↔ ∃ opcode : UInt8,
      Stands code (offset + 1) ⟨#[opcode]⟩ ∧
      length.val = if opcode = Opcode.increment then 6 else 4 := by
  have found {opcode : UInt8} :
      code[offset + 1]? = some opcode ↔ Stands code (offset + 1) ⟨#[opcode]⟩ := by
    rw [← Access.u1_eq_ok, Access.u1]
    by_cases inside : offset + 1 < code.size
    · rw [dif_pos inside, getElem?_pos code (offset + 1) inside]
      simp
    · rw [dif_neg inside, getElem?_neg code (offset + 1) inside]
      simp
  unfold wideLength
  constructor
  · intro done
    split at done
    · cases done
    · rename_i opcode read
      refine ⟨opcode, found.mp read, ?_⟩
      split at done <;> cases done <;> simp [*]
  · rintro ⟨opcode, stands, same⟩
    rw [found.mpr stands]
    simp only
    split <;> rename_i choice <;> simp only [choice, if_true, if_false] at same <;>
      exact congrArg Except.ok (Subtype.ext same.symm)

theorem decode_eq_ok {code : ByteArray} {offset : Nat} {instruction : Instruction} :
    decode code offset = .ok instruction ↔ instruction.offset = offset ∧
      Stands code offset ⟨#[instruction.opcode]⟩ ∧
      decodeLength code offset instruction.opcode =
        .ok ⟨instruction.length, instruction.positive⟩ ∧
      instruction.stop ≤ code.size := by
  unfold decode
  constructor
  · intro done
    obtain ⟨opcode, opcodeRead, done⟩ := bind_eq_ok.mp done
    obtain ⟨length, lengthRead, done⟩ := bind_eq_ok.mp done
    split at done
    · cases done
    · rename_i inside
      cases done
      exact ⟨rfl, Access.u1_eq_ok.mp opcodeRead, lengthRead, Nat.not_lt.mp inside⟩
  · rintro ⟨rfl, opcodeStands, lengthRead, inside⟩
    refine bind_eq_ok.mpr ⟨_, Access.u1_eq_ok.mpr opcodeStands, bind_eq_ok.mpr ⟨_, lengthRead, ?_⟩⟩
    exact if_neg (Nat.not_lt.mpr inside)

@[simp] theorem size_encodeSigned32 (number : Int) : (BigEndian.encodeSigned32 number).size = 4 :=
  rfl

/-- Text carries what stands in it to every place where the text stands. -/
theorem stands_carried {code out text piece : ByteArray} {offset start distance : Nat}
    (present : Stands code offset text) (moved : Stands out start text)
    (stands : Stands code (offset + distance) piece) (fits : distance + piece.size ≤ text.size) :
    Stands out (start + distance) piece :=
  moved.inside distance (present.restrict distance stands fits)

/-- A word of a switch is carried along at its own offset. -/
theorem switchWord_carried {code out text : ByteArray} {offset distance : Nat} {word : Int}
    (present : Stands code offset text) (moved : Stands out offset text)
    (read : switchWord code (offset + 1 + switchPadding offset + distance) offset = .ok word)
    (fits : 1 + switchPadding offset + distance + 4 ≤ text.size) :
    switchWord out (offset + 1 + switchPadding offset + distance) offset = .ok word := by
  obtain ⟨wordFits, stands⟩ := switchWord_eq_ok.mp read
  have place : offset + 1 + switchPadding offset + distance =
      offset + (1 + switchPadding offset + distance) := by omega
  rw [place] at stands ⊢
  exact switchWord_eq_ok.mpr ⟨wordFits, stands_carried present moved stands fits⟩

/-- The bytes of an instruction give the same length elsewhere; those of a switch do so only at its
own offset. -/
theorem decodeLength_moved {code out text : ByteArray} {offset start : Nat} {opcode : UInt8}
    {length : Length} (decoded : decodeLength code offset opcode = .ok length)
    (present : Stands code offset text) (whole : text.size = length.val)
    (moved : Stands out start text)
    (aligned : Opcode.jump? opcode = some .switch → start = offset) :
    decodeLength out start opcode = .ok length := by
  unfold decodeLength at decoded ⊢
  cases shape : Opcode.shape opcode with
  | fixed width positive =>
    rw [shape] at decoded
    exact decoded
  | tableSwitch =>
    rw [shape] at decoded
    obtain ⟨low, high, lowRead, highRead, ordered, size⟩ := tableSwitchLength_eq_ok.mp decoded
    obtain rfl : start = offset := aligned (Opcode.jump?_eq_switch_iff.mpr
      (.inl (Opcode.shape_eq_tableSwitch_iff.mp shape)))
    exact tableSwitchLength_eq_ok.mpr ⟨low, high,
      switchWord_carried present moved lowRead (by omega),
      switchWord_carried present moved highRead (by omega), ordered, size⟩
  | lookupSwitch =>
    rw [shape] at decoded
    obtain ⟨pairs, read, natural, size⟩ := lookupSwitchLength_eq_ok.mp decoded
    obtain rfl : start = offset := aligned (Opcode.jump?_eq_switch_iff.mpr
      (.inr (Opcode.shape_eq_lookupSwitch_iff.mp shape)))
    exact lookupSwitchLength_eq_ok.mpr ⟨pairs,
      switchWord_carried present moved read (by omega), natural, size⟩
  | wide =>
    rw [shape] at decoded
    obtain ⟨widened, stands, size⟩ := wideLength_eq_ok.mp decoded
    refine wideLength_eq_ok.mpr ⟨widened, stands_carried present moved stands ?_, size⟩
    rw [whole, size, size_mk]
    split <;> simp
  | invalid =>
    rw [shape] at decoded
    cases decoded

/-- An instruction decodes alike wherever its bytes stand, a switch only at its own offset. -/
theorem decode_moved {code out text : ByteArray} {instruction : Instruction} {start : Nat}
    (decoded : decode code instruction.offset = .ok instruction)
    (present : Stands code instruction.offset text) (whole : text.size = instruction.length)
    (moved : Stands out start text)
    (aligned : instruction.jump? = some .switch → start = instruction.offset) :
    decode out start = .ok { instruction with offset := start } := by
  obtain ⟨_, opcode, length, _⟩ := decode_eq_ok.mp decoded
  have positive := instruction.positive
  refine decode_eq_ok.mpr ⟨rfl, ?_, decodeLength_moved length present whole moved aligned, ?_⟩
  · exact moved.inside 0 (present.restrict 0 opcode (by rw [size_mk, whole]; simpa))
  · have inside := moved.within
    rwa [whole] at inside

/-- An instruction of fixed length is decoded from its opcode alone. -/
theorem decode_fixed {out rest : ByteArray} {start width : Nat} {opcode : UInt8}
    {positive : 0 < width} (shape : Opcode.shape opcode = .fixed width positive)
    (stands : Stands out start (⟨#[opcode]⟩ ++ rest)) (size : rest.size + 1 = width) :
    decode out start = .ok ⟨start, opcode, width, positive⟩ := by
  have inside := stands.within
  rw [ByteArray.size_append, size_mk] at inside
  refine decode_eq_ok.mpr ⟨rfl, (stands_append.mp stands).1, ?_, ?_⟩
  · simp only [decodeLength, shape]
  · change start + width ≤ out.size
    simp only [List.length_cons, List.length_nil] at inside
    omega

theorem length_of_fixed {code : ByteArray} {offset width : Nat} {instruction : Instruction}
    {positive : 0 < width} (decoded : decode code offset = .ok instruction)
    (shape : Opcode.shape instruction.opcode = .fixed width positive) :
    instruction.length = width := by
  have length := (decode_eq_ok.mp decoded).2.2.1
  simp only [decodeLength, shape, Except.ok.injEq, Subtype.mk.injEq] at length
  exact length.symm

/-- A decoded load has two bytes when it is narrow and three otherwise. -/
theorem length_of_isLoad {code : ByteArray} {offset : Nat} {instruction : Instruction}
    (decoded : decode code offset = .ok instruction)
    (load : Opcode.isLoad instruction.opcode = true) :
    instruction.length = if instruction.opcode = Opcode.loadConstant then 2 else 3 := by
  have shape := (Opcode.shape_of_isLoad load).2
  by_cases narrow : instruction.opcode = Opcode.loadConstant
  · rw [if_pos narrow] at shape ⊢
    exact length_of_fixed decoded shape
  · rw [if_neg narrow] at shape ⊢
    exact length_of_fixed decoded shape

/-- The instructions follow one another from an offset up to the end of the code. -/
inductive Tiles (code : ByteArray) : Nat → List Instruction → Prop where
  | done : Tiles code code.size []
  | next {instruction : Instruction} {rest : List Instruction}
      (decoded : decode code instruction.offset = .ok instruction)
      (tiles : Tiles code instruction.stop rest) :
      Tiles code instruction.offset (instruction :: rest)

theorem Tiles.step {code : ByteArray} {start : Nat} {instruction : Instruction}
    {rest : List Instruction} (decoded : decode code start = .ok instruction)
    (tiles : Tiles code instruction.stop rest) : Tiles code start (instruction :: rest) := by
  obtain ⟨rfl, _⟩ := decode_eq_ok.mp decoded
  exact .next decoded tiles

theorem Tiles.decoded {code : ByteArray} {start : Nat} {instructions : List Instruction}
    (tiles : Tiles code start instructions) : ∀ instruction ∈ instructions,
      decode code instruction.offset = .ok instruction := by
  induction tiles with
  | done => simp
  | next decoded tiles inductionHypothesis =>
    exact List.forall_mem_cons.mpr ⟨decoded, inductionHypothesis⟩

/-- The first instruction is the one that is decoded at the offset. -/
theorem Tiles.first {code : ByteArray} {instruction : Instruction} {instructions : List Instruction}
    (tiles : Tiles code instruction.offset instructions)
    (decoded : decode code instruction.offset = .ok instruction) :
    ∃ rest, instructions = instruction :: rest ∧ Tiles code instruction.stop rest := by
  generalize same : instruction.offset = start at tiles
  cases tiles with
  | done =>
    have inside := (decode_eq_ok.mp decoded).2.2.2
    have positive := instruction.positive
    unfold stop at inside
    omega
  | next other tiles =>
    rw [same, other, Except.ok.injEq] at decoded
    exact ⟨_, by rw [decoded], decoded ▸ tiles⟩

/-- Nothing follows the end of the code. -/
theorem Tiles.none {code : ByteArray} {instructions : List Instruction}
    (tiles : Tiles code code.size instructions) : instructions = [] := by
  generalize same : code.size = start at tiles
  cases tiles with
  | done => rfl
  | next decoded tiles =>
    have inside := (decode_eq_ok.mp decoded).2.2.2
    rename_i instruction rest
    have positive := instruction.positive
    unfold stop at inside
    omega

/-- The induction follows the decoder; the offset never passes the end of the code. -/
theorem decodeOnto_eq_ok {code : ByteArray} (done : List Instruction) (start : Nat)
    (inside : start ≤ code.size) (instructions : List Instruction) :
    decodeOnto code done start = .ok instructions ↔
      ∃ rest, instructions = done.reverse ++ rest ∧ Tiles code start rest := by
  induction done, start using decodeOnto.induct code with
  | case1 done start more failure failed =>
    rw [decodeOnto, if_pos more, failed]
    constructor
    · intro same
      cases same
    · rintro ⟨rest, rfl, tiles⟩
      cases tiles with
      | done => exact absurd more (Nat.lt_irrefl _)
      | next decoded tiles =>
        rw [failed] at decoded
        cases decoded
  | case2 done start more instruction decoded _ inductionHypothesis =>
    obtain ⟨rfl, _, _, stopInside⟩ := decode_eq_ok.mp decoded
    rw [decodeOnto, if_pos more, decoded]
    refine (inductionHypothesis stopInside).trans ?_
    constructor
    · rintro ⟨rest, rfl, tiles⟩
      exact ⟨instruction :: rest, by simp, .next decoded tiles⟩
    · rintro ⟨all, rfl, tiles⟩
      obtain ⟨rest, rfl, further⟩ := tiles.first decoded
      exact ⟨rest, by simp, further⟩
  | case3 done start ended =>
    have same : start = code.size := by omega
    rw [decodeOnto, if_neg ended, same, Except.ok.injEq]
    constructor
    · rintro rfl
      exact ⟨[], by simp, .done⟩
    · rintro ⟨all, rfl, tiles⟩
      rw [tiles.none, List.append_nil]

/-- Code decodes to the instructions that tile it. -/
theorem decodeAll_eq_ok {code : ByteArray} {instructions : List Instruction} :
    decodeAll code = .ok instructions ↔ Tiles code 0 instructions := by
  rw [decodeAll, decodeOnto_eq_ok [] 0 (Nat.zero_le _)]
  simp

end Instruction

end EnumNames
