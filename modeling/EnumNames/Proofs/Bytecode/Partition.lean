import EnumNames.Proofs.Bytecode.InstructionGrammar

/-!
Code is divided into instructions. Main statement: the decoder either finds the only way to divide
some code into instructions, or it names an offset up to which the code can be divided and at which
no instruction stands, so that the code as a whole cannot be divided.
-/

namespace EnumNames

namespace Instruction

variable {code : ByteArray} {instruction : Instruction} {start stop middle : Nat}

/-- Instructions follow one another in some code from one offset up to another. -/
inductive Partition (code : ByteArray) : Nat → List Instruction → Nat → Prop where
  | none (offset : Nat) : Partition code offset [] offset
  | next {instruction : Instruction} {rest : List Instruction} {stop : Nat}
      (stands : instruction.StandsIn code) (partition : Partition code instruction.stop rest stop) :
      Partition code instruction.offset (instruction :: rest) stop

namespace Partition

variable {first instructions : List Instruction}

theorem le (partition : Partition code start instructions stop) : start ≤ stop := by
  induction partition with
  | none => exact Nat.le_refl _
  | next stands partition inductionHypothesis =>
    exact Nat.le_trans (Nat.le_add_right _ _) inductionHypothesis

theorem within (partition : Partition code start instructions stop) :
    ∀ instruction ∈ instructions, start ≤ instruction.offset ∧ instruction.stop ≤ stop := by
  induction partition with
  | none => simp
  | @next instruction rest stop stands partition inductionHypothesis =>
    refine List.forall_mem_cons.mpr ⟨⟨Nat.le_refl _, partition.le⟩, fun other member => ?_⟩
    obtain ⟨behind, inside⟩ := inductionHypothesis other member
    exact ⟨Nat.le_trans (Nat.le_add_right _ _) behind, inside⟩

/-- The first instruction of a partition is the only one that stands at its start. -/
theorem of_standsIn (partition : Partition code instruction.offset instructions stop)
    (stands : instruction.StandsIn code) (more : instruction.offset < stop) :
    ∃ rest, instructions = instruction :: rest ∧ Partition code instruction.stop rest stop := by
  generalize same : instruction.offset = start at partition
  cases partition with
  | none => omega
  | @next other rest _ otherStands partition =>
    have decoded := decode_of_standsIn otherStands
    rw [← same, decode_of_standsIn stands, Except.ok.injEq] at decoded
    exact ⟨rest, by rw [decoded], decoded ▸ partition⟩

theorem eq_nil (partition : Partition code start instructions start) : instructions = [] := by
  generalize same : start = stop at partition
  cases partition with
  | none => rfl
  | @next instruction rest _ stands partition =>
    have behind := partition.le
    have positive := instruction.positive
    unfold Instruction.stop at behind
    omega

/-- A partition that goes further starts with the instructions of one that does not. -/
theorem extends_of_le (shorter : Partition code start first middle)
    (longer : Partition code start instructions stop) (further : middle ≤ stop) :
    ∃ rest, instructions = first ++ rest ∧ Partition code middle rest stop := by
  induction shorter generalizing instructions with
  | none => exact ⟨instructions, rfl, longer⟩
  | @next instruction rest middle stands shorter inductionHypothesis =>
    have more : instruction.offset < stop := by
      have behind := shorter.le
      have positive := instruction.positive
      unfold Instruction.stop at behind
      omega
    obtain ⟨tail, rfl, remaining⟩ := longer.of_standsIn stands more
    obtain ⟨last, rfl, partition⟩ := inductionHypothesis remaining further
    exact ⟨last, rfl, partition⟩

/-- Code can be divided in one way only. -/
theorem unique (one : Partition code start first stop)
    (other : Partition code start instructions stop) : instructions = first := by
  obtain ⟨rest, rfl, nothing⟩ := one.extends_of_le other (Nat.le_refl _)
  rw [nothing.eq_nil, List.append_nil]

/-- Every byte belongs to exactly one instruction. -/
theorem covers (partition : Partition code start instructions stop) (index : Nat)
    (behind : start ≤ index) (before : index < stop) :
    ∃! instruction, instruction ∈ instructions ∧
      instruction.offset ≤ index ∧ index < instruction.stop := by
  induction partition with
  | none => omega
  | @next instruction rest stop stands partition inductionHypothesis =>
    have later := partition.within
    rcases Nat.lt_or_ge index instruction.stop with inside | outside
    · refine ⟨instruction, ⟨List.mem_cons_self, behind, inside⟩, ?_⟩
      rintro other ⟨member, otherBehind, otherInside⟩
      rcases List.mem_cons.mp member with same | member
      · exact same
      · have apart := (later other member).1
        omega
    · obtain ⟨found, ⟨member, foundBehind, foundInside⟩, only⟩ := inductionHypothesis outside before
      refine ⟨found, ⟨List.mem_cons_of_mem _ member, foundBehind, foundInside⟩, ?_⟩
      rintro other ⟨member, otherBehind, otherInside⟩
      rcases List.mem_cons.mp member with rfl | member
      · omega
      · exact only other ⟨member, otherBehind, otherInside⟩

end Partition

theorem partition_of_tiles {instructions : List Instruction} (tiles : Tiles code start instructions) :
    Partition code start instructions code.size := by
  induction tiles with
  | done => exact .none _
  | next decoded tiles inductionHypothesis =>
    exact .next (decode_eq_ok_iff_standsIn.mp decoded).2 inductionHypothesis

/-- Where no instruction stands, this is what stands there instead, with the words that report it.
The words of a switch are missing up to those that tell its length; an instruction that runs past
the end would be one if some more bytes were there. -/
inductive Breaks (code : ByteArray) (offset : Nat) : ClassFault → Prop where
  | unknown {opcode : UInt8} (stands : Stands code offset ⟨#[opcode]⟩)
      (nothing : ∀ rest, ¬ Completes offset opcode rest) :
      Breaks code offset (.invalidOpcode opcode)
  | widened (stands : Stands code offset ⟨#[Opcode.wide]⟩) (last : code.size = offset + 1) :
      Breaks code offset .truncatedWide
  | switch {opcode : UInt8} (stands : Stands code offset ⟨#[opcode]⟩)
      (kind : opcode = Opcode.tableSwitch ∨ opcode = Opcode.lookupSwitch)
      (few : code.size < offset + 1 + switchPadding offset +
        if opcode = Opcode.tableSwitch then 12 else 8) :
      Breaks code offset .truncatedSwitch
  | table {low high : Int} (stands : Stands code offset ⟨#[Opcode.tableSwitch]⟩)
      (lowFits : FitsWord low) (highFits : FitsWord high)
      (bounds : Stands code (offset + 1 + switchPadding offset + 4)
        (BigEndian.encodeSigned32 low ++ BigEndian.encodeSigned32 high))
      (reversed : high < low) : Breaks code offset (.emptyTable high low)
  | lookup {pairs : Int} (stands : Stands code offset ⟨#[Opcode.lookupSwitch]⟩)
      (fits : FitsWord pairs)
      (count : Stands code (offset + 1 + switchPadding offset + 4) (BigEndian.encodeSigned32 pairs))
      (negative : pairs < 0) : Breaks code offset (.negativePairs pairs)
  | operands {missing : ByteArray} {instruction : Instruction} (missed : 0 < missing.size)
      (same : instruction.offset = offset) (completed : instruction.StandsIn (code ++ missing))
      (ends : instruction.stop = (code ++ missing).size) :
      Breaks code offset (.pastEnd instruction.opcode)

/-- A word of a switch is blamed on the switch when the code ends in front of it or inside it. -/
theorem switchWord_eq_error {index offset : Nat} {failure : Failure}
    (failed : switchWord code index offset = .error failure) :
    failure = .malformedClass offset .truncatedSwitch ∧ code.size < index + 4 := by
  unfold switchWord Access.i4? at failed
  split_ifs at failed with inside
  cases failed
  exact ⟨rfl, by omega⟩

theorem breaks_of_tableSwitchLength {offset : Nat} {failure : Failure}
    (stands : Stands code offset ⟨#[Opcode.tableSwitch]⟩)
    (failed : tableSwitchLength code offset = .error failure) :
    ∃ fault, failure = .malformedClass offset fault ∧ Breaks code offset fault := by
  have truncated {index : Nat} (low : index ≤ offset + 1 + switchPadding offset + 8)
      (wordFailed : switchWord code index offset = .error failure) :
      ∃ fault, failure = .malformedClass offset fault ∧ Breaks code offset fault := by
    obtain ⟨rfl, short⟩ := switchWord_eq_error wordFailed
    refine ⟨_, rfl, .switch stands (.inl rfl) ?_⟩
    rw [if_pos rfl]
    omega
  unfold tableSwitchLength at failed
  rcases bind_eq_error.mp failed with lowFailed | ⟨low, lowRead, failed⟩
  · exact truncated (by omega) lowFailed
  rcases bind_eq_error.mp failed with highFailed | ⟨high, highRead, failed⟩
  · exact truncated (Nat.le_refl _) highFailed
  split at failed
  · rename_i reversed
    cases failed
    obtain ⟨lowFits, lowStands⟩ := switchWord_eq_ok.mp lowRead
    obtain ⟨highFits, highStands⟩ := switchWord_eq_ok.mp highRead
    exact ⟨_, rfl, .table stands lowFits highFits
      (stands_append.mpr ⟨lowStands, highStands⟩) reversed⟩
  · cases failed

theorem breaks_of_lookupSwitchLength {offset : Nat} {failure : Failure}
    (stands : Stands code offset ⟨#[Opcode.lookupSwitch]⟩)
    (failed : lookupSwitchLength code offset = .error failure) :
    ∃ fault, failure = .malformedClass offset fault ∧ Breaks code offset fault := by
  unfold lookupSwitchLength at failed
  rcases bind_eq_error.mp failed with countFailed | ⟨pairs, countRead, failed⟩
  · obtain ⟨rfl, short⟩ := switchWord_eq_error countFailed
    exact ⟨_, rfl, .switch stands (.inr rfl) short⟩
  split at failed
  · rename_i negative
    cases failed
    obtain ⟨fits, count⟩ := switchWord_eq_ok.mp countRead
    exact ⟨_, rfl, .lookup stands fits count negative⟩
  · cases failed

/-- An opcode without a shape begins no instruction. -/
theorem not_completes_of_invalid {offset : Nat} {opcode : UInt8}
    (invalid : Opcode.shape opcode = .invalid) (rest : ByteArray) :
    ¬ Completes offset opcode rest := by
  intro completes
  cases completes with
  | fixed listed size =>
    rw [Opcode.shape_of_operands listed] at invalid
    cases invalid
  | widened size =>
    rw [Opcode.shape_wide] at invalid
    cases invalid
  | switch few aligned written =>
    rcases Opcode.jump?_eq_switch_iff.mp written.switch with kind | kind
    · rw [Opcode.shape_eq_tableSwitch_iff.mpr kind] at invalid
      cases invalid
    · rw [Opcode.shape_eq_lookupSwitch_iff.mpr kind] at invalid
      cases invalid

theorem breaks_of_decodeLength {offset : Nat} {opcode : UInt8} {failure : Failure}
    (stands : Stands code offset ⟨#[opcode]⟩)
    (failed : decodeLength code offset opcode = .error failure) :
    ∃ fault, failure = .malformedClass offset fault ∧ Breaks code offset fault := by
  unfold decodeLength at failed
  cases shape : Opcode.shape opcode with
  | fixed length positive =>
    rw [shape] at failed
    cases failed
  | tableSwitch =>
    rw [shape] at failed
    obtain rfl := Opcode.shape_eq_tableSwitch_iff.mp shape
    exact breaks_of_tableSwitchLength stands failed
  | lookupSwitch =>
    rw [shape] at failed
    obtain rfl := Opcode.shape_eq_lookupSwitch_iff.mp shape
    exact breaks_of_lookupSwitchLength stands failed
  | wide =>
    rw [shape] at failed
    obtain rfl := Opcode.eq_wide_of_shape shape
    have inside : offset + 1 ≤ code.size := stands.within
    dsimp only [wideLength] at failed
    split at failed
    · rename_i missing
      cases failed
      have outside : ¬ offset + 1 < code.size := by
        intro more
        rw [getElem?_pos code (offset + 1) more] at missing
        cases missing
      exact ⟨_, rfl, .widened stands (by omega)⟩
    · split_ifs at failed
  | invalid =>
    rw [shape] at failed
    cases failed
    exact ⟨_, rfl, .unknown stands (not_completes_of_invalid shape)⟩

/-- More bytes behind the code do not change the length of an instruction. -/
theorem decodeLength_append {offset : Nat} {opcode : UInt8} {length : Length}
    (decoded : decodeLength code offset opcode = .ok length) (missing : ByteArray) :
    decodeLength (code ++ missing) offset opcode = .ok length := by
  have word {index : Nat} {number : Int} (read : switchWord code index offset = .ok number) :
      switchWord (code ++ missing) index offset = .ok number := by
    obtain ⟨fits, stands⟩ := switchWord_eq_ok.mp read
    exact switchWord_eq_ok.mpr ⟨fits, stands.append_right missing⟩
  unfold decodeLength at decoded ⊢
  cases shape : Opcode.shape opcode with
  | fixed width positive =>
    rw [shape] at decoded
    exact decoded
  | tableSwitch =>
    rw [shape] at decoded
    obtain ⟨low, high, lowRead, highRead, same⟩ := tableSwitchLength_eq_ok.mp decoded
    exact tableSwitchLength_eq_ok.mpr ⟨low, high, word lowRead, word highRead, same⟩
  | lookupSwitch =>
    rw [shape] at decoded
    obtain ⟨pairs, read, same⟩ := lookupSwitchLength_eq_ok.mp decoded
    exact lookupSwitchLength_eq_ok.mpr ⟨pairs, word read, same⟩
  | wide =>
    rw [shape] at decoded
    obtain ⟨widened, stands, same⟩ := wideLength_eq_ok.mp decoded
    exact wideLength_eq_ok.mpr ⟨widened, stands.append_right missing, same⟩
  | invalid =>
    rw [shape] at decoded
    cases decoded

/-- An instruction that ends behind the code stands there when the missing bytes are added. -/
theorem breaks_of_pastEnd {offset : Nat} {opcode : UInt8} {length : Length}
    (stands : Stands code offset ⟨#[opcode]⟩)
    (decoded : decodeLength code offset opcode = .ok length)
    (past : code.size < offset + length.val) : Breaks code offset (.pastEnd opcode) := by
  obtain ⟨missing, size⟩ : ∃ missing : ByteArray, missing.size = offset + length.val - code.size :=
    ⟨(List.replicate (offset + length.val - code.size) 0).toByteArray, by simp⟩
  have ends : offset + length.val = (code ++ missing).size := by
    rw [ByteArray.size_append, size]
    omega
  have completed : decode (code ++ missing) offset =
      .ok ⟨offset, opcode, length.val, length.property⟩ :=
    decode_eq_ok.mpr ⟨rfl, stands.append_right missing, decodeLength_append decoded missing,
      Nat.le_of_eq ends⟩
  have missed : 0 < missing.size := by omega
  exact .operands missed rfl (decode_eq_ok_iff_standsIn.mp completed).2 ends

/-- The decoder fails inside the code only because something there breaks the grammar. -/
theorem breaks_of_decode {offset : Nat} {failure : Failure} (inside : offset < code.size)
    (failed : decode code offset = .error failure) :
    ∃ fault, failure = .malformedClass offset fault ∧ Breaks code offset fault := by
  unfold decode at failed
  rcases bind_eq_error.mp failed with outside | ⟨opcode, opcodeRead, failed⟩
  · rw [Access.u1, dif_pos inside] at outside
    cases outside
  have stands := Access.u1_eq_ok.mp opcodeRead
  rcases bind_eq_error.mp failed with lengthFailed | ⟨length, lengthRead, failed⟩
  · exact breaks_of_decodeLength stands lengthFailed
  split at failed
  · rename_i past
    cases failed
    exact ⟨_, rfl, breaks_of_pastEnd stands lengthRead past⟩
  · cases failed

/-- The induction follows the decoder up to the instruction it fails at. -/
theorem decodeOnto_eq_error (done : List Instruction) (start : Nat) {failure : Failure}
    (failed : decodeOnto code done start = .error failure) : ∃ instructions offset,
      Partition code start instructions offset ∧ offset < code.size ∧
        decode code offset = .error failure := by
  induction done, start using decodeOnto.induct code with
  | case1 done start more failure found =>
    rw [decodeOnto, if_pos more, found] at failed
    cases failed
    exact ⟨[], start, .none _, more, found⟩
  | case2 done start more instruction decoded _ inductionHypothesis =>
    rw [decodeOnto, if_pos more, decoded] at failed
    obtain ⟨rfl, stands⟩ := decode_eq_ok_iff_standsIn.mp decoded
    obtain ⟨instructions, offset, partition, inside, found⟩ := inductionHypothesis failed
    exact ⟨instruction :: instructions, offset, .next stands partition, inside, found⟩
  | case3 done start ended =>
    rw [decodeOnto, if_neg ended] at failed
    cases failed

/-- This is what the decoder tells about some code. When it succeeds, its instructions are the only
partition of the code; when it fails, there is none. -/
inductive Divides (code : ByteArray) : Except Failure (List Instruction) → Prop where
  | whole {instructions : List Instruction} (partition : Partition code 0 instructions code.size)
      (unique : ∀ others, Partition code 0 others code.size → others = instructions)
      (covers : ∀ index < code.size, ∃! instruction, instruction ∈ instructions ∧
        instruction.offset ≤ index ∧ index < instruction.stop)
      (again : ∀ instruction ∈ instructions, 1 ≤ instruction.length ∧
        decode code instruction.offset = .ok instruction) : Divides code (.ok instructions)
  | broken {reached : List Instruction} {offset : Nat} {fault : ClassFault}
      (partition : Partition code 0 reached offset) (inside : offset < code.size)
      (breaks : Breaks code offset fault)
      (nothing : ∀ instruction : Instruction, instruction.offset = offset →
        ¬ instruction.StandsIn code)
      (impossible : ∀ others, ¬ Partition code 0 others code.size) :
      Divides code (.error (.malformedClass offset fault))

theorem decodeAll_divides (code : ByteArray) : Divides code (decodeAll code) := by
  cases result : decodeAll code with
  | ok instructions =>
    have tiles := decodeAll_eq_ok.mp result
    have partition := partition_of_tiles tiles
    refine .whole partition (fun others other => partition.unique other)
      (fun index before => partition.covers index (Nat.zero_le _) before) ?_
    exact fun instruction member => ⟨instruction.positive, tiles.decoded instruction member⟩
  | error failure =>
    obtain ⟨reached, offset, partition, inside, failed⟩ := decodeOnto_eq_error [] 0 result
    obtain ⟨fault, rfl, breaks⟩ := breaks_of_decode inside failed
    have nothing (instruction : Instruction) (same : instruction.offset = offset) :
        ¬ instruction.StandsIn code := by
      rintro stands
      rw [← same, decode_of_standsIn stands] at failed
      cases failed
    refine .broken partition inside breaks nothing fun others whole => ?_
    obtain ⟨rest, _, remaining⟩ := partition.extends_of_le whole (Nat.le_of_lt inside)
    cases remaining with
    | none => exact Nat.lt_irrefl _ inside
    | next stands remaining => exact nothing _ rfl stands

end Instruction

end EnumNames
