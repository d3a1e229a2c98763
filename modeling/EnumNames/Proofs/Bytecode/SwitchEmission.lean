import EnumNames.Proofs.Bytecode.Emission
import EnumNames.Proofs.Bytecode.SwitchForm

/-!
What is emitted for a switch. Its operands move as a block behind the new padding, and they are
written for the moved branch. With this every instruction is emitted as it has to be.
-/

namespace EnumNames

namespace Instruction

variable {code : ByteArray} {instruction : Instruction}

/-- A decoded table has a case for every number between its bounds. -/
theorem length_of_table {low high : Int}
    (decoded : decode code instruction.offset = .ok instruction)
    (kind : instruction.opcode = Opcode.tableSwitch)
    (lowRead : instruction.word code (instruction.operands + 4) = .ok low)
    (highRead : instruction.word code (instruction.operands + 8) = .ok high) :
    low ≤ high ∧ instruction.length =
      1 + switchPadding instruction.offset + 12 + (high - low + 1).toNat * 4 := by
  have length := (decode_eq_ok.mp decoded).2.2.1
  rw [decodeLength, Opcode.shape_eq_tableSwitch_iff.mpr kind] at length
  obtain ⟨other, another, otherRead, anotherRead, ordered, size⟩ :=
    tableSwitchLength_eq_ok.mp length
  cases otherRead.symm.trans lowRead
  cases anotherRead.symm.trans highRead
  exact ⟨ordered, size⟩

/-- A decoded lookup has as many pairs as it names. -/
theorem length_of_lookup {count : Int}
    (decoded : decode code instruction.offset = .ok instruction)
    (kind : instruction.opcode = Opcode.lookupSwitch)
    (countRead : instruction.word code (instruction.operands + 4) = .ok count) :
    0 ≤ count ∧ instruction.length =
      1 + switchPadding instruction.offset + 8 + count.toNat * 8 := by
  have length := (decode_eq_ok.mp decoded).2.2.1
  rw [decodeLength, Opcode.shape_eq_lookupSwitch_iff.mpr kind] at length
  obtain ⟨other, otherRead, natural, size⟩ := lookupSwitchLength_eq_ok.mp length
  cases otherRead.symm.trans countRead
  exact ⟨natural, size⟩

end Instruction

namespace Relocation

variable {relocation : Relocation} {code : ByteArray} {placed : PlacedSite} {piece : ByteArray}

/-- The parts of a switch are its opcode, its padding and its operands. -/
theorem stands_switch {out operands : ByteArray} {start padding : Nat} {opcode : UInt8} :
    Stands out start ((opcode :: List.replicate padding 0).toByteArray ++ operands) ↔
      Stands out start ⟨#[opcode]⟩ ∧
      Stands out (start + 1) (List.replicate padding 0).toByteArray ∧
      Stands out (start + 1 + padding) operands := by
  have head : (opcode :: List.replicate padding 0).toByteArray =
      ⟨#[opcode]⟩ ++ (List.replicate padding 0).toByteArray :=
    List.toByteArray_append (l := [opcode])
  rw [head, ByteArray.append_assoc, stands_append, stands_append, List.size_toByteArray,
    List.length_replicate]
  rfl

theorem size_switch {operands : ByteArray} {padding : Nat} {opcode : UInt8} :
    ((opcode :: List.replicate padding 0).toByteArray ++ operands).size =
      1 + padding + operands.size := by
  simp
  omega

/-- The operands of a switch move as a block behind the new padding. -/
theorem emits_switch {operands : ByteArray} {before after : Branch}
    (unpatched : placed.site.index = none)
    (whole : placed.site.instruction.length =
      1 + switchPadding placed.site.instruction.offset + operands.size)
    (old : placed.site.instruction.branch code = .ok before)
    (written : Branch.Written placed.site.instruction.opcode after operands)
    (moves : relocation.Moves placed.site.instruction.offset placed.start before after) :
    relocation.Emits code placed
      ((placed.site.instruction.opcode ::
        List.replicate (switchPadding placed.start) 0).toByteArray ++ operands) := by
  have switch : placed.site.instruction.jump? = some .switch := written.switch
  have reserved : placed.site.lengthAt placed.start =
      1 + switchPadding placed.start + operands.size := by
    simp only [Site.lengthAt, Site.isWidened, unpatched, switch, whole, Option.any_none,
      Bool.and_false, Bool.false_eq_true, if_false, if_true]
    omega
  refine ⟨size_switch.trans reserved.symm, fun out stands => ?_⟩
  have inside := stands.within
  rw [size_switch] at inside
  obtain ⟨opcode, zeros, rest⟩ := stands_switch.mp stands
  let moved : Instruction := ⟨placed.start, placed.site.instruction.opcode,
    1 + switchPadding placed.start + operands.size, by omega⟩
  have read : moved.branch out = .ok after := Branch.Written.branch_eq_ok written rest
  refine ⟨moved, Instruction.decode_eq_ok.mpr ⟨rfl, opcode, written.decodeLength rest, inside⟩,
    reserved.symm, ?_⟩
  refine Carries.of_unpatched unpatched rfl ?_ ?_ ?_
  · intro plain
    rw [plain] at switch
    cases switch
  · exact ⟨before, after, old, read, moves⟩
  · intro _
    refine ⟨?_, Access.slice_eq_ok.mpr ⟨?_, zeros⟩⟩
    · change 1 + switchPadding placed.start + operands.size + _ = _ + switchPadding placed.start
      rw [whole]
      omega
    · rw [List.size_toByteArray, List.length_replicate]
      rfl

theorem emitTable_eq_ok {index : Nat} (bounded : relocation.Bounded)
    (located : relocation.map placed.site.instruction.offset = .ok placed.start)
    (done : relocation.emitTable code placed index = .ok piece) : ∃ low high befores afters,
      placed.site.instruction.word code index = .ok low ∧
      placed.site.instruction.word code (index + 4) = .ok high ∧
      ((List.range (high - low + 1).toNat).mapM fun number =>
        placed.site.instruction.word code (index + 8 + 4 * number)) = .ok befores ∧
      piece = BigEndian.encodeSigned32 low ++ (BigEndian.encodeSigned32 high ++
        concat (afters.map BigEndian.encodeSigned32)) ∧
      List.Forall₂ (fun before after =>
        relocation.Follows placed.site.instruction.offset placed.start before after ∧
          Instruction.FitsWord after) befores afters := by
  obtain ⟨low, lowRead, done⟩ := bind_eq_ok.mp done
  obtain ⟨high, highRead, done⟩ := bind_eq_ok.mp done
  obtain ⟨bounds, boundsRead, done⟩ := bind_eq_ok.mp done
  obtain ⟨cases, casesRead, same⟩ := bind_eq_ok.mp done
  cases same
  obtain ⟨befores, afters, read, rfl, follow⟩ :=
    mapM_explained (fun _ _ => emitCase_eq_ok bounded located) casesRead
  refine ⟨low, high, befores, afters, lowRead, highRead, read, ?_, follow⟩
  have lowStands := (Instruction.switchWord_eq_ok.mp lowRead).2
  have highStands := (Instruction.switchWord_eq_ok.mp highRead).2
  have both : Stands code index (BigEndian.encodeSigned32 low ++ BigEndian.encodeSigned32 high) :=
    stands_append.mpr ⟨lowStands, highStands⟩
  obtain ⟨width, stands⟩ := Access.slice_eq_ok.mp boundsRead
  rw [stands.unique both (Nat.add_left_cancel width).symm, ByteArray.append_assoc]

theorem emitPair_eq_ok {index : Nat} (bounded : relocation.Bounded)
    (located : relocation.map placed.site.instruction.offset = .ok placed.start)
    (done : relocation.emitPair code placed index = .ok piece) : ∃ before after,
      placed.site.instruction.pair code index = .ok before ∧ piece = encodePair after ∧
      (before.1 = after.1 ∧
        relocation.Follows placed.site.instruction.offset placed.start before.2 after.2) ∧
      Instruction.FitsWord after.1 ∧ Instruction.FitsWord after.2 := by
  obtain ⟨key, keyRead, done⟩ := bind_eq_ok.mp done
  obtain ⟨_, caseDone, same⟩ := bind_eq_ok.mp done
  cases same
  obtain ⟨before, after, read, rfl, follows, fits⟩ := emitCase_eq_ok bounded located caseDone
  obtain ⟨width, stands⟩ := Access.slice_eq_ok.mp keyRead
  obtain ⟨number, numberRead, rfl⟩ := Instruction.exists_word_of_stands stands
    (Nat.add_left_cancel width).symm placed.site.instruction.offset
  have numberFits := (Instruction.switchWord_eq_ok.mp numberRead).1
  exact ⟨(number, before), (number, after),
    bind_eq_ok.mpr ⟨number, numberRead, bind_eq_ok.mpr ⟨before, read, rfl⟩⟩, rfl,
    ⟨rfl, follows⟩, numberFits, fits⟩

theorem emitPairs_eq_ok {index : Nat} (bounded : relocation.Bounded)
    (located : relocation.map placed.site.instruction.offset = .ok placed.start)
    (done : relocation.emitPairs code placed index = .ok piece) : ∃ count befores afters,
      placed.site.instruction.word code index = .ok count ∧
      ((List.range count.toNat).mapM fun number =>
        placed.site.instruction.pair code (index + 4 + 8 * number)) = .ok befores ∧
      piece = BigEndian.encodeSigned32 count ++ concat (afters.map encodePair) ∧
      List.Forall₂ (fun before after => (before.1 = after.1 ∧
          relocation.Follows placed.site.instruction.offset placed.start before.2 after.2) ∧
        Instruction.FitsWord after.1 ∧ Instruction.FitsWord after.2) befores afters := by
  obtain ⟨count, countRead, done⟩ := bind_eq_ok.mp done
  obtain ⟨bytes, bytesRead, done⟩ := bind_eq_ok.mp done
  obtain ⟨cases, casesRead, same⟩ := bind_eq_ok.mp done
  cases same
  obtain ⟨befores, afters, read, rfl, follow⟩ :=
    mapM_explained (fun _ _ => emitPair_eq_ok bounded located) casesRead
  refine ⟨count, befores, afters, countRead, read, ?_, follow⟩
  obtain ⟨width, stands⟩ := Access.slice_eq_ok.mp bytesRead
  rw [stands.unique (Instruction.switchWord_eq_ok.mp countRead).2 (Nat.add_left_cancel width).symm]

theorem mapM_range_length {α : Type} {count : Nat} {read : Nat → Except Failure α}
    {values : List α} (done : (List.range count).mapM read = .ok values) :
    values.length = count := by
  rw [← (mapM_eq_ok.mp done).length_eq, List.length_range]

theorem emits_table (bounded : relocation.Bounded)
    (located : relocation.map placed.site.instruction.offset = .ok placed.start)
    (unpatched : placed.site.index = none)
    (decoded : Instruction.decode code placed.site.instruction.offset = .ok placed.site.instruction)
    (kind : placed.site.instruction.opcode = Opcode.tableSwitch)
    (done : relocation.emitSwitch code placed = .ok piece) :
    relocation.Emits code placed piece := by
  obtain ⟨_, defaultDone, done⟩ := bind_eq_ok.mp done
  obtain ⟨_, tableDone, same⟩ := bind_eq_ok.mp ((if_pos kind).symm.trans done)
  cases same
  obtain ⟨before, after, defaultRead, rfl, follows, near⟩ :=
    emitCase_eq_ok bounded located defaultDone
  obtain ⟨low, high, befores, afters, lowRead, highRead, casesRead, rfl, follow⟩ :=
    emitTable_eq_ok bounded located tableDone
  obtain ⟨ordered, length⟩ := Instruction.length_of_table decoded kind lowRead highRead
  have count : afters.length = (high - low + 1).toNat := by
    rw [← follow.length_eq, mapM_range_length casesRead]
  have written := Branch.Written.table kind near (Instruction.switchWord_eq_ok.mp lowRead).1
    (Instruction.switchWord_eq_ok.mp highRead).1
    (forall_mem_of_forall₂ follow fun _ _ both => both.2) ordered count
  have old : placed.site.instruction.branch code = .ok (.table before low high befores) := by
    rw [Instruction.branch, show placed.site.instruction.jump? = some .switch from written.switch]
    exact (if_pos kind).trans (bind_eq_ok.mpr ⟨_, defaultRead, bind_eq_ok.mpr ⟨_, lowRead,
      bind_eq_ok.mpr ⟨_, highRead, bind_eq_ok.mpr ⟨_, casesRead, rfl⟩⟩⟩⟩)
  rw [ByteArray.append_assoc]
  refine emits_switch unpatched ?_ old written
    (.table follows (follow.imp fun _ _ both => both.1))
  simp only [ByteArray.size_append, Instruction.size_encodeSigned32,
    size_concat_map Instruction.size_encodeSigned32, count]
  omega

theorem emits_lookup (bounded : relocation.Bounded)
    (located : relocation.map placed.site.instruction.offset = .ok placed.start)
    (unpatched : placed.site.index = none)
    (decoded : Instruction.decode code placed.site.instruction.offset = .ok placed.site.instruction)
    (kind : placed.site.instruction.opcode = Opcode.lookupSwitch)
    (done : relocation.emitSwitch code placed = .ok piece) :
    relocation.Emits code placed piece := by
  have other : placed.site.instruction.opcode ≠ Opcode.tableSwitch := by
    rw [kind]
    decide
  obtain ⟨_, defaultDone, done⟩ := bind_eq_ok.mp done
  obtain ⟨_, pairsDone, same⟩ := bind_eq_ok.mp ((if_neg other).symm.trans done)
  cases same
  obtain ⟨before, after, defaultRead, rfl, follows, near⟩ :=
    emitCase_eq_ok bounded located defaultDone
  obtain ⟨count, befores, afters, countRead, pairsRead, rfl, follow⟩ :=
    emitPairs_eq_ok bounded located pairsDone
  obtain ⟨natural, whole⟩ := Instruction.length_of_lookup decoded kind countRead
  have length : afters.length = count.toNat := by
    rw [← follow.length_eq, mapM_range_length pairsRead]
  have written := Branch.Written.lookup kind near (Instruction.switchWord_eq_ok.mp countRead).1
    (forall_mem_of_forall₂ follow fun _ _ both => both.2) natural length
  have old : placed.site.instruction.branch code = .ok (.lookup before befores) := by
    rw [Instruction.branch, show placed.site.instruction.jump? = some .switch from written.switch]
    exact (if_neg other).trans (bind_eq_ok.mpr ⟨_, defaultRead, bind_eq_ok.mpr ⟨_, countRead,
      bind_eq_ok.mpr ⟨_, pairsRead, rfl⟩⟩⟩)
  rw [ByteArray.append_assoc]
  refine emits_switch unpatched ?_ old written
    (.lookup follows (follow.imp fun _ _ both => both.1))
  simp only [ByteArray.size_append, Instruction.size_encodeSigned32,
    size_concat_map size_encodePair, length]
  omega

/-- Whatever is emitted decodes to the moved instruction. -/
theorem emit_eq_ok (bounded : relocation.Bounded)
    (located : relocation.map placed.site.instruction.offset = .ok placed.start)
    (decoded : Instruction.decode code placed.site.instruction.offset = .ok placed.site.instruction)
    (loads : placed.site.index.isSome → Opcode.isLoad placed.site.instruction.opcode = true)
    (done : relocation.emit code placed = .ok piece) : relocation.Emits code placed piece := by
  unfold emit at done
  split at done
  · rename_i index patched
    cases done
    exact emits_load decoded (loads (by rw [patched]; rfl)) patched
  · rename_i unpatched
    dsimp only at done
    split at done
    · rename_i plain
      exact emits_plain unpatched decoded plain done
    · rename_i short
      exact emits_short bounded located unpatched decoded short done
    · rename_i long
      exact emits_long bounded located unpatched decoded long done
    · rename_i switch
      rcases Opcode.jump?_eq_switch_iff.mp switch with kind | kind
      · exact emits_table bounded located unpatched decoded kind done
      · exact emits_lookup bounded located unpatched decoded kind done

end Relocation

end EnumNames
