import EnumNames.Proofs.Bytecode.Branch

/-!
What is emitted for one instruction. The emitted bytes have the length that the placement reserved
for them, and wherever they are put they decode to the moved instruction.
-/

namespace EnumNames

/-- A patched load is wide unless it was narrow and still has room for its index. -/
def Site.opcode (site : Site) : UInt8 :=
  match site.index with
  | some index =>
    if site.instruction.opcode = Opcode.loadConstant ∧ index ≤ 0xFF then Opcode.loadConstant
    else Opcode.loadConstantWide
  | none => site.instruction.opcode

namespace Relocation

/-- Offsets are far below the numbers at which negative targets wrap around. -/
def Bounded (relocation : Relocation) : Prop :=
  ∀ old new, relocation.map old = .ok new → old < 0x80000 ∧ new < 0x10000

/-- A moved instruction does what the instruction of its site did, with the index of the site. -/
structure Carries (relocation : Relocation) (code out : ByteArray) (site : Site)
    (moved : Instruction) : Prop where
  opcode : moved.opcode = site.opcode
  index : ∀ index, site.index = some index → moved.loadIndex out = .ok index
  bytes : site.index = none → site.instruction.jump? = none →
    ∃ bytes, Access.slice code ⟨site.instruction.offset, site.instruction.stop⟩ = .ok bytes ∧
      Access.slice out ⟨moved.offset, moved.stop⟩ = .ok bytes
  branch : ∃ before after, site.instruction.branch code = .ok before ∧
    moved.branch out = .ok after ∧
    relocation.Moves site.instruction.offset moved.offset before after
  padding : site.instruction.jump? = some .switch →
    moved.length + switchPadding site.instruction.offset =
        site.instruction.length + switchPadding moved.offset ∧
      Access.slice out ⟨moved.offset + 1, moved.operands⟩ =
        .ok (List.replicate (switchPadding moved.offset) 0).toByteArray

/-- The emitted bytes decode to the moved instruction wherever they are put. -/
def Emits (relocation : Relocation) (code : ByteArray) (placed : PlacedSite) (piece : ByteArray) :
    Prop :=
  piece.size = placed.site.lengthAt placed.start ∧
    ∀ out, Stands out placed.start piece → ∃ moved : Instruction,
      Instruction.decode out placed.start = .ok moved ∧
      moved.length = placed.site.lengthAt placed.start ∧
      relocation.Carries code out placed.site moved

variable {relocation : Relocation} {code : ByteArray} {placed : PlacedSite} {piece : ByteArray}

/-- The negative targets are those that wrap around, and they are not mapped. -/
theorem follows_of_distance {before after : Int} (bounded : relocation.Bounded)
    (located : relocation.map placed.site.instruction.offset = .ok placed.start)
    (fits : Instruction.FitsWord before) (done : relocation.distance placed before = .ok after) :
    relocation.Follows placed.site.instruction.offset placed.start before after ∧
      Instruction.FitsWord after := by
  obtain ⟨moved, mapped, same⟩ := bind_eq_ok.mp done
  cases same
  obtain ⟨offsetBound, startBound⟩ := bounded _ _ located
  obtain ⟨targetBound, movedBound⟩ := bounded _ _ mapped
  unfold Instruction.FitsWord at fits ⊢
  refine ⟨⟨_, moved, ?_, by omega, mapped⟩, by omega⟩
  unfold target at targetBound ⊢
  omega

theorem emitCase_eq_ok {index : Nat} (bounded : relocation.Bounded)
    (located : relocation.map placed.site.instruction.offset = .ok placed.start)
    (done : relocation.emitCase code placed index = .ok piece) : ∃ before after,
      placed.site.instruction.word code index = .ok before ∧
      piece = BigEndian.encodeSigned32 after ∧
      relocation.Follows placed.site.instruction.offset placed.start before after ∧
      Instruction.FitsWord after := by
  obtain ⟨before, read, done⟩ := bind_eq_ok.mp done
  obtain ⟨after, moved, same⟩ := bind_eq_ok.mp done
  cases same
  have fits := (Instruction.switchWord_eq_ok.mp read).1
  exact ⟨before, after, read, rfl, follows_of_distance bounded located fits moved⟩

theorem branch_of_none {instruction : Instruction} (plain : instruction.jump? = none) :
    instruction.branch code = .ok .none := by
  rw [Instruction.branch, plain]
  rfl

/-- An instruction that is no jump has nothing to follow. -/
theorem Carries.of_load {out : ByteArray} {site : Site} {index : UInt16} {moved : Instruction}
    (load : Opcode.isLoad site.instruction.opcode = true) (patched : site.index = some index)
    (opcode : moved.opcode = site.opcode) (found : moved.loadIndex out = .ok index) :
    relocation.Carries code out site moved := by
  have plain : site.instruction.jump? = none := (Opcode.shape_of_isLoad load).1
  have movedPlain : moved.jump? = none := by
    rw [Instruction.jump?, opcode, Site.opcode, patched]
    simp only
    split <;> decide
  constructor
  · exact opcode
  · intro other same
    rw [patched, Option.some.injEq] at same
    rw [← same, found]
  · intro none
    rw [patched] at none
    cases none
  · exact ⟨.none, .none, branch_of_none plain, branch_of_none movedPlain, .none⟩
  · intro switch
    rw [plain] at switch
    cases switch

/-- An instruction that is not patched keeps its opcode. -/
theorem Carries.of_unpatched {out : ByteArray} {site : Site} {moved : Instruction}
    (unpatched : site.index = none) (opcode : moved.opcode = site.instruction.opcode)
    (bytes : site.instruction.jump? = none →
      ∃ bytes, Access.slice code ⟨site.instruction.offset, site.instruction.stop⟩ = .ok bytes ∧
        Access.slice out ⟨moved.offset, moved.stop⟩ = .ok bytes)
    (branch : ∃ before after, site.instruction.branch code = .ok before ∧
      moved.branch out = .ok after ∧
      relocation.Moves site.instruction.offset moved.offset before after)
    (padding : site.instruction.jump? = some .switch →
      moved.length + switchPadding site.instruction.offset =
          site.instruction.length + switchPadding moved.offset ∧
        Access.slice out ⟨moved.offset + 1, moved.operands⟩ =
          .ok (List.replicate (switchPadding moved.offset) 0).toByteArray) :
    relocation.Carries code out site moved where
  opcode := by rw [opcode, Site.opcode, unpatched]
  index := by
    intro index patched
    rw [unpatched] at patched
    cases patched
  bytes := fun _ => bytes
  branch := branch
  padding := padding

theorem emits_load {index : UInt16}
    (decoded : Instruction.decode code placed.site.instruction.offset = .ok placed.site.instruction)
    (load : Opcode.isLoad placed.site.instruction.opcode = true)
    (patched : placed.site.index = some index) :
    relocation.Emits code placed (emitLoad placed.site.instruction index) := by
  have length := Instruction.length_of_isLoad decoded load
  have plain : placed.site.instruction.jump? = none := (Opcode.shape_of_isLoad load).1
  by_cases narrow : placed.site.instruction.opcode = Opcode.loadConstant ∧ index ≤ 0xFF
  · have size : placed.site.lengthAt placed.start = 2 := by
      have fits : ¬ 0xFF < index := UInt16.not_lt.mpr narrow.2
      simp [Site.lengthAt, Site.isWidened, patched, fits, plain, length, narrow.1]
    rw [emitLoad, if_pos narrow]
    refine ⟨by rw [size]; rfl, fun out stands => ?_⟩
    have parts : Stands out placed.start (⟨#[Opcode.loadConstant]⟩ ++ ⟨#[index.toUInt8]⟩) := stands
    have shape : Opcode.shape Opcode.loadConstant = .fixed 2 (by decide) := by decide
    refine ⟨_, Instruction.decode_fixed shape parts rfl, size.symm, .of_load load patched ?_ ?_⟩
    · simp [Site.opcode, patched, narrow]
    · have operand : Access.u1 out (placed.start + 1) = .ok index.toUInt8 :=
        Access.u1_eq_ok.mpr (stands_append.mp parts).2
      have bound : index.toNat ≤ 0xFF := UInt16.le_iff_toNat_le.mp narrow.2
      have same : index.toUInt8.toUInt16 = index := by
        apply UInt16.toNat_inj.mp
        rw [UInt8.toNat_toUInt16, UInt16.toNat_toUInt8]
        omega
      refine (if_pos rfl).trans (bind_eq_ok.mpr ⟨_, operand, ?_⟩)
      rw [same, pure_eq_ok]
  · have size : placed.site.lengthAt placed.start = 3 := by
      by_cases loaded : placed.site.instruction.opcode = Opcode.loadConstant
      · have large : 0xFF < index := UInt16.not_le.mp fun small => narrow ⟨loaded, small⟩
        simp [Site.lengthAt, Site.isWidened, patched, loaded, large]
      · simp [Site.lengthAt, Site.isWidened, loaded, plain, length]
    rw [emitLoad, if_neg narrow]
    refine ⟨by rw [size]; rfl, fun out stands => ?_⟩
    have shape : Opcode.shape Opcode.loadConstantWide = .fixed 3 (by decide) := by decide
    refine ⟨_, Instruction.decode_fixed shape stands rfl, size.symm, .of_load load patched ?_ ?_⟩
    · simp [Site.opcode, patched, narrow]
    · exact Access.u2_eq_ok.mpr (stands_append.mp stands).2

/-- The bytes of an instruction that is no jump are copied. -/
theorem emits_plain (unpatched : placed.site.index = none)
    (decoded : Instruction.decode code placed.site.instruction.offset = .ok placed.site.instruction)
    (plain : placed.site.instruction.jump? = none)
    (copied : Access.slice code ⟨placed.site.instruction.offset, placed.site.instruction.stop⟩ =
      .ok piece) :
    relocation.Emits code placed piece := by
  obtain ⟨same, present⟩ := Access.slice_eq_ok.mp copied
  have whole : piece.size = placed.site.instruction.length := (Nat.add_left_cancel same).symm
  have size : placed.site.lengthAt placed.start = placed.site.instruction.length := by
    simp [Site.lengthAt, Site.isWidened, unpatched, plain]
  refine ⟨whole.trans size.symm, fun out stands => ?_⟩
  have aligned (switch : placed.site.instruction.jump? = some .switch) :
      placed.start = placed.site.instruction.offset := by
    rw [plain] at switch
    cases switch
  refine ⟨_, Instruction.decode_moved decoded present whole stands aligned, size.symm, ?_⟩
  refine Carries.of_unpatched unpatched rfl ?_ ?_ ?_
  · intro _
    exact ⟨piece, copied, Access.slice_eq_ok.mpr ⟨by rw [whole]; rfl, stands⟩⟩
  · exact ⟨.none, .none, branch_of_none plain, branch_of_none plain, .none⟩
  · intro switch
    rw [plain] at switch
    cases switch

/-- A jump of fixed length carries its new distance. -/
theorem emits_jump {width : Nat} {positive : 0 < width} {rest : ByteArray} {before after : Int}
    (unpatched : placed.site.index = none)
    (decoded : Instruction.decode code placed.site.instruction.offset = .ok placed.site.instruction)
    (shape : Opcode.shape placed.site.instruction.opcode = .fixed width positive)
    (jumps : placed.site.instruction.jump? = some .short ∨
      placed.site.instruction.jump? = some .long)
    (size : rest.size + 1 = width)
    (old : placed.site.instruction.branch code = .ok (.jump before))
    (new : ∀ (out : ByteArray) (moved : Instruction),
      moved.opcode = placed.site.instruction.opcode → Stands out (moved.offset + 1) rest →
      moved.branch out = .ok (.jump after))
    (follows : relocation.Follows placed.site.instruction.offset placed.start before after) :
    relocation.Emits code placed (⟨#[placed.site.instruction.opcode]⟩ ++ rest) := by
  have length := Instruction.length_of_fixed decoded shape
  have notSwitch : placed.site.instruction.jump? ≠ some .switch := by
    rintro switch
    rw [switch] at jumps
    simp at jumps
  have reserved : placed.site.lengthAt placed.start = width := by
    simp [Site.lengthAt, Site.isWidened, unpatched, notSwitch, length]
  refine ⟨?_, fun out stands => ?_⟩
  · rw [ByteArray.size_append, reserved, ← size, Nat.add_comm]
    rfl
  · refine ⟨_, Instruction.decode_fixed shape stands size, reserved.symm, ?_⟩
    refine Carries.of_unpatched unpatched rfl ?_ ?_ ?_
    · intro plain
      rw [plain] at jumps
      simp at jumps
    · exact ⟨_, _, old, new out _ rfl (stands_append.mp stands).2, .jump follows⟩
    · intro switch
      exact absurd switch notSwitch

theorem emits_short (bounded : relocation.Bounded)
    (located : relocation.map placed.site.instruction.offset = .ok placed.start)
    (unpatched : placed.site.index = none)
    (decoded : Instruction.decode code placed.site.instruction.offset = .ok placed.site.instruction)
    (short : placed.site.instruction.jump? = some .short)
    (done : relocation.emitShort code placed = .ok piece) :
    relocation.Emits code placed piece := by
  obtain ⟨number, read, done⟩ := bind_eq_ok.mp done
  obtain ⟨after, moved, done⟩ := bind_eq_ok.mp done
  have low := number.toInt16.le_toInt
  have high := number.toInt16.toInt_lt
  have fits : Instruction.FitsWord number.toInt16.toInt := by
    unfold Instruction.FitsWord
    omega
  split at done
  · rename_i near
    cases done
    refine emits_jump unpatched decoded (Opcode.shape_of_short short) (.inl short) rfl ?_ ?_
      (follows_of_distance bounded located fits moved).1
    · rw [Instruction.branch, short]
      exact bind_eq_ok.mpr ⟨_, read, rfl⟩
    · intro out moved same stands
      have short' : moved.jump? = some .short := by rw [Instruction.jump?, same]; exact short
      rw [Instruction.branch, short']
      refine bind_eq_ok.mpr ⟨_, Access.u2_eq_ok.mpr stands, ?_⟩
      rw [pure_eq_ok, Int16.toInt16_toUInt16, Int16.toInt_ofInt_of_le near.1 (by omega)]
  · cases done

theorem emits_long (bounded : relocation.Bounded)
    (located : relocation.map placed.site.instruction.offset = .ok placed.start)
    (unpatched : placed.site.index = none)
    (decoded : Instruction.decode code placed.site.instruction.offset = .ok placed.site.instruction)
    (long : placed.site.instruction.jump? = some .long)
    (done : relocation.emitLong code placed = .ok piece) :
    relocation.Emits code placed piece := by
  obtain ⟨before, read, done⟩ := bind_eq_ok.mp done
  obtain ⟨after, moved, same⟩ := bind_eq_ok.mp done
  cases same
  have fits := (Instruction.switchWord_eq_ok.mp read).1
  obtain ⟨follows, near⟩ := follows_of_distance bounded located fits moved
  refine emits_jump unpatched decoded (Opcode.shape_of_long long) (.inr long) rfl ?_ ?_ follows
  · rw [Instruction.branch, long]
    exact bind_eq_ok.mpr ⟨_, read, rfl⟩
  · intro out moved same stands
    have long' : moved.jump? = some .long := by rw [Instruction.jump?, same]; exact long
    rw [Instruction.branch, long']
    exact bind_eq_ok.mpr ⟨_, Instruction.switchWord_eq_ok.mpr ⟨near, stands⟩, rfl⟩

end Relocation

end EnumNames
