import EnumNames.Proofs.Bytecode.RelocatedCode
import EnumNames.Proofs.Bytecode.RelocationOrder

/-!
Decoding and relocating code stay in range. The length of a decoded instruction was compared with
the code, and every operand that is looked up later lies inside that length.
-/

namespace EnumNames

/-- These opcodes have an operand of two bytes that is looked up right behind them. -/
def Opcode.hasIndex (opcode : UInt8) : Bool :=
  opcode == new || opcode == putStatic || jump? opcode == some .short

namespace Instruction

/-- What is looked up for an instruction lies inside the code: its bytes and its operands. The
padding of a switch is part of its length. -/
structure Inside (instruction : Instruction) (code : ByteArray) : Prop where
  bytes : InRange (Access.slice code ⟨instruction.offset, instruction.stop⟩)
  index : Opcode.hasIndex instruction.opcode = true → InRange (instruction.index code)
  loadIndex : Opcode.isLoad instruction.opcode = true → InRange (instruction.loadIndex code)
  padding : instruction.jump? = some .switch →
    switchPadding instruction.offset ≤ instruction.length

section Decode

variable (code : ByteArray) (offset : Nat)

theorem inRange_switchWord (index : Nat) : InRange (switchWord code index offset) := by
  unfold switchWord
  split
  · exact inRange_ok _
  · exact inRange_error rfl

theorem inRange_tableSwitchLength : InRange (tableSwitchLength code offset) := by
  apply (inRange_switchWord code offset _).bind
  intro low _
  apply (inRange_switchWord code offset _).bind
  intro high _
  apply InRange.ite
  · intro _
    exact inRange_error rfl
  · intro _
    exact inRange_ok _

theorem inRange_lookupSwitchLength : InRange (lookupSwitchLength code offset) := by
  apply (inRange_switchWord code offset _).bind
  intro pairs _
  apply InRange.ite
  · intro _
    exact inRange_error rfl
  · intro _
    exact inRange_ok _

theorem inRange_wideLength : InRange (wideLength code offset) := by
  unfold wideLength
  split
  · exact inRange_error rfl
  · apply InRange.ite
    · intro _
      exact inRange_ok _
    · intro _
      exact inRange_ok _

theorem inRange_decodeLength (opcode : UInt8) : InRange (decodeLength code offset opcode) := by
  unfold decodeLength
  split
  · exact inRange_ok _
  · exact inRange_tableSwitchLength code offset
  · exact inRange_lookupSwitchLength code offset
  · exact inRange_wideLength code offset
  · exact inRange_error rfl

theorem inRange_decode (inside : offset < code.size) : InRange (decode code offset) := by
  apply (Access.inRange_u1 inside).bind
  intro opcode _
  apply (inRange_decodeLength code offset opcode).bind
  intro length _
  apply InRange.ite
  · intro _
    exact inRange_error rfl
  · intro _
    exact inRange_ok _

/-- An instruction is only decoded in front of the end of the code. -/
theorem inRange_decodeOnto (done : List Instruction) : InRange (decodeOnto code done offset) := by
  induction done, offset using decodeOnto.induct code with
  | case1 done offset more failure failed =>
    rw [decodeOnto, if_pos more, failed]
    exact inRange_error (inRange_decode code offset more failure failed)
  | case2 done offset more instruction decoded _ inductionHypothesis =>
    rw [decodeOnto, if_pos more, decoded]
    exact inductionHypothesis
  | case3 done offset ended =>
    rw [decodeOnto, if_neg ended]
    exact inRange_ok _

theorem inRange_decodeAll : InRange (decodeAll code) := inRange_decodeOnto code 0 []

end Decode

/-- An opcode with an operand of two bytes has a length of three. -/
theorem length_of_hasIndex {code : ByteArray} {instruction : Instruction} {offset : Nat}
    (decoded : decode code offset = .ok instruction)
    (index : Opcode.hasIndex instruction.opcode = true) : instruction.length = 3 := by
  have new : Opcode.shape Opcode.new = .fixed 3 (by decide) := by decide
  have putStatic : Opcode.shape Opcode.putStatic = .fixed 3 (by decide) := by decide
  simp only [Opcode.hasIndex, Bool.or_eq_true, beq_iff_eq] at index
  rcases index with (same | same) | short
  · exact length_of_fixed decoded (same ▸ new)
  · exact length_of_fixed decoded (same ▸ putStatic)
  · exact length_of_fixed decoded (Opcode.shape_of_short short)

theorem inside_of_decode {code : ByteArray} {instruction : Instruction} {offset : Nat}
    (decoded : decode code offset = .ok instruction) : instruction.Inside code := by
  have stop := (decode_eq_ok.mp decoded).2.2.2
  unfold Instruction.stop at stop
  refine ⟨?_, fun index => ?_, fun load => ?_, fun switch => ?_⟩
  · exact Access.inRange_slice (Nat.le_add_right _ _) stop
  · have length := length_of_hasIndex decoded index
    apply Access.inRange_u2
    omega
  · have length := length_of_isLoad decoded load
    apply InRange.ite
    · intro narrow
      rw [if_pos narrow] at length
      have inside : instruction.offset + 1 < code.size := by omega
      exact (Access.inRange_u1 inside).bind fun byte _ => inRange_ok _
    · intro wide
      rw [if_neg wide] at length
      apply Access.inRange_u2
      omega
  · have same := (decode_eq_ok.mp decoded).1
    have room := padding_le_length decoded switch
    omega

end Instruction

namespace Relocation

variable {relocation : Relocation} {code : ByteArray} {placed : PlacedSite}

theorem inRange_distance (relative : Int) : InRange (relocation.distance placed relative) := by
  exact (relocation.inRange_map _).bind fun new _ => inRange_ok _

theorem inRange_emitCase (index : Nat) : InRange (relocation.emitCase code placed index) := by
  apply (Instruction.inRange_switchWord code _ index).bind
  intro relative _
  exact (inRange_distance relative).bind fun distance _ => inRange_ok _

theorem inRange_emitShort (inside : placed.site.instruction.Inside code)
    (short : placed.site.instruction.jump? = some .short) :
    InRange (relocation.emitShort code placed) := by
  have index : Opcode.hasIndex placed.site.instruction.opcode = true := by
    rw [Opcode.hasIndex, show Opcode.jump? _ = _ from short]
    simp
  apply (inside.index index).bind
  intro relative _
  apply (inRange_distance _).bind
  intro distance _
  apply InRange.ite
  · intro _
    exact inRange_ok _
  · intro _
    exact inRange_refuse _ _

theorem inRange_emitLong : InRange (relocation.emitLong code placed) := by
  apply (Instruction.inRange_switchWord code _ _).bind
  intro relative _
  exact (inRange_distance relative).bind fun distance _ => inRange_ok _

/-- A word that was read lies inside the code. -/
theorem inside_of_switchWord {index offset : Nat} {word : Int}
    (read : Instruction.switchWord code index offset = .ok word) : index + 4 ≤ code.size :=
  (Instruction.switchWord_eq_ok.mp read).2.within

/-- The bounds are copied after they have been read. -/
theorem inRange_emitTable (index : Nat) : InRange (relocation.emitTable code placed index) := by
  apply (Instruction.inRange_switchWord code _ index).bind
  intro low _
  apply (Instruction.inRange_switchWord code _ (index + 4)).bind
  intro high highRead
  have inside := inside_of_switchWord highRead
  apply (Access.inRange_slice (Nat.le_add_right index 8) inside).bind
  intro bounds _
  exact (InRange.mapM fun number _ => inRange_emitCase _).bind fun cases _ => inRange_ok _

/-- The length of a lookup was made from its number of pairs, so every key lies inside it. -/
theorem inRange_emitPairs
    (decoded : Instruction.decode code placed.site.instruction.offset = .ok placed.site.instruction)
    (kind : placed.site.instruction.opcode = Opcode.lookupSwitch) :
    InRange (relocation.emitPairs code placed (placed.site.instruction.operands + 4)) := by
  apply (Instruction.inRange_switchWord code _ _).bind
  intro pairs read
  have length := (Instruction.length_of_lookup decoded kind read).2
  have stop := (Instruction.decode_eq_ok.mp decoded).2.2.2
  apply (Access.inRange_slice (Nat.le_add_right _ 4) (inside_of_switchWord read)).bind
  intro count _
  refine InRange.bind (InRange.mapM fun number member => ?_) fun cases _ => inRange_ok _
  have few := List.mem_range.mp member
  have key : placed.site.instruction.operands + 4 + 4 + 8 * number + 4 ≤ code.size := by
    unfold Instruction.stop at stop
    unfold Instruction.operands
    omega
  apply (Access.inRange_slice (Nat.le_add_right _ 4) key).bind
  intro text _
  exact (inRange_emitCase _).bind fun distance _ => inRange_ok _

theorem inRange_emitSwitch
    (decoded : Instruction.decode code placed.site.instruction.offset = .ok placed.site.instruction)
    (switch : placed.site.instruction.jump? = some .switch) :
    InRange (relocation.emitSwitch code placed) := by
  apply (inRange_emitCase _).bind
  intro default _
  dsimp only
  apply InRange.ite
  · intro _
    exact (inRange_emitTable _).bind fun table _ => inRange_ok _
  · intro other
    have kind := (Opcode.jump?_eq_switch_iff.mp switch).resolve_left other
    exact (inRange_emitPairs decoded kind).bind fun table _ => inRange_ok _

theorem inRange_emit
    (decoded : Instruction.decode code placed.site.instruction.offset = .ok placed.site.instruction) :
    InRange (relocation.emit code placed) := by
  have inside := Instruction.inside_of_decode decoded
  unfold emit
  dsimp only
  split
  · exact inRange_ok _
  · split
    · exact inside.bytes
    · rename_i short
      exact inRange_emitShort inside short
    · exact inRange_emitLong
    · rename_i switch
      exact inRange_emitSwitch decoded switch

theorem inRange_relocate {unit : String} {sites : List Site} (tile : Site.Tile code 0 sites) :
    InRange (relocate unit code sites) := by
  unfold relocate
  rw [Site.place_eq]
  dsimp only
  apply InRange.ite
  · intro _
    exact inRange_refuse _ _
  · intro _
    refine InRange.bind (InRange.mapM fun placed member => ?_) fun pieces _ => inRange_ok _
    exact inRange_emit ((tile.bounds 0).2.2 placed member).2.2.2.1

end Relocation

namespace Site

/-- Every site is placed, so there is a start for each of them. -/
theorem map_site_place (sites : List Site) : (place sites).1.map (·.site) = sites := by
  have placed (start : Nat) : (placeFrom start sites).map (·.site) = sites := by
    induction sites generalizing start with
    | nil => rfl
    | cons site rest inductionHypothesis =>
      rw [placeFrom, List.map_cons, inductionHypothesis]
  rw [place_eq]
  exact placed 0

end Site

end EnumNames
