import EnumNames.Proofs.Bytecode.Branch

/-!
How the operands of a switch are written. The length and the branch of a switch are read back from
its operands, wherever they stand behind its padding.
-/

namespace EnumNames

open Instruction (FitsWord)

/-- A key is written in front of its distance. -/
def encodePair (pair : Int × Int) : ByteArray :=
  BigEndian.encodeSigned32 pair.1 ++ BigEndian.encodeSigned32 pair.2

theorem size_encodePair (pair : Int × Int) : (encodePair pair).size = 8 := rfl

theorem size_concat_map {α : Type} {encode : α → ByteArray} {width : Nat}
    (sizes : ∀ item, (encode item).size = width) (items : List α) :
    (Relocation.concat (items.map encode)).size = width * items.length := by
  induction items with
  | nil => rfl
  | cons item rest inductionHypothesis =>
    rw [List.map_cons, Relocation.concat_cons, ByteArray.size_append, sizes, inductionHypothesis,
      List.length_cons, Nat.mul_succ, Nat.add_comm]

/-- The operands of a switch from its default on. They name as many cases as follow, and every
number in them is a word. -/
inductive Branch.Written (opcode : UInt8) : Branch → ByteArray → Prop where
  | table {default low high : Int} {cases : List Int} (kind : opcode = Opcode.tableSwitch)
      (defaultFits : FitsWord default) (lowFits : FitsWord low) (highFits : FitsWord high)
      (casesFit : ∀ distance ∈ cases, FitsWord distance) (ordered : low ≤ high)
      (count : cases.length = (high - low + 1).toNat) :
      Written opcode (.table default low high cases)
        (BigEndian.encodeSigned32 default ++ (BigEndian.encodeSigned32 low ++
          (BigEndian.encodeSigned32 high ++
            Relocation.concat (cases.map BigEndian.encodeSigned32))))
  | lookup {default count : Int} {pairs : List (Int × Int)} (kind : opcode = Opcode.lookupSwitch)
      (defaultFits : FitsWord default) (countFits : FitsWord count)
      (pairsFit : ∀ pair ∈ pairs, FitsWord pair.1 ∧ FitsWord pair.2) (natural : 0 ≤ count)
      (length : pairs.length = count.toNat) :
      Written opcode (.lookup default pairs)
        (BigEndian.encodeSigned32 default ++ (BigEndian.encodeSigned32 count ++
          Relocation.concat (pairs.map encodePair)))

namespace Branch.Written

variable {opcode : UInt8} {branch : Branch} {operands : ByteArray}

theorem switch (written : Written opcode branch operands) : Opcode.jump? opcode = some .switch := by
  cases written with
  | table kind => exact Opcode.jump?_eq_switch_iff.mpr (.inl kind)
  | lookup kind => exact Opcode.jump?_eq_switch_iff.mpr (.inr kind)

/-- A switch covers its opcode, its padding and its operands. -/
theorem decodeLength {out : ByteArray} {start : Nat} (written : Written opcode branch operands)
    (stands : Stands out (start + 1 + switchPadding start) operands) :
    Instruction.decodeLength out start opcode =
      .ok ⟨1 + switchPadding start + operands.size, by omega⟩ := by
  cases written with
  | @table default low high cases kind _ lowFits highFits _ ordered count =>
    have size := size_concat_map Instruction.size_encodeSigned32 cases
    simp only [stands_append, Instruction.size_encodeSigned32] at stands
    obtain ⟨_, lowStands, highStands, _⟩ := stands
    rw [Instruction.decodeLength, Opcode.shape_eq_tableSwitch_iff.mpr kind]
    refine Instruction.tableSwitchLength_eq_ok.mpr ⟨low, high,
      Instruction.switchWord_eq_ok.mpr ⟨lowFits, lowStands⟩,
      Instruction.switchWord_eq_ok.mpr ⟨highFits, highStands⟩, ordered, ?_⟩
    simp only [ByteArray.size_append, Instruction.size_encodeSigned32, size, count]
    omega
  | @lookup default count pairs kind _ countFits _ natural length =>
    have size := size_concat_map size_encodePair pairs
    simp only [stands_append, Instruction.size_encodeSigned32] at stands
    obtain ⟨_, countStands, _⟩ := stands
    rw [Instruction.decodeLength, Opcode.shape_eq_lookupSwitch_iff.mpr kind]
    refine Instruction.lookupSwitchLength_eq_ok.mpr ⟨count,
      Instruction.switchWord_eq_ok.mpr ⟨countFits, countStands⟩, natural, ?_⟩
    simp only [ByteArray.size_append, Instruction.size_encodeSigned32, size, length]
    omega

theorem tableBranch {out : ByteArray} {instruction : Instruction} {default low high : Int}
    {cases : List Int} (defaultFits : FitsWord default) (lowFits : FitsWord low)
    (highFits : FitsWord high) (casesFit : ∀ distance ∈ cases, FitsWord distance)
    (count : cases.length = (high - low + 1).toNat)
    (stands : Stands out instruction.operands (BigEndian.encodeSigned32 default ++
      (BigEndian.encodeSigned32 low ++ (BigEndian.encodeSigned32 high ++
        Relocation.concat (cases.map BigEndian.encodeSigned32))))) :
    instruction.tableBranch out = .ok (.table default low high cases) := by
  simp only [stands_append, Instruction.size_encodeSigned32] at stands
  obtain ⟨defaultStands, lowStands, highStands, casesStand⟩ := stands
  refine bind_eq_ok.mpr ⟨default, Instruction.switchWord_eq_ok.mpr ⟨defaultFits, defaultStands⟩, ?_⟩
  refine bind_eq_ok.mpr ⟨low, Instruction.switchWord_eq_ok.mpr ⟨lowFits, lowStands⟩, ?_⟩
  refine bind_eq_ok.mpr ⟨high, Instruction.switchWord_eq_ok.mpr ⟨highFits, highStands⟩, ?_⟩
  refine bind_eq_ok.mpr ⟨cases, ?_, rfl⟩
  rw [← count]
  refine mapM_range_of_stands Instruction.size_encodeSigned32 casesStand ?_
  intro number distance member stands
  exact Instruction.switchWord_eq_ok.mpr ⟨casesFit distance member, stands⟩

theorem lookupBranch {out : ByteArray} {instruction : Instruction} {default count : Int}
    {pairs : List (Int × Int)} (defaultFits : FitsWord default) (countFits : FitsWord count)
    (pairsFit : ∀ pair ∈ pairs, FitsWord pair.1 ∧ FitsWord pair.2)
    (length : pairs.length = count.toNat)
    (stands : Stands out instruction.operands (BigEndian.encodeSigned32 default ++
      (BigEndian.encodeSigned32 count ++ Relocation.concat (pairs.map encodePair)))) :
    instruction.lookupBranch out = .ok (.lookup default pairs) := by
  simp only [stands_append, Instruction.size_encodeSigned32] at stands
  obtain ⟨defaultStands, countStands, pairsStand⟩ := stands
  refine bind_eq_ok.mpr ⟨default, Instruction.switchWord_eq_ok.mpr ⟨defaultFits, defaultStands⟩, ?_⟩
  refine bind_eq_ok.mpr ⟨count, Instruction.switchWord_eq_ok.mpr ⟨countFits, countStands⟩, ?_⟩
  refine bind_eq_ok.mpr ⟨pairs, ?_, rfl⟩
  rw [← length]
  refine mapM_range_of_stands size_encodePair pairsStand ?_
  intro number pair member stands
  obtain ⟨keyStands, distanceStands⟩ := stands_append.mp stands
  obtain ⟨keyFits, distanceFits⟩ := pairsFit pair member
  refine bind_eq_ok.mpr ⟨pair.1, Instruction.switchWord_eq_ok.mpr ⟨keyFits, keyStands⟩, ?_⟩
  exact bind_eq_ok.mpr
    ⟨pair.2, Instruction.switchWord_eq_ok.mpr ⟨distanceFits, distanceStands⟩, rfl⟩

/-- A switch has the branch that its operands are written for. -/
theorem branch_eq_ok {out : ByteArray} {instruction : Instruction}
    (written : Written instruction.opcode branch operands)
    (stands : Stands out instruction.operands operands) : instruction.branch out = .ok branch := by
  have switch : instruction.jump? = some .switch := written.switch
  rw [Instruction.branch, switch]
  cases written with
  | table kind defaultFits lowFits highFits casesFit _ count =>
    exact (if_pos kind).trans
      (tableBranch defaultFits lowFits highFits casesFit count stands)
  | lookup kind defaultFits countFits pairsFit _ length =>
    have other : instruction.opcode ≠ Opcode.tableSwitch := by
      rw [kind]
      decide
    exact (if_neg other).trans (lookupBranch defaultFits countFits pairsFit length stands)

end Branch.Written

end EnumNames
