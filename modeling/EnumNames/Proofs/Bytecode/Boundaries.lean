import EnumNames.Proofs.Bytecode.Relocatable
import EnumNames.Proofs.Bytecode.RelocationOrder

/-!
Which offsets the relocation of some code maps. They are the boundaries of the old code, and they
keep their order, so that a range between two of them holds the same instructions as before.
-/

namespace EnumNames

/-- The instruction of a site ends in front of all that follow it. -/
theorem Site.Tile.ordered {code : ByteArray} {old : Nat} {sites : List Site}
    (tile : Tile code old sites) :
    sites.Pairwise fun first second => first.instruction.stop ≤ second.instruction.offset := by
  induction tile with
  | done => exact .nil
  | next decoded tile inductionHypothesis => exact .cons tile.le_offset inductionHypothesis

theorem Instruction.Tiles.ordered {code : ByteArray} {instructions : List Instruction}
    (tiles : Tiles code 0 instructions) :
    instructions.Pairwise fun first second => first.stop ≤ second.offset := by
  have tile : Site.Tile code 0 (Relocation.patchedSites (fun _ => Option.none) instructions) :=
    Relocation.tile_patchedSites tiles
  have ordered := tile.ordered
  rwa [Relocation.patchedSites, List.pairwise_map] at ordered

/-- An instruction is not empty, so the next one starts behind its offset. -/
theorem Instruction.Tiles.offsets_increase {code : ByteArray} {instructions : List Instruction}
    (tiles : Tiles code 0 instructions) : (instructions.map offset).Pairwise (· < ·) := by
  refine List.pairwise_map.mpr (tiles.ordered.imp fun {first second} behind => ?_)
  exact Nat.lt_of_lt_of_le (Nat.lt_add_of_pos_right first.positive) behind

namespace Relocation

variable {relocation : Relocation} {code : ByteArray} {instructions : List Instruction}

theorem Increasing.lt_iff (increasing : relocation.Increasing) {old later new moved : Nat}
    (mapped : relocation.map old = .ok new) (laterMapped : relocation.map later = .ok moved) :
    new < moved ↔ old < later := by
  constructor
  · intro before
    by_contra behind
    have reversed := increasing.le laterMapped mapped (Nat.not_lt.mp behind)
    omega
  · exact increasing _ _ _ _ mapped laterMapped

theorem Increasing.le_iff (increasing : relocation.Increasing) {old later new moved : Nat}
    (mapped : relocation.map old = .ok new) (laterMapped : relocation.map later = .ok moved) :
    new ≤ moved ↔ old ≤ later := by
  rw [← Nat.not_lt, ← Nat.not_lt, increasing.lt_iff laterMapped mapped]

/-- The relocation maps the boundaries of the code, in their order, to offsets of short code. -/
structure LaysOut (relocation : Relocation) (code : ByteArray)
    (instructions : List Instruction) : Prop where
  bounded : relocation.Bounded
  increasing : relocation.Increasing
  boundary : ∀ old : Nat,
    (∃ new, relocation.map old = .ok new) ↔ Instruction.IsBoundary code instructions old

/-- Only the layout matters here, so anything may be patched. -/
theorem relocate_layout {unit : String} {out : ByteArray} {sites : List Site}
    (done : relocate unit code sites = .ok (out, relocation)) :
    relocation = ofSites unit sites ∧ Site.endFrom 0 sites ≤ 65535 := by
  unfold relocate at done
  rw [Site.place_eq] at done
  dsimp only at done
  split at done
  · cases done
  · rename_i short
    obtain ⟨pieces, _, same⟩ := bind_eq_ok.mp done
    cases same
    exact ⟨rfl, Nat.not_lt.mp short⟩

theorem laysOut_of_relocate {unit : String} {out : ByteArray} {patches : Nat → Option UInt16}
    (decoded : Instruction.decodeAll code = .ok instructions)
    (done : relocate unit code (patchedSites patches instructions) = .ok (out, relocation)) :
    relocation.LaysOut code instructions := by
  have tile : Site.Tile code 0 (patchedSites patches instructions) :=
    tile_patchedSites (Instruction.decodeAll_eq_ok.mp decoded)
  have same : (patchedSites patches instructions).map Site.instruction = instructions := by
    simp [patchedSites, Function.comp_def]
  obtain ⟨rfl, short⟩ := relocate_layout done
  refine ⟨bounded_ofSites tile short, increasing_ofSites tile, fun old => ?_⟩
  rw [exists_map_iff tile old, same]

/-- A relocation is known when its parts are. -/
theorem relocate_eq_of_parts {unit : String} {out : ByteArray} {sites : List Site}
    (parts : (relocate unit code sites).map (fun result =>
        (result.1, result.2.unit, result.2.table, result.2.newLength)) =
      .ok (out, relocation.unit, relocation.table, relocation.newLength)) :
    relocate unit code sites = .ok (out, relocation) := by
  cases found : relocate unit code sites with
  | error failure =>
    rw [found] at parts
    cases parts
  | ok result =>
    obtain ⟨bytes, unit, table, newLength⟩ := result
    obtain ⟨expectedUnit, expectedTable, expectedLength⟩ := relocation
    rw [found] at parts
    cases parts
    rfl

/-- The instructions of the old range are those that are put into the new range. -/
def SameInstructions (relocation : Relocation) (instructions : List Instruction)
    (start stop newStart newStop : Nat) : Prop :=
  ∀ instruction ∈ instructions, ∃ new, relocation.map instruction.offset = .ok new ∧
    (start ≤ instruction.offset ∧ instruction.offset < stop ↔ newStart ≤ new ∧ new < newStop)

/-- A range may end where the code ends. -/
theorem LaysOut.sameInstructions (laysOut : relocation.LaysOut code instructions)
    {start stop newStart newStop : Nat} (startMapped : relocation.map start = .ok newStart)
    (stopMapped : relocation.map stop = .ok newStop) :
    relocation.SameInstructions instructions start stop newStart newStop := by
  intro instruction member
  obtain ⟨new, mapped⟩ := (laysOut.boundary _).mpr (.inl ⟨instruction, member, rfl⟩)
  refine ⟨new, mapped, ?_⟩
  rw [laysOut.increasing.le_iff startMapped mapped, laysOut.increasing.lt_iff mapped stopMapped]

end Relocation

end EnumNames
