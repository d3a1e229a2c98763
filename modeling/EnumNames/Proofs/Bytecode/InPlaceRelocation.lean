import EnumNames.Proofs.Bytecode.Boundaries
import EnumNames.Proofs.Bytecode.InstructionText
import EnumNames.Proofs.Bytes.Counted
import EnumNames.Proofs.EnumUnit.Patching

/-!
Relocation of code in which no load grows. Main statement: every instruction stays where it is and
gets the bytes that it has when its operand is overwritten in place, apart from the opcode of a
patched double load.
-/

namespace EnumNames

namespace Site

variable {code : ByteArray} {old : Nat} {sites : List Site}

/-- Nothing is widened, so the placement meets every instruction at its old offset. -/
theorem Tile.placed_still (tile : Tile code old sites)
    (small : ∀ site ∈ sites, site.isWidened = false) : endFrom old sites = code.size ∧
      ∀ placed ∈ placeFrom old sites, placed.start = placed.site.instruction.offset := by
  induction tile with
  | done => simp [endFrom, placeFrom]
  | @next site rest decoded tile inductionHypothesis =>
    obtain ⟨first, others⟩ := List.forall_mem_cons.mp small
    have still : site.lengthAt site.instruction.offset = site.instruction.length := by
      unfold lengthAt
      rw [first]
      dsimp only
      split
      · contradiction
      · split
        · rename_i switch
          -- The padding that is taken off is part of the length.
          have room := Instruction.padding_le_length decoded switch
          omega
        · rfl
    rw [endFrom, placeFrom, still, List.forall_mem_cons]
    exact ⟨(inductionHypothesis others).1, rfl, (inductionHypothesis others).2⟩

/-- A load that has room for its index does not grow. -/
theorem isWidened_of_fits {site : Site}
    (fits : site.instruction.opcode = Opcode.loadConstant →
      ∀ index, site.index = some index → index ≤ 0xFF) : site.isWidened = false := by
  rw [← Bool.not_eq_true]
  simp only [isWidened, Bool.and_eq_true, beq_iff_eq, Option.any_eq_true, decide_eq_true_eq,
    not_and, not_exists]
  intro narrow index patched
  exact UInt16.not_lt.mpr (fits narrow index patched)

/-- Among the patched loads that do not grow only a double one gets another opcode. -/
def opcodeInPlace (site : Site) : UInt8 :=
  if site.instruction.opcode = Opcode.loadConstantDouble ∧ site.index.isSome then
    Opcode.loadConstantWide
  else site.instruction.opcode

theorem opcode_eq_opcodeInPlace {site : Site}
    (load : site.index.isSome → Opcode.isLoad site.instruction.opcode = true)
    (small : site.isWidened = false) : site.opcode = site.opcodeInPlace := by
  rw [opcode, opcodeInPlace]
  cases patched : site.index with
  | none => simp
  | some index =>
    have kinds := load (by rw [patched]; rfl)
    simp only [Opcode.isLoad, Bool.or_eq_true, beq_iff_eq] at kinds
    rcases kinds with (narrow | wide) | double
    · have fits : index ≤ 0xFF := by simpa [isWidened, narrow, patched] using small
      simp [narrow, fits, show Opcode.loadConstant ≠ Opcode.loadConstantDouble by decide]
    · simp [wide, show Opcode.loadConstantWide ≠ Opcode.loadConstant by decide,
        show Opcode.loadConstantWide ≠ Opcode.loadConstantDouble by decide]
    · simp [double, show Opcode.loadConstantDouble ≠ Opcode.loadConstant by decide]

end Site

namespace Instruction

variable {code out : ByteArray} {instructions : List Instruction}

/-- The induction is on the instructions: each of them stands in front of what is left. -/
theorem Tiles.stands_of_texts {start : Nat} {left : ByteArray}
    (tiles : Tiles code start instructions) (size : out.size = code.size)
    (texts : ∀ instruction ∈ instructions, ∃ text,
      instruction.Text code text ∧ instruction.Text out text)
    (stands : Stands code start left) (ends : start + left.size = code.size) :
    Stands out start left := by
  induction tiles generalizing left with
  | done =>
    have room : code.size + 0 ≤ out.size := Nat.le_of_eq size.symm
    obtain ⟨piece, empty, found⟩ := Stands.exists_of_le room
    have none : left.size = 0 := by omega
    rw [ByteArray.size_eq_zero_iff] at none empty
    rwa [none, ← empty]
  | @next instruction rest decoded tiles inductionHypothesis =>
    obtain ⟨⟨text, old, new⟩, others⟩ := List.forall_mem_cons.mp texts
    obtain ⟨length, front⟩ := text_iff.mp old
    have inside := (decode_eq_ok.mp decoded).2.2.2
    unfold stop at inside
    have room : text.size ≤ left.size := by omega
    obtain ⟨first, later, rfl, same⟩ := exists_append_of_le_size room
    rw [stands_append] at stands
    obtain rfl := stands.1.unique front same
    rw [ByteArray.size_append, ← Nat.add_assoc] at ends
    have behind := stands.2
    rw [length] at behind ends
    refine stands_append.mpr ⟨(text_iff.mp new).2, ?_⟩
    rw [length]
    exact inductionHypothesis others behind ends

/-- Two codes of one size are equal when all instructions have the same bytes in them. -/
theorem Tiles.eq_of_texts (tiles : Tiles code 0 instructions) (size : out.size = code.size)
    (texts : ∀ instruction ∈ instructions, ∃ text,
      instruction.Text code text ∧ instruction.Text out text) : out = code := by
  have stands := tiles.stands_of_texts size texts (.self code) (Nat.zero_add _)
  exact (Stands.self out).unique stands size

end Instruction

namespace Relocation

variable {unit : String} {code out : ByteArray} {relocation : Relocation}

/-- A relocation that is still leaves every offset that it maps where it is. -/
def Still (relocation : Relocation) : Prop :=
  ∀ old new, relocation.map old = .ok new → new = old

theorem still_ofSites {sites : List Site} (tile : Site.Tile code 0 sites)
    (small : ∀ site ∈ sites, site.isWidened = false) : (ofSites unit sites).Still := by
  intro old new mapped
  obtain ⟨ends, still⟩ := tile.placed_still small
  rcases (map_eq_ok tile old new).mp mapped with ⟨placed, member, rfl, rfl⟩ | ⟨rfl, rfl⟩
  · exact still placed member
  · exact ends

namespace Still

variable {offset : Nat}

theorem follows (still : relocation.Still) {before after : Int}
    (follows : relocation.Follows offset offset before after) : before = after := by
  obtain ⟨target, moved, targetIs, movedIs, mapped⟩ := follows
  obtain rfl := still target moved mapped
  omega

/-- Every distance of a branch is kept. -/
theorem moves (still : relocation.Still) {before after : Branch}
    (moves : relocation.Moves offset offset before after) : before = after := by
  cases moves with
  | none => rfl
  | jump follows => rw [still.follows follows]
  | table default cases =>
    have same := cases.imp fun _ _ => still.follows
    rw [List.forall₂_eq_eq_eq] at same
    rw [still.follows default, same]
  | lookup default pairs =>
    have same := pairs.imp fun _ _ both => Prod.ext both.1 (still.follows both.2)
    rw [List.forall₂_eq_eq_eq] at same
    rw [still.follows default, same]

theorem map_iff (still : relocation.Still) {instructions : List Instruction}
    (laysOut : relocation.LaysOut code instructions) (old new : Nat) :
    relocation.map old = .ok new ↔ new = old ∧ Instruction.IsBoundary code instructions old := by
  rw [← laysOut.boundary]
  constructor
  · intro mapped
    exact ⟨still old new mapped, new, mapped⟩
  · rintro ⟨rfl, other, mapped⟩
    rwa [still new other mapped] at mapped

end Still

/-- The patches fit where the loads stand, and every switch is padded with zeros. -/
structure FitsInPlace (patches : Nat → Option UInt16) (code : ByteArray)
    (instructions : List Instruction) : Prop where
  loads : ∀ offset index, patches offset = some index → ∃ instruction ∈ instructions,
    instruction.offset = offset ∧ Opcode.isLoad instruction.opcode = true
  narrow : ∀ instruction ∈ instructions, instruction.opcode = Opcode.loadConstant →
    ∀ index, patches instruction.offset = some index → index ≤ 0xFF
  padded : ∀ instruction ∈ instructions, instruction.ZeroPadded code

namespace FitsInPlace

variable {patches : Nat → Option UInt16} {instructions : List Instruction}

theorem isLoad (fits : FitsInPlace patches code instructions)
    (decoded : ∀ instruction ∈ instructions,
      Instruction.decode code instruction.offset = .ok instruction) :
    ∀ site ∈ patchedSites patches instructions,
      site.index.isSome → Opcode.isLoad site.instruction.opcode = true :=
  isLoad_patchedSites decoded fits.loads

theorem isWidened (fits : FitsInPlace patches code instructions) :
    ∀ site ∈ patchedSites patches instructions, site.isWidened = false := by
  intro site member
  obtain ⟨instruction, among, rfl⟩ := List.mem_map.mp member
  exact Site.isWidened_of_fits (fits.narrow instruction among)

/-- A single patch with a small index fits its load when the code has no switch. -/
theorem of_single (instruction : Instruction) (index : UInt16)
    (member : instruction ∈ instructions) (load : Opcode.isLoad instruction.opcode = true)
    (small : index ≤ 0xFF) (plain : ∀ other ∈ instructions, other.jump? ≠ some .switch) :
    FitsInPlace (fun offset => if offset = instruction.offset then some index else none) code
      instructions where
  loads := by
    intro offset found patched
    by_cases here : offset = instruction.offset
    · exact ⟨instruction, member, here.symm, load⟩
    · rw [if_neg here] at patched
      cases patched
  narrow := by
    intro other _ _ found patched
    by_cases here : other.offset = instruction.offset
    · rw [if_pos here] at patched
      cases patched
      exact small
    · rw [if_neg here] at patched
      cases patched
  padded := fun other among switch => absurd switch (plain other among)

end FitsInPlace

/-- An instruction that is not patched keeps its bytes, since its branch is kept. -/
theorem Carries.text_of_unpatched {site : Site} {moved : Instruction}
    (carries : relocation.Carries code out site moved) (still : relocation.Still)
    (decoded : Instruction.decode code site.instruction.offset = .ok site.instruction)
    (movedDecoded : Instruction.decode out moved.offset = .ok moved)
    (offset : moved.offset = site.instruction.offset) (unpatched : site.index = none)
    (padded : site.instruction.ZeroPadded code) :
    ∃ text, site.instruction.Text code text ∧ moved.Text out text := by
  have opcode := carries.opcode
  rw [Site.opcode, unpatched] at opcode
  by_cases plain : site.instruction.jump? = none
  · exact carries.bytes unpatched plain
  · obtain ⟨before, after, read, movedRead, moves⟩ := carries.branch
    rw [offset] at moves
    obtain rfl := still.moves moves
    have movedPadded : moved.ZeroPadded out := by
      intro switch
      rw [Instruction.jump?, opcode] at switch
      exact (carries.padding switch).2
    exact Instruction.exists_text_of_branch decoded movedDecoded offset opcode plain read movedRead
      padded movedPadded

/-- The operand of a patched load is its index, whichever opcode it gets. -/
theorem Carries.text_of_patched {site : Site} {moved : Instruction} {index : UInt16}
    (carries : relocation.Carries code out site moved)
    (movedDecoded : Instruction.decode out moved.offset = .ok moved)
    (patched : site.index = some index)
    (load : Opcode.isLoad site.instruction.opcode = true) (small : site.isWidened = false) :
    moved.Text out
      (⟨#[site.opcodeInPlace]⟩ ++ Instruction.loadOperand site.instruction.opcode index) := by
  have found := carries.index index patched
  have text (movedLoad : Opcode.isLoad moved.opcode = true) :=
    Instruction.text_of_load movedDecoded movedLoad found
  rw [carries.opcode, Site.opcode_eq_opcodeInPlace (fun _ => load) small] at text
  by_cases double : site.instruction.opcode = Opcode.loadConstantDouble ∧ site.index.isSome
  · rw [Site.opcodeInPlace, if_pos double] at text ⊢
    have operand : Instruction.loadOperand Opcode.loadConstantWide index =
        Instruction.loadOperand Opcode.loadConstantDouble index := rfl
    rw [double.1, ← operand]
    exact text (by decide)
  · rw [Site.opcodeInPlace, if_neg double] at text ⊢
    exact text load

/-- The bytes behind the opcode are the same in both codes. -/
def SameOperand (patched out : ByteArray) (site : Site) : Prop :=
  ∃ rest, site.instruction.Text patched (⟨#[site.instruction.opcode]⟩ ++ rest) ∧
    site.instruction.Text out (⟨#[site.opcodeInPlace]⟩ ++ rest)

section Sites

variable {sites : List Site} {patched : ByteArray}

theorem Carries.sameOperand {site : Site} {moved : Instruction}
    (carries : relocation.Carries code out site moved) (still : relocation.Still)
    (decoded : Instruction.decode code site.instruction.offset = .ok site.instruction)
    (patchedDecoded :
      Instruction.decode patched site.instruction.offset = .ok site.instruction)
    (movedDecoded : Instruction.decode out moved.offset = .ok moved)
    (offset : moved.offset = site.instruction.offset)
    (load : site.index.isSome → Opcode.isLoad site.instruction.opcode = true)
    (small : site.isWidened = false) (padded : site.instruction.ZeroPadded code)
    (inPlace : Site.Patched code patched site) : SameOperand patched out site := by
  cases changed : site.index with
  | none =>
    obtain ⟨text, old, new⟩ :=
      carries.text_of_unpatched still decoded movedDecoded offset changed padded
    have opcode : site.opcodeInPlace = site.instruction.opcode := by
      simp [Site.opcodeInPlace, changed]
    obtain ⟨rest, whole⟩ := Instruction.exists_text patchedDecoded
    obtain ⟨length, stands⟩ := Instruction.text_iff.mp old
    obtain ⟨_, movedStands⟩ := Instruction.text_iff.mp new
    obtain ⟨wholeLength, wholeStands⟩ := Instruction.text_iff.mp whole
    -- The patched code keeps the text as well, so its opcode is the first byte of the text.
    have kept : Stands patched site.instruction.offset text :=
      inPlace.kept changed _ _ ⟨Nat.le_refl _, by rw [length]; exact Nat.le_refl _⟩ stands
    obtain rfl := kept.unique wholeStands (length.trans wholeLength.symm)
    rw [offset] at movedStands
    exact ⟨rest, whole, opcode.symm ▸ Instruction.text_iff.mpr ⟨length, movedStands⟩⟩
  | some index =>
    -- Both codes load the same index, which fixes the bytes behind the opcode.
    have isLoad := load (by rw [changed]; rfl)
    have old := Instruction.text_of_load patchedDecoded isLoad (inPlace.load index changed)
    have new := carries.text_of_patched movedDecoded changed isLoad small
    have length := (Instruction.text_iff.mp old).1
    have stands := (Instruction.text_iff.mp new).2
    rw [offset] at stands
    exact ⟨_, old, Instruction.text_iff.mpr ⟨by rwa [ByteArray.size_append] at length ⊢, stands⟩⟩

/-- The relocated code and the patched code agree site by site. -/
theorem sameOperand_of_relocate (tile : Site.Tile code 0 sites)
    (loads : ∀ site ∈ sites, site.index.isSome → Opcode.isLoad site.instruction.opcode = true)
    (small : ∀ site ∈ sites, site.isWidened = false)
    (padded : ∀ site ∈ sites, site.instruction.ZeroPadded code)
    (inPlace : Site.patchAll sites code = .ok patched)
    (done : relocate unit code sites = .ok (out, relocation)) :
    out.size = patched.size ∧ Instruction.Tiles patched 0 (sites.map Site.instruction) ∧
      ∀ site ∈ sites, SameOperand patched out site := by
  obtain ⟨rfl, _, size, moved, decodedAll, all⟩ := relocate_eq_ok tile loads done
  obtain ⟨patchedSize, patchedTile, _, each⟩ := Site.patchAll_eq_ok tile loads small inPlace
  have still : (ofSites unit sites).Still := still_ofSites tile small
  have tiles := Site.tile_iff.mp tile
  have patchedTiles := Site.tile_iff.mp patchedTile
  have movedTiles := Instruction.decodeAll_eq_ok.mp decodedAll
  refine ⟨?_, patchedTiles, fun site member => ?_⟩
  · rw [size, (tile.placed_still small).1, patchedSize]
  · obtain ⟨new, _, among, mapped, carries⟩ :=
      exists_forall₂_iff.mp ⟨moved, forall₂_mem all⟩ site member
    have instruction : site.instruction ∈ sites.map Site.instruction :=
      List.mem_map.mpr ⟨site, member, rfl⟩
    exact carries.sameOperand still (tiles.decoded _ instruction)
      (patchedTiles.decoded _ instruction) (movedTiles.decoded new among) (still _ _ mapped)
      (loads site member) (small site member) (padded site member) (each site member)

/-- The two codes differ exactly in the opcodes of patched double loads. -/
theorem eq_iff_of_sameOperand (size : out.size = patched.size)
    (tiles : Instruction.Tiles patched 0 (sites.map Site.instruction))
    (operands : ∀ site ∈ sites, SameOperand patched out site) :
    out = patched ↔ ∀ site ∈ sites,
      site.instruction.opcode = Opcode.loadConstantDouble → site.index = none := by
  constructor
  · rintro rfl site member double
    obtain ⟨rest, old, new⟩ := operands site member
    by_contra changed
    rw [Site.opcodeInPlace, if_pos ⟨double, Option.isSome_iff_ne_none.mpr changed⟩] at new
    rw [double] at old
    have before := (stands_append.mp (Instruction.text_iff.mp old).2).1
    have after := (stands_append.mp (Instruction.text_iff.mp new).2).1
    exact absurd (before.unique after rfl) (by decide)
  · intro unpatched
    refine tiles.eq_of_texts size (List.forall_mem_map.mpr fun site member => ?_)
    obtain ⟨rest, old, new⟩ := operands site member
    have kept : site.opcodeInPlace = site.instruction.opcode := by
      refine if_neg fun changed => ?_
      rw [unpatched site member changed.1] at changed
      cases changed.2
    exact ⟨_, old, kept ▸ new⟩

end Sites

/-- Where no load grows, relocation keeps every instruction in its place and gives it the bytes that
patching gives it, apart from the opcode of a patched double load. -/
theorem relocate_in_place {patches : Nat → Option UInt16} {instructions : List Instruction}
    (decoded : Instruction.decodeAll code = .ok instructions)
    (fits : FitsInPlace patches code instructions)
    (done : relocate unit code (patchedSites patches instructions) = .ok (out, relocation)) :
    ∃ patched, Site.patchAll (patchedSites patches instructions) code = .ok patched ∧
      out.size = patched.size ∧
      (∀ site ∈ patchedSites patches instructions, SameOperand patched out site) ∧
      (out = patched ↔ ∀ instruction ∈ instructions,
        instruction.opcode = Opcode.loadConstantDouble → patches instruction.offset = none) ∧
      ∀ old new : Nat, relocation.map old = .ok new ↔
        new = old ∧ Instruction.IsBoundary code instructions old := by
  have tiles := Instruction.decodeAll_eq_ok.mp decoded
  have tile : Site.Tile code 0 (patchedSites patches instructions) := tile_patchedSites tiles
  have loads := fits.isLoad tiles.decoded
  have small := fits.isWidened
  obtain ⟨patched, inPlace⟩ :
      ∃ patched, Site.patchAll (patchedSites patches instructions) code = .ok patched :=
    Site.exists_patchAll (List.forall_mem_map.mpr tiles.decoded) loads rfl
  obtain ⟨size, patchedTiles, operands⟩ := sameOperand_of_relocate tile loads small
    (List.forall_mem_map.mpr fits.padded) inPlace done
  refine ⟨patched, inPlace, size, operands, ?_, ?_⟩
  · rw [eq_iff_of_sameOperand size patchedTiles operands, patchedSites, List.forall_mem_map]
  · have laysOut := laysOut_of_relocate decoded done
    obtain ⟨rfl, _⟩ := relocate_layout done
    exact (still_ofSites tile small).map_iff laysOut

/-- The patched load between a jump and its target stays narrow. -/
theorem relocate_in_place_load :
    let code : ByteArray := ⟨#[0xA7, 0, 5, 0x12, 1, 0xB1]⟩
    let instructions : List Instruction :=
      [⟨0, 0xA7, 3, by decide⟩, ⟨3, 0x12, 2, by decide⟩, ⟨5, 0xB1, 1, by decide⟩]
    let patches : Nat → Option UInt16 := fun offset => if offset = 3 then some 9 else none
    let out : ByteArray := ⟨#[0xA7, 0, 5, 0x12, 9, 0xB1]⟩
    let relocation : Relocation :=
      ⟨"Example", #[some 0, none, none, some 3, none, some 5, some 6], 6⟩
    relocate "Example" code (patchedSites patches instructions) = .ok (out, relocation) ∧
      Site.patchAll (patchedSites patches instructions) code = .ok out := by
  intro code instructions patches out relocation
  have decoded : Instruction.decodeAll code = .ok instructions :=
    Instruction.decodeAll_eq_ok.mpr (.step rfl (.step rfl (.step rfl .done)))
  have done : relocate "Example" code (patchedSites patches instructions) =
      .ok (out, relocation) :=
    relocate_eq_of_parts (by decide +kernel)
  have fits : FitsInPlace patches code instructions :=
    .of_single ⟨3, 0x12, 2, by decide⟩ 9 (by simp [instructions]) rfl (by decide) (by decide)
  obtain ⟨patched, inPlace, _, _, equal, _⟩ := relocate_in_place decoded fits done
  have same : out = patched := equal.mpr (by decide)
  exact ⟨done, same ▸ inPlace⟩

/-- A patched double load becomes wide when it is relocated, and stays double when it is patched. -/
theorem relocate_in_place_double :
    let code : ByteArray := ⟨#[0x14, 0, 1, 0xB1]⟩
    let instructions : List Instruction := [⟨0, 0x14, 3, by decide⟩, ⟨3, 0xB1, 1, by decide⟩]
    let patches : Nat → Option UInt16 := fun offset => if offset = 0 then some 2 else none
    Instruction.decodeAll code = .ok instructions ∧ FitsInPlace patches code instructions ∧
      relocate "Example" code (patchedSites patches instructions) =
        .ok (⟨#[0x13, 0, 2, 0xB1]⟩, ⟨"Example", #[some 0, none, none, some 3, some 4], 4⟩) ∧
      Site.patchAll (patchedSites patches instructions) code = .ok ⟨#[0x14, 0, 2, 0xB1]⟩ ∧
      (⟨#[0x13, 0, 2, 0xB1]⟩ : ByteArray) ≠ ⟨#[0x14, 0, 2, 0xB1]⟩ := by
  intro code instructions patches
  have fits : FitsInPlace patches code instructions :=
    .of_single ⟨0, 0x14, 3, by decide⟩ 2 List.mem_cons_self rfl (by decide) (by decide)
  refine ⟨?_, fits, relocate_eq_of_parts (by decide +kernel), by decide +kernel, by decide⟩
  exact Instruction.decodeAll_eq_ok.mpr (.step rfl (.step rfl .done))

end Relocation

end EnumNames
