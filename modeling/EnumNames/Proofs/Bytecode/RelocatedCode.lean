import EnumNames.Proofs.Bytecode.SwitchEmission
import EnumNames.Proofs.Bytecode.Placement

/-!
A relocation preserves the program. The two passes agree on every offset, so the new code decodes
to the moved instructions, and each of them does what it did before.
-/

namespace EnumNames

namespace Relocation

variable {unit : String} {code out : ByteArray} {relocation : Relocation}

/-- The emitted pieces fill exactly the room that was reserved for them. -/
theorem size_of_emits {sites : List Site} {start : Nat} {pieces : List ByteArray}
    (emits : List.Forall₂ (relocation.Emits code) (Site.placeFrom start sites) pieces) :
    start + (concat pieces).size = Site.endFrom start sites := by
  induction sites generalizing start pieces with
  | nil =>
    cases emits
    rfl
  | cons site rest inductionHypothesis =>
    obtain _ | ⟨head, tail⟩ := emits
    rw [Site.endFrom, ← inductionHypothesis tail, concat_cons, ByteArray.size_append, head.1,
      Nat.add_assoc]

/-- The invariant of the second pass is that it stands where the first pass has put the rest. -/
theorem tiles_of_emits {sites : List Site} {start : Nat} {pieces : List ByteArray}
    (emits : List.Forall₂ (relocation.Emits code) (Site.placeFrom start sites) pieces)
    (stands : Stands out start (concat pieces)) (ends : out.size = Site.endFrom start sites)
    (located : ∀ placed ∈ Site.placeFrom start sites,
      relocation.map placed.site.instruction.offset = .ok placed.start) :
    ∃ moved, Instruction.Tiles out start moved ∧ List.Forall₂ (fun site new =>
      relocation.map site.instruction.offset = .ok new.offset ∧
        relocation.Carries code out site new) sites moved := by
  induction sites generalizing start pieces with
  | nil =>
    have start_eq : out.size = start := ends
    exact ⟨[], start_eq ▸ .done, .nil⟩
  | cons site rest inductionHypothesis =>
    obtain _ | ⟨⟨size, decodes⟩, tail⟩ := emits
    rw [concat_cons, stands_append, size] at stands
    obtain ⟨new, decoded, length, carries⟩ := decodes out stands.1
    obtain ⟨moved, tiles, all⟩ := inductionHypothesis tail stands.2 ends fun placed member =>
      located placed (List.mem_cons_of_mem _ member)
    have offset : new.offset = start := (Instruction.decode_eq_ok.mp decoded).1
    have stop : new.stop = start + site.lengthAt start := by
      rw [Instruction.stop, offset, length]
    have mapped := located ⟨site, start⟩ List.mem_cons_self
    subst offset
    exact ⟨new :: moved, .step decoded (stop ▸ tiles), .cons ⟨mapped, carries⟩ all⟩

/-- This is what a relocation makes of code that is tiled by its sites. -/
theorem relocate_eq_ok {sites : List Site} (tile : Site.Tile code 0 sites)
    (loads : ∀ site ∈ sites, site.index.isSome → Opcode.isLoad site.instruction.opcode = true)
    (done : relocate unit code sites = .ok (out, relocation)) :
    relocation = ofSites unit sites ∧ out.size < 0x10000 ∧ out.size = Site.endFrom 0 sites ∧
      ∃ moved, Instruction.decodeAll out = .ok moved ∧ List.Forall₂ (fun site new =>
        relocation.map site.instruction.offset = .ok new.offset ∧
          relocation.Carries code out site new) sites moved := by
  unfold relocate at done
  rw [Site.place_eq] at done
  dsimp only at done
  split at done
  · cases done
  · rename_i short
    obtain ⟨pieces, emitted, same⟩ := bind_eq_ok.mp done
    cases same
    have bounded : (ofSites unit sites).Bounded := bounded_ofSites tile (Nat.not_lt.mp short)
    have located (placed : PlacedSite) (member : placed ∈ Site.placeFrom 0 sites) :
        (ofSites unit sites).map placed.site.instruction.offset = .ok placed.start :=
      (map_eq_ok tile _ _).mpr (.inl ⟨placed, member, rfl, rfl⟩)
    have emits : List.Forall₂ ((ofSites unit sites).Emits code) (Site.placeFrom 0 sites) pieces := by
      refine forall₂_imp_of_mem (mapM_eq_ok.mp emitted) fun placed member piece emission => ?_
      obtain ⟨_, _, _, decoded, among⟩ := (tile.bounds 0).2.2 placed member
      exact emit_eq_ok bounded (located placed member) decoded (loads placed.site among) emission
    have size := size_of_emits emits
    rw [Nat.zero_add] at size
    obtain ⟨moved, tiles, all⟩ := tiles_of_emits emits (.self _) size located
    exact ⟨rfl, by omega, size, moved, Instruction.decodeAll_eq_ok.mpr tiles, all⟩

/-- The instruction at every offset is kept apart from the patched indices, and every jump follows
its target. -/
structure Preserves (relocation : Relocation) (patches : Nat → Option UInt16)
    (code out : ByteArray) (old new : Instruction) : Prop where
  start : relocation.map old.offset = .ok new.offset
  opcode : new.opcode =
    if old.opcode = Opcode.loadConstant ∧ (patches old.offset).any (0xFF < ·) then
      Opcode.loadConstantWide
    else old.opcode
  index : ∀ index, patches old.offset = some index → new.loadIndex out = .ok index
  bytes : patches old.offset = none → old.jump? = none →
    ∃ bytes, Access.slice code ⟨old.offset, old.stop⟩ = .ok bytes ∧
      Access.slice out ⟨new.offset, new.stop⟩ = .ok bytes
  branch : ∃ before after, old.branch code = .ok before ∧ new.branch out = .ok after ∧
    relocation.Moves old.offset new.offset before after
  padding : old.jump? = some .switch →
    new.length + switchPadding old.offset = old.length + switchPadding new.offset ∧
      Access.slice out ⟨new.offset + 1, new.operands⟩ =
        .ok (List.replicate (switchPadding new.offset) 0).toByteArray

/-- The patches give new indices to some instructions by their offsets. -/
def patchedSites (patches : Nat → Option UInt16) (instructions : List Instruction) : List Site :=
  instructions.map fun instruction => ⟨instruction, patches instruction.offset⟩

/-- A patched load keeps its opcode unless it is narrow and its index needs two bytes. -/
theorem opcode_of_load {site : Site} (kind : ∀ index, site.index = some index →
      site.instruction.opcode = Opcode.loadConstant ∨
        site.instruction.opcode = Opcode.loadConstantWide) :
    site.opcode =
      if site.instruction.opcode = Opcode.loadConstant ∧ site.index.any (0xFF < ·) then
        Opcode.loadConstantWide
      else site.instruction.opcode := by
  rw [Site.opcode]
  cases patched : site.index with
  | none => simp
  | some index =>
    rcases kind index patched with narrow | wide
    · rw [narrow]
      by_cases small : index ≤ 0xFF
      · simp [small, UInt16.not_lt.mpr small]
      · simp [small, UInt16.not_le.mp small]
    · have other : Opcode.loadConstantWide ≠ Opcode.loadConstant := by decide
      simp [wide, other]

/-- A relocation keeps the program: instruction by instruction, up to patched indices and the new
places of jump targets. -/
theorem relocate_preserves {patches : Nat → Option UInt16} {instructions : List Instruction}
    (decoded : Instruction.decodeAll code = .ok instructions)
    (loads : ∀ offset index, patches offset = some index → ∃ instruction ∈ instructions,
      instruction.offset = offset ∧ (instruction.opcode = Opcode.loadConstant ∨
        instruction.opcode = Opcode.loadConstantWide))
    (done : relocate unit code (patchedSites patches instructions) = .ok (out, relocation)) :
    ∃ moved, Instruction.decodeAll out = .ok moved ∧
      List.Forall₂ (relocation.Preserves patches code out) instructions moved := by
  have tiles := Instruction.decodeAll_eq_ok.mp decoded
  have kind (instruction : Instruction) (member : instruction ∈ instructions) (index : UInt16)
      (patched : patches instruction.offset = some index) :
      instruction.opcode = Opcode.loadConstant ∨
        instruction.opcode = Opcode.loadConstantWide := by
    obtain ⟨other, among, same, load⟩ := loads _ _ patched
    have found := tiles.decoded other among
    rw [same, tiles.decoded instruction member] at found
    rwa [Except.ok.inj found]
  have tile : Site.Tile code 0 (patchedSites patches instructions) := by
    rw [Site.tile_iff, patchedSites, List.map_map]
    exact (List.map_id instructions).symm ▸ tiles
  have isLoad (site : Site) (member : site ∈ patchedSites patches instructions)
      (patched : site.index.isSome) : Opcode.isLoad site.instruction.opcode = true := by
    obtain ⟨instruction, among, rfl⟩ := List.mem_map.mp member
    obtain ⟨index, same⟩ := Option.isSome_iff_exists.mp patched
    rcases kind instruction among index same with narrow | wide
    · rw [narrow]
      decide
    · rw [wide]
      decide
  obtain ⟨_, _, _, moved, decodedAll, all⟩ := relocate_eq_ok tile isLoad done
  refine ⟨moved, decodedAll, ?_⟩
  rw [patchedSites, List.forall₂_map_left_iff] at all
  refine forall₂_imp_of_mem all fun old member new both => ?_
  obtain ⟨mapped, carries⟩ := both
  refine ⟨mapped, ?_, carries.index, carries.bytes, carries.branch, carries.padding⟩
  rw [carries.opcode, opcode_of_load (kind old member)]

/-- The jump over a widened load becomes longer. -/
theorem relocate_preserves_jump :
    let code : ByteArray := ⟨#[0xA7, 0, 5, 0x12, 1, 0xB1]⟩
    let instructions : List Instruction :=
      [⟨0, 0xA7, 3, by decide⟩, ⟨3, 0x12, 2, by decide⟩, ⟨5, 0xB1, 1, by decide⟩]
    let patches : Nat → Option UInt16 := fun offset => if offset = 3 then some 300 else none
    let out : ByteArray := ⟨#[0xA7, 0, 6, 0x13, 1, 44, 0xB1]⟩
    let relocation : Relocation :=
      ⟨"Example", #[some 0, none, none, some 3, none, some 6, some 7], 7⟩
    relocate "Example" code (patchedSites patches instructions) = .ok (out, relocation) ∧
      ∃ moved, Instruction.decodeAll out = .ok moved ∧
        List.Forall₂ (relocation.Preserves patches code out) instructions moved := by
  intro code instructions patches out relocation
  have decoded : Instruction.decodeAll code = .ok instructions :=
    Instruction.decodeAll_eq_ok.mpr (.step rfl (.step rfl (.step rfl .done)))
  have loads (offset : Nat) (index : UInt16) (patched : patches offset = some index) :
      ∃ instruction ∈ instructions, instruction.offset = offset ∧
        (instruction.opcode = Opcode.loadConstant ∨
          instruction.opcode = Opcode.loadConstantWide) := by
    by_cases here : offset = 3
    · subst here
      exact ⟨⟨3, 0x12, 2, by decide⟩, by simp [instructions], rfl, .inl rfl⟩
    · simp [patches, here] at patched
  have parts : (relocate "Example" code (patchedSites patches instructions)).map
      (fun result => (result.1.data.toList, result.2.unit, result.2.table, result.2.newLength)) =
        .ok (out.data.toList, relocation.unit, relocation.table, relocation.newLength) := by
    decide +kernel
  have done : relocate "Example" code (patchedSites patches instructions) =
      .ok (out, relocation) := by
    cases found : relocate "Example" code (patchedSites patches instructions) with
    | error failure =>
      rw [found] at parts
      cases parts
    | ok result =>
      obtain ⟨⟨⟨bytes⟩⟩, unit, table, newLength⟩ := result
      rw [found] at parts
      cases parts
      rfl
  exact ⟨done, relocate_preserves decoded loads done⟩

end Relocation

end EnumNames
