import EnumNames.Proofs.Bytecode.RelocatedCode
import EnumNames.Proofs.EnumUnit.Patching

/-!
Repaired code. Whether loads are overwritten where they stand or the code moves, the repaired code
decodes to one instruction for every site, which loads the index of its site.
-/

namespace EnumNames

namespace Site

/-- The new instruction loads the index of the site; without an index it is the old one. -/
structure Reloads (code out : ByteArray) (site : Site) (moved : Instruction) : Prop where
  load : ∀ index, site.index = some index →
    Opcode.isLoad moved.opcode = true ∧ moved.loadIndex out = .ok index
  opcode : site.index = none → moved.opcode = site.instruction.opcode
  bytes : site.index = none → site.instruction.jump? = none →
    ∃ bytes, Access.slice code ⟨site.instruction.offset, site.instruction.stop⟩ = .ok bytes ∧
      Access.slice out ⟨moved.offset, moved.stop⟩ = .ok bytes

variable {code out : ByteArray} {site : Site} {moved : Instruction}

theorem reloads_of_carries {relocation : Relocation}
    (carries : relocation.Carries code out site moved) : Reloads code out site moved := by
  refine ⟨fun index patched => ⟨?_, carries.index index patched⟩, fun unpatched => ?_, carries.bytes⟩
  · rw [carries.opcode, opcode, patched]
    dsimp only
    split <;> decide
  · rw [carries.opcode, opcode, unpatched]

theorem reloads_of_patched
    (decoded : Instruction.decode code site.instruction.offset = .ok site.instruction)
    (load : site.index.isSome → Opcode.isLoad site.instruction.opcode = true)
    (patched : Patched code out site) : Reloads code out site site.instruction := by
  refine ⟨fun index found => ⟨load (by rw [found]; rfl), patched.load index found⟩, fun _ => rfl,
    fun unpatched _ => ?_⟩
  obtain ⟨text, whole, stands⟩ := Stands.exists_of_le (Instruction.decode_eq_ok.mp decoded).2.2.2
  have stop : site.instruction.stop = site.instruction.offset + text.size := by
    rw [whole, Instruction.stop]
  refine ⟨text, Access.slice_eq_ok.mpr ⟨stop, stands⟩, Access.slice_eq_ok.mpr ⟨stop, ?_⟩⟩
  exact patched.kept unpatched _ text ⟨Nat.le_refl _, Nat.le_of_eq stop.symm⟩ stands

end Site

/-- The new code decodes to the reloaded instructions. Unless a load grows, it differs from the old
code in operands of patched loads only. -/
structure Site.Repaired (sites : List Site) (code out : ByteArray)
    (relocation : Option Relocation) (moved : List Instruction) : Prop where
  quarter : code.size ≤ 4 * out.size
  short : out.size < 0x10000
  decoded : Instruction.decodeAll out = .ok moved
  reloads : List.Forall₂ (Site.Reloads code out) sites moved
  bounded : ∀ found, relocation = some found → found.Bounded
  inPlace : sites.any Site.isWidened = false →
    relocation = none ∧ out.size = code.size ∧ Agrees code out (Site.Untouched sites)

namespace Site

variable {code out : ByteArray} {sites : List Site}

/-- Sites of which none is patched leave the code as it is. -/
theorem repaired_self (tile : Tile code 0 sites) (short : code.size < 0x10000)
    (unpatched : ∀ site ∈ sites, site.index = none) :
    Repaired sites code code none (sites.map (·.instruction)) where
  quarter := by omega
  short := short
  decoded := Instruction.decodeAll_eq_ok.mpr (tile_iff.mp tile)
  reloads := by
    refine List.forall₂_map_right_iff.mpr (List.forall₂_same.mpr fun site member => ?_)
    have decoded := (tile_iff.mp tile).decoded _ (List.mem_map_of_mem member)
    have none := unpatched site member
    exact reloads_of_patched decoded (by simp [none]) ⟨by simp [none], fun _ => .refl _ _⟩
  bounded := by simp
  inPlace := fun _ => ⟨rfl, rfl, .refl _ _⟩

end Site

/-- Unless a load grows, the loads are overwritten where they stand. -/
theorem EnumUnit.repairCode_inPlace {unit : EnumUnit} {code out : ByteArray} {sites : List Site}
    {relocation : Option Relocation} (narrow : sites.any Site.isWidened = false)
    (done : unit.repairCode code sites = .ok (out, relocation)) :
    relocation = none ∧ out.size = code.size := by
  unfold repairCode at done
  rw [narrow, if_neg Bool.false_ne_true] at done
  obtain ⟨bytes, patched, same⟩ := bind_eq_ok.mp done
  cases same
  exact ⟨rfl, Site.size_patchAll patched⟩

/-- Code of at most 65535 bytes is repaired at the sites that tile it. -/
theorem EnumUnit.repairCode_eq_ok {unit : EnumUnit} {code out : ByteArray} {sites : List Site}
    {relocation : Option Relocation} (tile : Site.Tile code 0 sites) (short : code.size < 0x10000)
    (loads : ∀ site ∈ sites, site.index.isSome → Opcode.isLoad site.instruction.opcode = true)
    (done : unit.repairCode code sites = .ok (out, relocation)) :
    ∃ moved, Site.Repaired sites code out relocation moved := by
  unfold repairCode at done
  split at done
  · rename_i widened
    obtain ⟨⟨bytes, table⟩, relocated, same⟩ := bind_eq_ok.mp done
    cases same
    obtain ⟨rfl, fits, size, moved, decoded, all⟩ := Relocation.relocate_eq_ok tile loads relocated
    have quarter := (tile.bounds 0).2.1
    refine ⟨moved, by omega, fits, decoded, ?_, ?_, by simp [widened]⟩
    · exact all.imp fun _ _ both => Site.reloads_of_carries both.2
    · intro _ same
      cases same
      exact Relocation.bounded_ofSites tile (by omega)
  · rename_i none
    obtain ⟨bytes, patched, same⟩ := bind_eq_ok.mp done
    cases same
    have small (site : Site) (member : site ∈ sites) : site.isWidened = false := by
      simpa using fun widened => none (List.any_eq_true.mpr ⟨site, member, widened⟩)
    obtain ⟨size, outTile, agrees, each⟩ := Site.patchAll_eq_ok tile loads small patched
    refine ⟨sites.map (·.instruction), by omega, by omega, ?_, ?_, by simp,
      fun _ => ⟨rfl, size, agrees⟩⟩
    · exact Instruction.decodeAll_eq_ok.mpr (Site.tile_iff.mp outTile)
    · refine List.forall₂_map_right_iff.mpr (List.forall₂_same.mpr fun site member => ?_)
      have decoded := (Site.tile_iff.mp tile).decoded _ (List.mem_map_of_mem member)
      exact Site.reloads_of_patched decoded (loads site member) (each site member)

end EnumNames
