import EnumNames.Proofs.Bytecode.Decoding
import EnumNames.Bytecode.Relocation

/-!
Where the instructions of some code are put, and which offsets a relocation therefore maps. The
sites tile the code, so every old offset belongs to at most one of them.
-/

namespace EnumNames

open Instruction (Tiles)

/-- A decoded switch has room for its padding and two words. -/
theorem Instruction.padding_le_length {code : ByteArray} {offset : Nat} {instruction : Instruction}
    (decoded : decode code offset = .ok instruction)
    (switch : instruction.jump? = some .switch) :
    switchPadding instruction.offset + 9 ≤ instruction.length := by
  obtain ⟨rfl, _, length, _⟩ := decode_eq_ok.mp decoded
  rcases Opcode.jump?_eq_switch_iff.mp switch with kind | kind
  · rw [decodeLength, Opcode.shape_eq_tableSwitch_iff.mpr kind] at length
    obtain ⟨low, high, _, _, ordered, size⟩ := tableSwitchLength_eq_ok.mp length
    simp only at size
    omega
  · rw [decodeLength, Opcode.shape_eq_lookupSwitch_iff.mpr kind] at length
    obtain ⟨pairs, _, natural, size⟩ := lookupSwitchLength_eq_ok.mp length
    simp only at size
    omega

theorem switchPadding_le (offset : Nat) : switchPadding offset ≤ 3 := by
  unfold switchPadding
  omega

namespace Site

/-- An instruction keeps at least a quarter of its length wherever it is put. -/
theorem length_le_lengthAt {code : ByteArray} {site : Site} {offset : Nat}
    (decoded : Instruction.decode code offset = .ok site.instruction) (start : Nat) :
    0 < site.lengthAt start ∧ site.instruction.length ≤ 4 * site.lengthAt start := by
  have positive := site.instruction.positive
  unfold lengthAt
  dsimp only
  split
  · rename_i widened
    have narrow : site.instruction.opcode = Opcode.loadConstant := by
      simp only [isWidened, Bool.and_eq_true, beq_iff_eq] at widened
      exact widened.1
    have shape : Opcode.shape Opcode.loadConstant = .fixed 2 (by decide) := by decide
    have length := Instruction.length_of_fixed decoded (by rw [narrow]; exact shape)
    omega
  · split
    · rename_i switch
      have room := Instruction.padding_le_length decoded switch
      have small := switchPadding_le site.instruction.offset
      omega
    · omega

/-- The sites are placed one after the other from an offset. -/
def placeFrom : Nat → List Site → List PlacedSite
  | _, [] => []
  | start, site :: rest => ⟨site, start⟩ :: placeFrom (start + site.lengthAt start) rest

/-- This is the offset behind the last of the placed sites. -/
def endFrom : Nat → List Site → Nat
  | start, [] => start
  | start, site :: rest => endFrom (start + site.lengthAt start) rest

theorem placeOnto_eq (done : List PlacedSite) (start : Nat) (sites : List Site) :
    placeOnto done start sites = (done.reverse ++ placeFrom start sites, endFrom start sites) := by
  induction sites generalizing done start with
  | nil => simp [placeOnto, placeFrom, endFrom]
  | cons site rest inductionHypothesis =>
    simp [placeOnto, placeFrom, endFrom, inductionHypothesis]

theorem place_eq (sites : List Site) : place sites = (placeFrom 0 sites, endFrom 0 sites) :=
  placeOnto_eq [] 0 sites

/-- The instructions of the sites follow one another up to the end of the code. -/
inductive Tile (code : ByteArray) : Nat → List Site → Prop where
  | done : Tile code code.size []
  | next {site : Site} {rest : List Site}
      (decoded : Instruction.decode code site.instruction.offset = .ok site.instruction)
      (tile : Tile code site.instruction.stop rest) :
      Tile code site.instruction.offset (site :: rest)

theorem tile_iff {code : ByteArray} {start : Nat} {sites : List Site} :
    Tile code start sites ↔ Tiles code start (sites.map instruction) := by
  constructor
  · intro tile
    induction tile with
    | done => exact .done
    | next decoded tile inductionHypothesis => exact .next decoded inductionHypothesis
  · intro tiles
    induction sites generalizing start with
    | nil =>
      cases tiles with
      | done => exact .done
    | cons site rest inductionHypothesis =>
      cases tiles with
      | next decoded further => exact .next decoded (inductionHypothesis further)

theorem Tile.le_offset {code : ByteArray} {old : Nat} {sites : List Site}
    (tile : Tile code old sites) : ∀ site ∈ sites, old ≤ site.instruction.offset := by
  induction tile with
  | done => simp
  | next decoded tile inductionHypothesis =>
    refine List.forall_mem_cons.mpr ⟨Nat.le_refl _, fun site member => ?_⟩
    exact Nat.le_trans (Nat.le_add_right _ _) (inductionHypothesis site member)

/-- A placed site lies between the first offset and the end, in the old code and in the new. -/
theorem Tile.bounds {code : ByteArray} {old : Nat} {sites : List Site} (tile : Tile code old sites)
    (start : Nat) : start ≤ endFrom start sites ∧ code.size ≤ old + 4 * (endFrom start sites - start) ∧
      ∀ placed ∈ placeFrom start sites, old ≤ placed.site.instruction.offset ∧
        placed.site.instruction.stop ≤ code.size ∧ placed.start < endFrom start sites ∧
        Instruction.decode code placed.site.instruction.offset = .ok placed.site.instruction ∧
        placed.site ∈ sites := by
  induction tile generalizing start with
  | done => simp [endFrom, placeFrom]
  | @next site rest decoded tile inductionHypothesis =>
    obtain ⟨positive, quarter⟩ := length_le_lengthAt decoded start
    obtain ⟨behind, size, each⟩ := inductionHypothesis (start + site.lengthAt start)
    have inside := (Instruction.decode_eq_ok.mp decoded).2.2.2
    rw [endFrom, placeFrom, List.forall_mem_cons]
    unfold Instruction.stop at size each inside ⊢
    refine ⟨by omega, by omega, ⟨Nat.le_refl _, inside, ?_, decoded, List.mem_cons_self⟩, ?_⟩
    · change start < _
      omega
    · intro placed member
      obtain ⟨after, within, before, found, among⟩ := each placed member
      exact ⟨by omega, within, before, found, List.mem_cons_of_mem _ among⟩

end Site

namespace Relocation

/-- The table holds the start of every placed site at the old offset of its instruction. -/
theorem table_iff {code : ByteArray} {old : Nat} {sites : List Site}
    (tile : Site.Tile code old sites) (start newLength index new : Nat) :
    ((Site.placeFrom start sites).flatMap row ++ [some newLength])[index]? = some (some new) ↔
      (∃ placed ∈ Site.placeFrom start sites,
        placed.site.instruction.offset = old + index ∧ placed.start = new) ∨
      (code.size = old + index ∧ newLength = new) := by
  induction tile generalizing start index with
  | done =>
    cases index with
    | zero => simp [Site.placeFrom]
    | succ index => simp [Site.placeFrom]
  | @next site rest decoded tile inductionHypothesis =>
    have positive := site.instruction.positive
    have inside := (Instruction.decode_eq_ok.mp decoded).2.2.2
    have later := (tile.bounds (start + site.lengthAt start)).2.2
    have shape : Site.placeFrom start (site :: rest) =
      ⟨site, start⟩ :: Site.placeFrom (start + site.lengthAt start) rest := rfl
    have width : (row ⟨site, start⟩).length = site.instruction.length := by
      simp only [row, List.length_cons, List.length_replicate]
      omega
    rw [shape, List.flatMap_cons, List.append_assoc]
    simp only [List.exists_mem_cons_iff]
    by_cases here : index < site.instruction.length
    · rw [List.getElem?_append_left (by omega)]
      have notLater : ¬ ∃ placed ∈ Site.placeFrom (start + site.lengthAt start) rest,
          placed.site.instruction.offset = site.instruction.offset + index ∧ placed.start = new := by
        rintro ⟨placed, member, same, _⟩
        have after := (later placed member).1
        unfold Instruction.stop at after
        omega
      have notEnd : ¬ (code.size = site.instruction.offset + index ∧ newLength = new) := by
        unfold Instruction.stop at inside
        omega
      rw [or_iff_left notEnd, or_iff_left notLater]
      cases index with
      | zero => simp [row]
      | succ index =>
        have empty : (row ⟨site, start⟩)[index + 1]? = some none := by
          rw [row, List.getElem?_cons_succ, List.getElem?_replicate, if_pos (by simp only; omega)]
        simp [empty]
    · rw [List.getElem?_append_right (by omega), width, inductionHypothesis]
      have same : site.instruction.stop + (index - site.instruction.length) =
          site.instruction.offset + index := by
        unfold Instruction.stop
        omega
      have notFirst : ¬ (site.instruction.offset = site.instruction.offset + index ∧
          start = new) := by omega
      rw [same, or_iff_right notFirst]

/-- The relocation of some placed sites. -/
def ofSites (unit : String) (sites : List Site) : Relocation :=
  ofPlaced unit (Site.placeFrom 0 sites) (Site.endFrom 0 sites)

/-- The starts of the placed sites are mapped, and so is the end of the code. -/
theorem map_eq_ok {unit : String} {code : ByteArray} {sites : List Site}
    (tile : Site.Tile code 0 sites) (old new : Nat) :
    (ofSites unit sites).map old = .ok new ↔
      (∃ placed ∈ Site.placeFrom 0 sites,
        placed.site.instruction.offset = old ∧ placed.start = new) ∨
      (code.size = old ∧ Site.endFrom 0 sites = new) := by
  have table := table_iff tile 0 (Site.endFrom 0 sites) old new
  rw [Nat.zero_add] at table
  rw [← table]
  unfold map ofSites ofPlaced
  simp only [List.getElem?_toArray]
  constructor
  · intro done
    split at done
    · cases done
      assumption
    · cases done
  · intro found
    rw [found]

/-- Only offsets of short code are mapped, and only to such offsets. -/
theorem bounded_ofSites {unit : String} {code : ByteArray} {sites : List Site}
    (tile : Site.Tile code 0 sites) (short : Site.endFrom 0 sites ≤ 65535) (old new : Nat)
    (mapped : (ofSites unit sites).map old = .ok new) : old < 0x80000 ∧ new < 0x10000 := by
  obtain ⟨_, size, each⟩ := tile.bounds 0
  rcases (map_eq_ok tile old new).mp mapped with ⟨placed, member, rfl, rfl⟩ | ⟨rfl, rfl⟩
  · obtain ⟨_, within, before, _⟩ := each placed member
    unfold Instruction.stop at within
    omega
  · omega

end Relocation

end EnumNames
