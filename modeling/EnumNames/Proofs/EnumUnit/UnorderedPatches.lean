import EnumNames.Proofs.Bytecode.InPlaceRelocation
import Mathlib.Data.List.Pairwise

/-!
Patches that are stored by offset and overwritten in no particular order. Main statement: every
order gives the same code, the instructions of the code stay as they are, and only the operands of
patched loads change.
-/

namespace EnumNames

namespace Site

/-- The opcode of the load is read from the code as it has become. -/
def patchEntry (code : ByteArray) (entry : Nat × UInt16) : Except Failure ByteArray := do
  let opcode ← Access.u1 code entry.1
  if opcode = Opcode.loadConstant then
    Access.overwrite code (entry.1 + 1) ⟨#[entry.2.toUInt8]⟩
  else
    Access.overwrite code (entry.1 + 1) (BigEndian.encode16 entry.2)

def patchEntries (entries : List (Nat × UInt16)) (code : ByteArray) : Except Failure ByteArray :=
  entries.foldlM patchEntry code

/-- No opcode has been overwritten, so the instruction tells which one is read. -/
theorem patchEntry_eq_patch {code : ByteArray} {instruction : Instruction}
    (decoded : Instruction.decode code instruction.offset = .ok instruction) (index : UInt16) :
    patchEntry code (instruction.offset, index) = patch code ⟨instruction, some index⟩ := by
  have opcode := Access.u1_eq_ok.mpr (Instruction.decode_eq_ok.mp decoded).2.1
  rw [patchEntry, opcode, ok_bind]
  rfl

end Site

section Entries

variable {patches : Nat → Option UInt16} {entries : List (Nat × UInt16)}

/-- The entries are all patches, each of them once, in some order. -/
structure Lists (patches : Nat → Option UInt16) (entries : List (Nat × UInt16)) : Prop where
  once : (entries.map Prod.fst).Nodup
  mem_iff : ∀ offset index, (offset, index) ∈ entries ↔ patches offset = some index

/-- An entry is added to the patches; it replaces an older one at its offset. -/
def withEntry (patches : Nat → Option UInt16) (entry : Nat × UInt16) : Nat → Option UInt16 :=
  Function.update patches entry.1 (some entry.2)

theorem foldl_withEntry_of_not_mem {offset : Nat} (absent : offset ∉ entries.map Prod.fst) :
    entries.foldl withEntry patches offset = patches offset := by
  induction entries generalizing patches with
  | nil => rfl
  | cons entry rest inductionHypothesis =>
    rw [List.map_cons, List.mem_cons, not_or] at absent
    rw [List.foldl_cons, inductionHypothesis absent.2, withEntry, Function.update_of_ne absent.1]

theorem foldl_withEntry_of_mem (once : (entries.map Prod.fst).Nodup) {offset : Nat} {index : UInt16}
    (member : (offset, index) ∈ entries) :
    entries.foldl withEntry patches offset = some index := by
  induction entries generalizing patches with
  | nil => cases member
  | cons entry rest inductionHypothesis =>
    rw [List.map_cons, List.nodup_cons] at once
    rw [List.foldl_cons]
    rcases List.mem_cons.mp member with rfl | later
    · rw [foldl_withEntry_of_not_mem once.1, withEntry, Function.update_self]
    · exact inductionHypothesis once.2 later

/-- The entries can be collected in any order. -/
theorem Lists.foldl_withEntry (lists : Lists patches entries) :
    entries.foldl withEntry (fun _ => none) = patches := by
  funext offset
  cases found : patches offset with
  | some index => exact foldl_withEntry_of_mem lists.once ((lists.mem_iff offset index).mpr found)
  | none =>
    refine foldl_withEntry_of_not_mem fun member => ?_
    obtain ⟨⟨_, index⟩, among, rfl⟩ := List.mem_map.mp member
    rw [(lists.mem_iff _ index).mp among] at found
    cases found

end Entries

namespace Instruction

variable {code out : ByteArray} {instructions : List Instruction}

theorem Tiles.of_decoded {start : Nat} (tiles : Tiles code start instructions)
    (size : out.size = code.size)
    (decoded : ∀ instruction ∈ instructions, decode out instruction.offset = .ok instruction) :
    Tiles out start instructions := by
  induction tiles with
  | done => exact size ▸ .done
  | next _ _ inductionHypothesis =>
    obtain ⟨first, others⟩ := List.forall_mem_cons.mp decoded
    exact .next first (inductionHypothesis others)

theorem Tiles.eq_of_offset (tiles : Tiles code 0 instructions) {first second : Instruction}
    (member : first ∈ instructions) (among : second ∈ instructions)
    (same : first.offset = second.offset) : first = second := by
  have found := tiles.decoded first member
  rw [same, tiles.decoded second among] at found
  exact (Except.ok.inj found).symm

/-- Two instructions do not overlap. -/
def Apart (first second : Instruction) : Prop :=
  first.stop ≤ second.offset ∨ second.stop ≤ first.offset

instance : Std.Symm Apart where
  symm := fun _ _ => Or.symm

theorem Tiles.apart (tiles : Tiles code 0 instructions) {first second : Instruction}
    (member : first ∈ instructions) (among : second ∈ instructions)
    (different : first.offset ≠ second.offset) : first.Apart second := by
  have apart : instructions.Pairwise Apart := tiles.ordered.imp Or.inl
  exact apart.forall member among fun same => different (same ▸ rfl)

end Instruction

namespace Relocation

variable {patches : Nat → Option UInt16} {code current out : ByteArray}
  {instructions : List Instruction}

theorem untouched_iff {first last : Nat} :
    Site.Untouched (patchedSites patches instructions) first last ↔
      ∀ instruction ∈ instructions, (patches instruction.offset).isSome →
        last ≤ instruction.offset + 1 ∨ instruction.stop ≤ first := by
  rw [Site.Untouched, patchedSites, List.forall_mem_map]

/-- The code has been patched: its instructions stay, the patched ones are loads of their new
indices, and the bytes in front of and behind their operands are the old ones. -/
structure PatchedInPlace (patches : Nat → Option UInt16) (code out : ByteArray)
    (instructions : List Instruction) : Prop where
  size : out.size = code.size
  decoded : Instruction.decodeAll out = .ok instructions
  load : ∀ instruction ∈ instructions, ∀ index, patches instruction.offset = some index →
    Opcode.isLoad instruction.opcode = true ∧ instruction.loadIndex out = .ok index
  agrees : Agrees code out (Site.Untouched (patchedSites patches instructions))

/-- A patch fits when it belongs to a load that has room for its index. -/
def Fits (instructions : List Instruction) (entry : Nat × UInt16) : Prop :=
  ∃ instruction ∈ instructions, instruction.offset = entry.1 ∧
    Opcode.isLoad instruction.opcode = true ∧
    (instruction.opcode = Opcode.loadConstant → entry.2 ≤ 0xFF)

namespace PatchedInPlace

theorem refl (decoded : Instruction.decodeAll code = .ok instructions) :
    PatchedInPlace (fun _ => none) code code instructions where
  size := rfl
  decoded := decoded
  load := fun _ _ _ patched => nomatch patched
  agrees := .refl _ _

/-- A patch changes nothing outside the operand of its load, so everything that held of the other
loads still holds of them. -/
theorem next (inPlace : PatchedInPlace patches code current instructions) {entry : Nat × UInt16}
    (fits : Fits instructions entry) : ∃ out, Site.patchEntry current entry = .ok out ∧
      PatchedInPlace (withEntry patches entry) code out instructions := by
  obtain ⟨offset, index⟩ := entry
  obtain ⟨instruction, member, rfl, load, narrow⟩ := fits
  have tiles := Instruction.decodeAll_eq_ok.mp inPlace.decoded
  have here := tiles.decoded instruction member
  have small : (⟨instruction, some index⟩ : Site).isWidened = false := by
    refine Site.isWidened_of_fits fun opcode _ same => ?_
    cases same
    exact narrow opcode
  obtain ⟨out, done⟩ : ∃ out, Site.patch current ⟨instruction, some index⟩ = .ok out :=
    Site.exists_patch rfl here fun _ => load
  obtain ⟨size, agrees, found, _⟩ := Site.patch_eq_ok here (fun _ => load) small done
  have entryDone := (Site.patchEntry_eq_patch here index).trans done
  have unmoved (other : Instruction) (among : other ∈ instructions)
      (different : other.offset ≠ instruction.offset) :
      Agrees current out fun first last => other.offset ≤ first ∧ last ≤ other.stop := by
    refine agrees.mono fun first last inside => ?_
    have apart := tiles.apart among member different
    unfold Instruction.Apart at apart
    dsimp only
    omega
  refine ⟨out, entryDone, size.trans inPlace.size, ?_, ?_, ?_⟩
  · refine Instruction.decodeAll_eq_ok.mpr (tiles.of_decoded size fun other among => ?_)
    by_cases same : other.offset = instruction.offset
    · obtain rfl := tiles.eq_of_offset among member same
      exact Site.decode_of_patch here (fun _ => load) small done
    · exact Site.decode_of_agrees (tiles.decoded other among) (unmoved other among same)
  · intro other among otherIndex patched
    by_cases same : other.offset = instruction.offset
    · obtain rfl := tiles.eq_of_offset among member same
      rw [withEntry, Function.update_self] at patched
      exact ⟨load, found otherIndex patched⟩
    · rw [withEntry, Function.update_of_ne same] at patched
      obtain ⟨otherLoad, otherFound⟩ := inPlace.load other among otherIndex patched
      have length := Instruction.length_of_isLoad (tiles.decoded other among) otherLoad
      exact ⟨otherLoad, Site.loadIndex_of_agrees length (unmoved other among same) otherFound⟩
  · refine (inPlace.agrees.mono fun first last free => ?_).trans
      (agrees.mono fun first last free => ?_)
    · refine untouched_iff.mpr fun other among patched => ?_
      refine untouched_iff.mp free other among ?_
      by_cases same : other.offset = instruction.offset
      · rw [same, withEntry, Function.update_self]
        rfl
      · rwa [withEntry, Function.update_of_ne same]
    · refine untouched_iff.mp free instruction member ?_
      rw [withEntry, Function.update_self]
      rfl

/-- The induction is on the entries; what is patched already is carried along with the code. -/
theorem patchEntries (inPlace : PatchedInPlace patches code current instructions)
    {entries : List (Nat × UInt16)} (fits : ∀ entry ∈ entries, Fits instructions entry) :
    ∃ out, Site.patchEntries entries current = .ok out ∧
      PatchedInPlace (entries.foldl withEntry patches) code out instructions := by
  induction entries generalizing current patches with
  | nil => exact ⟨current, rfl, inPlace⟩
  | cons entry rest inductionHypothesis =>
    obtain ⟨first, others⟩ := List.forall_mem_cons.mp fits
    obtain ⟨middle, done, middleInPlace⟩ := inPlace.next first
    obtain ⟨out, later, outInPlace⟩ := inductionHypothesis middleInPlace others
    exact ⟨out, bind_eq_ok.mpr ⟨middle, done, later⟩, outInPlace⟩

/-- A patched load is determined by its index, and any other instruction by its old bytes. -/
theorem unique {other : ByteArray} (one : PatchedInPlace patches code out instructions)
    (second : PatchedInPlace patches code other instructions)
    (tiles : Instruction.Tiles code 0 instructions) : out = other := by
  have outTiles := Instruction.decodeAll_eq_ok.mp one.decoded
  have otherTiles := Instruction.decodeAll_eq_ok.mp second.decoded
  refine otherTiles.eq_of_texts (one.size.trans second.size.symm) fun instruction member => ?_
  cases patched : patches instruction.offset with
  | some index =>
    obtain ⟨load, found⟩ := one.load instruction member index patched
    have otherFound := (second.load instruction member index patched).2
    exact ⟨_, Instruction.text_of_load (otherTiles.decoded instruction member) load otherFound,
      Instruction.text_of_load (outTiles.decoded instruction member) load found⟩
  | none =>
    obtain ⟨rest, text⟩ := Instruction.exists_text (tiles.decoded instruction member)
    obtain ⟨length, stands⟩ := Instruction.text_iff.mp text
    have free : Site.Untouched (patchedSites patches instructions) instruction.offset
        (instruction.offset + instruction.length) := by
      refine untouched_iff.mpr fun changed among isPatched => ?_
      have different : instruction.offset ≠ changed.offset := by
        intro same
        rw [← same, patched] at isPatched
        cases isPatched
      have apart := tiles.apart member among different
      unfold Instruction.Apart Instruction.stop at apart
      unfold Instruction.stop
      omega
    rw [← length] at free
    exact ⟨_, Instruction.text_iff.mpr ⟨length, second.agrees _ _ free stands⟩,
      Instruction.text_iff.mpr ⟨length, one.agrees _ _ free stands⟩⟩

/-- A byte that belongs to no operand of a patched load stays as it is. -/
theorem byte (inPlace : PatchedInPlace patches code out instructions) {place : Nat}
    (outside : ∀ instruction ∈ instructions, (patches instruction.offset).isSome →
      place ≤ instruction.offset ∨ instruction.stop ≤ place) :
    Access.u1 out place = Access.u1 code place := by
  refine Access.u1_congr inPlace.size fun byte stands => inPlace.agrees _ _ ?_ stands
  refine untouched_iff.mpr fun instruction member patched => ?_
  exact (outside instruction member patched).imp_left Nat.succ_le_succ

/-- Patching the sites in their order leads there as well. -/
theorem of_patchAll (tiles : Instruction.Tiles code 0 instructions)
    (loads : ∀ site ∈ patchedSites patches instructions,
      site.index.isSome → Opcode.isLoad site.instruction.opcode = true)
    (small : ∀ site ∈ patchedSites patches instructions, site.isWidened = false)
    (done : Site.patchAll (patchedSites patches instructions) code = .ok out) :
    PatchedInPlace patches code out instructions := by
  obtain ⟨size, tile, agrees, each⟩ :=
    Site.patchAll_eq_ok (tile_patchedSites tiles) loads small done
  have outTiles := Site.tile_iff.mp tile
  rw [patchedSites, List.map_map] at outTiles
  refine ⟨size, Instruction.decodeAll_eq_ok.mpr (List.map_id instructions ▸ outTiles), ?_, agrees⟩
  intro instruction member index patched
  have site : (⟨instruction, patches instruction.offset⟩ : Site) ∈
      patchedSites patches instructions := List.mem_map.mpr ⟨instruction, member, rfl⟩
  exact ⟨loads _ site (by rw [patched]; rfl), (each _ site).load index patched⟩

end PatchedInPlace

/-- The offsets of the instructions differ, so collecting the patches in their order finds each of
them once. -/
theorem exists_lists (tiles : Instruction.Tiles code 0 instructions)
    (fits : ∀ offset index, patches offset = some index → Fits instructions (offset, index)) :
    ∃ entries, Lists patches entries := by
  refine ⟨instructions.filterMap fun instruction =>
    (patches instruction.offset).map (instruction.offset, ·), ?_, fun offset index => ?_⟩
  · have increase := List.pairwise_map.mp tiles.offsets_increase
    refine List.pairwise_map.mpr (increase.filterMap _ ?_)
    intro instruction other before entry found otherEntry otherFound
    obtain ⟨_, _, rfl⟩ := Option.map_eq_some_iff.mp found
    obtain ⟨_, _, rfl⟩ := Option.map_eq_some_iff.mp otherFound
    exact Nat.ne_of_lt before
  · rw [List.mem_filterMap]
    constructor
    · rintro ⟨instruction, _, found⟩
      obtain ⟨_, patched, same⟩ := Option.map_eq_some_iff.mp found
      cases same
      exact patched
    · intro patched
      obtain ⟨instruction, member, rfl, _⟩ := fits offset index patched
      exact ⟨instruction, member, by rw [patched]; rfl⟩

/-- Patches in place can be applied in any order: the result is always the same, it consists of the
same instructions, the patched loads have their new indices, and all other bytes stay. -/
theorem patch_in_any_order (unit : EnumUnit)
    (decoded : Instruction.decodeAll code = .ok instructions)
    (fits : ∀ offset index, patches offset = some index → Fits instructions (offset, index)) :
    ∃ out, unit.repairCode code (patchedSites patches instructions) = .ok (out, none) ∧
      (∃ entries, Lists patches entries) ∧
      (∀ entries, Lists patches entries → Site.patchEntries entries code = .ok out) ∧
      Instruction.decodeAll out = .ok instructions ∧
      (∀ instruction ∈ instructions, ∀ index, patches instruction.offset = some index →
        instruction.loadIndex out = .ok index) ∧
      out.size = code.size ∧
      ∀ place, (∀ instruction ∈ instructions, (patches instruction.offset).isSome →
        place ≤ instruction.offset ∨ instruction.stop ≤ place) →
          Access.u1 out place = Access.u1 code place := by
  have tiles := Instruction.decodeAll_eq_ok.mp decoded
  have loads := isLoad_patchedSites tiles.decoded fun offset index patched => by
    obtain ⟨instruction, member, same, load, _⟩ := fits offset index patched
    exact ⟨instruction, member, same, load⟩
  have small : ∀ site ∈ patchedSites patches instructions, site.isWidened = false := by
    refine List.forall_mem_map.mpr fun instruction member => ?_
    refine Site.isWidened_of_fits fun narrow index patched => ?_
    obtain ⟨other, among, same, _, fit⟩ := fits _ index patched
    obtain rfl := tiles.eq_of_offset among member same
    exact fit narrow
  obtain ⟨out, done⟩ := Site.exists_patchAll (List.forall_mem_map.mpr tiles.decoded) loads rfl
  have inPlace := PatchedInPlace.of_patchAll tiles loads small done
  have anyOrder (entries : List (Nat × UInt16)) (lists : Lists patches entries) :
      Site.patchEntries entries code = .ok out := by
    obtain ⟨other, otherDone, otherInPlace⟩ :=
      (PatchedInPlace.refl decoded).patchEntries fun (offset, index) member =>
        fits offset index ((lists.mem_iff offset index).mp member)
    rw [lists.foldl_withEntry] at otherInPlace
    rw [otherDone, otherInPlace.unique inPlace tiles]
  have repaired : unit.repairCode code (patchedSites patches instructions) = .ok (out, none) := by
    have still : (patchedSites patches instructions).any Site.isWidened = false := by
      simpa using small
    rw [EnumUnit.repairCode, still]
    exact bind_eq_ok.mpr ⟨out, done, rfl⟩
  exact ⟨out, repaired, exists_lists tiles fits, anyOrder, inPlace.decoded,
    fun instruction member index patched => (inPlace.load instruction member index patched).2,
    inPlace.size, fun _ => inPlace.byte⟩

/-- A narrow, a wide and a double load are patched from the first to the last or the other way. -/
theorem patch_in_any_order_loads :
    let code : ByteArray := ⟨#[0x12, 1, 0x13, 0, 1, 0x14, 0, 3, 0xB1]⟩
    let out : ByteArray := ⟨#[0x12, 9, 0x13, 1, 44, 0x14, 0, 5, 0xB1]⟩
    let entries : List (Nat × UInt16) := [(0, 9), (2, 300), (5, 5)]
    let patches : Nat → Option UInt16 := fun offset =>
      if offset = 0 then some 9 else if offset = 2 then some 300
      else if offset = 5 then some 5 else none
    Lists patches entries ∧ Site.patchEntries entries code = .ok out ∧
      Lists patches entries.reverse ∧ Site.patchEntries entries.reverse code = .ok out := by
  intro code out entries patches
  let instructions : List Instruction := [⟨0, 0x12, 2, by decide⟩, ⟨2, 0x13, 3, by decide⟩,
    ⟨5, 0x14, 3, by decide⟩, ⟨8, 0xB1, 1, by decide⟩]
  have decoded : Instruction.decodeAll code = .ok instructions :=
    Instruction.decodeAll_eq_ok.mpr (.step rfl (.step rfl (.step rfl (.step rfl .done))))
  have lists : Lists patches entries := by
    refine ⟨by decide, fun offset index => ?_⟩
    simp only [entries, patches, List.mem_cons, List.not_mem_nil, Prod.mk.injEq]
    grind
  have reversed : Lists patches entries.reverse := by
    refine ⟨by decide, fun offset index => ?_⟩
    rw [List.mem_reverse, lists.mem_iff]
  have fits (offset : Nat) (index : UInt16) (patched : patches offset = some index) :
      Fits instructions (offset, index) := by
    have each : ∀ entry ∈ entries, Fits instructions entry := by
      simp only [entries, instructions, Fits]
      decide
    exact each _ ((lists.mem_iff offset index).mpr patched)
  obtain ⟨found, _, _, anyOrder, _⟩ := patch_in_any_order ⟨"Example", []⟩ decoded fits
  have inOrder : Site.patchEntries entries code = .ok out := by decide +kernel
  have same : found = out := Except.ok.inj ((anyOrder entries lists).symm.trans inOrder)
  exact ⟨lists, inOrder, reversed, same ▸ anyOrder _ reversed⟩

end Relocation

end EnumNames
