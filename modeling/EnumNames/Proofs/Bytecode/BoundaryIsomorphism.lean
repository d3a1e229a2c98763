import EnumNames.Proofs.Bytecode.Boundaries
import EnumNames.Proofs.Bytes.Counted
import Mathlib.Order.Hom.Set

/-!
The boundaries of two codes. Main statement: a relocation maps the boundaries of the old code onto
those of the new code, one by one and in their order, and it refuses any other offset. The list of
the old starts increases, so an offset is found in it by halving.
-/

namespace EnumNames

section Halving

variable {numbers : List Nat} {sought low high : Nat}

/-- The place of a number among increasing numbers is searched for between two places. -/
def findBetween (numbers : List Nat) (sought low high : Nat) : Option Nat :=
  if low < high then
    let middle := low + (high - low) / 2
    match numbers[middle]? with
    | none => none
    | some number =>
      if number = sought then some middle
      else if number < sought then findBetween numbers sought (middle + 1) high
      else findBetween numbers sought low middle
  else none
termination_by high - low

/-- Increasing numbers are ordered like their places. -/
theorem place_lt_iff (increasing : numbers.Pairwise (· < ·)) {place later number greater : Nat}
    (found : numbers[place]? = some number) (foundLater : numbers[later]? = some greater) :
    place < later ↔ number < greater := by
  obtain ⟨bound, rfl⟩ := List.getElem?_eq_some_iff.mp found
  obtain ⟨laterBound, rfl⟩ := List.getElem?_eq_some_iff.mp foundLater
  have ordered := List.pairwise_iff_getElem.mp increasing
  constructor
  · exact ordered place later bound laterBound
  · intro less
    by_contra behind
    rcases Nat.eq_or_lt_of_le (Nat.not_lt.mp behind) with rfl | before
    · exact Nat.lt_irrefl _ less
    · exact Nat.lt_asymm less (ordered later place laterBound bound before)

/-- The half that is left out does not contain the number. -/
theorem findBetween_eq_some (increasing : numbers.Pairwise (· < ·)) (inside : high ≤ numbers.length)
    (place : Nat) : findBetween numbers sought low high = some place ↔
      low ≤ place ∧ place < high ∧ numbers[place]? = some sought := by
  fun_induction findBetween numbers sought low high with
  | case1 low high more middle missing =>
    have bound := List.getElem?_eq_none_iff.mp missing
    omega
  | case2 low high more middle found =>
    rw [Option.some.injEq]
    constructor
    · rintro rfl
      exact ⟨by omega, by omega, found⟩
    · rintro ⟨_, _, same⟩
      have front := place_lt_iff increasing same found
      have behind := place_lt_iff increasing found same
      omega
  | case3 low high more middle number found other less inductionHypothesis =>
    rw [inductionHypothesis inside]
    refine ⟨fun ⟨_, below, same⟩ => ⟨by omega, below, same⟩, fun ⟨_, below, same⟩ => ?_⟩
    exact ⟨(place_lt_iff increasing found same).mpr less, below, same⟩
  | case4 low high more middle number found other notLess inductionHypothesis =>
    rw [inductionHypothesis (by omega)]
    refine ⟨fun ⟨above, _, same⟩ => ⟨above, by omega, same⟩, fun ⟨above, _, same⟩ => ?_⟩
    exact ⟨above, (place_lt_iff increasing same found).mpr (by omega), same⟩
  | case5 low high ended =>
    constructor
    · exact nofun
    · omega

end Halving

/-- The first site is placed at the start, and so is the end of the code when there is no site. -/
theorem Site.Tile.placed_first {code : ByteArray} {old : Nat} {sites : List Site}
    (tile : Tile code old sites) (start : Nat) : (∃ placed ∈ placeFrom start sites,
      placed.site.instruction.offset = old ∧ placed.start = start) ∨
        (code.size = old ∧ endFrom start sites = start) := by
  cases tile with
  | done => exact .inr ⟨rfl, rfl⟩
  | next decoded tile => exact .inl ⟨_, List.mem_cons_self, rfl, rfl⟩

namespace Relocation

variable {unit : String} {code out : ByteArray} {relocation : Relocation}
  {instructions moved : List Instruction}

/-- An offset that is not mapped is refused. -/
theorem map_eq_error {old : Nat} (unmapped : ¬ ∃ new, relocation.map old = .ok new) :
    relocation.map old = .error (.relocation relocation.unit (.notBoundary old)) := by
  unfold map at unmapped ⊢
  split at unmapped
  · exact absurd ⟨_, rfl⟩ unmapped
  · rfl

/-- The end of the code is compared first, and then the offset is searched for in the old starts;
the new start has the same place in its list. -/
def lookUp (unit : String) (starts newStarts : List Nat) (stop newStop old : Nat) :
    Except Failure Nat :=
  if old = stop then .ok newStop
  else match (findBetween starts old 0 starts.length).bind (newStarts[·]?) with
    | some new => .ok new
    | none => refuse unit (.notBoundary old)

/-- The search is complete, so an offset that is not found is no start. -/
theorem map_eq_lookUp {starts newStarts : List Nat} {stop newStop : Nat}
    (increasing : starts.Pairwise (· < ·))
    (mapped : List.Forall₂ (fun old new => relocation.map old = .ok new) starts newStarts)
    (ends : relocation.map stop = .ok newStop)
    (defined : ∀ old new, relocation.map old = .ok new → old ∈ starts ∨ old = stop) (old : Nat) :
    relocation.map old = lookUp relocation.unit starts newStarts stop newStop old := by
  obtain ⟨lengths, each⟩ := List.forall₂_iff_get.mp mapped
  have search (place : Nat) : findBetween starts old 0 starts.length = some place ↔
      starts[place]? = some old := by
    rw [findBetween_eq_some increasing (Nat.le_refl _), and_iff_right (Nat.zero_le _)]
    exact and_iff_right_of_imp fun found => (List.getElem?_eq_some_iff.mp found).1
  unfold lookUp
  split
  · rename_i atStop
    rw [atStop, ends]
  · rename_i inside
    split
    · rename_i new found
      obtain ⟨place, foundOld, foundNew⟩ := Option.bind_eq_some_iff.mp found
      obtain ⟨bound, rfl⟩ := List.getElem?_eq_some_iff.mp ((search place).mp foundOld)
      obtain ⟨newBound, rfl⟩ := List.getElem?_eq_some_iff.mp foundNew
      exact each place bound newBound
    · rename_i missing
      apply map_eq_error
      rintro ⟨new, same⟩
      obtain ⟨place, found⟩ :=
        List.mem_iff_getElem?.mp ((defined old new same).resolve_right inside)
      have bound := (List.getElem?_eq_some_iff.mp found).1
      rw [(search place).mpr found, Option.bind_some, List.getElem?_eq_none_iff] at missing
      omega

/-- The relocation puts the boundaries of the old code and those of the new code in a
correspondence that keeps their order. -/
structure MapsBoundaries (relocation : Relocation) (code out : ByteArray)
    (instructions moved : List Instruction) : Prop where
  defined : ∀ old : Nat,
    (∃ new, relocation.map old = .ok new) ↔ Instruction.IsBoundary code instructions old
  refused : ∀ old : Nat, ¬ Instruction.IsBoundary code instructions old →
    relocation.map old = .error (.relocation relocation.unit (.notBoundary old))
  onto : ∀ new : Nat,
    (∃ old, relocation.map old = .ok new) ↔ Instruction.IsBoundary out moved new
  increasing : relocation.Increasing
  first : relocation.map 0 = .ok 0
  last : relocation.map code.size = .ok relocation.newLength
  length : relocation.newLength = out.size
  found : ∀ old : Nat, relocation.map old = lookUp relocation.unit
    (instructions.map Instruction.offset) (moved.map Instruction.offset) code.size
    relocation.newLength old

/-- The starts of the old and of the new instructions correspond one by one. -/
def MapsStarts (relocation : Relocation) (instructions moved : List Instruction) : Prop :=
  List.Forall₂ (fun old new => relocation.map old.offset = .ok new.offset) instructions moved

/-- What is mapped to a boundary of the new code is a boundary of the old code, and conversely. -/
theorem LaysOut.onto (laysOut : relocation.LaysOut code instructions)
    (starts : relocation.MapsStarts instructions moved)
    (last : relocation.map code.size = .ok out.size) (new : Nat) :
    (∃ old, relocation.map old = .ok new) ↔ Instruction.IsBoundary out moved new := by
  constructor
  · rintro ⟨old, mapped⟩
    rcases (laysOut.boundary old).mp ⟨new, mapped⟩ with ⟨instruction, member, same⟩ | same
    · obtain ⟨next, _, among, start⟩ :=
        exists_forall₂_iff.mp ⟨moved, forall₂_mem starts⟩ instruction member
      rw [Int.ofNat_inj.mp same, mapped] at start
      exact .inl ⟨next, among, congrArg Int.ofNat (Except.ok.inj start).symm⟩
    · rw [Int.ofNat_inj.mp same, mapped] at last
      exact .inr (congrArg Int.ofNat (Except.ok.inj last).symm)
  · rintro (⟨next, among, same⟩ | same)
    · obtain ⟨instruction, _, _, start⟩ :=
        exists_forall₂_iff.mp ⟨instructions, forall₂_mem starts.flip⟩ next among
      exact ⟨instruction.offset, Int.ofNat_inj.mp same ▸ start⟩
    · exact ⟨code.size, Int.ofNat_inj.mp same ▸ last⟩

/-- A mapping of boundaries that keeps their order is an isomorphism of orders. -/
theorem MapsBoundaries.exists_orderIso
    (boundaries : relocation.MapsBoundaries code out instructions moved) :
    ∃ iso : {old : Nat // Instruction.IsBoundary code instructions old} ≃o
        {new : Nat // Instruction.IsBoundary out moved new},
      ∀ old, relocation.map old.val = .ok (iso old).val := by
  have each (old : {old : Nat // Instruction.IsBoundary code instructions old}) :
      ∃ new : {new : Nat // Instruction.IsBoundary out moved new},
        relocation.map old.val = .ok new.val := by
    obtain ⟨new, mapped⟩ := (boundaries.defined old.val).mpr old.property
    exact ⟨⟨new, (boundaries.onto new).mp ⟨old.val, mapped⟩⟩, mapped⟩
  choose forward mapped using each
  have strict : StrictMono forward := fun old later before =>
    boundaries.increasing _ _ _ _ (mapped old) (mapped later) before
  have onto : Function.Surjective forward := by
    intro new
    obtain ⟨old, same⟩ := (boundaries.onto new.val).mpr new.property
    refine ⟨⟨old, (boundaries.defined old).mp ⟨new.val, same⟩⟩, Subtype.ext ?_⟩
    exact Except.ok.inj ((mapped _).symm.trans same)
  exact ⟨strict.orderIsoOfSurjective forward onto, mapped⟩

/-- The starts of the old instructions increase, and the boundaries are those starts and the end. -/
theorem LaysOut.map_eq_lookUp (laysOut : relocation.LaysOut code instructions)
    (tiles : Instruction.Tiles code 0 instructions)
    (starts : relocation.MapsStarts instructions moved)
    (last : relocation.map code.size = .ok out.size) (old : Nat) :
    relocation.map old = lookUp relocation.unit (instructions.map Instruction.offset)
      (moved.map Instruction.offset) code.size out.size old := by
  refine Relocation.map_eq_lookUp tiles.offsets_increase ?_ last ?_ old
  · rw [List.forall₂_map_left_iff, List.forall₂_map_right_iff]
    exact starts
  · intro old new mapped
    rcases (laysOut.boundary old).mp ⟨new, mapped⟩ with ⟨instruction, member, same⟩ | same
    · exact .inl (List.mem_map.mpr ⟨instruction, member, Int.ofNat_inj.mp same⟩)
    · exact .inr (Int.ofNat_inj.mp same).symm

/-- A relocation of code is an isomorphism between the boundaries of the old and the new code. -/
theorem relocate_maps_boundaries {patches : Nat → Option UInt16}
    (decoded : Instruction.decodeAll code = .ok instructions)
    (loads : ∀ offset index, patches offset = some index → ∃ instruction ∈ instructions,
      instruction.offset = offset ∧ (instruction.opcode = Opcode.loadConstant ∨
        instruction.opcode = Opcode.loadConstantWide))
    (done : relocate unit code (patchedSites patches instructions) = .ok (out, relocation)) :
    ∃ moved, Instruction.decodeAll out = .ok moved ∧
      relocation.MapsBoundaries code out instructions moved ∧ relocation.unit = unit ∧
      ∃ iso : {old : Nat // Instruction.IsBoundary code instructions old} ≃o
          {new : Nat // Instruction.IsBoundary out moved new},
        ∀ old, relocation.map old.val = .ok (iso old).val := by
  have tiles := Instruction.decodeAll_eq_ok.mp decoded
  have tile : Site.Tile code 0 (patchedSites patches instructions) := tile_patchedSites tiles
  have isLoad := isLoad_patchedSites tiles.decoded fun offset index patched => by
    obtain ⟨instruction, member, same, kind⟩ := loads offset index patched
    refine ⟨instruction, member, same, ?_⟩
    rcases kind with narrow | wide
    · exact narrow ▸ by decide
    · exact wide ▸ by decide
  have laysOut := laysOut_of_relocate decoded done
  obtain ⟨same, _, size, moved, movedDecoded, all⟩ := relocate_eq_ok tile isLoad done
  have length : relocation.newLength = out.size := by
    rw [same, size]
    rfl
  have first : relocation.map 0 = .ok 0 := by
    rw [same, map_eq_ok tile]
    exact tile.placed_first 0
  have last : relocation.map code.size = .ok out.size := by
    rw [same, size, map_eq_ok tile]
    exact .inr ⟨rfl, rfl⟩
  have starts : relocation.MapsStarts instructions moved := by
    rw [patchedSites, List.forall₂_map_left_iff] at all
    exact all.imp fun _ _ both => both.1
  have boundaries : relocation.MapsBoundaries code out instructions moved := {
    defined := laysOut.boundary
    refused := fun old outside => map_eq_error ((laysOut.boundary old).not.mpr outside)
    onto := laysOut.onto starts last
    increasing := laysOut.increasing
    first
    last := length ▸ last
    length
    found := length ▸ laysOut.map_eq_lookUp tiles starts last }
  exact ⟨moved, movedDecoded, boundaries, same ▸ rfl, boundaries.exists_orderIso⟩

/-- The load grows by one byte, and the switch behind it loses its padding: what lies behind the
switch stays where it is. -/
theorem relocate_maps_boundaries_switch :
    let code : ByteArray :=
      ⟨#[0x12, 1, 0xAA, 0, 0, 0, 0, 18, 0, 0, 0, 1, 0, 0, 0, 1, 0, 0, 0, 18, 0xB1]⟩
    let instructions : List Instruction :=
      [⟨0, 0x12, 2, by decide⟩, ⟨2, 0xAA, 18, by decide⟩, ⟨20, 0xB1, 1, by decide⟩]
    let patches : Nat → Option UInt16 := fun offset => if offset = 0 then some 300 else none
    let out : ByteArray :=
      ⟨#[0x13, 1, 44, 0xAA, 0, 0, 0, 17, 0, 0, 0, 1, 0, 0, 0, 1, 0, 0, 0, 17, 0xB1]⟩
    let relocation : Relocation := ⟨"Example", #[some 0, none, some 3] ++
      Array.replicate 17 none ++ #[some 20, some 21], 21⟩
    relocate "Example" code (patchedSites patches instructions) = .ok (out, relocation) ∧
      ∃ moved, relocation.MapsBoundaries code out instructions moved := by
  intro code instructions patches out relocation
  have decoded : Instruction.decodeAll code = .ok instructions :=
    Instruction.decodeAll_eq_ok.mpr (.step rfl (.step (by decide +kernel) (.step rfl .done)))
  have loads (offset : Nat) (index : UInt16) (patched : patches offset = some index) :
      ∃ instruction ∈ instructions, instruction.offset = offset ∧
        (instruction.opcode = Opcode.loadConstant ∨
          instruction.opcode = Opcode.loadConstantWide) := by
    by_cases here : offset = 0
    · subst here
      exact ⟨⟨0, 0x12, 2, by decide⟩, by simp [instructions], rfl, .inl rfl⟩
    · simp [patches, here] at patched
  have done : relocate "Example" code (patchedSites patches instructions) =
      .ok (out, relocation) :=
    relocate_eq_of_parts (by decide +kernel)
  obtain ⟨moved, _, boundaries, _, _⟩ := relocate_maps_boundaries decoded loads done
  exact ⟨done, moved, boundaries⟩

end Relocation

end EnumNames
