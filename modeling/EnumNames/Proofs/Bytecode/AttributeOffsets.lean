import EnumNames.Proofs.Bytecode.MovedFrames

/-!
The offsets that an attribute of some code names. Main statement: an attribute is moved exactly when
its body begins with a whole table whose offsets are all boundaries of the code.
-/

namespace EnumNames

variable {relocation : Relocation}

namespace Verification

/-- This is the offset that the item names. -/
def offset? : Verification → Option Nat
  | .uninitialized offset => some offset.toNat
  | _ => none

theorem exists_moves_iff (bounded : relocation.Bounded) (item : Verification) :
    (∃ moved, item.Moves relocation moved) ↔
      ∀ offset ∈ item.offset?, ∃ new, relocation.map offset = .ok new := by
  cases item with
  | simple tag => exact iff_of_true ⟨_, .simple tag⟩ (by simp [offset?])
  | object constant => exact iff_of_true ⟨_, .object constant⟩ (by simp [offset?])
  | uninitialized offset =>
    simp only [offset?, Option.mem_some_iff, forall_eq']
    constructor
    · rintro ⟨_, moves⟩
      cases moves with
      | uninitialized mapped => exact ⟨_, mapped⟩
    · rintro ⟨new, mapped⟩
      obtain ⟨moved, rfl⟩ := exists_toNat_eq (bounded _ _ mapped).2
      exact ⟨_, .uninitialized mapped⟩

end Verification

namespace Frame

/-- These are the offsets that the items of the frame name. -/
def offsets (frame : Frame) : List Nat := frame.items.filterMap Verification.offset?

theorem exists_moves_iff (bounded : relocation.Bounded) (frame : Frame) :
    (∃ moved, frame.Moves relocation moved) ↔
      ∀ offset ∈ frame.offsets, ∃ new, relocation.map offset = .ok new := by
  have items : (∀ offset ∈ frame.offsets, ∃ new, relocation.map offset = .ok new) ↔
      ∀ item ∈ frame.items, ∃ moved, item.Moves relocation moved := by
    simp only [Verification.exists_moves_iff bounded, offsets, List.mem_filterMap, Option.mem_def]
    constructor
    · intro all item member offset named
      exact all offset ⟨item, member, named⟩
    · rintro all offset ⟨item, member, named⟩
      exact all item member offset named
  rw [items]
  constructor
  · rintro ⟨moved, moves⟩
    exact exists_forall₂_iff.mp ⟨moved.items, moves.items⟩
  · intro each
    cases frame with
    | same => exact ⟨_, .same⟩
    | sameWithItem item =>
      obtain ⟨moved, moves⟩ := each item List.mem_cons_self
      exact ⟨_, .sameWithItem moves⟩
    | chop count => exact ⟨_, .chop count⟩
    | append items =>
      obtain ⟨moved, moves⟩ := exists_forall₂_iff.mpr each
      exact ⟨_, .append moves⟩
    | full locals stack =>
      obtain ⟨eachLocal, eachStack⟩ := List.forall_mem_append.mp each
      obtain ⟨newLocals, localMoves⟩ := exists_forall₂_iff.mpr eachLocal
      obtain ⟨newStack, stackMoves⟩ := exists_forall₂_iff.mpr eachStack
      exact ⟨_, .full localMoves stackMoves⟩

end Frame

namespace Relocation

/-- The frame before is further back in the new code as well, so the new distance exists. -/
theorem exists_frameDistance (bounded : relocation.Bounded) (increasing : relocation.Increasing)
    {previous : Option (Nat × Nat)}
    (mapped : ∀ offsets, previous = some offsets → relocation.map offsets.1 = .ok offsets.2)
    {distance new : Nat}
    (found : relocation.map (frameOffset (previous.map Prod.fst) distance) = .ok new) :
    ∃ moved : UInt16, new = frameOffset (previous.map Prod.snd) moved.toNat := by
  have small := (bounded _ _ found).2
  have ahead : frameBase (previous.map Prod.snd) ≤ new := by
    cases previous with
    | none => exact Nat.zero_le new
    | some offsets =>
      have before : offsets.1 < frameOffset (some offsets.1) distance := by
        rw [frameOffset]
        omega
      exact increasing _ _ _ _ (mapped offsets rfl) found before
  have fits : new - frameBase (previous.map Prod.snd) < 65536 := by omega
  obtain ⟨moved, same⟩ := exists_toNat_eq fits
  refine ⟨moved, ?_⟩
  rw [frameOffset_eq]
  omega

/-- The frames can be moved when everything that they name can be; the induction carries the offsets
of the frame before. -/
theorem exists_movesFrames_iff (bounded : relocation.Bounded) (increasing : relocation.Increasing)
    {previous : Option (Nat × Nat)}
    (mapped : ∀ offsets, previous = some offsets → relocation.map offsets.1 = .ok offsets.2)
    (olds : List WrittenFrame) :
    (∃ news : List WrittenFrame, (∀ new ∈ news, new.IsCanonical) ∧
      List.Forall₂ relocation.MovesFrame (WrittenFrame.placed (previous.map Prod.fst) olds)
        (WrittenFrame.placed (previous.map Prod.snd) news)) ↔
      ∀ placed ∈ WrittenFrame.placed (previous.map Prod.fst) olds,
        ∀ offset ∈ placed.1 :: placed.2.offsets, ∃ new, relocation.map offset = .ok new := by
  constructor
  · rintro ⟨news, _, all⟩ placed member
    obtain ⟨moved, moves⟩ := exists_forall₂_iff.mp ⟨_, all⟩ placed member
    rw [List.forall_mem_cons, ← Frame.exists_moves_iff bounded]
    exact ⟨⟨_, moves.offset⟩, _, moves.frame⟩
  · intro each
    induction olds generalizing previous with
    | nil => exact ⟨[], by simp, .nil⟩
    | cons old olds inductionHypothesis =>
      obtain ⟨first, others⟩ := List.forall_mem_cons.mp each
      rw [List.forall_mem_cons, ← Frame.exists_moves_iff bounded] at first
      obtain ⟨⟨new, found⟩, frame, moves⟩ := first
      obtain ⟨distance, rfl⟩ := exists_frameDistance bounded increasing mapped found
      have carried : ∀ offsets, some (frameOffset (previous.map Prod.fst) old.distance.toNat,
          frameOffset (previous.map Prod.snd) distance.toNat) = some offsets →
          relocation.map offsets.1 = .ok offsets.2 := by
        rintro _ ⟨⟩
        exact found
      obtain ⟨news, canonical, all⟩ := inductionHypothesis carried others
      have head := old.isCanonical_move moves distance
      exact ⟨old.move moves distance :: news, List.forall_mem_cons.mpr ⟨head, canonical⟩,
        .cons ⟨found, moves⟩ all⟩

theorem exists_movesLine_iff (bounded : relocation.Bounded) (row : LineRow) :
    (∃ new, relocation.MovesLine row new) ↔ ∃ new, relocation.map row.start.toNat = .ok new := by
  constructor
  · rintro ⟨new, moves⟩
    exact ⟨_, moves.start⟩
  · rintro ⟨new, mapped⟩
    obtain ⟨moved, rfl⟩ := exists_toNat_eq (bounded _ _ mapped).2
    exact ⟨⟨moved, row.line⟩, mapped, rfl⟩

/-- The new length exists because the ends keep their order. -/
theorem exists_movesVariable_iff (bounded : relocation.Bounded)
    (increasing : relocation.Increasing) (row : VariableRow) :
    (∃ new, relocation.MovesVariable row new) ↔
      ∀ offset ∈ [row.start.toNat, min row.stop 65535], ∃ new, relocation.map offset = .ok new := by
  simp only [List.forall_mem_cons, List.not_mem_nil, IsEmpty.forall_iff, implies_true, and_true]
  constructor
  · rintro ⟨new, moves⟩
    exact ⟨⟨_, moves.start⟩, _, moves.stop⟩
  · rintro ⟨⟨start, startMapped⟩, stop, stopMapped⟩
    have bound := row.start.toNat_lt
    have ordered : row.start.toNat ≤ min row.stop 65535 := by
      unfold VariableRow.stop
      omega
    have behind := increasing.le startMapped stopMapped ordered
    have fits : stop - start < 65536 :=
      Nat.lt_of_le_of_lt (Nat.sub_le _ _) (bounded _ _ stopMapped).2
    obtain ⟨newStart, rfl⟩ := exists_toNat_eq (bounded _ _ startMapped).2
    obtain ⟨newLength, same⟩ := exists_toNat_eq fits
    refine ⟨⟨newStart, newLength, row.name, row.descriptor, row.slot⟩, startMapped, ?_, rfl, rfl,
      rfl⟩
    rw [stopMapped, VariableRow.stop, same, Nat.add_sub_cancel' behind]

/-- A table can be moved when each of its rows can. -/
theorem exists_movesRows_iff {α : Type} {encode : α → ByteArray} {moves : α → α → Prop}
    {body : ByteArray} : (∃ moved, MovesRows encode moves body moved) ↔
      ∃ rows rest, body = encodeCounted encode rows ++ rest ∧ rows.length < 65536 ∧
        ∀ row ∈ rows, ∃ new, moves row new := by
  constructor
  · rintro ⟨_, olds, news, rest, all, fits, rfl, rfl⟩
    exact ⟨olds, rest, rfl, fits, exists_forall₂_iff.mp ⟨news, all⟩⟩
  · rintro ⟨rows, rest, rfl, fits, each⟩
    obtain ⟨news, all⟩ := exists_forall₂_iff.mpr each
    exact ⟨_, rows, news, rest, all, fits, rfl, rfl⟩

end Relocation

/-- What the body of an attribute that names offsets holds. -/
inductive OffsetTable where
  | lines (rows : List LineRow)
  | ranges (rows : List VariableRow)
  | frames (frames : List WrittenFrame)

namespace OffsetTable

/-- A range is taken to end at the largest offset of 16 bits when it would end behind it. -/
def offsets : OffsetTable → List Nat
  | lines rows => rows.map fun row => row.start.toNat
  | ranges rows => rows.flatMap fun row => [row.start.toNat, min row.stop 65535]
  | frames written =>
      (WrittenFrame.placed none written).flatMap fun placed => placed.1 :: placed.2.offsets

/-- The text holds the number of the rows and exactly so many rows. -/
def Fills (name : String) (text : ByteArray) : OffsetTable → Prop
  | lines rows => name = "LineNumberTable" ∧ rows.length < 65536 ∧
      text = encodeCounted LineRow.encode rows
  | ranges rows => (name = "LocalVariableTable" ∨ name = "LocalVariableTypeTable") ∧
      rows.length < 65536 ∧ text = encodeCounted VariableRow.encode rows
  | frames written => name = "StackMapTable" ∧ written.length < 65536 ∧
      text = encodeCounted WrittenFrame.encode written

end OffsetTable

namespace Relocation

theorem exists_lines_iff (bounded : relocation.Bounded) {body : ByteArray} :
    (∃ moved, relocation.attributeBody "LineNumberTable" body = .ok moved) ↔
      ∃ rows rest, body = encodeCounted LineRow.encode rows ++ rest ∧ rows.length < 65536 ∧
        ∀ offset ∈ (OffsetTable.lines rows).offsets, ∃ new, relocation.map offset = .ok new := by
  simp only [attributeBody_lines, exists_movesRows_iff, exists_movesLine_iff bounded,
    OffsetTable.offsets, List.forall_mem_map]

theorem exists_ranges_iff (bounded : relocation.Bounded) (increasing : relocation.Increasing)
    {name : String} (known : name = "LocalVariableTable" ∨ name = "LocalVariableTypeTable")
    {body : ByteArray} : (∃ moved, relocation.attributeBody name body = .ok moved) ↔
      ∃ rows rest, body = encodeCounted VariableRow.encode rows ++ rest ∧ rows.length < 65536 ∧
        ∀ offset ∈ (OffsetTable.ranges rows).offsets, ∃ new, relocation.map offset = .ok new := by
  simp only [attributeBody_variables bounded known, exists_movesRows_iff,
    exists_movesVariable_iff bounded increasing, OffsetTable.offsets, List.forall_mem_flatMap]

theorem exists_frames_iff (bounded : relocation.Bounded) (increasing : relocation.Increasing)
    {body : ByteArray} : (∃ moved, relocation.attributeBody "StackMapTable" body = .ok moved) ↔
      ∃ frames rest, body = encodeCounted WrittenFrame.encode frames ++ rest ∧
        frames.length < 65536 ∧
        ∀ offset ∈ (OffsetTable.frames frames).offsets, ∃ new, relocation.map offset = .ok new := by
  have movable := @exists_movesFrames_iff relocation bounded increasing none (by simp)
  simp only [Option.map_none] at movable
  simp only [attributeBody_frames, OffsetTable.offsets, List.forall_mem_flatMap, ← movable]
  constructor
  · rintro ⟨_, olds, news, rest, canonical, all, fits, rfl, rfl⟩
    exact ⟨olds, rest, rfl, fits, news, canonical, all⟩
  · rintro ⟨olds, rest, rfl, fits, news, canonical, all⟩
    exact ⟨_, olds, news, rest, canonical, all, fits, rfl, rfl⟩

/-- No other attribute is moved. -/
theorem known_of_attributeBody {name : String} {body moved : ByteArray}
    (done : relocation.attributeBody name body = .ok moved) : name = "LineNumberTable" ∨
      (name = "LocalVariableTable" ∨ name = "LocalVariableTypeTable") ∨ name = "StackMapTable" := by
  by_contra unknown
  simp only [not_or] at unknown
  obtain ⟨notLines, ⟨notVariables, notTypes⟩, notFrames⟩ := unknown
  simp only [attributeBody, attributeReader, notLines, notVariables, notTypes, notFrames, or_self,
    if_false] at done
  cases done

theorem exists_attributeBody_iff (bounded : relocation.Bounded)
    (increasing : relocation.Increasing) {name : String} {body : ByteArray} :
    (∃ moved, relocation.attributeBody name body = .ok moved) ↔
      ∃ text rest table, body = text ++ rest ∧ OffsetTable.Fills name text table ∧
        ∀ offset ∈ table.offsets, ∃ new, relocation.map offset = .ok new := by
  constructor
  · rintro ⟨moved, done⟩
    rcases known_of_attributeBody done with rfl | known | rfl
    · obtain ⟨rows, rest, same, fits, all⟩ := (exists_lines_iff bounded).mp ⟨moved, done⟩
      exact ⟨_, rest, .lines rows, same, ⟨rfl, fits, rfl⟩, all⟩
    · obtain ⟨rows, rest, same, fits, all⟩ :=
        (exists_ranges_iff bounded increasing known).mp ⟨moved, done⟩
      exact ⟨_, rest, .ranges rows, same, ⟨known, fits, rfl⟩, all⟩
    · obtain ⟨frames, rest, same, fits, all⟩ :=
        (exists_frames_iff bounded increasing).mp ⟨moved, done⟩
      exact ⟨_, rest, .frames frames, same, ⟨rfl, fits, rfl⟩, all⟩
  · rintro ⟨text, rest, table, rfl, fills, all⟩
    cases table with
    | lines rows =>
      obtain ⟨rfl, fits, rfl⟩ := fills
      exact (exists_lines_iff bounded).mpr ⟨rows, rest, rfl, fits, all⟩
    | ranges rows =>
      obtain ⟨known, fits, rfl⟩ := fills
      exact (exists_ranges_iff bounded increasing known).mpr ⟨rows, rest, rfl, fits, all⟩
    | frames frames =>
      obtain ⟨rfl, fits, rfl⟩ := fills
      exact (exists_frames_iff bounded increasing).mpr ⟨frames, rest, rfl, fits, all⟩

/-- Bytes behind the table are neither read nor written. -/
theorem attributeBody_append (bounded : relocation.Bounded) {name : String}
    {body moved : ByteArray} (done : relocation.attributeBody name body = .ok moved)
    (rest : ByteArray) : relocation.attributeBody name (body ++ rest) = .ok moved := by
  rcases known_of_attributeBody done with rfl | known | rfl
  · exact attributeBody_lines.mpr ((attributeBody_lines.mp done).append rest)
  · have ranges := (attributeBody_variables bounded known).mp done
    exact (attributeBody_variables bounded known).mpr (ranges.append rest)
  · exact attributeBody_frames.mpr ((attributeBody_frames.mp done).append rest)

/-- An attribute is moved exactly when its body begins with a whole table and all offsets that the
table names are boundaries of the code. Bytes behind the table are dropped. -/
theorem relocate_accepts_iff {unit : String} {code out : ByteArray}
    {patches : Nat → Option UInt16} {instructions : List Instruction}
    (decoded : Instruction.decodeAll code = .ok instructions)
    (done : relocate unit code (patchedSites patches instructions) = .ok (out, relocation))
    (name : String) (body : ByteArray) :
    ((∃ moved, relocation.attributeBody name body = .ok moved) ↔
      ∃ text rest table, body = text ++ rest ∧ OffsetTable.Fills name text table ∧
        ∀ offset ∈ table.offsets, Instruction.IsBoundary code instructions offset) ∧
    ∀ moved rest, relocation.attributeBody name body = .ok moved →
      relocation.attributeBody name (body ++ rest) = .ok moved := by
  have laysOut := laysOut_of_relocate decoded done
  refine ⟨?_, fun moved rest accepted => attributeBody_append laysOut.bounded accepted rest⟩
  simp only [exists_attributeBody_iff laysOut.bounded laysOut.increasing, laysOut.boundary]

/-- A table without a line is accepted with a byte behind it, and the byte is dropped. -/
theorem relocate_accepts_rest :
    let code : ByteArray := ⟨#[0xB1]⟩
    let instructions : List Instruction := [⟨0, 0xB1, 1, by decide⟩]
    let relocation : Relocation := ⟨"Example", #[some 0, some 1], 1⟩
    relocate "Example" code (patchedSites (fun _ => none) instructions) = .ok (code, relocation) ∧
      relocation.attributeBody "LineNumberTable" ⟨#[0, 0]⟩ = .ok ⟨#[0, 0]⟩ ∧
      relocation.attributeBody "LineNumberTable" (⟨#[0, 0]⟩ ++ ⟨#[255]⟩) = .ok ⟨#[0, 0]⟩ := by
  intro code instructions relocation
  have decoded : Instruction.decodeAll code = .ok instructions :=
    Instruction.decodeAll_eq_ok.mpr (.step rfl .done)
  have done : relocate "Example" code (patchedSites (fun _ => none) instructions) =
      .ok (code, relocation) :=
    relocate_eq_of_parts (by decide +kernel)
  have empty : relocation.attributeBody "LineNumberTable" ⟨#[0, 0]⟩ = .ok ⟨#[0, 0]⟩ := by
    decide +kernel
  exact ⟨done, empty, (relocate_accepts_iff decoded done _ _).2 _ _ empty⟩

/-- The accepted bytes are no whole table of lines. -/
theorem relocate_accepts_rest_unfilled :
    relocate "Example" ⟨#[0xB1]⟩ (patchedSites (fun _ => none) [⟨0, 0xB1, 1, by decide⟩]) =
        .ok (⟨#[0xB1]⟩, ⟨"Example", #[some 0, some 1], 1⟩) ∧
      attributeBody ⟨"Example", #[some 0, some 1], 1⟩ "LineNumberTable" ⟨#[0, 0, 255]⟩ =
        .ok ⟨#[0, 0]⟩ ∧
      ¬ ∃ table, OffsetTable.Fills "LineNumberTable" ⟨#[0, 0, 255]⟩ table := by
  refine ⟨relocate_eq_of_parts (by decide +kernel), by decide +kernel, ?_⟩
  rintro ⟨table, fills⟩
  cases table with
  | lines rows =>
    have sizes := congrArg ByteArray.size fills.2.2
    cases rows with
    | nil => simp [encodeCounted] at sizes
    | cons row rest =>
      simp [encodeCounted, LineRow.encode] at sizes
      omega
  | ranges rows => simp [OffsetTable.Fills] at fills
  | frames written => simp [OffsetTable.Fills] at fills

end Relocation

end EnumNames
