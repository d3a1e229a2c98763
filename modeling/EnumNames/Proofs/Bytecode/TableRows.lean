import EnumNames.Proofs.Bytecode.RelocationOrder
import EnumNames.Proofs.Bytes.Counted

/-!
The rows of the tables that name offsets of some code. A moved row names the new places of its old
offsets and is otherwise unchanged; a table is moved exactly when each of its rows is.
-/

namespace EnumNames

/-- A line of the source text starts at an offset. -/
structure LineRow where
  start : UInt16
  line : UInt16
  deriving DecidableEq, Repr

/-- A variable is found in its slot from an offset on, over a number of offsets. -/
structure VariableRow where
  start : UInt16
  length : UInt16
  name : UInt16
  descriptor : UInt16
  slot : UInt16
  deriving DecidableEq, Repr

namespace LineRow

def encode (row : LineRow) : ByteArray :=
  BigEndian.encode16 row.start ++ BigEndian.encode16 row.line

end LineRow

namespace VariableRow

/-- These are the bytes of a row that name no offset. -/
def fields (row : VariableRow) : ByteArray :=
  BigEndian.encode16 row.name ++ (BigEndian.encode16 row.descriptor ++
    BigEndian.encode16 row.slot)

def encode (row : VariableRow) : ByteArray :=
  BigEndian.encode16 row.start ++ (BigEndian.encode16 row.length ++ row.fields)

/-- This is the offset behind the range, however large it is. -/
def stop (row : VariableRow) : Nat := row.start.toNat + row.length.toNat

end VariableRow

/-- Any two bytes are a number. -/
theorem exists_encode16 {text : ByteArray} (size : text.size = 2) :
    ∃ number, text = BigEndian.encode16 number := by
  obtain ⟨⟨list⟩⟩ := text
  match list, size with
  | [high, low], _ => exact ⟨_, (BigEndian.encode16_decode16 high low).symm⟩

theorem exists_three_numbers {text : ByteArray} (size : text.size = 6) :
    ∃ first second third, text = BigEndian.encode16 first ++ (BigEndian.encode16 second ++
      BigEndian.encode16 third) := by
  obtain ⟨front, rest, rfl, frontSize⟩ :=
    exists_append_of_le_size (show 2 ≤ text.size by omega)
  obtain ⟨middle, last, rfl, middleSize⟩ :=
    exists_append_of_le_size (show 2 ≤ rest.size by simp at size; omega)
  have lastSize : last.size = 2 := by
    simp at size
    omega
  obtain ⟨first, rfl⟩ := exists_encode16 frontSize
  obtain ⟨second, rfl⟩ := exists_encode16 middleSize
  obtain ⟨third, rfl⟩ := exists_encode16 lastSize
  exact ⟨first, second, third, rfl⟩

namespace Relocation

variable {relocation : Relocation}

theorem map16_eq_ok_iff {old new : UInt16} :
    relocation.map16 old = .ok new ↔ relocation.map old.toNat = .ok new.toNat := by
  refine ⟨map16_eq_ok, fun mapped => ?_⟩
  rw [map16, mapped, ok_bind, if_pos new.toNat_lt, UInt16.ofNat_toNat, pure_eq_ok]

theorem toNat_rangeStop (start length : UInt16) :
    (rangeStop start length).toNat = min (start.toNat + length.toNat) 65535 := by
  have fits : min (start.toNat + length.toNat) 65535 < 65536 := by omega
  rw [rangeStop, UInt16.toNat_ofNat_of_lt' fits]

/-- The new length leads from the new start to the new end. -/
theorem rangeLength_eq_ok {start stop length : UInt16} :
    rangeLength start stop = .ok length ↔ stop.toNat = start.toNat + length.toNat := by
  unfold rangeLength
  constructor
  · intro done
    split at done
    · rename_i ordered
      cases done
      have difference := UInt16.toNat_sub_of_le _ _ ordered
      have bound := UInt16.le_iff_toNat_le.mp ordered
      omega
    · cases done
  · intro reaches
    have ordered : start ≤ stop := UInt16.le_iff_toNat_le.mpr (by omega)
    have same : stop - start = length := by
      apply UInt16.toNat_inj.mp
      rw [UInt16.toNat_sub_of_le _ _ ordered]
      omega
    rw [if_pos ordered, same]

/-- The type of the caught exception is kept. -/
structure MovesException (relocation : Relocation) (old new : ExceptionRow) : Prop where
  start : relocation.map old.start.toNat = .ok new.start.toNat
  stop : relocation.map old.stop.toNat = .ok new.stop.toNat
  handler : relocation.map old.handler.toNat = .ok new.handler.toNat
  catchType : new.catchType = old.catchType

structure MovesLine (relocation : Relocation) (old new : LineRow) : Prop where
  start : relocation.map old.start.toNat = .ok new.start.toNat
  line : new.line = old.line

/-- A range that would end behind the largest offset of 16 bits is taken to end there. -/
structure MovesVariable (relocation : Relocation) (old new : VariableRow) : Prop where
  start : relocation.map old.start.toNat = .ok new.start.toNat
  stop : relocation.map (min old.stop 65535) = .ok new.stop
  name : new.name = old.name
  descriptor : new.descriptor = old.descriptor
  slot : new.slot = old.slot

theorem exceptionRow_eq_ok {old new : ExceptionRow} :
    relocation.exceptionRow old = .ok new ↔ relocation.MovesException old new := by
  constructor
  · intro done
    obtain ⟨start, startMoved, done⟩ := bind_eq_ok.mp done
    obtain ⟨stop, stopMoved, done⟩ := bind_eq_ok.mp done
    obtain ⟨handler, handlerMoved, same⟩ := bind_eq_ok.mp done
    cases same
    exact ⟨map16_eq_ok startMoved, map16_eq_ok stopMoved, map16_eq_ok handlerMoved, rfl⟩
  · intro moves
    have start := map16_eq_ok_iff.mpr moves.start
    have stop := map16_eq_ok_iff.mpr moves.stop
    have handler := map16_eq_ok_iff.mpr moves.handler
    simp only [exceptionRow, start, stop, handler, ok_bind, pure_eq_ok, ← moves.catchType]

/-- What a reader of moved items takes, and what it writes for them. -/
def Rewrites {α : Type} (reader : Reader ByteArray) (encode : α → ByteArray)
    (moves : α → α → Prop) : Prop :=
  reader.Takes fun _ text bytes => ∃ old new, moves old new ∧ text = encode old ∧
    bytes = encode new

theorem rewrites_lineRow :
    Rewrites relocation.lineRow LineRow.encode relocation.MovesLine := by
  refine (Reader.takes_u2.bind fun start => Reader.takes_u2.bind fun line =>
    (Reader.takes_ofExcept (relocation.map16 start)).bind fun moved =>
      Reader.takes_pure (BigEndian.encode16 moved ++ BigEndian.encode16 line)).congr ?_
  intro _ text bytes
  constructor
  · rintro ⟨_, _, start, rfl, rfl, _, _, line, rfl, rfl, _, _, moved, rfl, ⟨rfl, mapped⟩, rfl, rfl⟩
    exact ⟨⟨start, line⟩, ⟨moved, line⟩, ⟨map16_eq_ok mapped, rfl⟩, by simp [LineRow.encode], rfl⟩
  · rintro ⟨old, new, moves, rfl, rfl⟩
    have found := map16_eq_ok_iff.mpr moves.start
    refine ⟨_, _, old.start, rfl, rfl, _, .empty, old.line, by simp, rfl, .empty, .empty, new.start,
      by simp, ⟨rfl, found⟩, rfl, ?_⟩
    rw [LineRow.encode, moves.line]

theorem rewrites_variableRow (bounded : relocation.Bounded) :
    Rewrites relocation.variableRow VariableRow.encode relocation.MovesVariable := by
  refine (Reader.takes_u2.bind fun start => Reader.takes_u2.bind fun length =>
    (Reader.takes_bytes 6).bind fun rest =>
    (Reader.takes_ofExcept (relocation.map16 start)).bind fun newStart =>
    (Reader.takes_ofExcept (relocation.map16 (rangeStop start length))).bind fun newStop =>
    (Reader.takes_ofExcept (rangeLength newStart newStop)).bind fun newLength =>
      Reader.takes_pure (BigEndian.encode16 newStart ++ BigEndian.encode16 newLength ++
        rest)).congr ?_
  intro _ text bytes
  constructor
  · rintro ⟨_, _, start, rfl, rfl, _, _, length, rfl, rfl, _, _, rest, rfl, ⟨size, rfl⟩, _, _,
      newStart, rfl, ⟨rfl, startMoved⟩, _, _, newStop, rfl, ⟨rfl, stopMoved⟩, _, _, newLength, rfl,
      ⟨rfl, reaches⟩, rfl, rfl⟩
    obtain ⟨name, descriptor, slot, rfl⟩ := exists_three_numbers size
    have stopMapped := map16_eq_ok stopMoved
    rw [toNat_rangeStop, rangeLength_eq_ok.mp reaches] at stopMapped
    refine ⟨⟨start, length, name, descriptor, slot⟩, ⟨newStart, newLength, name, descriptor, slot⟩,
      ⟨map16_eq_ok startMoved, stopMapped, rfl, rfl, rfl⟩, ?_, ?_⟩
    · simp [VariableRow.encode, VariableRow.fields]
    · simp [VariableRow.encode, VariableRow.fields, ByteArray.append_assoc]
  · rintro ⟨old, new, moves, rfl, rfl⟩
    have fits := (bounded _ _ moves.stop).2
    obtain ⟨newStop, stop⟩ := exists_toNat_eq fits
    have startMoved := map16_eq_ok_iff.mpr moves.start
    have stopMoved : relocation.map16 (rangeStop old.start old.length) = .ok newStop := by
      rw [map16_eq_ok_iff, toNat_rangeStop, stop]
      exact moves.stop
    have kept : new.fields = old.fields := by
      rw [VariableRow.fields, VariableRow.fields, moves.name, moves.descriptor, moves.slot]
    refine ⟨_, _, old.start, rfl, rfl, _, old.fields, old.length, rfl, rfl, old.fields, .empty,
      old.fields, by simp, ⟨rfl, rfl⟩, .empty, .empty, new.start, by simp, ⟨rfl, startMoved⟩,
      .empty, .empty, newStop, by simp, ⟨rfl, stopMoved⟩, .empty, .empty, new.length, by simp,
      ⟨rfl, rangeLength_eq_ok.mpr stop⟩, rfl, ?_⟩
    rw [VariableRow.encode, kept, ByteArray.append_assoc]

/-- The rows of a body become the rows of a moved body. Bytes behind the last row are not moved. -/
def MovesRows {α : Type} (encode : α → ByteArray) (moves : α → α → Prop)
    (body moved : ByteArray) : Prop :=
  ∃ olds news rest, List.Forall₂ moves olds news ∧ olds.length < 65536 ∧
    body = encodeCounted encode olds ++ rest ∧ moved = encodeCounted encode news

theorem MovesRows.mono {α : Type} {encode : α → ByteArray} {first second : α → α → Prop}
    {body moved : ByteArray} (rows : MovesRows encode first body moved)
    (implies : ∀ old new, first old new → second old new) :
    MovesRows encode second body moved := by
  obtain ⟨olds, news, rest, all, fits, same, written⟩ := rows
  exact ⟨olds, news, rest, all.imp implies, fits, same, written⟩

theorem MovesRows.append {α : Type} {encode : α → ByteArray} {moves : α → α → Prop}
    {body moved : ByteArray} (rows : MovesRows encode moves body moved) (behind : ByteArray) :
    MovesRows encode moves (body ++ behind) moved := by
  obtain ⟨olds, news, rest, all, fits, rfl, written⟩ := rows
  exact ⟨olds, news, rest ++ behind, all, fits, ByteArray.append_assoc, written⟩

/-- A table is moved row by row. -/
theorem takes_rows {α : Type} {row : Reader ByteArray} {encode : α → ByteArray}
    {moves : α → α → Prop} (rewrites : Rewrites row encode moves) :
    (rows row).Takes fun _ text bytes => ∃ olds news, List.Forall₂ moves olds news ∧
      olds.length < 65536 ∧ text = encodeCounted encode olds ∧
      bytes = encodeCounted encode news := by
  refine (Reader.takes_u2.bind fun count => (rewrites.pieces count.toNat).bind fun written =>
    Reader.takes_pure (BigEndian.encode16 count ++ concat written)).congr ?_
  intro _ text bytes
  simp only [forall₂_moved]
  constructor
  · rintro ⟨_, _, count, rfl, rfl, _, _, _, rfl, ⟨_, ⟨olds, news, all, rfl, rfl⟩, length, rfl⟩, rfl,
      rfl⟩
    rw [List.length_map] at length
    obtain ⟨_, newCount⟩ := Reader.counted_iff.mp length
    rw [← all.length_eq] at length
    obtain ⟨fits, oldCount⟩ := Reader.counted_iff.mp length
    refine ⟨olds, news, all, fits, ?_, ?_⟩
    · simp [encodeCounted, oldCount]
    · simp [encodeCounted, newCount]
  · rintro ⟨olds, news, all, fits, rfl, rfl⟩
    have length : olds.length = (UInt16.ofNat olds.length).toNat :=
      Reader.counted_iff.mpr ⟨fits, rfl⟩
    refine ⟨_, _, _, rfl, rfl, _, .empty, news.map encode, by simp, ⟨_, ⟨olds, news, all, rfl, rfl⟩,
      ?_, rfl⟩, rfl, ?_⟩
    · rw [List.length_map, ← all.length_eq]
      exact length
    · rw [encodeCounted, ← all.length_eq]
      rfl

theorem evaluate_rows {α : Type} {row : Reader ByteArray} {encode : α → ByteArray}
    {moves : α → α → Prop} (rewrites : Rewrites row encode moves) {body moved : ByteArray} :
    (rows row).evaluate body = .ok moved ↔ MovesRows encode moves body moved := by
  rw [(takes_rows rewrites).evaluate_iff]
  constructor
  · rintro ⟨_, rest, rfl, olds, news, all, fits, rfl, rfl⟩
    exact ⟨olds, news, rest, all, fits, rfl, rfl⟩
  · rintro ⟨olds, news, rest, all, fits, rfl, rfl⟩
    exact ⟨_, rest, rfl, olds, news, all, fits, rfl, rfl⟩

theorem attributeBody_lines {body moved : ByteArray} :
    relocation.attributeBody "LineNumberTable" body = .ok moved ↔
      MovesRows LineRow.encode relocation.MovesLine body moved := by
  rw [← evaluate_rows rewrites_lineRow]
  simp [attributeBody, attributeReader]

/-- Both tables have rows of the same form. -/
theorem attributeBody_variables (bounded : relocation.Bounded) {name : String}
    (known : name = "LocalVariableTable" ∨ name = "LocalVariableTypeTable")
    {body moved : ByteArray} : relocation.attributeBody name body = .ok moved ↔
      MovesRows VariableRow.encode relocation.MovesVariable body moved := by
  rw [← evaluate_rows (rewrites_variableRow bounded)]
  rcases known with rfl | rfl <;> simp [attributeBody, attributeReader]

end Relocation

end EnumNames
