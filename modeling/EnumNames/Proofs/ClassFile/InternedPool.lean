import EnumNames.Proofs.Bytes.Stands
import EnumNames.Proofs.ClassFile.PoolExtension

/-!
A pool and its bytes. Whatever strings are interned, and whether or not there is room for them, the
count, the bytes that were read and the appended bytes are the written form of the pool.
-/

namespace EnumNames

/-- A cursor inside its bytes stands between two parts of them. -/
theorem Cursor.exists_between {cursor : Cursor} (inside : cursor.position ≤ cursor.bytes.size) :
    ∃ before after, cursor = .between before after := by
  obtain ⟨bytes, position⟩ := cursor
  obtain ⟨before, after, rfl, rfl⟩ := exists_append_of_le_size inside
  exact ⟨before, after, rfl⟩

namespace ConstantPool

/-- This is the pool that an edit leaves behind, whether it succeeds or fails. -/
def Edit.after {α : Type} (edit : Edit α) (pool : ConstantPool) : ConstantPool :=
  match edit pool with
  | .ok _ next => next
  | .error _ next => next

/-- The strings are interned one after the other, and a failure does not stop the later ones. -/
def internAll (pool : ConstantPool) (values : List String) : ConstantPool :=
  values.foldl (fun pool value => (intern value).after pool) pool

theorem append_eq_error {constant : Constant} {pool next : ConstantPool} {failure : Failure}
    (failed : append constant pool = .error failure next) : next = pool := by
  unfold append at failed
  split at failed
  · cases failed
  · cases failed
    rfl

theorem findOrAppendText_eq_error {text : String} {pool next : ConstantPool} {failure : Failure}
    (failed : findOrAppendText text pool = .error failure next) : next = pool := by
  unfold findOrAppendText at failed
  split at failed
  · cases failed
  · simp only at failed
    split at failed
    · exact append_eq_error failed
    · cases failed
      rfl

/-- A failed edit may have appended the text, and the pool then has its slot and its bytes. -/
theorem intern_eq_error {value : String} {pool next : ConstantPool} {failure : Failure}
    (fits : pool.count < 65536) (failed : intern value pool = .error failure next) :
    ∃ constants, Appended pool next constants ∧ next.count < 65536 := by
  unfold intern at failed
  split at failed
  · cases failed
  · rcases Edit.bind_eq_error failed with textFailed | ⟨text, middle, textDone, failed⟩
    · rw [findOrAppendText_eq_error textFailed]
      exact ⟨[], .none _, fits⟩
    · obtain ⟨texts, grown, room, _⟩ := findOrAppendText_eq_ok fits textDone
      rw [append_eq_error failed]
      exact ⟨texts, grown, room⟩

theorem intern_after (value : String) {pool : ConstantPool} (fits : pool.count < 65536) :
    ∃ constants, Appended pool ((intern value).after pool) constants ∧
      ((intern value).after pool).count < 65536 := by
  unfold Edit.after
  cases done : intern value pool with
  | ok index next =>
    obtain ⟨constants, grown, room, _⟩ := intern_eq_ok fits done
    exact ⟨constants, grown, room⟩
  | error failure next => exact intern_eq_error fits done

/-- The induction is on the strings; the pool grows with every one and stays below its limit. -/
theorem internAll_appended (values : List String) {pool : ConstantPool}
    (fits : pool.count < 65536) :
    ∃ constants, Appended pool (pool.internAll values) constants ∧
      (pool.internAll values).count < 65536 := by
  induction values generalizing pool with
  | nil => exact ⟨[], .none _, fits⟩
  | cons value rest inductionHypothesis =>
    obtain ⟨first, grown, room⟩ := intern_after value fits
    obtain ⟨later, further, limit⟩ := inductionHypothesis room
    exact ⟨first ++ later, grown.trans further, limit⟩

/-- A pool is read behind the bytes that its cursor has passed already. -/
theorem read_inside {cursor next : Cursor} {pool : ConstantPool}
    (parsed : read cursor = .ok pool next) : cursor.position ≤ cursor.bytes.size := by
  obtain ⟨offset, same, located, parsed⟩ := Reader.bind_eq_ok.mp parsed
  cases located
  obtain ⟨count, later, counted, _⟩ := Reader.bind_eq_ok.mp parsed
  unfold Reader.u2 at counted
  split at counted
  · omega
  · cases counted

/-- A pool that was read and then grew is read again from its count, the bytes of its first entries
and the appended bytes. -/
theorem read_internAll {cursor next : Cursor} {pool : ConstantPool} (values : List String)
    (parsed : read cursor = .ok pool next) :
    let grown := pool.internAll values
    let entries := cursor.bytes.extract (cursor.position + 2) next.position
    let bytes := BigEndian.encodeCount grown.count ++ entries ++ grown.appended
    grown.count < 65536 ∧
      read (.start bytes) = .ok ⟨grown.slots, .empty⟩ ⟨bytes, bytes.size⟩ := by
  intro grown entries bytes
  obtain ⟨before, rest, rfl⟩ := Cursor.exists_between (read_inside parsed)
  obtain ⟨_, after, rfl, rfl, constants, rfl, fits, rfl⟩ := (takes_read _ _ _ _).mp parsed
  obtain ⟨added, appended, room⟩ := internAll_appended values fits
  have first : entries = WrittenConstant.encode constants := by
    have stands : Stands (before ++ (BigEndian.encodeCount (ofConstants constants).count ++
        WrittenConstant.encode constants ++ after)) before.size _ := .between _ _ _
    have inner := (stands_append.mp stands).2.extract
    rw [BigEndian.size_encodeCount] at inner
    rw [← inner]
    simp only [entries, Cursor.between, ByteArray.size_append, BigEndian.size_encodeCount,
      Nat.add_assoc]
  have pool : (⟨grown.slots, .empty⟩ : ConstantPool) = ofConstants (constants ++ added) := by
    rw [appended.slots]
    rfl
  have whole : bytes = BigEndian.encodeCount (ofConstants (constants ++ added)).count ++
      WrittenConstant.encode (constants ++ added) := by
    have tail : grown.appended = WrittenConstant.encode added := by
      rw [appended.2]
      exact ByteArray.empty_append
    rw [← pool, WrittenConstant.encode_append, ← ByteArray.append_assoc, ← first, ← tail]
    rfl
  refine ⟨room, ?_⟩
  rw [pool, Cursor.start_eq_between]
  refine (takes_read _ _ _ _).mpr ⟨bytes, .empty, ByteArray.append_empty.symm, ?_, _, rfl, ?_, whole⟩
  · simp [Cursor.between]
  · rw [← pool]
    exact room

/-- The pool holds a number of two slots and a text. Of the interned strings one is written in a way
that is not UTF-8, and one is too long for any pool. -/
theorem read_internAll_example :
    let cursor : Cursor := ⟨⟨#[7, 0, 4, 5, 0, 0, 0, 0, 0, 0, 0, 9, 1, 0, 1, 65, 8]⟩, 1⟩
    let next : Cursor := { cursor with position := 16 }
    let pool : ConstantPool := ⟨#[none, some (.long 9), none, some (.utf8 "A")], .empty⟩
    let grown := pool.internAll
      ["A", "\x00😀", String.ofList (List.replicate 65536 'A'), "A"]
    let entries := cursor.bytes.extract (cursor.position + 2) next.position
    let bytes := BigEndian.encodeCount grown.count ++ entries ++ grown.appended
    read cursor = .ok pool next ∧ grown.count < 65536 ∧
      read (.start bytes) = .ok ⟨grown.slots, .empty⟩ ⟨bytes, bytes.size⟩ := by
  intro cursor next pool
  have parts : (match read cursor with
      | .ok found stop => some (found.slots, found.appended.data, stop.bytes.data, stop.position)
      | .error _ _ => none) = some (pool.slots, #[], cursor.bytes.data, 16) := by decide +kernel
  have parsed : read cursor = .ok pool next := by
    cases done : read cursor with
    | error failure stop =>
      rw [done] at parts
      cases parts
    | ok found stop =>
      obtain ⟨slots, ⟨appended⟩⟩ := found
      obtain ⟨⟨bytes⟩, position⟩ := stop
      rw [done] at parts
      cases parts
      rfl
  exact ⟨parsed, read_internAll _ parsed⟩

end ConstantPool

end EnumNames
