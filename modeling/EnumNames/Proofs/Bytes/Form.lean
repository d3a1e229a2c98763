import EnumNames.Bytes.Cursor

/-!
What a reader takes from the bytes in front of it. A form relates the offset of some bytes, the
bytes and the value they stand for; a reader takes a form when it succeeds on exactly these bytes
and consumes no others.
-/

namespace EnumNames

namespace BigEndian

theorem encode16_decode16 (high low : UInt8) : encode16 (decode16 high low) = ⟨#[high, low]⟩ := by
  have highBound := high.toNat_lt
  have lowBound := low.toNat_lt
  have number : (decode16 high low).toNat = high.toNat * 256 + low.toNat := by
    simp only [decode16, UInt16.toNat_ofNat']
    omega
  have first : UInt8.ofNat ((decode16 high low).toNat / 256) = high := by
    apply UInt8.toNat_inj.mp
    rw [number, UInt8.toNat_ofNat']
    omega
  have second : UInt8.ofNat (decode16 high low).toNat = low := by
    apply UInt8.toNat_inj.mp
    rw [number, UInt8.toNat_ofNat']
    omega
  rw [encode16, first, second]

theorem encode32_decode32 (first second third fourth : UInt8) :
    encode32 (decode32 first second third fourth) = ⟨#[first, second, third, fourth]⟩ := by
  have firstBound := first.toNat_lt
  have secondBound := second.toNat_lt
  have thirdBound := third.toNat_lt
  have fourthBound := fourth.toNat_lt
  have number : (decode32 first second third fourth).toNat =
      ((first.toNat * 256 + second.toNat) * 256 + third.toNat) * 256 + fourth.toNat := by
    simp only [decode32, UInt32.toNat_ofNat']
    omega
  have digit (power : Nat) (byte : UInt8)
      (same : (decode32 first second third fourth).toNat / power % 256 = byte.toNat) :
      UInt8.ofNat ((decode32 first second third fourth).toNat / power) = byte := by
    apply UInt8.toNat_inj.mp
    rw [UInt8.toNat_ofNat']
    exact same
  have last := digit 1 fourth (by rw [number]; omega)
  rw [Nat.div_one] at last
  rw [encode32, digit 0x1000000 first (by rw [number]; omega),
    digit 0x10000 second (by rw [number]; omega), digit 256 third (by rw [number]; omega), last]

theorem encode16_injective : Function.Injective encode16 := by
  intro first second same
  simp only [encode16, ByteArray.mk.injEq, Array.mk.injEq, List.cons.injEq, and_true] at same
  rw [← decode16_encode16 first, ← decode16_encode16 second, same.1, same.2]

theorem encode32_injective : Function.Injective encode32 := by
  intro first second same
  simp only [encode32, ByteArray.mk.injEq, Array.mk.injEq, List.cons.injEq, and_true] at same
  rw [← decode32_encode32 first, ← decode32_encode32 second, same.1, same.2.1, same.2.2.1,
    same.2.2.2]

end BigEndian

/-- A property of bytes can be checked for their numbers. -/
theorem forall_byte {motive : UInt8 → Prop}
    (each : ∀ number : Fin 256, motive (UInt8.ofNat number)) (byte : UInt8) : motive byte := by
  have checked := each ⟨byte.toNat, byte.toNat_lt⟩
  rwa [UInt8.ofNat_toNat] at checked

@[simp] theorem size_mk (list : List UInt8) : (⟨⟨list⟩⟩ : ByteArray).size = list.length := rfl

@[simp] theorem getElem_mk (list : List UInt8) (index : Nat) (inside : index < list.length) :
    getElem (⟨⟨list⟩⟩ : ByteArray) index inside = list[index] := rfl

/-- Bytes that are long enough have a first part of any given size. -/
theorem exists_append_of_le_size {bytes : ByteArray} {size : Nat} (enough : size ≤ bytes.size) :
    ∃ first second : ByteArray, bytes = first ++ second ∧ first.size = size := by
  refine ⟨bytes.extract 0 size, bytes.extract size bytes.size, ?_, ?_⟩
  · rw [ByteArray.extract_append_extract, Nat.min_eq_left (Nat.zero_le _),
      Nat.max_eq_right enough, ByteArray.extract_zero_size]
  · rw [ByteArray.size_extract, Nat.min_eq_left enough, Nat.sub_zero]

/-- The bytes between two others are found behind the first ones. -/
theorem extract_middle (before text after : ByteArray) :
    (before ++ (text ++ after)).extract before.size (before.size + text.size) = text := by
  rw [ByteArray.extract_append, ByteArray.extract_eq_empty_iff.mpr (by omega),
    ByteArray.empty_append, Nat.sub_self, Nat.add_sub_cancel_left,
    ByteArray.extract_append_eq_left rfl]

/-- A form relates the offset of some bytes, the bytes, and the value they stand for. -/
abbrev Form (α : Type) := Nat → ByteArray → α → Prop

namespace Form

variable {α β : Type}

/-- The second form follows the first one, and may depend on its value. -/
def followedBy (head : Form α) (tail : α → Form β) : Form β := fun start text value =>
  ∃ left right middle, text = left ++ right ∧ head start left middle ∧
    tail middle (start + left.size) right value

/-- Each value is written in one way, and made into another value. -/
def valued (encode : α → ByteArray) (make : α → β) : Form β := fun _ text made =>
  ∃ value, text = encode value ∧ made = make value

/-- The items follow one another without a gap. -/
def repeated (item : Form α) : Nat → Form (List α)
  | 0 => fun _ text values => text = .empty ∧ values = []
  | count + 1 => fun start text values =>
    ∃ left right value rest, text = left ++ right ∧ values = value :: rest ∧
      item start left value ∧ repeated item count (start + left.size) right rest

end Form

namespace Cursor

/-- This cursor stands between the bytes it has passed and the bytes it can still read. -/
def between (before after : ByteArray) : Cursor := ⟨before ++ after, before.size⟩

theorem start_eq_between (bytes : ByteArray) : start bytes = between .empty bytes := by
  simp [start, between]

@[simp] theorem position_between (before after : ByteArray) :
    (between before after).position = before.size := rfl

@[simp] theorem remaining_between (before after : ByteArray) :
    (between before after).remaining = after.size := by
  simp [between, remaining]

theorem advance_between (before text after : ByteArray) :
    (between before (text ++ after)).advance text.size = between (before ++ text) after := by
  simp [between, advance, ByteArray.append_assoc]

end Cursor

namespace Reader

variable {α β : Type}

/-- A reader takes a form when it succeeds on exactly the bytes of the form, whatever surrounds
them. -/
def Takes (reader : Reader α) (form : Form α) : Prop :=
  ∀ before rest value next, reader (.between before rest) = .ok value next ↔
    ∃ text after, rest = text ++ after ∧ next = .between (before ++ text) after ∧
      form before.size text value

theorem Takes.congr {reader : Reader α} {first second : Form α} (takes : reader.Takes first)
    (same : ∀ start text value, first start text value ↔ second start text value) :
    reader.Takes second := by
  intro before rest value next
  simp only [takes before rest value next, same]

theorem bind_apply (first : Reader α) (second : α → Reader β) (cursor : Cursor) :
    (first >>= second) cursor =
      match first cursor with
      | .ok value next => second value next
      | .error failure next => .error failure next := by
  change EStateM.bind first second cursor = _
  unfold EStateM.bind
  cases first cursor <;> rfl

theorem bind_eq_ok {first : Reader α} {second : α → Reader β} {cursor next : Cursor} {value : β} :
    (first >>= second) cursor = .ok value next ↔
      ∃ middle between, first cursor = .ok middle between ∧
        second middle between = .ok value next := by
  rw [bind_apply]
  cases first cursor with
  | ok middle between =>
    constructor
    · intro same
      exact ⟨middle, between, rfl, same⟩
    · rintro ⟨_, _, same, rest⟩
      cases same
      exact rest
  | error failure between => simp

theorem takes_pure (value : α) :
    (pure value : Reader α).Takes fun _ text found => text = .empty ∧ found = value := by
  intro before rest found next
  change EStateM.Result.ok value _ = _ ↔ _
  constructor
  · intro same
    cases same
    exact ⟨.empty, rest, by simp, by simp, rfl, rfl⟩
  · rintro ⟨text, after, rfl, rfl, rfl, rfl⟩
    simp

theorem takes_position : position.Takes fun start text found => text = .empty ∧ found = start := by
  intro before rest found next
  change EStateM.Result.ok before.size _ = _ ↔ _
  constructor
  · intro same
    cases same
    exact ⟨.empty, rest, by simp, by simp, rfl, rfl⟩
  · rintro ⟨text, after, rfl, rfl, rfl, rfl⟩
    simp

/-- A reader that always fails takes nothing. -/
theorem takes_of_error {reader : Reader α}
    (fails : ∀ cursor, ∃ failure next, reader cursor = .error failure next) :
    reader.Takes fun _ _ _ => False := by
  intro before rest value next
  obtain ⟨failure, other, failed⟩ := fails (.between before rest)
  simp [failed]

theorem takes_failAt (offset : Nat) (fault : ClassFault) :
    (failAt offset fault : Reader α).Takes fun _ _ _ => False :=
  takes_of_error fun cursor => ⟨_, cursor, rfl⟩

theorem takes_fail (fault : ClassFault) : (fail fault : Reader α).Takes fun _ _ _ => False :=
  takes_of_error fun cursor => ⟨_, cursor, rfl⟩

theorem Takes.bind {first : Reader α} {second : α → Reader β} {head : Form α} {tail : α → Form β}
    (firstTakes : first.Takes head) (secondTakes : ∀ value, (second value).Takes (tail value)) :
    (first >>= second).Takes (head.followedBy tail) := by
  intro before rest value next
  rw [bind_eq_ok]
  constructor
  · rintro ⟨middle, cursor, opened, closed⟩
    obtain ⟨left, after, rfl, rfl, headHolds⟩ := (firstTakes _ _ _ _).mp opened
    obtain ⟨right, after, rfl, rfl, tailHolds⟩ := (secondTakes _ _ _ _ _).mp closed
    refine ⟨left ++ right, after, ?_, ?_, left, right, middle, rfl, headHolds, ?_⟩
    · rw [ByteArray.append_assoc]
    · rw [ByteArray.append_assoc]
    · simpa using tailHolds
  · rintro ⟨text, after, rfl, rfl, left, right, middle, rfl, headHolds, tailHolds⟩
    refine ⟨middle, .between (before ++ left) (right ++ after), ?_, ?_⟩
    · exact (firstTakes _ _ _ _).mpr ⟨left, right ++ after, ByteArray.append_assoc, rfl, headHolds⟩
    · refine (secondTakes _ _ _ _ _).mpr ⟨right, after, rfl, ?_, ?_⟩
      · rw [ByteArray.append_assoc]
      · simpa using tailHolds

/-- A refused case takes nothing, so only the other one contributes. -/
theorem Takes.unless {refused other : Reader α} {form : Form α} {condition : Prop}
    [Decidable condition] (refuses : refused.Takes fun _ _ _ => False) (takes : other.Takes form) :
    (if condition then refused else other).Takes fun start text value =>
      ¬ condition ∧ form start text value := by
  by_cases holds : condition
  · rw [if_pos holds]
    exact refuses.congr (by simp [holds])
  · rw [if_neg holds]
    exact takes.congr (by simp [holds])

/-- Nothing follows a reader that takes nothing. -/
theorem Takes.refused_bind {first : Reader α} (refuses : first.Takes fun _ _ _ => False)
    (second : α → Reader β) : (first >>= second).Takes fun _ _ _ => False := by
  intro before rest value next
  rw [bind_eq_ok]
  constructor
  · rintro ⟨middle, cursor, opened, _⟩
    obtain ⟨_, _, _, _, impossible⟩ := (refuses _ _ _ _).mp opened
    exact impossible.elim
  · rintro ⟨_, _, _, _, impossible⟩
    exact impossible.elim

/-- Both cases of a choice may take one form. -/
theorem Takes.ite {condition : Prop} [Decidable condition] {first second : Reader α}
    {form : Form α} (holds : condition → first.Takes form)
    (fails : ¬ condition → second.Takes form) :
    (if condition then first else second).Takes form := by
  split
  · exact holds ‹_›
  · exact fails ‹_›

/-- What is read is only made into something else. -/
theorem Takes.bind_pure {reader : Reader α} {form : Form α} (takes : reader.Takes form)
    (make : α → β) : (reader >>= fun value => pure (make value)).Takes fun start text made =>
      ∃ value, form start text value ∧ made = make value := by
  refine (takes.bind fun value => takes_pure (make value)).congr fun start text made => ?_
  constructor
  · rintro ⟨left, right, value, rfl, holds, rfl, rfl⟩
    exact ⟨value, by simpa using holds, rfl⟩
  · rintro ⟨value, holds, rfl⟩
    exact ⟨text, .empty, value, by simp, holds, rfl, rfl⟩

theorem takes_ofExcept (result : Except Failure α) :
    (ofExcept result).Takes fun _ text value => text = .empty ∧ result = .ok value := by
  cases result with
  | ok value => exact (takes_pure value).congr (by simp [eq_comm])
  | error failure =>
    exact (takes_of_error fun cursor => ⟨failure, cursor, rfl⟩).congr (by simp)

theorem takes_skip (width : Nat) :
    (skip width).Takes fun _ text _ => text.size = width := by
  intro before rest value next
  have inside : before.size + width ≤ (before ++ rest).size ↔ width ≤ rest.size := by
    rw [ByteArray.size_append]
    omega
  simp only [skip, short, Cursor.between, inside]
  constructor
  · intro read
    split at read
    · rename_i enough
      obtain ⟨text, after, rfl, rfl⟩ := exists_append_of_le_size enough
      cases read
      exact ⟨text, after, rfl, Cursor.advance_between _ _ _, rfl⟩
    · cases read
  · rintro ⟨text, after, rfl, rfl, rfl⟩
    rw [if_pos (by simp)]
    exact congrArg _ (Cursor.advance_between _ _ _)

theorem takes_bytes (width : Nat) :
    (bytes width).Takes fun _ text value => text.size = width ∧ value = text := by
  intro before rest value next
  have inside : before.size + width ≤ (before ++ rest).size ↔ width ≤ rest.size := by
    rw [ByteArray.size_append]
    omega
  simp only [bytes, short, Cursor.between, inside]
  constructor
  · intro read
    split at read
    · rename_i enough
      obtain ⟨text, after, rfl, rfl⟩ := exists_append_of_le_size enough
      rw [extract_middle] at read
      cases read
      exact ⟨_, after, rfl, Cursor.advance_between _ _ _, rfl, rfl⟩
    · cases read
  · rintro ⟨text, after, rfl, rfl, rfl, rfl⟩
    rw [if_pos (by simp), extract_middle]
    exact congrArg _ (Cursor.advance_between _ _ _)

/-- A reader of fixed width takes the encodings of its values. -/
theorem takes_of_width {reader : Reader α} {encode : α → ByteArray} (width : Nat)
    (encodeSize : ∀ value, (encode value).size = width)
    (short : ∀ before rest : ByteArray, rest.size < width →
      ∃ failure next, reader (.between before rest) = .error failure next)
    (read : ∀ before text after : ByteArray, text.size = width →
      ∃ value, encode value = text ∧
        reader (.between before (text ++ after)) = .ok value (.between (before ++ text) after))
    (injective : Function.Injective encode) :
    reader.Takes fun _ text value => text = encode value := by
  intro before rest value next
  constructor
  · intro done
    by_cases enough : width ≤ rest.size
    · obtain ⟨text, after, rfl, size⟩ := exists_append_of_le_size enough
      obtain ⟨found, rfl, success⟩ := read before text after size
      rw [success] at done
      cases done
      exact ⟨_, after, rfl, rfl, rfl⟩
    · obtain ⟨failure, other, failed⟩ := short before rest (by omega)
      rw [failed] at done
      cases done
  · rintro ⟨text, after, rfl, rfl, rfl⟩
    obtain ⟨found, same, success⟩ := read before (encode value) after (encodeSize value)
    rw [success, injective same]

theorem takes_u1 : u1.Takes fun _ text value => text = ⟨#[value]⟩ := by
  apply takes_of_width 1
  · intro value
    rfl
  · intro before rest missing
    refine ⟨_, _, dif_neg ?_⟩
    simp only [Cursor.between, ByteArray.size_append]
    omega
  · rintro before ⟨⟨list⟩⟩ after size
    obtain ⟨byte, rfl⟩ := List.length_eq_one_iff.mp size
    refine ⟨byte, rfl, ?_⟩
    simp [u1, Cursor.between, Cursor.advance, ByteArray.getElem_append_right,
      ByteArray.getElem_append_left, ByteArray.append_assoc]
  · intro first second same
    simpa using same

theorem takes_u2 : u2.Takes fun _ text value => text = BigEndian.encode16 value := by
  apply takes_of_width 2
  · exact BigEndian.size_encode16
  · intro before rest missing
    refine ⟨_, _, dif_neg ?_⟩
    simp only [Cursor.between, ByteArray.size_append]
    omega
  · rintro before ⟨⟨list⟩⟩ after size
    match list, size with
    | [high, low], _ =>
      refine ⟨_, BigEndian.encode16_decode16 high low, ?_⟩
      simp [u2, Cursor.between, Cursor.advance, ByteArray.getElem_append_right,
        ByteArray.getElem_append_left, ByteArray.append_assoc]
  · exact BigEndian.encode16_injective

theorem takes_u4 : u4.Takes fun _ text value => text = BigEndian.encode32 value := by
  apply takes_of_width 4
  · exact BigEndian.size_encode32
  · intro before rest missing
    refine ⟨_, _, dif_neg ?_⟩
    simp only [Cursor.between, ByteArray.size_append]
    omega
  · rintro before ⟨⟨list⟩⟩ after size
    match list, size with
    | [first, second, third, fourth], _ =>
      refine ⟨_, BigEndian.encode32_decode32 first second third fourth, ?_⟩
      simp [u4, Cursor.between, Cursor.advance, ByteArray.getElem_append_right,
        ByteArray.getElem_append_left, ByteArray.append_assoc]
  · exact BigEndian.encode32_injective

/-- A value that was read can be made into another one. -/
theorem Takes.made {reader : Reader α} {encode : α → ByteArray}
    (takes : reader.Takes fun _ text value => text = encode value) (make : α → β) :
    (reader >>= fun value => pure (make value)).Takes (Form.valued encode make) :=
  takes.bind_pure make

theorem takes_i4 : i4.Takes fun _ text value => text = BigEndian.encode32 value.toUInt32 := by
  refine (takes_u4.made UInt32.toInt32).congr fun start text value => ?_
  constructor
  · rintro ⟨number, rfl, rfl⟩
    rw [UInt32.toUInt32_toInt32]
  · rintro rfl
    exact ⟨_, rfl, (Int32.toInt32_toUInt32 value).symm⟩

theorem repeatOnto_succ (reader : Reader α) (count : Nat) (done : List α) :
    repeatOnto reader (count + 1) done =
      reader >>= fun value => repeatOnto reader count (value :: done) := by
  funext cursor
  rw [bind_apply]
  rfl

/-- The items that a repeated reader takes follow one another. -/
theorem Takes.replicate {reader : Reader α} {item : Form α} (takes : reader.Takes item)
    (count : Nat) : (replicate count reader).Takes (item.repeated count) := by
  suffices onto : ∀ done, (repeatOnto reader count done).Takes fun start text values =>
      ∃ rest, values = done.reverse ++ rest ∧ item.repeated count start text rest by
    exact (onto []).congr (by simp)
  induction count with
  | zero =>
    intro done
    refine (takes_pure done.reverse).congr fun start text values => ?_
    constructor
    · rintro ⟨rfl, rfl⟩
      exact ⟨[], by simp, rfl, rfl⟩
    · rintro ⟨_, rfl, rfl, rfl⟩
      exact ⟨rfl, by simp⟩
  | succ count inductionHypothesis =>
    intro done
    rw [repeatOnto_succ]
    refine (takes.bind fun value => inductionHypothesis (value :: done)).congr ?_
    intro start text values
    constructor
    · rintro ⟨left, right, value, rfl, head, rest, rfl, tail⟩
      exact ⟨value :: rest, by simp, left, right, value, rest, rfl, rfl, head, tail⟩
    · rintro ⟨_, rfl, left, right, value, rest, rfl, rfl, head, tail⟩
      exact ⟨left, right, value, rfl, head, rest, by simp, tail⟩

/-- A reader accepts a form when it succeeds on remaining bytes of that form, wherever it stops in
them. -/
def Accepts (reader : Reader α) (form : Form α) : Prop :=
  ∀ before rest value, (∃ next, reader (.between before rest) = .ok value next) ↔
    form before.size rest value

theorem Accepts.congr {reader : Reader α} {first second : Form α} (accepts : reader.Accepts first)
    (same : ∀ start text value, first start text value ↔ second start text value) :
    reader.Accepts second := by
  intro before rest value
  rw [accepts before rest value, same]

/-- A reader accepts what it takes with anything behind it. -/
theorem Takes.accepts {reader : Reader α} {form : Form α} (takes : reader.Takes form) :
    reader.Accepts fun start text value => ∃ left right, text = left ++ right ∧
      form start left value := by
  intro before rest value
  constructor
  · rintro ⟨next, done⟩
    obtain ⟨text, after, rfl, _, holds⟩ := (takes _ _ _ _).mp done
    exact ⟨text, after, rfl, holds⟩
  · rintro ⟨text, after, rfl, holds⟩
    exact ⟨_, (takes _ _ _ _).mpr ⟨text, after, rfl, rfl, holds⟩⟩

theorem Takes.bind_accepts {first : Reader α} {second : α → Reader β} {head : Form α}
    {tail : α → Form β} (takes : first.Takes head)
    (accepts : ∀ value, (second value).Accepts (tail value)) :
    (first >>= second).Accepts (head.followedBy tail) := by
  intro before rest value
  simp only [bind_eq_ok]
  constructor
  · rintro ⟨next, middle, cursor, opened, closed⟩
    obtain ⟨left, after, rfl, rfl, headHolds⟩ := (takes _ _ _ _).mp opened
    have tailHolds := (accepts _ _ _ _).mp ⟨next, closed⟩
    exact ⟨left, after, middle, rfl, headHolds, by simpa using tailHolds⟩
  · rintro ⟨left, right, middle, rfl, headHolds, tailHolds⟩
    obtain ⟨next, closed⟩ := (accepts middle (before ++ left) right value).mpr (by simpa using tailHolds)
    exact ⟨next, middle, _, (takes _ _ _ _).mpr ⟨left, right, rfl, rfl, headHolds⟩, closed⟩

/-- A value can be made into another one at the end. -/
theorem Accepts.bind_pure {reader : Reader α} {form : Form α} (accepts : reader.Accepts form)
    (make : α → β) : (reader >>= fun value => pure (make value)).Accepts fun start text made =>
      ∃ value, form start text value ∧ made = make value := by
  intro before rest made
  simp only [bind_eq_ok]
  constructor
  · rintro ⟨next, value, cursor, done, same⟩
    cases same
    exact ⟨value, (accepts _ _ _).mp ⟨_, done⟩, rfl⟩
  · rintro ⟨value, holds, rfl⟩
    obtain ⟨next, done⟩ := (accepts _ _ _).mpr holds
    exact ⟨next, value, next, done, rfl⟩

theorem Accepts.evaluate {reader : Reader α} {form : Form α} (accepts : reader.Accepts form)
    (bytes : ByteArray) (value : α) : reader.evaluate bytes = .ok value ↔ form 0 bytes value := by
  have opened := accepts .empty bytes value
  rw [← Cursor.start_eq_between, ByteArray.size_empty] at opened
  rw [← opened, Reader.evaluate]
  cases reader (.start bytes) with
  | ok found next => simp
  | error failure next => simp

end Reader

end EnumNames
