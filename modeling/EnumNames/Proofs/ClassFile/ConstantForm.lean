import EnumNames.ClassFile.Constant
import EnumNames.Proofs.Bytes.Form
import EnumNames.Proofs.Text.RoundTrip

/-!
The written form of a constant. Every constant but a text has one form; a text has as many as
there are bytes that decode to it.
-/

namespace EnumNames

namespace BigEndian

theorem decode64_toNat (high low : UInt32) :
    (decode64 high low).toNat = high.toNat * 0x100000000 + low.toNat := by
  have highBound := high.toNat_lt
  have lowBound := low.toNat_lt
  rw [decode64, UInt64.toNat_ofNat']
  omega

end BigEndian

namespace Constant

theorem encode64_decode64 (high low : UInt32) :
    encode64 (BigEndian.decode64 high low) = BigEndian.encode32 high ++ BigEndian.encode32 low := by
  have lowBound := low.toNat_lt
  have first : UInt32.ofNat ((BigEndian.decode64 high low).toNat / 0x100000000) = high := by
    apply UInt32.toNat_inj.mp
    have highBound := high.toNat_lt
    rw [BigEndian.decode64_toNat, UInt32.toNat_ofNat']
    omega
  have second : UInt32.ofNat (BigEndian.decode64 high low).toNat = low := by
    apply UInt32.toNat_inj.mp
    rw [BigEndian.decode64_toNat, UInt32.toNat_ofNat']
    omega
  rw [encode64, first, second]

theorem decode64_encode64 (number : UInt64) :
    BigEndian.decode64 (UInt32.ofNat (number.toNat / 0x100000000)) (UInt32.ofNat number.toNat) =
      number := by
  have bound := number.toNat_lt
  apply UInt64.toNat_inj.mp
  rw [BigEndian.decode64_toNat, UInt32.toNat_ofNat', UInt32.toNat_ofNat']
  omega

theorem takes_u8 : Reader.u8.Takes fun _ text value => text = encode64 value := by
  refine (Reader.takes_u4.bind fun high => Reader.takes_u4.made
    (BigEndian.decode64 high)).congr fun start text value => ?_
  constructor
  · rintro ⟨left, right, high, rfl, rfl, low, rfl, rfl⟩
    exact (encode64_decode64 high low).symm
  · rintro rfl
    exact ⟨_, _, _, rfl, rfl, _, rfl, (decode64_encode64 value).symm⟩

/-- A constant is written with its tag and its numbers; a text is written with any bytes that
decode to it. -/
def WrittenAs : Constant → ByteArray → Prop
  | .utf8 text, bytes => ∃ raw : ByteArray, raw.size < 65536 ∧
      ModifiedUtf8.decode raw 0 = .ok text ∧
      bytes = ⟨#[1]⟩ ++ (BigEndian.encodeCount raw.size ++ raw)
  | constant, bytes => bytes = constant.encode

/-- Two indices are written one after the other. -/
def encodePair (pair : UInt16 × UInt16) : ByteArray :=
  BigEndian.encode16 pair.1 ++ BigEndian.encode16 pair.2

theorem takes_readPair (make : UInt16 → UInt16 → Constant) :
    (readPair make).Takes (Form.valued encodePair fun pair => make pair.1 pair.2) := by
  refine (Reader.takes_u2.bind fun first => Reader.takes_u2.made (make first)).congr
    fun start text constant => ?_
  constructor
  · rintro ⟨left, right, first, rfl, rfl, second, rfl, rfl⟩
    exact ⟨(first, second), rfl, rfl⟩
  · rintro ⟨pair, rfl, rfl⟩
    exact ⟨_, _, pair.1, rfl, rfl, pair.2, rfl, rfl⟩

def textForm : Form Constant := fun _ body constant =>
  ∃ raw text, raw.size < 65536 ∧ ModifiedUtf8.decode raw 0 = .ok text ∧
    body = BigEndian.encodeCount raw.size ++ raw ∧ constant = .utf8 text

theorem takes_readText : readText.Takes textForm := by
  refine (Reader.takes_u2.bind fun length => Reader.takes_position.bind fun start =>
    (Reader.takes_bytes length.toNat).bind fun raw =>
      (Reader.takes_ofExcept (ModifiedUtf8.decode raw start)).bind fun text =>
        Reader.takes_pure (Constant.utf8 text)).congr fun start body constant => ?_
  constructor
  · rintro ⟨_, _, length, rfl, rfl, _, _, offset, rfl, ⟨rfl, rfl⟩, _, _, raw, rfl, ⟨size, same⟩,
      _, _, text, rfl, ⟨rfl, decoded⟩, rfl, rfl⟩
    subst same
    have count : BigEndian.encodeCount raw.size = BigEndian.encode16 length := by
      rw [size, BigEndian.encodeCount, UInt16.ofNat_toNat]
    refine ⟨raw, text, ?_, ModifiedUtf8.decode_of_ok decoded 0, ?_, rfl⟩
    · rw [size]
      exact length.toNat_lt
    · simp [count]
  · rintro ⟨raw, text, fits, decoded, rfl, rfl⟩
    have length : (UInt16.ofNat raw.size).toNat = raw.size := by
      rw [UInt16.toNat_ofNat']
      exact Nat.mod_eq_of_lt fits
    exact ⟨_, _, _, rfl, rfl, .empty, raw, _, by simp, ⟨rfl, rfl⟩, raw, .empty, raw, by simp,
      ⟨length.symm, rfl⟩, .empty, .empty, text, by simp,
      ⟨rfl, ModifiedUtf8.decode_of_ok decoded _⟩, rfl, rfl⟩

/-- The form of the bytes behind a tag. -/
def bodyForm (tag : UInt8) : Form Constant :=
  match tag.toNat with
  | 1 => textForm
  | 3 => Form.valued (fun value => BigEndian.encode32 value.toUInt32) .integer
  | 4 => Form.valued BigEndian.encode32 .float
  | 5 => Form.valued encode64 fun value => .long value.toInt64
  | 6 => Form.valued encode64 .double
  | 7 => Form.valued BigEndian.encode16 .classRef
  | 8 => Form.valued BigEndian.encode16 .string
  | 9 => Form.valued encodePair fun pair => .member .field pair.1 pair.2
  | 10 => Form.valued encodePair fun pair => .member .method pair.1 pair.2
  | 11 => Form.valued encodePair fun pair => .member .interfaceMethod pair.1 pair.2
  | 12 => Form.valued encodePair fun pair => .nameAndType pair.1 pair.2
  | 15 => Form.valued (fun handle : UInt8 × UInt16 => ⟨#[handle.1]⟩ ++ BigEndian.encode16 handle.2)
      fun handle => .methodHandle handle.1 handle.2
  | 16 => Form.valued BigEndian.encode16 .methodType
  | 17 => Form.valued encodePair fun pair => .dynamic .constant pair.1 pair.2
  | 18 => Form.valued encodePair fun pair => .dynamic .call pair.1 pair.2
  | 19 => Form.valued BigEndian.encode16 (.named .module)
  | 20 => Form.valued BigEndian.encode16 (.named .package)
  | _ => fun _ _ _ => False

theorem takes_readHandle : readHandle.Takes
    (Form.valued (fun handle : UInt8 × UInt16 => ⟨#[handle.1]⟩ ++ BigEndian.encode16 handle.2)
      fun handle => .methodHandle handle.1 handle.2) := by
  refine (Reader.takes_u1.bind fun kind => Reader.takes_u2.made (methodHandle kind)).congr
    fun start text constant => ?_
  constructor
  · rintro ⟨left, right, kind, rfl, rfl, reference, rfl, rfl⟩
    exact ⟨(kind, reference), rfl, rfl⟩
  · rintro ⟨handle, rfl, rfl⟩
    exact ⟨_, _, handle.1, rfl, rfl, handle.2, rfl, rfl⟩

theorem takes_readBody (offset : Nat) (tag : UInt8) :
    (readBody offset tag).Takes (bodyForm tag) := by
  unfold readBody bodyForm
  generalize tag.toNat = number
  split
  · exact takes_readText
  · exact Reader.takes_i4.made _
  · exact Reader.takes_u4.made _
  · exact takes_u8.made _
  · exact takes_u8.made _
  · exact Reader.takes_u2.made _
  · exact Reader.takes_u2.made _
  · exact takes_readPair _
  · exact takes_readPair _
  · exact takes_readPair _
  · exact takes_readPair _
  · exact takes_readHandle
  · exact Reader.takes_u2.made _
  · exact takes_readPair _
  · exact takes_readPair _
  · exact Reader.takes_u2.made _
  · exact Reader.takes_u2.made _
  · refine (Reader.takes_failAt _ _).congr fun start text constant => ?_
    grind

/-- The tag and the body of a written constant. -/
theorem writtenAs_iff (constant : Constant) (bytes : ByteArray) (start : Nat) :
    constant.WrittenAs bytes ↔
      ∃ tag body, bytes = ⟨#[tag]⟩ ++ body ∧ bodyForm tag start body constant := by
  constructor
  · intro written
    cases constant with
    | utf8 text =>
      obtain ⟨raw, fits, decoded, rfl⟩ := written
      exact ⟨1, _, rfl, raw, text, fits, decoded, rfl, rfl⟩
    | integer value => exact ⟨3, _, written, value, rfl, rfl⟩
    | float bits => exact ⟨4, _, written, bits, rfl, rfl⟩
    | long value => exact ⟨5, _, written, value.toUInt64, rfl, rfl⟩
    | double bits => exact ⟨6, _, written, bits, rfl, rfl⟩
    | classRef name => exact ⟨7, _, written, name, rfl, rfl⟩
    | string text => exact ⟨8, _, written, text, rfl, rfl⟩
    | member kind owner nameAndType =>
      cases kind with
      | field => exact ⟨9, _, written, (owner, nameAndType), rfl, rfl⟩
      | method => exact ⟨10, _, written, (owner, nameAndType), rfl, rfl⟩
      | interfaceMethod => exact ⟨11, _, written, (owner, nameAndType), rfl, rfl⟩
    | nameAndType name descriptor => exact ⟨12, _, written, (name, descriptor), rfl, rfl⟩
    | methodHandle kind reference => exact ⟨15, _, written, (kind, reference), rfl, rfl⟩
    | methodType descriptor => exact ⟨16, _, written, descriptor, rfl, rfl⟩
    | dynamic kind bootstrap nameAndType =>
      cases kind with
      | constant => exact ⟨17, _, written, (bootstrap, nameAndType), rfl, rfl⟩
      | call => exact ⟨18, _, written, (bootstrap, nameAndType), rfl, rfl⟩
    | named kind name =>
      cases kind with
      | module => exact ⟨19, _, written, name, rfl, rfl⟩
      | package => exact ⟨20, _, written, name, rfl, rfl⟩
  · rintro ⟨tag, body, rfl, holds⟩
    obtain ⟨number, same⟩ : ∃ number, tag.toNat = number := ⟨_, rfl⟩
    have known : tag = UInt8.ofNat number := by rw [← same, UInt8.ofNat_toNat]
    rw [bodyForm, same] at holds
    rw [known]
    split at holds
    · obtain ⟨raw, text, fits, decoded, rfl, rfl⟩ := holds
      exact ⟨raw, fits, decoded, rfl⟩
    all_goals first
      | exact holds.elim
      | obtain ⟨value, rfl, rfl⟩ := holds
        rfl

theorem takes_read : read.Takes fun _ bytes constant => constant.WrittenAs bytes := by
  refine (Reader.takes_position.bind fun offset => Reader.takes_u1.bind fun tag =>
    takes_readBody offset tag).congr fun start bytes constant => ?_
  rw [writtenAs_iff constant bytes (start + 1)]
  constructor
  · rintro ⟨_, _, _, rfl, ⟨rfl, rfl⟩, _, body, tag, rfl, rfl, holds⟩
    exact ⟨tag, body, by simp, by simpa using holds⟩
  · rintro ⟨tag, body, rfl, holds⟩
    exact ⟨.empty, _, start, by simp, ⟨rfl, rfl⟩, _, body, tag, rfl, rfl, by simpa using holds⟩

end Constant

end EnumNames
