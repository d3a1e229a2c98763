import EnumNames.Proofs.Bytecode.AttributeGrowth
import EnumNames.Proofs.Bytes.Counted

/-!
The written form of the frames of a stack map. The tag of a frame says which frame it is, and for
the two simplest frames it may hold the distance as well. Main statement: the frames are read from
their written form and from no other bytes.
-/

namespace EnumNames

namespace Verification

/-- The tags from 7 on have an operand. -/
def IsWritten : Verification → Prop
  | .simple tag => tag ≤ 6
  | _ => True

def tag : Verification → UInt8
  | .simple tag => tag
  | .object _ => 7
  | .uninitialized _ => 8

/-- These are the bytes behind the tag. -/
def operand : Verification → ByteArray
  | .simple _ => .empty
  | .object constant => BigEndian.encode16 constant
  | .uninitialized offset => BigEndian.encode16 offset

theorem encode_eq (item : Verification) : item.encode = ⟨#[item.tag]⟩ ++ item.operand := by
  cases item <;> simp [encode, tag, operand]

/-- The tag tells the items apart. -/
theorem takes_operand (offset : Nat) (tag : UInt8) : Reader.Takes
    (if tag ≤ 6 then pure (simple tag)
    else if tag = 7 then Reader.u2 >>= fun constant => pure (object constant)
    else if tag = 8 then Reader.u2 >>= fun offset => pure (uninitialized offset)
    else Reader.failAt offset (.unknownVerification tag))
    fun _ text item => item.IsWritten ∧ item.tag = tag ∧ text = item.operand := by
  refine .ite (fun small => ?_) fun large => .ite (fun seven => ?_) fun notSeven =>
    .ite (fun eight => ?_) fun notEight => ?_
  · refine (Reader.takes_pure _).congr fun _ text item => ?_
    cases item with
    | simple other => grind [IsWritten, Verification.tag, operand]
    | _ => grind [Verification.tag]
  · subst seven
    refine (Reader.takes_u2.made object).congr fun _ text item => ?_
    cases item with
    | simple other => grind [Form.valued, IsWritten, Verification.tag]
    | _ => simp [Form.valued, IsWritten, Verification.tag, operand]
  · subst eight
    refine (Reader.takes_u2.made uninitialized).congr fun _ text item => ?_
    cases item with
    | simple other => grind [Form.valued, IsWritten, Verification.tag]
    | _ => simp [Form.valued, IsWritten, Verification.tag, operand]
  · refine (Reader.takes_failAt _ _).congr fun _ text item => ?_
    cases item with
    | simple other => grind [IsWritten, Verification.tag]
    | object => simp [Verification.tag, Ne.symm notSeven]
    | uninitialized => simp [Verification.tag, Ne.symm notEight]

theorem takes_read : read.Takes fun _ text item => item.IsWritten ∧ text = item.encode := by
  refine (Reader.takes_position.bind fun offset => Reader.takes_u1.bind fun tag =>
    takes_operand offset tag).congr fun start text item => ?_
  rw [encode_eq]
  constructor
  · rintro ⟨_, _, offset, rfl, ⟨rfl, rfl⟩, _, _, tag, rfl, rfl, written, rfl, rfl⟩
    exact ⟨written, by simp⟩
  · rintro ⟨written, rfl⟩
    exact ⟨.empty, _, start, by simp, ⟨rfl, rfl⟩, _, _, item.tag, rfl, rfl, written, rfl, rfl⟩

end Verification

namespace Frame

def items : Frame → List Verification
  | .same | .chop _ => []
  | .sameWithItem item => [item]
  | .append items => items
  | .full locals stack => locals ++ stack

/-- These are the bytes behind the tag and the distance. -/
def itemBytes : Frame → ByteArray
  | .same | .chop _ => .empty
  | .sameWithItem item => item.encode
  | .append items => encodeItems items
  | .full locals stack =>
      encodeCounted Verification.encode locals ++ encodeCounted Verification.encode stack

/-- The tag tells the frames apart; the two simplest ones have a form whose tag is made from the
distance. -/
def TaggedBy (tag : UInt8) (distance : UInt16) : Frame → Prop
  | .same => tag.toNat = distance.toNat ∧ distance.toNat ≤ 63 ∨ tag.toNat = 251
  | .sameWithItem _ => tag.toNat = 64 + distance.toNat ∧ distance.toNat ≤ 63 ∨ tag.toNat = 247
  | .chop count => 1 ≤ count ∧ count ≤ 3 ∧ tag.toNat = 251 - count
  | .append items => 1 ≤ items.length ∧ items.length ≤ 3 ∧ tag.toNat = 251 + items.length
  | .full locals stack => locals.length < 65536 ∧ stack.length < 65536 ∧ tag.toNat = 255

/-- The tag fits the frame, and the text holds its items. -/
def Fits (tag : UInt8) (distance : UInt16) (frame : Frame) (text : ByteArray) : Prop :=
  frame.TaggedBy tag distance ∧ (∀ item ∈ frame.items, item.IsWritten) ∧ text = frame.itemBytes

section Fits

variable {tag : UInt8} {distance : UInt16} {frame : Frame} {text : ByteArray}

/-- The smallest tags are the distance itself. -/
theorem fits_iff_near (small : tag.toNat ≤ 63) :
    Fits tag distance frame text ↔ text = .empty ∧ (distance, frame) = (tag.toUInt16, .same) := by
  rw [Prod.mk.injEq, ← UInt16.toNat_inj, UInt8.toNat_toUInt16]
  cases frame <;> simp [Fits, TaggedBy, items, itemBytes] <;> grind

theorem toNat_nearDistance (large : 64 ≤ tag.toNat) :
    (tag.toUInt16 - 64).toNat = tag.toNat - 64 := by
  have enough : 64 ≤ tag.toUInt16 := UInt16.le_iff_toNat_le.mpr (by simpa using large)
  rw [UInt16.toNat_sub_of_le _ _ enough, UInt8.toNat_toUInt16]
  rfl

theorem fits_iff_nearItem (large : 64 ≤ tag.toNat) (small : tag.toNat ≤ 127) :
    Fits tag distance frame text ↔ ∃ item, (item.IsWritten ∧ text = item.encode) ∧
      (distance, frame) = (tag.toUInt16 - 64, .sameWithItem item) := by
  simp only [Prod.mk.injEq, ← UInt16.toNat_inj, toNat_nearDistance large]
  cases frame with
  | sameWithItem item => grind [Fits, TaggedBy, items, itemBytes]
  | _ =>
    simp [Fits, TaggedBy]
    omega

theorem not_fits_reserved (large : 128 ≤ tag.toNat) (small : tag.toNat ≤ 246) :
    ¬ Fits tag distance frame text := by
  cases frame <;> simp [Fits, TaggedBy] <;> omega

theorem fits_iff_item (same : tag.toNat = 247) :
    Fits tag distance frame text ↔ ∃ item, (item.IsWritten ∧ text = item.encode) ∧
      frame = .sameWithItem item := by
  cases frame with
  | sameWithItem item => grind [Fits, TaggedBy, items, itemBytes]
  | _ =>
    simp [Fits, TaggedBy]
    omega

theorem fits_iff_chop (large : 248 ≤ tag.toNat) (small : tag.toNat ≤ 250) :
    Fits tag distance frame text ↔ text = .empty ∧ frame = .chop (251 - tag.toNat) := by
  cases frame <;> simp [Fits, TaggedBy, items, itemBytes] <;> grind

theorem fits_iff_same (same : tag.toNat = 251) :
    Fits tag distance frame text ↔ text = .empty ∧ frame = .same := by
  cases frame <;> simp [Fits, TaggedBy, items, itemBytes] <;> omega

theorem fits_iff_append (large : 252 ≤ tag.toNat) (small : tag.toNat ≤ 254) :
    Fits tag distance frame text ↔ ∃ items, ((∀ item ∈ items, item.IsWritten) ∧
      items.length = tag.toNat - 251 ∧ text = encodeItems items) ∧ frame = .append items := by
  cases frame with
  | append items => grind [Fits, TaggedBy, Frame.items, itemBytes]
  | _ =>
    simp [Fits, TaggedBy]
    omega

theorem fits_iff_full (large : 255 ≤ tag.toNat) :
    Fits tag distance frame text ↔ ∃ locals stack, (∀ item ∈ locals, item.IsWritten) ∧
      locals.length < 65536 ∧ (∀ item ∈ stack, item.IsWritten) ∧ stack.length < 65536 ∧
      text = encodeCounted Verification.encode locals ++ encodeCounted Verification.encode stack ∧
      frame = .full locals stack := by
  have top := tag.toNat_lt
  cases frame with
  | full locals stack =>
    simp only [Fits, TaggedBy, items, itemBytes, List.forall_mem_append]
    grind
  | _ =>
    simp [Fits, TaggedBy]
    omega

end Fits

theorem takes_readItems : readItems.Takes fun _ text items =>
    (∀ item ∈ items, item.IsWritten) ∧ items.length < 65536 ∧
      text = encodeCounted Verification.encode items :=
  Verification.takes_read.counted

theorem takes_repeated (count : Nat) : (Reader.replicate count Verification.read).Takes
    fun _ text items => (∀ item ∈ items, item.IsWritten) ∧ items.length = count ∧
      text = encodeItems items := by
  refine (Verification.takes_read.pieces count).congr fun _ text items => ?_
  simp only [forall₂_encoded, encodeItems]
  constructor
  · rintro ⟨_, ⟨each, rfl⟩, length, rfl⟩
    exact ⟨each, length, rfl⟩
  · rintro ⟨each, length, rfl⟩
    exact ⟨_, ⟨each, rfl⟩, length, rfl⟩

theorem takes_full {tag : UInt8} (large : 255 ≤ tag.toNat) (distance : UInt16) : Reader.Takes
    (readItems >>= fun locals => readItems >>= fun stack => pure (distance, full locals stack))
    fun _ text found => found.1 = distance ∧ Fits tag distance found.2 text := by
  refine (takes_readItems.bind fun locals =>
    takes_readItems.bind_pure fun stack => (distance, full locals stack)).congr fun _ _ found => ?_
  rw [fits_iff_full large]
  constructor
  · rintro ⟨_, _, locals, rfl, ⟨written, few, rfl⟩, stack, ⟨stackWritten, fewStack, rfl⟩, rfl⟩
    exact ⟨rfl, locals, stack, written, few, stackWritten, fewStack, rfl, rfl⟩
  · rintro ⟨rfl, locals, stack, written, few, stackWritten, fewStack, rfl, same⟩
    exact ⟨_, _, locals, rfl, ⟨written, few, rfl⟩, stack, ⟨stackWritten, fewStack, rfl⟩,
      Prod.ext rfl same⟩

/-- The distance stands behind a tag that does not hold it. -/
def distanceBytes (tag : UInt8) (distance : UInt16) : ByteArray :=
  if tag.toNat ≤ 127 then .empty else BigEndian.encode16 distance

/-- A reader behind a tag that holds no distance reads the distance first. -/
theorem takes_extended {tag : UInt8} {reader : UInt16 → Reader (UInt16 × Frame)}
    (long : ¬ tag.toNat ≤ 127)
    (takes : ∀ distance, (reader distance).Takes fun _ text found =>
      found.1 = distance ∧ Fits tag distance found.2 text) :
    (Reader.u2 >>= reader).Takes fun _ text found => ∃ rest, Fits tag found.1 found.2 rest ∧
      text = distanceBytes tag found.1 ++ rest := by
  refine (Reader.takes_u2.bind takes).congr fun _ text found => ?_
  simp only [distanceBytes, if_neg long]
  constructor
  · rintro ⟨_, rest, distance, rfl, rfl, rfl, fits⟩
    exact ⟨rest, fits, rfl⟩
  · rintro ⟨rest, fits, rfl⟩
    exact ⟨_, rest, found.1, rfl, rfl, rfl, fits⟩

/-- The cases are those of the reader; each knows what its tags fit. -/
theorem takes_readBody (offset : Nat) (tag : UInt8) : (readBody offset tag).Takes
    fun _ text found => ∃ rest, Fits tag found.1 found.2 rest ∧
      text = distanceBytes tag found.1 ++ rest := by
  unfold readBody
  dsimp only
  refine .ite (fun near => ?_) fun _ => .ite (fun nearItem => ?_) fun long =>
    .ite (fun reserved => ?_) fun _ => takes_extended long fun distance =>
    .ite (fun item => ?_) fun _ => .ite (fun chop => ?_) fun _ => .ite (fun same => ?_) fun _ =>
    .ite (fun append => ?_) fun _ => ?_
  · refine (Reader.takes_pure _).congr fun _ text found => ?_
    simp [fits_iff_near near, distanceBytes, Nat.le_trans near, Prod.ext_iff]
  · refine (Verification.takes_read.bind_pure _).congr fun _ text found => ?_
    simp [fits_iff_nearItem (by omega) nearItem, distanceBytes, nearItem,
      Prod.ext_iff]
  · refine (Reader.takes_failAt _ _).congr fun _ text found => ?_
    simp [not_fits_reserved (by omega) reserved]
  · refine (Verification.takes_read.bind_pure _).congr fun _ text found => ?_
    simp [fits_iff_item item, Prod.ext_iff, and_left_comm]
  · refine (Reader.takes_pure _).congr fun _ text found => ?_
    simp [fits_iff_chop (by omega) chop, Prod.ext_iff, and_left_comm]
  · refine (Reader.takes_pure _).congr fun _ text found => ?_
    simp [fits_iff_same same, Prod.ext_iff, and_left_comm]
  · refine ((takes_repeated _).bind_pure _).congr fun _ text found => ?_
    simp [fits_iff_append (by omega) append, Prod.ext_iff, and_left_comm]
  · exact takes_full (by omega) distance

end Frame

/-- A frame with its distance and the tag that it is written with. -/
structure WrittenFrame where
  tag : UInt8
  distance : UInt16
  frame : Frame
  tagged : frame.TaggedBy tag distance
  written : ∀ item ∈ frame.items, item.IsWritten

namespace WrittenFrame

def encode (written : WrittenFrame) : ByteArray :=
  ⟨#[written.tag]⟩ ++ (Frame.distanceBytes written.tag written.distance ++ written.frame.itemBytes)

/-- This is what a reader finds. -/
def content (written : WrittenFrame) : UInt16 × Frame := (written.distance, written.frame)

/-- The tag holds the distance. -/
def IsCompact (written : WrittenFrame) : Prop := written.tag.toNat ≤ 127

end WrittenFrame

theorem Frame.takes_read : Frame.read.Takes fun _ text found => ∃ written : WrittenFrame,
    text = written.encode ∧ found = written.content := by
  refine (Reader.takes_position.bind fun offset => Reader.takes_u1.bind fun tag =>
    takes_readBody offset tag).congr fun start text found => ?_
  constructor
  · rintro ⟨_, _, offset, rfl, ⟨rfl, rfl⟩, _, _, tag, rfl, rfl, _, ⟨tagged, written, rfl⟩, rfl⟩
    exact ⟨⟨tag, found.1, found.2, tagged, written⟩, by simp [WrittenFrame.encode], rfl⟩
  · rintro ⟨written, rfl, rfl⟩
    exact ⟨.empty, _, start, ByteArray.empty_append.symm, ⟨rfl, rfl⟩, _, _, written.tag, rfl, rfl,
      _, ⟨written.tagged, written.written, rfl⟩, rfl⟩

/-- Frames behind their number are read one after the other. -/
theorem Frame.takes_counted : (Reader.counted Frame.read).Takes fun _ text found =>
    ∃ frames : List WrittenFrame, frames.length < 65536 ∧
      text = encodeCounted WrittenFrame.encode frames ∧
      found = frames.map WrittenFrame.content := by
  have item : Frame.read.Takes fun _ text found => ∃ first second : WrittenFrame, first = second ∧
      text = first.encode ∧ found = second.content :=
    takes_read.congr (by simp)
  refine (Reader.takes_u2.bind fun count => item.pieces count.toNat).congr fun _ text found => ?_
  simp only [forall₂_moved, List.forall₂_eq_eq_eq]
  constructor
  · rintro ⟨_, _, count, rfl, rfl, _, ⟨frames, _, rfl, rfl, rfl⟩, length, rfl⟩
    rw [List.length_map] at length
    obtain ⟨fits, same⟩ := Reader.counted_iff.mp length
    exact ⟨frames, fits, by rw [encodeCounted, same], rfl⟩
  · rintro ⟨frames, fits, rfl, rfl⟩
    have length : frames.length = (UInt16.ofNat frames.length).toNat :=
      Reader.counted_iff.mpr ⟨fits, rfl⟩
    exact ⟨_, _, _, rfl, rfl, _, ⟨frames, _, rfl, rfl, rfl⟩, by simpa using length, rfl⟩

namespace Frame

/-- The tag is made from the distance when there is room for it. -/
def writtenTag (distance : UInt16) : Frame → UInt8
  | .same => if distance ≤ 63 then distance.toUInt8 else 251
  | .sameWithItem _ => if distance ≤ 63 then 64 + distance.toUInt8 else 247
  | .chop count => 251 - UInt8.ofNat count
  | .append items => 251 + UInt8.ofNat items.length
  | .full _ _ => 255

theorem toNat_compactTag {distance : UInt16} (near : distance ≤ 63) :
    distance.toUInt8.toNat = distance.toNat ∧
      (64 + distance.toUInt8).toNat = 64 + distance.toNat := by
  have bound : distance.toNat ≤ 63 := UInt16.le_iff_toNat_le.mp near
  have same : distance.toUInt8.toNat = distance.toNat := by
    rw [UInt16.toNat_toUInt8]
    omega
  refine ⟨same, ?_⟩
  rw [UInt8.toNat_add, same]
  change (64 + distance.toNat) % 256 = _
  omega

/-- The other frames are told from the number of their locals. -/
theorem toNat_countTag {count : Nat} (small : count ≤ 3) :
    (251 - UInt8.ofNat count).toNat = 251 - count ∧
      (251 + UInt8.ofNat count).toNat = 251 + count := by
  have four : count = 0 ∨ count = 1 ∨ count = 2 ∨ count = 3 := by omega
  rcases four with rfl | rfl | rfl | rfl <;> decide

section WrittenTag

variable {tag : UInt8} {old : UInt16} {frame : Frame}

/-- A frame that has a form for one distance has one for every distance. -/
theorem TaggedBy.written (tagged : frame.TaggedBy tag old) (distance : UInt16) :
    frame.TaggedBy (frame.writtenTag distance) distance := by
  cases frame with
  | same =>
    by_cases near : distance ≤ 63
    · rw [writtenTag, if_pos near]
      exact .inl ⟨(toNat_compactTag near).1, UInt16.le_iff_toNat_le.mp near⟩
    · rw [writtenTag, if_neg near]
      exact .inr rfl
  | sameWithItem item =>
    by_cases near : distance ≤ 63
    · rw [writtenTag, if_pos near]
      exact .inl ⟨(toNat_compactTag near).2, UInt16.le_iff_toNat_le.mp near⟩
    · rw [writtenTag, if_neg near]
      exact .inr rfl
  | chop count => exact ⟨tagged.1, tagged.2.1, (toNat_countTag tagged.2.1).1⟩
  | append items => exact ⟨tagged.1, tagged.2.1, (toNat_countTag tagged.2.1).2⟩
  | full locals stack => exact ⟨tagged.1, tagged.2.1, rfl⟩

/-- Only the two simplest frames are compact, and only when they are near. -/
theorem TaggedBy.compact_iff (tagged : frame.TaggedBy tag old) (distance : UInt16) :
    (frame.writtenTag distance).toNat ≤ 127 ↔ frame.isShort ∧ distance.toNat ≤ 63 := by
  have limit : distance ≤ 63 ↔ distance.toNat ≤ 63 := UInt16.le_iff_toNat_le
  have rewritten := tagged.written distance
  cases frame with
  | same =>
    by_cases near : distance ≤ 63
    · have bound := limit.mp near
      simp only [writtenTag, if_pos near, (toNat_compactTag near).1, isShort, true_and]
      omega
    · simpa [writtenTag, near, isShort] using Nat.not_le.mp (mt limit.mpr near)
  | sameWithItem item =>
    by_cases near : distance ≤ 63
    · have bound := limit.mp near
      simp only [writtenTag, if_pos near, (toNat_compactTag near).2, isShort, true_and]
      omega
    · simpa [writtenTag, near, isShort] using Nat.not_le.mp (mt limit.mpr near)
  | _ =>
    simp only [TaggedBy] at rewritten
    simp only [isShort, Bool.false_eq_true, false_and, iff_false]
    omega

theorem TaggedBy.encode_eq (tagged : frame.TaggedBy tag old) (distance : UInt16) :
    frame.encode distance = ⟨#[frame.writtenTag distance]⟩ ++
      (distanceBytes (frame.writtenTag distance) distance ++ frame.itemBytes) := by
  have compact := tagged.compact_iff distance
  have limit : distance ≤ 63 ↔ distance.toNat ≤ 63 := UInt16.le_iff_toNat_le
  simp only [distanceBytes, compact, ← limit]
  cases frame with
  | same =>
    by_cases near : distance ≤ 63 <;> simp [encode, writtenTag, itemBytes, isShort, near]
  | sameWithItem item =>
    by_cases near : distance ≤ 63 <;>
      simp [encode, writtenTag, itemBytes, isShort, near, ByteArray.append_assoc]
  | _ =>
    simp [encode, writtenTag, itemBytes, isShort, encodeItems, encodeCounted,
      ByteArray.append_assoc]

end WrittenTag

end Frame

end EnumNames
