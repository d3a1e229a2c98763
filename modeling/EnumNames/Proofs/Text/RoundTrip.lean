import EnumNames.Proofs.Text.PlainUtf8
import EnumNames.Proofs.Text.UnitForm

/-!
Every text can be written in the form of class files and read back. The written bytes may happen
to be plain UTF-8, which the reader prefers; both ways of reading then find the same text.
-/

namespace EnumNames

namespace Utf16

theorem isHigh_iff (unit : UInt16) :
    isHigh unit = true ↔ 0xD800 ≤ unit.toNat ∧ unit.toNat < 0xDC00 := by
  simp [isHigh, UInt16.le_iff_toNat_le, UInt16.lt_iff_toNat_lt]

theorem isLow_iff (unit : UInt16) :
    isLow unit = true ↔ 0xDC00 ≤ unit.toNat ∧ unit.toNat < 0xE000 := by
  simp [isLow, UInt16.le_iff_toNat_le, UInt16.lt_iff_toNat_lt]

/-- A character of the basic plane is one unit. -/
def basicUnit (character : Char) : UInt16 := UInt16.ofNat character.toNat

theorem toNat_basicUnit {character : Char} (basic : character.toNat < 0x10000) :
    (basicUnit character).toNat = character.toNat := by
  rw [basicUnit, UInt16.toNat_ofNat']
  exact Nat.mod_eq_of_lt basic

theorem encodeChar_of_basic {character : Char} (basic : character.toNat < 0x10000) :
    encodeChar character = [basicUnit character] :=
  if_pos basic

/-- No character is a surrogate. -/
theorem single_basicUnit {character : Char} (basic : character.toNat < 0x10000) :
    isHigh (basicUnit character) = false ∧ single (basicUnit character) = character := by
  have number := toNat_basicUnit basic
  have valid : character.toNat < 0xD800 ∨ 0xDFFF < character.toNat := by
    rcases character.valid with low | high
    · exact .inl low
    · exact .inr high.1
  have noHigh : isHigh (basicUnit character) = false := by
    rw [← Bool.not_eq_true, isHigh_iff]
    omega
  have noLow : isLow (basicUnit character) = false := by
    rw [← Bool.not_eq_true, isLow_iff]
    omega
  refine ⟨noHigh, ?_⟩
  rw [single, noHigh, noLow, number]
  exact Char.ofNat_toNat character

/-- The two units of a character beyond the basic plane belong together. -/
theorem pair_of_beyond {character : Char} (beyond : ¬ character.toNat < 0x10000) :
    ∃ high low, encodeChar character = [high, low] ∧ isHigh high = true ∧ isLow low = true ∧
      pair high low = character := by
  have bound : character.toNat < 0x110000 := by
    rcases character.valid with low | high
    · exact Nat.lt_trans low (by decide)
    · exact high.2
  have high : (UInt16.ofNat (0xD800 + (character.toNat - 0x10000) / 0x400)).toNat =
      0xD800 + (character.toNat - 0x10000) / 0x400 := by
    rw [UInt16.toNat_ofNat']
    omega
  have low : (UInt16.ofNat (0xDC00 + (character.toNat - 0x10000) % 0x400)).toNat =
      0xDC00 + (character.toNat - 0x10000) % 0x400 := by
    rw [UInt16.toNat_ofNat']
    omega
  refine ⟨_, _, if_neg beyond, ?_, ?_, ?_⟩
  · rw [isHigh_iff]
    omega
  · rw [isLow_iff]
    omega
  · have number : 0x10000 + (0xD800 + (character.toNat - 0x10000) / 0x400 - 0xD800) * 0x400 +
        (0xDC00 + (character.toNat - 0x10000) % 0x400 - 0xDC00) = character.toNat := by omega
    rw [pair, high, low, number]
    exact Char.ofNat_toNat character

theorem decodeOnto_encodeChar (done : List Char) (character : Char) (rest : List UInt16) :
    decodeOnto done (encodeChar character ++ rest) = decodeOnto (character :: done) rest := by
  by_cases basic : character.toNat < 0x10000
  · obtain ⟨noHigh, same⟩ := single_basicUnit basic
    rw [encodeChar_of_basic basic]
    cases rest with
    | nil => simp [decodeOnto, same]
    | cons second rest => simp [decodeOnto, noHigh, same]
  · obtain ⟨high, low, units, isHigh, isLow, same⟩ := pair_of_beyond basic
    rw [units]
    simp [decodeOnto, isHigh, isLow, same]

theorem decodeOnto_encode (done characters : List Char) :
    decodeOnto done (characters.flatMap encodeChar) = done.reverse ++ characters := by
  induction characters generalizing done with
  | nil => simp [decodeOnto]
  | cons character rest inductionHypothesis =>
    rw [List.flatMap_cons, decodeOnto_encodeChar, inductionHypothesis]
    simp

theorem encode_of_basic {text : String}
    (basic : ∀ character ∈ text.toList, character.toNat < 0x10000) :
    encode text = text.toList.map basicUnit := by
  have units := List.map_congr_left fun character member =>
    encodeChar_of_basic (basic character member)
  rw [encode, List.flatMap_def, units, ← List.flatMap_def, List.map_eq_flatMap]

theorem decode_encode (text : String) : decode (encode text) = text := by
  rw [decode, encode, decodeOnto_encode]
  exact String.ofList_toList

end Utf16

namespace ModifiedUtf8

/-- A written unit has the form of the unit. -/
theorem unitForm_encodeUnit (unit : UInt16) : UnitForm (encodeUnit unit) unit := by
  have bound := unit.toNat_lt
  unfold encodeUnit
  dsimp only
  split_ifs with single short
  · have lead := Utf8.toNat_ofNat_byte (show unit.toNat < 256 by omega)
    exact .single (by omega) lead.symm
  · have lead := Utf8.toNat_ofNat_byte (show 0xC0 + unit.toNat / 0x40 < 256 by omega)
    have second := Utf8.toNat_ofNat_byte (show 0x80 + unit.toNat % 0x40 < 256 by omega)
    exact .pair _ _ ⟨by omega, by omega⟩ lead second (by omega)
  · have lead := Utf8.toNat_ofNat_byte (show 0xE0 + unit.toNat / 0x1000 < 256 by omega)
    have second := Utf8.toNat_ofNat_byte (show 0x80 + unit.toNat / 0x40 % 0x40 < 256 by omega)
    have third := Utf8.toNat_ofNat_byte (show 0x80 + unit.toNat % 0x40 < 256 by omega)
    exact .triple _ _ _ ⟨by omega, by omega, by omega⟩ lead second third (by omega)

theorem joined_encode (text : String) :
    Joined UnitForm (encode text).data.toList (Utf16.encode text) := by
  rw [encode, List.data_toByteArray]
  exact .flatMap_units unitForm_encodeUnit _

/-- In plain UTF-8 a character of the basic plane has the form of its unit. -/
theorem unitForm_utf8EncodeChar {character : Char} (basic : character.toNat < 0x10000) :
    UnitForm (String.utf8EncodeChar character) (Utf16.basicUnit character) := by
  have number := Utf16.toNat_basicUnit basic
  simp only [String.utf8EncodeChar, show character.val.toNat = character.toNat from rfl]
  split_ifs with one two three
  · have lead := Utf8.toNat_ofNat_byte (show character.toNat < 256 by omega)
    exact .single (by omega) (by omega)
  · have lead := Utf8.toNat_ofNat_byte (show character.toNat / 64 % 32 + 192 < 256 by omega)
    have second := Utf8.toNat_ofNat_byte (show character.toNat % 64 + 128 < 256 by omega)
    exact .pair (character.toNat / 64) (character.toNat % 64) ⟨by omega, by omega⟩ (by omega)
      (by omega) (by omega)
  · have lead := Utf8.toNat_ofNat_byte (show character.toNat / 4096 % 16 + 224 < 256 by omega)
    have second := Utf8.toNat_ofNat_byte (show character.toNat / 64 % 64 + 128 < 256 by omega)
    have third := Utf8.toNat_ofNat_byte (show character.toNat % 64 + 128 < 256 by omega)
    exact .triple (character.toNat / 4096) (character.toNat / 64 % 64) (character.toNat % 64)
      ⟨by omega, by omega, by omega⟩ (by omega) (by omega) (by omega) (by omega)
  · omega

/-- Plain UTF-8 without characters beyond the basic plane has the forms of its units. -/
theorem joined_toUTF8 {text : String}
    (basic : ∀ character ∈ text.toList, character.toNat < 0x10000) :
    Joined UnitForm text.toUTF8.data.toList (Utf16.encode text) := by
  rw [Utf8.data_toUTF8, Utf16.encode_of_basic basic]
  exact .flatMap fun character member => unitForm_utf8EncodeChar (basic character member)

/-- A character beyond the basic plane starts with a large byte. -/
theorem exists_large_byte {character : Char} (beyond : ¬ character.toNat < 0x10000) :
    ∃ byte ∈ String.utf8EncodeChar character, 0xF0 ≤ byte.toNat := by
  have value : character.val.toNat = character.toNat := rfl
  refine ⟨UInt8.ofNat (character.toNat / 262144 % 8 + 0xF0), ?_, ?_⟩
  · simp only [String.utf8EncodeChar, value]
    rw [if_neg (show ¬ character.toNat ≤ 0x7F by omega),
      if_neg (show ¬ character.toNat ≤ 0x7FF by omega),
      if_neg (show ¬ character.toNat ≤ 0xFFFF by omega)]
    exact List.mem_cons_self
  · rw [UInt8.toNat_ofNat']
    omega

/-- No character beyond the basic plane has the form of units. -/
theorem basic_of_joined {text : String} {units : List UInt16}
    (joined : Joined UnitForm text.toUTF8.data.toList units) :
    ∀ character ∈ text.toList, character.toNat < 0x10000 := by
  intro character member
  apply Decidable.byContradiction
  intro beyond
  obtain ⟨byte, inside, large⟩ := exists_large_byte beyond
  rw [Utf8.data_toUTF8] at joined
  exact absurd (joined.small byte (List.mem_flatMap.mpr ⟨character, member, inside⟩)) (by omega)

theorem fromUTF8?_eq_some {bytes : ByteArray} {text : String} :
    String.fromUTF8? bytes = some text ↔ text.toUTF8 = bytes := by
  unfold String.fromUTF8?
  constructor
  · intro read
    split at read
    · rw [← Option.some.inj read]
      rfl
    · cases read
  · rintro rfl
    exact dif_pos text.isValidUTF8

/-- Plain UTF-8 is read as what it is. -/
theorem decode_toUTF8 (text : String) (offset : Nat) : decode text.toUTF8 offset = .ok text := by
  rw [decode, fromUTF8?_eq_some.mpr rfl]

/-- All other bytes are read in units. -/
theorem decode_of_notPlain {bytes : ByteArray} (notPlain : ¬ ∃ text : String, text.toUTF8 = bytes)
    (offset : Nat) : decode bytes offset = (units bytes offset).map Utf16.decode := by
  unfold decode
  split
  · rename_i text plain
    exact absurd ⟨text, fromUTF8?_eq_some.mp plain⟩ notPlain
  · rfl

/-- Both ways of reading find the same text: bytes that are plain UTF-8 and have the forms of units
as well are the characters of these units. -/
theorem decode_of_joined {bytes : ByteArray} {list : List UInt16}
    (joined : Joined UnitForm bytes.data.toList list) (offset : Nat) :
    decode bytes offset = .ok (Utf16.decode list) := by
  by_cases plain : ∃ text : String, text.toUTF8 = bytes
  · obtain ⟨text, rfl⟩ := plain
    -- Bytes are split into units in one way only, so the text has the given units.
    have same := (units_eq_ok.mpr joined).symm.trans
      (units_eq_ok.mpr (joined_toUTF8 (basic_of_joined joined)) : units _ offset = _)
    rw [decode_toUTF8, Except.ok.inj same, Utf16.decode_encode]
  · rw [decode_of_notPlain plain, units_eq_ok.mpr joined]
    rfl

/-- A text that is read from other bytes than plain UTF-8 is made of units. -/
theorem exists_joined_of_notPlain {bytes : ByteArray} {offset : Nat} {text : String}
    (notPlain : ¬ ∃ text : String, text.toUTF8 = bytes) (read : decode bytes offset = .ok text) :
    ∃ list, Joined UnitForm bytes.data.toList list ∧ Utf16.decode list = text := by
  rw [decode_of_notPlain notPlain] at read
  cases found : units bytes offset with
  | error failure =>
    rw [found] at read
    cases read
  | ok list =>
    rw [found] at read
    exact ⟨list, units_eq_ok.mp found, Except.ok.inj read⟩

/-- A written text is read back at every offset. -/
theorem decode_encode (text : String) (offset : Nat) : decode (encode text) offset = .ok text := by
  rw [decode_of_joined (joined_encode text), Utf16.decode_encode]

/-- The offset matters only for the blame. -/
theorem decode_of_ok {bytes : ByteArray} {offset : Nat} {text : String}
    (read : decode bytes offset = .ok text) (other : Nat) : decode bytes other = .ok text := by
  by_cases plain : ∃ text : String, text.toUTF8 = bytes
  · obtain ⟨plain, rfl⟩ := plain
    rw [decode_toUTF8] at read ⊢
    exact read
  · obtain ⟨list, joined, rfl⟩ := exists_joined_of_notPlain plain read
    exact decode_of_joined joined other

end ModifiedUtf8

end EnumNames
