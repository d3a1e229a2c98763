import EnumNames.Proofs.Text.RoundTrip

/-!
The two ways of reading a text: as plain UTF-8, and unit by unit. One refuses surrogates and forms
that are longer than needed, the other refuses four bytes for a character. Main statement: bytes
are read when one of them accepts, both then find the same text, and a failure stands at the first
byte that cannot belong to a unit.
-/

namespace EnumNames.ModifiedUtf8

/-- Four bytes are needed just beyond the basic plane. -/
theorem utf8Size_ne_four_iff (character : Char) :
    character.utf8Size ≠ 4 ↔ character.toNat < 0x10000 := by
  have same : character.val.toNat = character.toNat := rfl
  rw [Ne, Char.utf8Size_eq_four_iff, UInt32.lt_iff_toNat_lt, same]
  exact Nat.not_lt.trans Nat.lt_succ_iff.symm

/-- Plain UTF-8 has the forms of units when no character takes four bytes. -/
theorem exists_joined_toUTF8_iff (text : String) :
    (∃ list, Joined UnitForm text.toUTF8.data.toList list) ↔
      ∀ character ∈ text.toList, character.utf8Size ≠ 4 := by
  simp only [utf8Size_ne_four_iff]
  exact ⟨fun ⟨_, joined⟩ => basic_of_joined joined, fun basic => ⟨_, joined_toUTF8 basic⟩⟩

/-- The units of plain UTF-8 are those of its text. -/
theorem units_toUTF8 {text : String} (short : ∀ character ∈ text.toList, character.utf8Size ≠ 4)
    (offset : Nat) : (units text.toUTF8 offset).map Utf16.decode = .ok text := by
  have basic character (member : character ∈ text.toList) :=
    (utf8Size_ne_four_iff character).mp (short character member)
  rw [units_eq_ok.mpr (joined_toUTF8 basic)]
  exact congrArg Except.ok (Utf16.decode_encode text)

/-- One of the two ways of reading has to accept. -/
theorem exists_decode_iff (bytes : ByteArray) (offset : Nat) :
    (∃ text, decode bytes offset = .ok text) ↔
      (∃ text : String, text.toUTF8 = bytes) ∨ ∃ list, Joined UnitForm bytes.data.toList list := by
  constructor
  · rintro ⟨text, read⟩
    by_cases plain : ∃ text : String, text.toUTF8 = bytes
    · exact .inl plain
    · obtain ⟨list, joined, _⟩ := exists_joined_of_notPlain plain read
      exact .inr ⟨list, joined⟩
  · rintro (⟨text, rfl⟩ | ⟨list, joined⟩)
    · exact ⟨text, decode_toUTF8 text offset⟩
    · exact ⟨_, decode_of_joined joined offset⟩

/-- Bytes are refused because of their units. -/
theorem units_of_decode_eq_error {bytes : ByteArray} {offset : Nat} {failure : Failure}
    (failed : decode bytes offset = .error failure) : units bytes offset = .error failure := by
  have notPlain : ¬ ∃ text : String, text.toUTF8 = bytes := by
    rintro ⟨text, rfl⟩
    rw [decode_toUTF8] at failed
    cases failed
  rw [decode_of_notPlain notPlain] at failed
  cases found : units bytes offset with
  | error other =>
    rw [found] at failed
    exact congrArg Except.error (Except.error.inj failed)
  | ok list =>
    rw [found] at failed
    cases failed

/-- Bytes are read exactly if they are plain UTF-8 or the forms of some units. Plain UTF-8 has such
forms if no character takes four bytes, and then both ways of reading find its text. Otherwise the
bytes begin with whole forms, no form begins behind these, and the failure stands there or at the
first byte that does not continue. -/
theorem decode_by_grammar (bytes : ByteArray) (offset : Nat) :
    ((∃ text, decode bytes offset = .ok text) ↔
      (∃ text : String, text.toUTF8 = bytes) ∨ ∃ list, Joined UnitForm bytes.data.toList list) ∧
    (∀ text : String, text.toUTF8 = bytes →
      ((∃ list, Joined UnitForm bytes.data.toList list) ↔
        ∀ character ∈ text.toList, character.utf8Size ≠ 4) ∧
      ((∃ list, Joined UnitForm bytes.data.toList list) →
        String.fromUTF8? bytes = some text ∧
          (units bytes offset).map Utf16.decode = .ok text)) ∧
    ∀ failure, decode bytes offset = .error failure →
      ∃ before rest list step fault,
        failure = .malformedClass (offset + before.length + step) fault ∧
        before.length + step ≤ bytes.size ∧ bytes.data.toList = before ++ rest ∧
        Joined UnitForm before list ∧ Breaks rest step fault ∧
        ∀ piece unit later, UnitForm piece unit → rest ≠ piece ++ later := by
  refine ⟨exists_decode_iff bytes offset, ?_, ?_⟩
  · rintro text rfl
    have short := exists_joined_toUTF8_iff text
    exact ⟨short, fun joined => ⟨fromUTF8?_eq_some.mpr rfl, units_toUTF8 (short.mp joined) offset⟩⟩
  · intro failure failed
    obtain ⟨before, rest, list, step, fault, split, joined, breaks, same⟩ :=
      units_eq_error (units_of_decode_eq_error failed)
    have lengths := congrArg List.length split
    rw [List.length_append, Array.length_toList] at lengths
    have inside := breaks.le_length
    refine ⟨before, rest, list, step, fault, same, ?_, split, joined, breaks,
      fun _ _ _ => breaks.noForm⟩
    rw [ByteArray.size, lengths]
    omega

/-- Two bytes that both ways of reading accept, and bytes that end inside their second unit: the
failure stands at their end. -/
theorem decode_by_grammar_truncated :
    String.fromUTF8? ⟨#[0xC3, 0xA9]⟩ = some "é" ∧
      (units ⟨#[0xC3, 0xA9]⟩ 10).map Utf16.decode = .ok "é" ∧
      decode ⟨#[0x41, 0xE2, 0x82]⟩ 10 = .error (.malformedClass 13 .truncatedCharacter) ∧
      ∃ before rest list step fault,
        (.malformedClass 13 .truncatedCharacter : Failure) =
          .malformedClass (10 + before.length + step) fault ∧
        before.length + step ≤ 3 ∧ [0x41, 0xE2, 0x82] = before ++ rest ∧
        Joined UnitForm before list ∧ Breaks rest step fault ∧
        ∀ piece unit later, UnitForm piece unit → rest ≠ piece ++ later := by
  have plain : ("é" : String).toUTF8 = ⟨#[0xC3, 0xA9]⟩ := rfl
  have failed : decode ⟨#[0x41, 0xE2, 0x82]⟩ 10 = .error (.malformedClass 13 .truncatedCharacter) :=
    rfl
  have short : ∀ character ∈ ("é" : String).toList, character.utf8Size ≠ 4 := by
    simp [Char.utf8Size]
  have both := (decode_by_grammar ⟨#[0xC3, 0xA9]⟩ 10).2.1 "é" plain
  obtain ⟨sameText, sameUnits⟩ := both.2 (both.1.mpr short)
  exact ⟨sameText, sameUnits, failed, (decode_by_grammar _ 10).2.2 _ failed⟩

end EnumNames.ModifiedUtf8
