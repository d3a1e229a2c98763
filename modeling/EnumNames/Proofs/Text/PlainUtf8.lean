import EnumNames.Text.CodePage437
import EnumNames.Text.Utf8
import Mathlib.Tactic.SplitIfs

/-!
Reading text that is written in plain UTF-8. Main statements: the reader that forgives wrong bytes
finds the text again, and for the first 128 characters the first personal computers do so too.
-/

namespace EnumNames

namespace Utf8

theorem toNat_ofNat_byte {number : Nat} (small : number < 256) :
    (UInt8.ofNat number).toNat = number := by
  rw [UInt8.toNat_ofNat']
  exact Nat.mod_eq_of_lt small

theorem width_eq (lead : UInt8) : width lead =
    if lead.toNat < 0x80 then 1 else if lead.toNat < 0xC2 then 0 else if lead.toNat < 0xE0 then 2
    else if lead.toNat < 0xF0 then 3 else if lead.toNat < 0xF5 then 4 else 0 := by
  simp only [width, UInt8.lt_iff_toNat_lt]
  rfl

theorem isContinuation_iff (byte : UInt8) :
    isContinuation byte = true ↔ 0x80 ≤ byte.toNat ∧ byte.toNat ≤ 0xBF := by
  simp [isContinuation, UInt8.le_iff_toNat_le]

/-- The second byte lies in a range that depends on the first one. -/
theorem allowsSecond_of_range {lead second : UInt8} (continues : 0x80 ≤ second.toNat ∧ second.toNat ≤ 0xBF)
    (long : lead.toNat = 0xE0 → 0xA0 ≤ second.toNat) (noSurrogate : lead.toNat = 0xED → second.toNat ≤ 0x9F)
    (longer : lead.toNat = 0xF0 → 0x90 ≤ second.toNat) (inside : lead.toNat = 0xF4 → second.toNat ≤ 0x8F) :
    allowsSecond lead second = true := by
  have same (number : UInt8) : lead = number ↔ lead.toNat = number.toNat := UInt8.toNat_inj.symm
  unfold allowsSecond
  simp only [same, isContinuation]
  split_ifs with first second third fourth <;>
    simp [UInt8.le_iff_toNat_le] at * <;> omega

variable {lead second third fourth : UInt8} {done : List Char} {rest : List UInt8}

theorem decodeOnto_one (one : width lead = 1) :
    decodeOnto done (lead :: rest) = decodeOnto (Char.ofNat lead.toNat :: done) rest := by
  rw [decodeOnto.eq_def]
  simp only [one, if_true]

theorem decodeOnto_two (two : width lead = 2) (allowed : allowsSecond lead second = true) :
    decodeOnto done (lead :: second :: rest) = decodeOnto (character2 lead second :: done) rest := by
  rw [decodeOnto.eq_def]
  simp [two, allowed]

theorem decodeOnto_three (three : width lead = 3) (allowed : allowsSecond lead second = true)
    (continues : isContinuation third = true) : decodeOnto done (lead :: second :: third :: rest) =
      decodeOnto (character3 lead second third :: done) rest := by
  rw [decodeOnto.eq_def]
  simp [three, allowed, continues]

theorem decodeOnto_four (four : width lead = 4) (allowed : allowsSecond lead second = true)
    (continues : isContinuation third = true) (last : isContinuation fourth = true) :
    decodeOnto done (lead :: second :: third :: fourth :: rest) =
      decodeOnto (character4 lead second third fourth :: done) rest := by
  rw [decodeOnto.eq_def]
  simp [four, allowed, continues, last]

/-- A character that is written in UTF-8 is read back. -/
theorem decodeOnto_encodeChar (character : Char) (done : List Char) (rest : List UInt8) :
    decodeOnto done (String.utf8EncodeChar character ++ rest) = decodeOnto (character :: done) rest := by
  have valid : character.toNat < 0xD800 ∨ 0xDFFF < character.toNat ∧ character.toNat < 0x110000 :=
    character.valid
  have back (number : Nat) (same : number = character.toNat) : Char.ofNat number = character := by
    rw [same, Char.ofNat_toNat]
  simp only [String.utf8EncodeChar, show character.val.toNat = character.toNat from rfl]
  split_ifs with one two three
  · have lead := toNat_ofNat_byte (show character.toNat < 256 by omega)
    rw [List.singleton_append, decodeOnto_one (by rw [width_eq, lead, if_pos (by omega)]), lead,
      back _ rfl]
  · have lead := toNat_ofNat_byte (show character.toNat / 64 % 32 + 192 < 256 by omega)
    have second := toNat_ofNat_byte (show character.toNat % 64 + 128 < 256 by omega)
    rw [List.cons_append, List.singleton_append, decodeOnto_two, character2, payload, lead, second,
      back _ (by omega)]
    · rw [width_eq, lead]
      split_ifs <;> omega
    · apply allowsSecond_of_range <;> simp only [lead, second] <;> omega
  · have lead := toNat_ofNat_byte (show character.toNat / 4096 % 16 + 224 < 256 by omega)
    have second := toNat_ofNat_byte (show character.toNat / 64 % 64 + 128 < 256 by omega)
    have third := toNat_ofNat_byte (show character.toNat % 64 + 128 < 256 by omega)
    rw [List.cons_append, List.cons_append, List.singleton_append, decodeOnto_three, character3,
      payload, payload, lead, second, third, back _ (by omega)]
    · rw [width_eq, lead]
      split_ifs <;> omega
    · apply allowsSecond_of_range <;> simp only [lead, second] <;> omega
    · rw [isContinuation_iff, third]
      omega
  · have lead := toNat_ofNat_byte (show character.toNat / 262144 % 8 + 240 < 256 by omega)
    have second := toNat_ofNat_byte (show character.toNat / 4096 % 64 + 128 < 256 by omega)
    have third := toNat_ofNat_byte (show character.toNat / 64 % 64 + 128 < 256 by omega)
    have fourth := toNat_ofNat_byte (show character.toNat % 64 + 128 < 256 by omega)
    rw [List.cons_append, List.cons_append, List.cons_append, List.singleton_append,
      decodeOnto_four, character4, payload, payload, payload, lead, second, third, fourth,
      back _ (by omega)]
    · rw [width_eq, lead]
      split_ifs <;> omega
    · apply allowsSecond_of_range <;> simp only [lead, second] <;> omega
    · rw [isContinuation_iff, third]
      omega
    · rw [isContinuation_iff, fourth]
      omega

theorem decodeOnto_encode (characters done : List Char) :
    decodeOnto done (characters.flatMap String.utf8EncodeChar) = done.reverse ++ characters := by
  induction characters generalizing done with
  | nil => simp [decodeOnto]
  | cons character rest inductionHypothesis =>
    rw [List.flatMap_cons, decodeOnto_encodeChar, inductionHypothesis, List.reverse_cons,
      List.append_assoc, List.singleton_append]

theorem data_toUTF8 (text : String) :
    text.toUTF8.data.toList = text.toList.flatMap String.utf8EncodeChar := by
  have bytes : text.toByteArray = text.toList.utf8Encode := by
    rw [← String.toByteArray_ofList, String.ofList_toList]
  rw [String.toUTF8, bytes, List.utf8Encode, List.data_toByteArray]

/-- Text that is written in UTF-8 is read back. -/
theorem decodeLossy_toUTF8 (text : String) : decodeLossy text.toUTF8 = text := by
  rw [decodeLossy, data_toUTF8, decodeOnto_encode, List.reverse_nil, List.nil_append,
    String.ofList_toList]

end Utf8

namespace CodePage437

theorem character_encodeChar {character : Char} (plain : character.toNat < 128) :
    (String.utf8EncodeChar character).map CodePage437.character = [character] := by
  have byte := Utf8.toNat_ofNat_byte (show character.toNat < 256 by omega)
  have half : UInt8.ofNat character.toNat < 0x80 := by
    rw [UInt8.lt_iff_toNat_lt, byte]
    exact plain
  have encoded : String.utf8EncodeChar character = [UInt8.ofNat character.toNat] := by
    rw [String.utf8EncodeChar]
    exact if_pos (show character.val.toNat ≤ 127 from Nat.le_of_lt_succ plain)
  rw [encoded, List.map_singleton, CodePage437.character, if_pos half, byte, Char.ofNat_toNat]

/-- Text of the first 128 characters looks the same. -/
theorem decode_toUTF8 {text : String} (plain : ∀ character ∈ text.toList, character.toNat < 128) :
    decode text.toUTF8 = text := by
  have each (characters : List Char) (plain : ∀ character ∈ characters, character.toNat < 128) :
      (characters.flatMap String.utf8EncodeChar).map character = characters := by
    induction characters with
    | nil => rfl
    | cons head rest inductionHypothesis =>
      obtain ⟨first, others⟩ := List.forall_mem_cons.mp plain
      rw [List.flatMap_cons, List.map_append, character_encodeChar first, inductionHypothesis others,
        List.singleton_append]
  rw [decode, Utf8.data_toUTF8, each _ plain, String.ofList_toList]

end CodePage437

end EnumNames
