import EnumNames.Failure
import EnumNames.Text.Utf16

/-!
The text form of class files: every 16-bit unit is written on its own with one, two or three
bytes, and the zero unit takes two. Bytes that are plain UTF-8 are read as plain UTF-8.
-/

namespace EnumNames.ModifiedUtf8

def encodeUnit (unit : UInt16) : List UInt8 :=
  let number := unit.toNat
  if number ≠ 0 ∧ number < 0x80 then
    [UInt8.ofNat number]
  else if number < 0x800 then
    [UInt8.ofNat (0xC0 + number / 0x40), UInt8.ofNat (0x80 + number % 0x40)]
  else
    [UInt8.ofNat (0xE0 + number / 0x1000), UInt8.ofNat (0x80 + number / 0x40 % 0x40),
      UInt8.ofNat (0x80 + number % 0x40)]

def encode (text : String) : ByteArray :=
  ((Utf16.encode text).flatMap encodeUnit).toByteArray

def isContinuation (byte : UInt8) : Bool := byte &&& 0xC0 == 0x80

/-- A byte below 0x80 is a unit by itself. -/
def isSingle (byte : UInt8) : Bool := byte &&& 0x80 == 0

/-- This byte starts a unit of two bytes. -/
def isPairLead (byte : UInt8) : Bool := byte &&& 0xE0 == 0xC0

/-- This byte starts a unit of three bytes. -/
def isTripleLead (byte : UInt8) : Bool := byte &&& 0xF0 == 0xE0

def pairUnit (lead second : UInt8) : UInt16 :=
  UInt16.ofNat (lead.toNat % 0x20 * 0x40 + second.toNat % 0x40)

def tripleUnit (lead second third : UInt8) : UInt16 :=
  UInt16.ofNat
    (lead.toNat % 0x10 * 0x1000 + second.toNat % 0x40 * 0x40 + third.toNat % 0x40)

/-- The units are split off one by one; a failure names the offset of the first bad byte. -/
def unitsOnto (done : List UInt16) (offset : Nat) :
    List UInt8 → Except Failure (List UInt16)
  | [] => .ok done.reverse
  | lead :: rest =>
    if isSingle lead then
      unitsOnto (lead.toUInt16 :: done) (offset + 1) rest
    else if isPairLead lead then
      match rest with
      | [] => .error (.malformedClass (offset + 1) .truncatedCharacter)
      | second :: rest =>
        if isContinuation second then
          unitsOnto (pairUnit lead second :: done) (offset + 2) rest
        else
          .error (.malformedClass (offset + 1) .truncatedCharacter)
    else if isTripleLead lead then
      match rest with
      | [] => .error (.malformedClass (offset + 1) .truncatedCharacter)
      | [second] =>
        .error (.malformedClass (offset + if isContinuation second then 2 else 1)
          .truncatedCharacter)
      | second :: third :: rest =>
        if isContinuation second then
          if isContinuation third then
            unitsOnto (tripleUnit lead second third :: done) (offset + 3) rest
          else
            .error (.malformedClass (offset + 2) .truncatedCharacter)
        else
          .error (.malformedClass (offset + 1) .truncatedCharacter)
    else
      .error (.malformedClass offset (.invalidLeadByte lead))

/-- The offset is the position of the first byte in the class file. -/
def units (bytes : ByteArray) (offset : Nat) : Except Failure (List UInt16) :=
  unitsOnto [] offset bytes.data.toList

def decode (bytes : ByteArray) (offset : Nat) : Except Failure String :=
  match String.fromUTF8? bytes with
  | some text => .ok text
  | none => (units bytes offset).map Utf16.decode

end EnumNames.ModifiedUtf8
