/-!
Reading UTF-8 in which some bytes may be wrong. Every longest wrong start of a character becomes
one replacement character.
-/

namespace EnumNames.Utf8

def replacement : Char := '\uFFFD'

def isContinuation (byte : UInt8) : Bool := 0x80 ≤ byte && byte ≤ 0xBF

/-- The second byte of a character is restricted further by a few first bytes, so that no
character is written longer than needed and none is a surrogate or too large. -/
def allowsSecond (lead second : UInt8) : Bool :=
  if lead = 0xE0 then 0xA0 ≤ second && second ≤ 0xBF
  else if lead = 0xED then 0x80 ≤ second && second ≤ 0x9F
  else if lead = 0xF0 then 0x90 ≤ second && second ≤ 0xBF
  else if lead = 0xF4 then 0x80 ≤ second && second ≤ 0x8F
  else isContinuation second

/-- This is the number of bytes of a character with a first byte, and zero if there is none. -/
def width (lead : UInt8) : Nat :=
  if lead < 0x80 then 1
  else if lead < 0xC2 then 0
  else if lead < 0xE0 then 2
  else if lead < 0xF0 then 3
  else if lead < 0xF5 then 4
  else 0

def payload (byte : UInt8) : Nat := byte.toNat % 0x40

def character2 (lead second : UInt8) : Char :=
  Char.ofNat (lead.toNat % 0x20 * 0x40 + payload second)

def character3 (lead second third : UInt8) : Char :=
  Char.ofNat (lead.toNat % 0x10 * 0x1000 + payload second * 0x40 + payload third)

def character4 (lead second third fourth : UInt8) : Char :=
  Char.ofNat (lead.toNat % 0x08 * 0x40000 + payload second * 0x1000 + payload third * 0x40 +
    payload fourth)

/-- The characters found so far are held in reverse. -/
def decodeOnto (done : List Char) : List UInt8 → List Char
  | [] => done.reverse
  | lead :: rest =>
    if width lead = 1 then
      decodeOnto (Char.ofNat lead.toNat :: done) rest
    else if width lead = 0 then
      decodeOnto (replacement :: done) rest
    else
      match rest with
      | [] => (replacement :: done).reverse
      | second :: rest =>
        if ¬ allowsSecond lead second then
          decodeOnto (replacement :: done) (second :: rest)
        else if width lead = 2 then
          decodeOnto (character2 lead second :: done) rest
        else
          match rest with
          | [] => (replacement :: done).reverse
          | third :: rest =>
            if ¬ isContinuation third then
              decodeOnto (replacement :: done) (third :: rest)
            else if width lead = 3 then
              decodeOnto (character3 lead second third :: done) rest
            else
              match rest with
              | [] => (replacement :: done).reverse
              | fourth :: rest =>
                if ¬ isContinuation fourth then
                  decodeOnto (replacement :: done) (fourth :: rest)
                else
                  decodeOnto (character4 lead second third fourth :: done) rest

def decodeLossy (bytes : ByteArray) : String :=
  String.ofList (decodeOnto [] bytes.data.toList)

end EnumNames.Utf8
