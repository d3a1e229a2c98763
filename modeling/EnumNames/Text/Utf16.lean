/-!
Characters as 16-bit units. A character beyond the basic plane takes two surrogate units.
-/

namespace EnumNames.Utf16

/-- This character takes the place of a surrogate that has no partner. -/
def replacement : Char := '\uFFFD'

def isHigh (unit : UInt16) : Bool := 0xD800 ≤ unit && unit < 0xDC00

def isLow (unit : UInt16) : Bool := 0xDC00 ≤ unit && unit < 0xE000

def encodeChar (character : Char) : List UInt16 :=
  if character.toNat < 0x10000 then
    [UInt16.ofNat character.toNat]
  else
    let offset := character.toNat - 0x10000
    [UInt16.ofNat (0xD800 + offset / 0x400), UInt16.ofNat (0xDC00 + offset % 0x400)]

def encode (text : String) : List UInt16 :=
  text.toList.flatMap encodeChar

/-- A lone surrogate has no character of its own. -/
def single (unit : UInt16) : Char :=
  if isHigh unit || isLow unit then replacement else Char.ofNat unit.toNat

def pair (high low : UInt16) : Char :=
  Char.ofNat (0x10000 + (high.toNat - 0xD800) * 0x400 + (low.toNat - 0xDC00))

/-- The characters decoded so far are held in reverse. -/
def decodeOnto (done : List Char) : List UInt16 → List Char
  | [] => done.reverse
  | [unit] => (single unit :: done).reverse
  | first :: second :: rest =>
    if isHigh first && isLow second then
      decodeOnto (pair first second :: done) rest
    else
      decodeOnto (single first :: done) (second :: rest)

def decode (units : List UInt16) : String :=
  String.ofList (decodeOnto [] units)

end EnumNames.Utf16
