/-!
The checksum of archive entries: the remainder of the bits, lowest bit first, by the polynomial
0xEDB88320.
-/

namespace EnumNames.Crc32

def shift (remainder : UInt32) : UInt32 :=
  if remainder &&& 1 = 1 then (remainder >>> 1) ^^^ 0xEDB88320 else remainder >>> 1

/-- A whole byte is shifted out at once. -/
def table : Vector UInt32 256 :=
  Vector.ofFn fun index => Nat.repeat shift 8 (UInt32.ofNat index.val)

def update (remainder : UInt32) (byte : UInt8) : UInt32 :=
  let index := (remainder ^^^ byte.toUInt32).toUInt8
  table.get ⟨index.toNat, UInt8.toNat_lt index⟩ ^^^ (remainder >>> 8)

def checksum (bytes : ByteArray) : UInt32 :=
  bytes.foldl update 0xFFFFFFFF ^^^ 0xFFFFFFFF

end EnumNames.Crc32
