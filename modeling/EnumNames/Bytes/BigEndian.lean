/-!
Numbers as bytes, the most significant byte first. Reading a written number gives it back.
-/

namespace EnumNames.BigEndian

def decode16 (high low : UInt8) : UInt16 :=
  UInt16.ofNat (high.toNat * 256 + low.toNat)

def decode32 (first second third fourth : UInt8) : UInt32 :=
  UInt32.ofNat
    (((first.toNat * 256 + second.toNat) * 256 + third.toNat) * 256 + fourth.toNat)

/-- The high half of a 64-bit number comes first. -/
def decode64 (high low : UInt32) : UInt64 :=
  UInt64.ofNat (high.toNat * 0x100000000 + low.toNat)

def encode16 (number : UInt16) : ByteArray :=
  ⟨#[UInt8.ofNat (number.toNat / 256), UInt8.ofNat number.toNat]⟩

def encode32 (number : UInt32) : ByteArray :=
  ⟨#[UInt8.ofNat (number.toNat / 0x1000000), UInt8.ofNat (number.toNat / 0x10000),
    UInt8.ofNat (number.toNat / 256), UInt8.ofNat number.toNat]⟩

/-- A number of items is written with 16 bits. -/
def encodeCount (count : Nat) : ByteArray :=
  encode16 (UInt16.ofNat count)

/-- A number of bytes is written with 32 bits. -/
def encodeSize (size : Nat) : ByteArray :=
  encode32 (UInt32.ofNat size)

/-- A signed number is written as its two's complement. -/
def encodeSigned16 (number : Int) : ByteArray :=
  encode16 (Int16.ofInt number).toUInt16

/-- A signed number is written as its two's complement. -/
def encodeSigned32 (number : Int) : ByteArray :=
  encode32 (Int32.ofInt number).toUInt32

@[simp] theorem size_encode16 (number : UInt16) : (encode16 number).size = 2 := rfl

@[simp] theorem size_encode32 (number : UInt32) : (encode32 number).size = 4 := rfl

theorem decode16_encode16 (number : UInt16) :
    decode16 (UInt8.ofNat (number.toNat / 256)) (UInt8.ofNat number.toNat) = number := by
  have bound := number.toNat_lt
  apply UInt16.toNat_inj.mp
  simp only [decode16, UInt16.toNat_ofNat', UInt8.toNat_ofNat']
  omega

theorem decode32_encode32 (number : UInt32) :
    decode32 (UInt8.ofNat (number.toNat / 0x1000000)) (UInt8.ofNat (number.toNat / 0x10000))
      (UInt8.ofNat (number.toNat / 256)) (UInt8.ofNat number.toNat) = number := by
  have bound := number.toNat_lt
  apply UInt32.toNat_inj.mp
  simp only [decode32, UInt32.toNat_ofNat', UInt8.toNat_ofNat']
  omega

end EnumNames.BigEndian
