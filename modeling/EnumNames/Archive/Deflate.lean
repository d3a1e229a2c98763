/-!
Writing deflated data. The data is only divided into stored blocks, which every reader accepts.
-/

namespace EnumNames.Deflate

/-- The length of a stored block has sixteen bits. -/
def blockLimit : Nat := 0xFFFF

/-- A stored block has a header of three bits, the first of which marks the last block. The length
stands behind it twice, the second time with all bits inverted. -/
def blockHeader (isLast : Bool) (length : Nat) : ByteArray :=
  let inverted := 0xFFFF - length
  ⟨#[if isLast then 1 else 0, UInt8.ofNat length, UInt8.ofNat (length / 256),
    UInt8.ofNat inverted, UInt8.ofNat (inverted / 256)]⟩

def packFrom (bytes : ByteArray) (start : Nat) (output : ByteArray) : ByteArray :=
  if start + blockLimit < bytes.size then
    packFrom bytes (start + blockLimit)
      (output ++ blockHeader false blockLimit ++ bytes.extract start (start + blockLimit))
  else
    output ++ blockHeader true (bytes.size - start) ++ bytes.extract start bytes.size
termination_by bytes.size - start
decreasing_by simp only [blockLimit] at *; omega

/-- There is always a last block, even for no data at all. -/
def pack (bytes : ByteArray) : ByteArray := packFrom bytes 0 .empty

end EnumNames.Deflate
