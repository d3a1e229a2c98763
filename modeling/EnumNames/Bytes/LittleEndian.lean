/-!
Numbers as bytes, the least significant byte first. A number that needs more bytes loses its high
part.
-/

namespace EnumNames.LittleEndian

def decodeList : List UInt8 → Nat
  | [] => 0
  | byte :: rest => byte.toNat + 256 * decodeList rest

def decode (bytes : ByteArray) : Nat := decodeList bytes.data.toList

def encodeList : Nat → Nat → List UInt8
  | 0, _ => []
  | width + 1, number => UInt8.ofNat number :: encodeList width (number / 256)

def encode (width number : Nat) : ByteArray := ⟨(encodeList width number).toArray⟩

@[simp] theorem length_encodeList (width number : Nat) :
    (encodeList width number).length = width := by
  induction width generalizing number with
  | zero => rfl
  | succ width inductionHypothesis => simp [encodeList, inductionHypothesis]

@[simp] theorem size_encode (width number : Nat) : (encode width number).size = width := by
  simp [encode, ByteArray.size]

theorem decodeList_encodeList (width number : Nat) :
    decodeList (encodeList width number) = number % Nat.pow 256 width := by
  induction width generalizing number with
  | zero => simp [encodeList, decodeList, Nat.mod_one]
  | succ width inductionHypothesis =>
    have power : Nat.pow 256 (width + 1) = 256 * Nat.pow 256 width := Nat.pow_succ'
    rw [encodeList, decodeList, inductionHypothesis, power, Nat.mod_mul]
    simp

theorem decode_encode (width number : Nat) (fits : number < Nat.pow 256 width) :
    decode (encode width number) = number := by
  rw [decode, encode, List.toList_toArray, decodeList_encodeList, Nat.mod_eq_of_lt fits]

end EnumNames.LittleEndian
