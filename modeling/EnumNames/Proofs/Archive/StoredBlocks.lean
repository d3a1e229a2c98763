import EnumNames.Archive.Deflate
import EnumNames.Archive.Inflate
import EnumNames.Proofs.Bytes.Stands

/-!
Reading data that has been divided into stored blocks. Main statement: whatever data is packed is found
again when it is inflated.
-/

namespace EnumNames

namespace Inflate

variable {α β : Type} {input output piece : ByteArray} {position middle stop index : Nat}

/-- The step takes the value from the bits at one position, ends at another one and has written the
output. -/
def Takes (step : Step α) (input : ByteArray) (position : Nat) (output : ByteArray) (value : α)
    (stop : Nat) (next : ByteArray) : Prop :=
  step ⟨input, position, output⟩ = .ok value ⟨input, stop, next⟩

theorem takes_pure (input : ByteArray) (position : Nat) (output : ByteArray) (value : α) :
    Takes (pure value : Step α) input position output value position output := rfl

theorem Takes.bind {first : Step α} {second : α → Step β} {value : α} {result : β}
    {between next : ByteArray} (before : Takes first input position output value middle between)
    (behind : Takes (second value) input middle between result stop next) :
    Takes (first >>= second) input position output result stop next := by
  unfold Takes at before behind ⊢
  change EStateM.bind first second _ = _
  rw [EStateM.bind, before]
  exact behind

theorem getElem_of_stands {byte : UInt8} (stands : Stands input index ⟨#[byte]⟩) :
    ∃ inside : index < input.size, input[index] = byte := by
  have inside : index < input.size := stands.within
  have found := Access.u1_eq_ok.mpr stands
  rw [Access.u1, dif_pos inside] at found
  exact ⟨inside, Except.ok.inj found⟩

/-- One bit of a byte. -/
theorem takes_bit {byte : UInt8} {offset : Nat} (stands : Stands input index ⟨#[byte]⟩)
    (inside : offset < 8) (output : ByteArray) :
    Takes bit input (8 * index + offset) output (byte.toNat / 2 ^ offset % 2) (8 * index + offset + 1)
      output := by
  have quotient : (8 * index + offset) / 8 = index := by omega
  have remainder : (8 * index + offset) % 8 = offset := by omega
  obtain ⟨present, found⟩ := getElem_of_stands stands
  unfold Takes bit
  simp only [quotient, remainder]
  rw [dif_pos present, found, Nat.shiftRight_eq_div_pow]

theorem div_two_pow_succ (number offset : Nat) :
    number / 2 ^ (offset + 1) = number / 2 ^ offset / 2 := by
  rw [Nat.pow_succ, Nat.div_div_eq_div_mul]

/-- Some bits inside a byte. -/
theorem takes_bits_of_byte {byte : UInt8} (stands : Stands input index ⟨#[byte]⟩) (output : ByteArray)
    (count : Nat) {offset : Nat} (inside : offset + count ≤ 8) :
    Takes (bits count) input (8 * index + offset) output (byte.toNat / 2 ^ offset % 2 ^ count)
      (8 * index + offset + count) output := by
  induction count generalizing offset with
  | zero =>
    rw [Nat.pow_zero, Nat.mod_one]
    exact takes_pure _ _ _ _
  | succ count inductionHypothesis =>
    have rest := inductionHypothesis (show offset + 1 + count ≤ 8 by omega)
    have split : byte.toNat / 2 ^ offset % 2 ^ (count + 1) = byte.toNat / 2 ^ offset % 2 +
        2 * (byte.toNat / 2 ^ (offset + 1) % 2 ^ count) := by
      rw [Nat.pow_succ', Nat.mod_mul, div_two_pow_succ]
    rw [split, show 8 * index + offset + (count + 1) = 8 * index + (offset + 1) + count by omega]
    exact (takes_bit stands (by omega) output).bind (rest.bind (takes_pure _ _ _ _))

/-- The bits of a byte from an offset on, and those of the whole byte behind it. -/
theorem takes_bits_of_bytes {byte other : UInt8} (stands : Stands input index ⟨#[byte]⟩)
    (otherStands : Stands input (index + 1) ⟨#[other]⟩) (output : ByteArray) (count : Nat) {offset : Nat}
    (whole : offset + count = 8) :
    Takes (bits (count + 8)) input (8 * index + offset) output
      (byte.toNat / 2 ^ offset + 2 ^ count * other.toNat) (8 * index + 16) output := by
  induction count generalizing offset with
  | zero =>
    have taken := takes_bits_of_byte otherStands output 8 (show 0 + 8 ≤ 8 by omega)
    have small := byte.toNat_lt
    have otherSmall := other.toNat_lt
    obtain rfl : offset = 8 := by omega
    rw [Nat.pow_zero, Nat.div_one, Nat.mod_eq_of_lt otherSmall] at taken
    rw [Nat.div_eq_of_lt small, Nat.pow_zero, Nat.one_mul, Nat.zero_add, Nat.zero_add]
    exact taken
  | succ count inductionHypothesis =>
    have rest := inductionHypothesis (show offset + 1 + count = 8 by omega)
    have split : byte.toNat / 2 ^ offset + 2 ^ (count + 1) * other.toNat = byte.toNat / 2 ^ offset % 2 +
        2 * (byte.toNat / 2 ^ (offset + 1) + 2 ^ count * other.toNat) := by
      rw [div_two_pow_succ, Nat.pow_succ', Nat.mul_assoc]
      omega
    rw [split, show count + 1 + 8 = count + 8 + 1 by omega]
    exact (takes_bit stands (by omega) output).bind (rest.bind (takes_pure _ _ _ _))

/-- A number of two whole bytes. -/
theorem takes_bits_16 {low high : UInt8} (stands : Stands input index ⟨#[low, high]⟩)
    (output : ByteArray) :
    Takes (bits 16) input (8 * index) output (low.toNat + 256 * high.toNat) (8 * (index + 2)) output := by
  have pair : Stands input index ((⟨#[low]⟩ : ByteArray) ++ ⟨#[high]⟩) := stands
  obtain ⟨first, second⟩ := stands_append.mp pair
  have taken := takes_bits_of_bytes first second output 8 (show 0 + 8 = 8 by omega)
  rwa [Nat.pow_zero, Nat.div_one] at taken

theorem takes_align (input output : ByteArray) (index : Nat) :
    Takes align input (8 * index + 3) output () (8 * (index + 1)) output := by
  have next : (8 * index + 3 + 7) / 8 * 8 = 8 * (index + 1) := by omega
  unfold Takes
  rw [← next]
  rfl

theorem takes_storedBytes (stands : Stands input index piece) (output : ByteArray) :
    Takes (storedBytes piece.size) input (8 * index) output () (8 * (index + piece.size))
      (output ++ piece) := by
  have start : 8 * index / 8 = index := by omega
  have stop : 8 * index + 8 * piece.size = 8 * (index + piece.size) := by omega
  unfold Takes storedBytes
  simp only [start, stands.extract, if_true, stop]

theorem toNat_low_high {number : Nat} (small : number ≤ 0xFFFF) :
    (UInt8.ofNat number).toNat + 256 * (UInt8.ofNat (number / 256)).toNat = number := by
  rw [UInt8.toNat_ofNat', UInt8.toNat_ofNat']
  omega

/-- A block tells whether it is the last one and writes its piece. -/
theorem takes_block {isLast : Bool} (small : piece.size ≤ 0xFFFF)
    (stands : Stands input index (Deflate.blockHeader isLast piece.size ++ piece)) (output : ByteArray) :
    Takes block input (8 * index) output isLast (8 * (index + 5 + piece.size)) (output ++ piece) := by
  rw [stands_append] at stands
  obtain ⟨header, content⟩ := stands
  have parts : Deflate.blockHeader isLast piece.size =
      (⟨#[if isLast then 1 else 0]⟩ : ByteArray) ++
        ((⟨#[UInt8.ofNat piece.size, UInt8.ofNat (piece.size / 256)]⟩ : ByteArray) ++
          ⟨#[UInt8.ofNat (0xFFFF - piece.size), UInt8.ofNat ((0xFFFF - piece.size) / 256)]⟩) := rfl
  rw [parts, stands_append, stands_append] at header
  obtain ⟨mark, length, inverted⟩ := header
  have last := takes_bit mark (show 0 < 8 by omega) output
  have kind := takes_bits_of_byte mark output 2 (show 1 + 2 ≤ 8 by omega)
  have lengthTaken := takes_bits_16 length output
  have invertedTaken := takes_bits_16 inverted output
  have written := takes_storedBytes content output
  rw [toNat_low_high small] at lengthTaken
  rw [toNat_low_high (by omega)] at invertedTaken
  have zero : (if isLast then 1 else 0 : UInt8).toNat / 2 ^ 1 % 2 ^ 2 = 0 := by cases isLast <;> rfl
  have one : decide ((if isLast then 1 else 0 : UInt8).toNat / 2 ^ 0 % 2 = 1) = isLast := by
    cases isLast <;> rfl
  rw [zero] at kind
  have stored : Takes storedBlock input (8 * index + 1 + 2) output () (8 * (index + 5 + piece.size))
      (output ++ piece) := by
    refine (takes_align input output index).bind ?_
    refine lengthTaken.bind ?_
    refine invertedTaken.bind ?_
    rw [if_neg (by omega)]
    exact written
  refine last.bind ?_
  refine kind.bind ?_
  rw [if_pos rfl]
  refine stored.bind ?_
  rw [one]
  exact takes_pure _ _ _ _

end Inflate

namespace Deflate

theorem size_blockHeader (isLast : Bool) (length : Nat) : (blockHeader isLast length).size = 5 := rfl

/-- The blocks are written behind the output. -/
theorem packFrom_eq (bytes : ByteArray) (start : Nat) (output : ByteArray) :
    packFrom bytes start output = output ++ packFrom bytes start .empty := by
  induction remaining : bytes.size - start using Nat.strongRecOn generalizing start output with
  | ind count inductionHypothesis =>
    rw [packFrom, packFrom.eq_def bytes start .empty]
    split
    · have fewer : bytes.size - (start + blockLimit) < count := by
        unfold blockLimit at *
        omega
      rw [inductionHypothesis _ fewer _ _ rfl, inductionHypothesis _ fewer _ (.empty ++ _ ++ _) rfl]
      simp only [ByteArray.append_assoc, ByteArray.empty_append]
    · simp only [ByteArray.append_assoc, ByteArray.empty_append]

theorem packFrom_of_more {bytes : ByteArray} {start : Nat} (more : start + blockLimit < bytes.size) :
    packFrom bytes start .empty = (blockHeader false blockLimit ++
      bytes.extract start (start + blockLimit)) ++ packFrom bytes (start + blockLimit) .empty := by
  rw [packFrom, if_pos more, packFrom_eq, ByteArray.empty_append]

theorem packFrom_of_last {bytes : ByteArray} {start : Nat} (last : ¬ start + blockLimit < bytes.size) :
    packFrom bytes start .empty =
      blockHeader true (bytes.size - start) ++ bytes.extract start bytes.size := by
  rw [packFrom, if_neg last, ByteArray.empty_append]

/-- Blocks take more room than the bytes in them. -/
theorem size_packFrom (bytes : ByteArray) (start : Nat) :
    bytes.size - start ≤ (packFrom bytes start .empty).size := by
  induction remaining : bytes.size - start using Nat.strongRecOn generalizing start with
  | ind count inductionHypothesis =>
    by_cases more : start + blockLimit < bytes.size
    · have fewer : bytes.size - (start + blockLimit) < count := by
        unfold blockLimit at *
        omega
      have rest := inductionHypothesis _ fewer (start + blockLimit) rfl
      rw [packFrom_of_more more, ByteArray.size_append, ByteArray.size_append, ByteArray.size_extract]
      omega
    · rw [packFrom_of_last more, ByteArray.size_append, ByteArray.size_extract]
      omega

end Deflate

namespace Inflate

/-- The blocks from a start on write the bytes from there on. -/
theorem takes_blocks {bytes : ByteArray} {start : Nat} (inside : start ≤ bytes.size)
    (stands : Stands input index (Deflate.packFrom bytes start .empty)) (output : ByteArray) :
    ∃ stop, untilDone block ⟨input, 8 * index, output⟩ =
      .ok () ⟨input, stop, output ++ bytes.extract start bytes.size⟩ := by
  induction remaining : bytes.size - start using Nat.strongRecOn
    generalizing start index output with
  | ind count inductionHypothesis =>
    by_cases more : start + Deflate.blockLimit < bytes.size
    · rw [Deflate.packFrom_of_more more, stands_append] at stands
      obtain ⟨first, rest⟩ := stands
      have size : (bytes.extract start (start + Deflate.blockLimit)).size = Deflate.blockLimit := by
        rw [ByteArray.size_extract]
        omega
      have within := first.within
      rw [ByteArray.size_append, Deflate.size_blockHeader] at within rest
      have header : Stands input index (Deflate.blockHeader false
          (bytes.extract start (start + Deflate.blockLimit)).size ++
            bytes.extract start (start + Deflate.blockLimit)) := by rwa [size]
      have taken : _ = EStateM.Result.ok false _ := takes_block (Nat.le_of_eq size) header output
      rw [← Nat.add_assoc] at rest
      have fewer : bytes.size - (start + Deflate.blockLimit) < count := by
        unfold Deflate.blockLimit at *
        omega
      obtain ⟨stop, done⟩ := inductionHypothesis _ fewer (Nat.le_of_lt more) rest
        (output ++ bytes.extract start (start + Deflate.blockLimit)) rfl
      refine ⟨stop, ?_⟩
      rw [untilDone, taken]
      dsimp only
      rw [if_pos, done]
      · rw [ByteArray.append_assoc, ByteArray.extract_append_extract, Nat.min_eq_left (by omega),
          Nat.max_eq_right (by omega)]
      · unfold Progress.remaining
        dsimp only
        omega
    · rw [Deflate.packFrom_of_last more] at stands
      have size : (bytes.extract start bytes.size).size = bytes.size - start := by
        rw [ByteArray.size_extract]
        omega
      rw [← size] at stands
      have small : (bytes.extract start bytes.size).size ≤ 0xFFFF := by
        unfold Deflate.blockLimit at more
        omega
      have taken : _ = EStateM.Result.ok true _ := takes_block small stands output
      refine ⟨8 * (index + 5 + (bytes.extract start bytes.size).size), ?_⟩
      rw [untilDone, taken]

/-- Whatever has been packed is found again. -/
theorem inflate_pack (bytes : ByteArray) : inflate (Deflate.pack bytes) = .ok bytes := by
  obtain ⟨stop, taken⟩ := takes_blocks (Nat.zero_le bytes.size) (.self (Deflate.pack bytes)) .empty
  rw [Nat.mul_zero, ByteArray.empty_append, ByteArray.extract_zero_size] at taken
  rw [inflate, taken]

end Inflate

end EnumNames
