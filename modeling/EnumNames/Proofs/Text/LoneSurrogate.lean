import EnumNames.Proofs.Text.RoundTrip

/-!
Surrogates without a partner. A high surrogate and a low one right behind it are one character; any
other surrogate is lost when units are read as a text, and nothing else is.
-/

namespace EnumNames.Utf16

/-- A surrogate stands alone when it is a high one with no low one behind it, or a low one with no
high one before it. -/
def isLone (units : List UInt16) (index : Nat) : Bool :=
  units[index]?.any isHigh && !units[index + 1]?.any isLow ||
    units[index]?.any isLow && !(decide (0 < index) && units[index - 1]?.any isHigh)

/-- Every surrogate that stands alone is replaced. -/
def mend (units : List UInt16) : List UInt16 :=
  units.mapIdx fun index unit => if isLone units index then 0xFFFD else unit

/-- A unit that stands by itself is mended when it is a surrogate. -/
def mendOne (unit : UInt16) : UInt16 := if isHigh unit || isLow unit then 0xFFFD else unit

theorem isHigh_of_isLow {unit : UInt16} (low : isLow unit = true) : isHigh unit = false := by
  rw [isLow_iff] at low
  rw [← Bool.not_eq_true, isHigh_iff]
  omega

/-- Units behind the first one see it only when it could be their partner. -/
theorem isLone_succ {first : UInt16} {rest : List UInt16} {index : Nat}
    (noPair : index = 0 → ¬ (isHigh first = true ∧ rest[0]?.any isLow = true)) :
    isLone (first :: rest) (index + 1) = isLone rest index := by
  cases index with
  | zero =>
    have noPair := noPair rfl
    cases low : rest[0]?.any isLow <;> simp_all [isLone]
  | succ index => simp [isLone]

theorem mend_cons_of_noPair {first : UInt16} {rest : List UInt16}
    (noPair : ¬ (isHigh first = true ∧ rest[0]?.any isLow = true)) :
    mend (first :: rest) = mendOne first :: mend rest := by
  have later (index : Nat) : isLone (first :: rest) (index + 1) = isLone rest index :=
    isLone_succ fun _ => noPair
  have here : isLone (first :: rest) 0 = (isHigh first || isLow first) := by
    cases high : isHigh first <;> simp_all [isLone]
  simp only [mend, mendOne, List.mapIdx_cons, later, here]

theorem mend_pair {high low : UInt16} (isHighUnit : isHigh high = true)
    (isLowUnit : isLow low = true) (rest : List UInt16) : mend (high :: low :: rest) = high :: low :: mend rest := by
  have noHigh := isHigh_of_isLow isLowUnit
  have later (index : Nat) : isLone (high :: low :: rest) (index + 1 + 1) = isLone rest index := by
    rw [isLone_succ fun none => by omega, isLone_succ fun _ => by simp [noHigh]]
  have first : isLone (high :: low :: rest) 0 = false := by
    have noLow : isLow high = false := by
      rw [← Bool.not_eq_true]
      intro low
      rw [isHigh_of_isLow low] at isHighUnit
      cases isHighUnit
    simp [isLone, isLowUnit, noLow]
  have second : isLone (high :: low :: rest) 1 = false := by
    simp [isLone, isHighUnit, noHigh]
  simp only [mend, List.mapIdx_cons, Nat.zero_add, later, first, second]
  rfl

theorem toNat_ofNat_of_valid {number : Nat} (valid : number.isValidChar) :
    (Char.ofNat number).toNat = number := by
  rw [Char.ofNat, dif_pos valid]
  rfl

/-- A single unit is written as what has become of it. -/
theorem encodeChar_single (unit : UInt16) : encodeChar (single unit) = [mendOne unit] := by
  unfold single mendOne
  split_ifs with surrogate
  · rfl
  · have bound := unit.toNat_lt
    rw [Bool.or_eq_true, isHigh_iff, isLow_iff] at surrogate
    have valid : unit.toNat.isValidChar := by
      unfold Nat.isValidChar
      omega
    have number := toNat_ofNat_of_valid valid
    rw [encodeChar_of_basic (by rwa [number]), basicUnit, number, UInt16.ofNat_toNat]

theorem encodeChar_pair {high low : UInt16} (isHighUnit : isHigh high = true)
    (isLowUnit : isLow low = true) : encodeChar (pair high low) = [high, low] := by
  rw [isHigh_iff] at isHighUnit
  rw [isLow_iff] at isLowUnit
  have number : (pair high low).toNat =
      0x10000 + (high.toNat - 0xD800) * 0x400 + (low.toNat - 0xDC00) := by
    rw [pair, toNat_ofNat_of_valid]
    unfold Nat.isValidChar
    omega
  have highUnit : UInt16.ofNat (0xD800 + ((pair high low).toNat - 0x10000) / 0x400) = high := by
    rw [← UInt16.toNat_inj, UInt16.toNat_ofNat', number]
    omega
  have lowUnit : UInt16.ofNat (0xDC00 + ((pair high low).toNat - 0x10000) % 0x400) = low := by
    rw [← UInt16.toNat_inj, UInt16.toNat_ofNat', number]
    omega
  unfold encodeChar
  rw [if_neg (by omega)]
  simp only [highUnit, lowUnit]

/-- The induction follows the decoder: it takes a pair, or one unit. -/
theorem flatMap_decodeOnto (done : List Char) (units : List UInt16) :
    (decodeOnto done units).flatMap encodeChar = done.reverse.flatMap encodeChar ++ mend units := by
  fun_induction decodeOnto done units with
  | case1 done => simp [mend]
  | case2 done unit =>
    rw [mend_cons_of_noPair (by simp)]
    simp [encodeChar_single, mend]
  | case3 done first second rest both inductionHypothesis =>
    obtain ⟨high, low⟩ := Bool.and_eq_true_iff.mp both
    rw [inductionHypothesis, mend_pair high low]
    simp [encodeChar_pair high low]
  | case4 done first second rest alone inductionHypothesis =>
    have noPair : ¬ (isHigh first = true ∧ (second :: rest)[0]?.any isLow = true) := by
      simpa using alone
    rw [inductionHypothesis, mend_cons_of_noPair noPair]
    simp [encodeChar_single]

/-- What is written again are the units with every lone surrogate replaced. -/
theorem encode_decode (units : List UInt16) : encode (decode units) = mend units := by
  rw [encode, decode, String.toList_ofList, flatMap_decodeOnto]
  rfl

/-- Units are read as the same text when they differ in lone surrogates and their replacements. -/
theorem decode_eq_iff {first second : List UInt16} :
    decode first = decode second ↔ mend first = mend second := by
  rw [← encode_decode, ← encode_decode]
  constructor
  · intro same
    rw [same]
  · intro same
    have texts := congrArg decode same
    rwa [decode_encode, decode_encode] at texts

/-- No surrogate is its own replacement, so units stay as they are when all of them have
partners. -/
theorem mend_eq_self_iff {units : List UInt16} :
    mend units = units ↔ ∀ index, isLone units index = false := by
  constructor
  · intro same index
    cases lone : isLone units index with
    | false => rfl
    | true =>
      have here := congrArg (fun list : List UInt16 => list[index]?) same
      rw [mend, List.getElem?_mapIdx] at here
      cases found : units[index]? with
      | none => simp [isLone, found] at lone
      | some unit =>
        obtain rfl : 0xFFFD = unit := by simpa [found, lone] using here
        have surrogate : isHigh 0xFFFD = true ∨ isLow 0xFFFD = true := by
          simp only [isLone, found, Option.any_some, Bool.or_eq_true, Bool.and_eq_true] at lone
          exact lone.imp And.left And.left
        exact absurd surrogate (by decide)
  · intro paired
    apply List.ext_getElem?
    intro index
    simp [mend, paired]

end EnumNames.Utf16
