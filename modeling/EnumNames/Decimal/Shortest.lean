/-!
The shortest decimal text of a binary floating-point number: the fewest digits that read back to
the same number, always in positional notation.
-/

namespace EnumNames.Decimal

/-- A binary format has a fraction field below an exponent field below the sign. -/
structure BinaryFormat where
  fractionBits : Nat
  exponentBits : Nat

def BinaryFormat.single : BinaryFormat := ⟨23, 8⟩

def BinaryFormat.double : BinaryFormat := ⟨52, 11⟩

/-- The largest exponent field marks infinities and numbers that are no numbers. -/
def BinaryFormat.specialExponent (format : BinaryFormat) : Nat := Nat.pow 2 format.exponentBits - 1

/-- The value is `center / denominator`, and the fractions strictly between `low` and `high` over
the same denominator read back to it. The two ends do so as well when the interval is closed. -/
structure Rounding where
  low : Nat
  center : Nat
  high : Nat
  denominator : Nat
  closed : Bool

/-- The neighbour below a power of two is only half as far away as the one above. -/
def BinaryFormat.rounding (format : BinaryFormat) (exponent fraction : Nat) : Rounding :=
  let significand := if exponent = 0 then fraction else fraction + Nat.pow 2 format.fractionBits
  let bias := Nat.pow 2 (format.exponentBits - 1) - 1 + format.fractionBits + 2
  let power := max exponent 1
  let scale := Nat.pow 2 (power - bias)
  { low := (4 * significand - if fraction = 0 ∧ 1 < exponent then 1 else 2) * scale
    center := 4 * significand * scale
    high := (4 * significand + 2) * scale
    denominator := Nat.pow 2 (bias - power)
    closed := significand % 2 = 0 }

/-- A decimal is `digits * 10 ^ exponent`. -/
structure Scaled where
  digits : Nat
  exponent : Int

def digitCount (number : Nat) : Nat := (Nat.toDigits 10 number).length

/-- The value lies between ten to the magnitude minus one, included, and ten to the magnitude. -/
def Rounding.magnitude (rounding : Rounding) : Int :=
  if rounding.denominator ≤ rounding.center then
    digitCount (rounding.center / rounding.denominator)
  else
    let inverse := (rounding.denominator + rounding.center - 1) / rounding.center
    1 - (digitCount (inverse - 1) : Int)

/-- Of the two neighbours of the value on a decimal grid, those that read back to it are
candidates; the nearer one wins, and the upper one wins a tie. -/
def Rounding.onGrid? (rounding : Rounding) (exponent : Int) : Option Scaled :=
  let step := Nat.pow 10 exponent.toNat * rounding.denominator
  let factor := Nat.pow 10 (-exponent).toNat
  let below := rounding.center * factor / step
  let above := below + 1
  let belowReads :=
    if rounding.closed then rounding.low * factor ≤ below * step
    else rounding.low * factor < below * step
  let aboveReads :=
    if rounding.closed then above * step ≤ rounding.high * factor
    else above * step < rounding.high * factor
  let belowNearer :=
    rounding.center * factor - below * step < above * step - rounding.center * factor
  if belowReads ∧ (belowNearer ∨ ¬ aboveReads) then some ⟨below, exponent⟩
  else if aboveReads then some ⟨above, exponent⟩
  else none

/-- The coarsest grid offers the power of ten above the value, which has one digit. Seventeen
digits are enough for every format in use. -/
def Rounding.shortest (rounding : Rounding) : Scaled :=
  let grids := (List.range 18).map fun index => rounding.magnitude - (index : Nat)
  (grids.findSome? rounding.onGrid?).getD ⟨0, 0⟩

/-- Positional notation has neither an exponent nor a point without digits after it. -/
def Scaled.text (decimal : Scaled) : String :=
  let digits := Nat.toDigits 10 decimal.digits
  if 0 ≤ decimal.exponent then
    String.ofList (digits ++ List.replicate decimal.exponent.toNat '0')
  else
    let places := (-decimal.exponent).toNat
    let padded := List.replicate (places + 1 - digits.length) '0' ++ digits
    let whole := padded.length - places
    String.ofList (padded.take whole ++ '.' :: padded.drop whole)

/-- A number that is no number has no sign. -/
def BinaryFormat.text (format : BinaryFormat) (bits : Nat) : String :=
  let fraction := bits % Nat.pow 2 format.fractionBits
  let exponent := bits / Nat.pow 2 format.fractionBits % Nat.pow 2 format.exponentBits
  let negative := bits / Nat.pow 2 (format.fractionBits + format.exponentBits) % 2 = 1
  if exponent = format.specialExponent ∧ fraction ≠ 0 then
    "NaN"
  else
    let sign := if negative then "-" else ""
    if exponent = format.specialExponent then
      sign ++ "inf"
    else if exponent = 0 ∧ fraction = 0 then
      sign ++ "0"
    else
      sign ++ (format.rounding exponent fraction).shortest.text

end EnumNames.Decimal
