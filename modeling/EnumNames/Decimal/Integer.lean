/-!
Whole numbers as they are typed: a sign may stand in front of the digits.
-/

namespace EnumNames.Integer

def digitValue (digit : Char) : Nat := digit.toNat - '0'.toNat

def readDigits? (digits : List Char) : Option Nat :=
  if digits ≠ [] ∧ digits.all Char.isDigit then
    some (digits.foldl (fun number digit => 10 * number + digitValue digit) 0)
  else
    none

def read? (text : String) : Option Int :=
  match text.toList with
  | '-' :: digits => (readDigits? digits).map fun number => -(number : Int)
  | '+' :: digits => (readDigits? digits).map Int.ofNat
  | digits => (readDigits? digits).map Int.ofNat

/-- Numbers of 64 bits with sign are below this limit, and not below its negative. -/
def limit64 : Int := 0x8000000000000000

/-- A number outside the range of 64 bits with sign counts as unreadable. -/
def read64? (text : String) : Option Int :=
  (read? text).filter fun number => -limit64 ≤ number ∧ number < limit64

def isExponent : List Char → Bool
  | [] => true
  | mark :: digits => (mark == 'e' || mark == 'E') && digits != [] && digits.all Char.isDigit

/-- Digits may be followed by a point with more digits, and by an exponent. -/
def isNumber (text : List Char) : Bool :=
  (text.head?.map Char.isDigit).getD false &&
    match text.dropWhile Char.isDigit with
    | '.' :: rest => isExponent (rest.dropWhile Char.isDigit)
    | rest => isExponent rest

end EnumNames.Integer
