import EnumNames.ClassFile.Layout

/-!
Which classes are enums, and which of their fields are enum constants. Code is never looked at.
-/

namespace EnumNames

/-- The constants are in the order of their fields. -/
structure EnumUnit where
  name : String
  constants : List String
  deriving DecidableEq, Repr, Inhabited

/-- This is how a field of a class type is described. -/
def objectDescriptor (className : String) : String := "L" ++ className ++ ";"

namespace EnumUnit

/-- Every enum has this superclass. -/
def base : String := "java/lang/Enum"

/-- The field of an enum constant is static, final and marked as an enum constant. -/
def constantFlags : UInt16 := 0x4018

def isConstant (field : Member) : Bool := field.access &&& constantFlags == constantFlags

def constantNames (layout : ClassLayout) : Except Failure (List String) :=
  (layout.fields.filter isConstant).mapM fun field => layout.pool.utf8 field.name

def ofLayout? (layout : ClassLayout) : Except Failure (Option EnumUnit) := do
  if (← layout.superName) ≠ some base then
    return none
  let name ← layout.name
  let constants ← constantNames layout
  if constants.isEmpty then
    return none
  return some { name, constants }

/-- A class without enum constants counts as no enum. -/
def classify (data : ByteArray) : Except Failure (Option EnumUnit) := do
  ofLayout? (← ClassLayout.parse data .fields)

end EnumUnit

end EnumNames
