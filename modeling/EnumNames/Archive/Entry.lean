import EnumNames.Failure

/-!
What an archive says about its entries.
-/

namespace EnumNames

/-- Only these two methods can be read; the others are known by their numbers. -/
inductive Compression where
  | stored
  | deflated
  | other (number : UInt16)
  deriving DecidableEq, Repr, Inhabited

namespace Compression

def ofNumber (number : UInt16) : Compression :=
  if number = 0 then .stored
  else if number = 8 then .deflated
  else .other number

def number : Compression → UInt16
  | .stored => 0
  | .deflated => 8
  | .other number => number

/-- Whatever was not stored is written deflated. -/
def written : Compression → Compression
  | .stored => .stored
  | _ => .deflated

end Compression

/-- A date and a time of day are packed into 16 bits each. -/
structure Timestamp where
  date : UInt16
  time : UInt16
  deriving DecidableEq, Repr, Inhabited

/-- The mode is missing when the archive does not record one. -/
structure Entry where
  index : Nat
  name : String
  isDirectory : Bool
  compression : Compression
  modified : Timestamp
  mode : Option UInt32
  size : Nat
  deriving DecidableEq, Repr, Inhabited

namespace Entry

/-- The name of a directory ends with a separator of one of two systems. -/
def namesDirectory (name : String) : Bool := name.endsWith '/' || name.endsWith '\\'

/-- A unit is a compiled class. -/
def isUnit (entry : Entry) : Bool := !entry.isDirectory && entry.name.endsWith ".class"

end Entry

/-- The size given for a repaired class decides nothing about its bytes. -/
inductive Content where
  | kept (bytes : ByteArray)
  | repaired (bytes : ByteArray) (size : Nat)

def Content.bytes : Content → ByteArray
  | .kept bytes | .repaired bytes _ => bytes

end EnumNames
