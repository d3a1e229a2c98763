import EnumNames.Bytecode.Relocation.DebugTable
import EnumNames.Bytecode.Relocation.StackMap

/-!
The attributes inside a `Code` attribute after a relocation.
-/

namespace EnumNames.Relocation

/-- An attribute whose form is unknown might name an offset, so it is refused. -/
def attributeReader (relocation : Relocation) (name : String) : Reader ByteArray :=
  if name = "LineNumberTable" then
    rows relocation.lineRow
  else if name = "LocalVariableTable" ∨ name = "LocalVariableTypeTable" then
    rows relocation.variableRow
  else if name = "StackMapTable" then
    relocation.stackMap
  else
    throw (.relocation relocation.unit (.unknownAttribute name))

/-- This is the new body of the attribute with a name. -/
def attributeBody (relocation : Relocation) (name : String) (body : ByteArray) :
    Except Failure ByteArray :=
  (relocation.attributeReader name).evaluate body

end EnumNames.Relocation
