import EnumNames.ClassFile.ConstantPool

/-!
The layout of a class file records where each part lies, so that a repair can replace one part and
copy all others.
-/

namespace EnumNames

/-- The range covers the whole attribute; the body starts after its name and its length. -/
structure Attribute where
  name : UInt16
  range : Span
  body : Span
  deriving DecidableEq, Repr, Inhabited

/-- A member is a field or a method. -/
structure Member where
  access : UInt16
  name : UInt16
  descriptor : UInt16
  attributes : List Attribute
  deriving DecidableEq, Repr, Inhabited

/-- The first depth stops after the fields; the second requires that nothing follows the class. -/
inductive Depth where
  | fields
  | full
  deriving DecidableEq, Repr, Inhabited

/-- The pool ends where the access flags of the class start. -/
structure ClassLayout where
  pool : ConstantPool
  poolEnd : Nat
  access : UInt16
  thisClass : UInt16
  superClass : UInt16
  fields : List Member
  methods : List Member

namespace Attribute

def read : Reader Attribute := do
  let start ← Reader.position
  let name ← Reader.u2
  let length ← Reader.u4
  let body ← Reader.position
  Reader.skip length.toNat
  let stop ← Reader.position
  return { name, range := ⟨start, stop⟩, body := ⟨body, stop⟩ }

/-- The number of attributes stands in front of them. -/
def readAll : Reader (List Attribute) := do
  let count ← Reader.u2
  Reader.replicate count.toNat read

end Attribute

namespace Member

def read : Reader Member := do
  let access ← Reader.u2
  let name ← Reader.u2
  let descriptor ← Reader.u2
  let attributes ← Attribute.readAll
  return { access, name, descriptor, attributes }

/-- The number of members stands in front of them. -/
def readAll : Reader (List Member) := do
  let count ← Reader.u2
  Reader.replicate count.toNat read

end Member

namespace ClassLayout

def magic : UInt32 := 0xCAFEBABE

/-- The header is the magic number and the two halves of the version. -/
def readHeader : Reader Unit := do
  let found ← Reader.u4
  if found ≠ magic then
    Reader.failAt 0 (.badMagic found)
  Reader.skip 2
  Reader.skip 2

def skipInterfaces : Reader Unit := do
  let count ← Reader.u2
  Reader.skip (count.toNat * 2)

/-- Behind the fields come the methods and the attributes of the class, and nothing else. -/
def readMethods : Reader (List Member) := do
  let methods ← Member.readAll
  let _ ← Attribute.readAll
  let trailing ← Reader.remaining
  if trailing ≠ 0 then
    Reader.fail (.trailingBytes trailing)
  return methods

def readRest : Depth → Reader (List Member)
  | .fields => return []
  | .full => readMethods

def read (depth : Depth) : Reader ClassLayout := do
  readHeader
  let pool ← ConstantPool.read
  let poolEnd ← Reader.position
  let access ← Reader.u2
  let thisClass ← Reader.u2
  let superClass ← Reader.u2
  skipInterfaces
  let fields ← Member.readAll
  let methods ← readRest depth
  return { pool, poolEnd, access, thisClass, superClass, fields, methods }

def parse (data : ByteArray) (depth : Depth) : Except Failure ClassLayout :=
  (read depth).evaluate data

def name (layout : ClassLayout) : Except Failure String :=
  layout.pool.className layout.thisClass

/-- Only the root of all classes has no superclass. -/
def superName (layout : ClassLayout) : Except Failure (Option String) :=
  if layout.superClass = 0 then
    return none
  else
    return some (← layout.pool.className layout.superClass)

/-- The descriptor is resolved only for a method of the right name. -/
def matchesMethod (layout : ClassLayout) (name descriptor : String) (method : Member) :
    Except Failure Bool := do
  if (← layout.pool.utf8 method.name) = name then
    return (← layout.pool.utf8 method.descriptor) = descriptor
  else
    return false

/-- This is the first method with a name and a descriptor, together with its number. -/
def findMethod (layout : ClassLayout) (name descriptor : String) :
    Except Failure (Option (Member × Nat)) :=
  layout.methods.zipIdx.findM? fun (method, _) => layout.matchesMethod name descriptor method

/-- This is the first attribute of a member with a name. -/
def findAttribute (layout : ClassLayout) (member : Member) (name : String) :
    Except Failure (Option Attribute) :=
  member.attributes.findM? fun candidate => return (← layout.pool.utf8 candidate.name) = name

end ClassLayout

end EnumNames
