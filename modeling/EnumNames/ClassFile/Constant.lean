import EnumNames.Bytes.Cursor
import EnumNames.Decimal.Shortest
import EnumNames.Text.ModifiedUtf8

/-!
The constants of a class file, with the reader and the writer of one constant.
-/

namespace EnumNames

inductive MemberKind where
  | field
  | method
  | interfaceMethod
  deriving DecidableEq, Repr, Inhabited

inductive DynamicKind where
  | constant
  | call
  deriving DecidableEq, Repr, Inhabited

inductive NamedKind where
  | module
  | package
  deriving DecidableEq, Repr, Inhabited

/-- Numbers of 16 bits inside a constant are indices of other constants, the bootstrap index of a
dynamic constant apart. -/
inductive Constant where
  | utf8 (text : String)
  | integer (value : Int32)
  | float (bits : UInt32)
  | long (value : Int64)
  | double (bits : UInt64)
  | classRef (name : UInt16)
  | string (text : UInt16)
  | member (kind : MemberKind) (owner nameAndType : UInt16)
  | nameAndType (name descriptor : UInt16)
  | methodHandle (kind : UInt8) (reference : UInt16)
  | methodType (descriptor : UInt16)
  | dynamic (kind : DynamicKind) (bootstrap nameAndType : UInt16)
  | named (kind : NamedKind) (name : UInt16)
  deriving DecidableEq, Repr, Inhabited

def MemberKind.tag : MemberKind → UInt8
  | .field => 9
  | .method => 10
  | .interfaceMethod => 11

def DynamicKind.tag : DynamicKind → UInt8
  | .constant => 17
  | .call => 18

def NamedKind.tag : NamedKind → UInt8
  | .module => 19
  | .package => 20

namespace Constant

/-- The tag is the first byte of a written constant. -/
def tag : Constant → UInt8
  | .utf8 _ => 1
  | .integer _ => 3
  | .float _ => 4
  | .long _ => 5
  | .double _ => 6
  | .classRef _ => 7
  | .string _ => 8
  | .member kind _ _ => kind.tag
  | .nameAndType _ _ => 12
  | .methodHandle _ _ => 15
  | .methodType _ => 16
  | .dynamic kind _ _ => kind.tag
  | .named kind _ => kind.tag

/-- Failures speak of a constant by its kind. -/
def kind : Constant → String
  | .utf8 _ => "utf8"
  | .integer _ => "int"
  | .float _ => "float"
  | .long _ => "long"
  | .double _ => "double"
  | .classRef _ => "class"
  | .string _ => "string"
  | .member .. => "member reference"
  | .nameAndType .. => "name and type"
  | .methodHandle .. => "method handle"
  | .methodType _ => "method type"
  | .dynamic .. => "dynamic constant"
  | .named .. => "module or package"

/-- A number is described with its value. -/
def description : Constant → String
  | .integer value => s!"int {value.toInt}"
  | .float bits => "float " ++ Decimal.BinaryFormat.single.text bits.toNat
  | .long value => s!"long {value.toInt}"
  | .double bits => "double " ++ Decimal.BinaryFormat.double.text bits.toNat
  | constant => constant.kind

/-- Numbers of 64 bits take two slots of the pool. -/
def isWide : Constant → Bool
  | .long _ | .double _ => true
  | _ => false

def encode64 (number : UInt64) : ByteArray :=
  BigEndian.encode32 (UInt32.ofNat (number.toNat / 0x100000000)) ++
    BigEndian.encode32 (UInt32.ofNat number.toNat)

/-- The text is preceded by its length in bytes. -/
def encodeText (text : String) : ByteArray :=
  let bytes := ModifiedUtf8.encode text
  BigEndian.encodeCount bytes.size ++ bytes

/-- These are the bytes after the tag. -/
def encodeBody : Constant → ByteArray
  | .utf8 text => encodeText text
  | .integer value => BigEndian.encode32 value.toUInt32
  | .float bits => BigEndian.encode32 bits
  | .long value => encode64 value.toUInt64
  | .double bits => encode64 bits
  | .classRef index | .string index | .methodType index | .named _ index =>
      BigEndian.encode16 index
  | .member _ first second | .nameAndType first second | .dynamic _ first second =>
      BigEndian.encode16 first ++ BigEndian.encode16 second
  | .methodHandle kind reference => ⟨#[kind]⟩ ++ BigEndian.encode16 reference

def encode (constant : Constant) : ByteArray :=
  ⟨#[constant.tag]⟩ ++ constant.encodeBody

def readText : Reader Constant := do
  let length ← Reader.u2
  let start ← Reader.position
  let bytes ← Reader.bytes length.toNat
  let text ← Reader.ofExcept (ModifiedUtf8.decode bytes start)
  return .utf8 text

/-- Most constants with two indices differ only in what they are made into. -/
def readPair (make : UInt16 → UInt16 → Constant) : Reader Constant := do
  let first ← Reader.u2
  let second ← Reader.u2
  return make first second

def readHandle : Reader Constant := do
  let kind ← Reader.u1
  let reference ← Reader.u2
  return .methodHandle kind reference

/-- An unknown tag is blamed on its own offset. -/
def readBody (offset : Nat) (tag : UInt8) : Reader Constant :=
  match tag.toNat with
  | 1 => readText
  | 3 => return .integer (← Reader.i4)
  | 4 => return .float (← Reader.u4)
  | 5 => return .long (← Reader.u8).toInt64
  | 6 => return .double (← Reader.u8)
  | 7 => return .classRef (← Reader.u2)
  | 8 => return .string (← Reader.u2)
  | 9 => readPair (.member .field)
  | 10 => readPair (.member .method)
  | 11 => readPair (.member .interfaceMethod)
  | 12 => readPair .nameAndType
  | 15 => readHandle
  | 16 => return .methodType (← Reader.u2)
  | 17 => readPair (.dynamic .constant)
  | 18 => readPair (.dynamic .call)
  | 19 => return .named .module (← Reader.u2)
  | 20 => return .named .package (← Reader.u2)
  | _ => Reader.failAt offset (.unknownTag tag)

def read : Reader Constant := do
  let offset ← Reader.position
  let tag ← Reader.u1
  readBody offset tag

end Constant

end EnumNames
