import EnumNames.Bytecode.Relocation.SubAttribute
import EnumNames.EnumUnit.Construction

/-!
A repaired enum class loads, for every constant, the name of the field that the constant is stored
into. Only the end of the constant pool and the code of the static initializer change.
-/

namespace EnumNames

/-- A substitution is a construction; it counts as changed when its literal differed before. -/
structure Repaired where
  bytes : ByteArray
  substitutions : Nat
  changed : Nat

def Repaired.size (repaired : Repaired) : Nat := repaired.bytes.size

namespace Step

/-- A literal that is no string keeps only its description. -/
def ofLoad (pool : ConstantPool) (index : UInt16) : Except Failure Step := do
  match ← pool.stringValue index with
  | some value => return .load (.string value)
  | none => return .load (.other (← pool.get index).description)

def ofInstruction (pool : ConstantPool) (code : ByteArray) (instruction : Instruction) :
    Except Failure Step := do
  if instruction.opcode = Opcode.new then
    return .allocate (← pool.className (← instruction.index code))
  else if Opcode.isLoad instruction.opcode then
    ofLoad pool (← instruction.loadIndex code)
  else if instruction.opcode = Opcode.putStatic then
    return .store (← pool.memberRef (← instruction.index code))
  else
    return .other

end Step

/-- The progress of a repair: the machine, the extended pool, and the sites in reverse. -/
structure Progress where
  machine : Construction
  pool : ConstantPool
  sites : List Site

namespace Progress

/-- The index is `none` when the load yields the name already. -/
def chooseIndex (source pool : ConstantPool) (current : UInt16) (name : String) :
    Except Failure (ConstantPool × Option UInt16) := do
  if (← source.stringValue current) = some name then
    return (pool, none)
  else
    match ConstantPool.intern name pool with
    | .ok target pool => return (pool, if target = current then none else some target)
    | .error failure _ => throw failure

/-- Lookups use the source pool; additions go to the extended one. -/
def observe (source : ConstantPool) (code : ByteArray) (progress : Progress)
    (instruction : Instruction) : Except Failure Progress := do
  let step ← Step.ofInstruction source code instruction
  let (machine, action) ← progress.machine.observe step
  match action with
  | .forward =>
    return { progress with machine, sites := ⟨instruction, none⟩ :: progress.sites }
  | .substitute name =>
    let current ← instruction.loadIndex code
    let (pool, index) ← chooseIndex source progress.pool current name
    return { machine, pool, sites := ⟨instruction, index⟩ :: progress.sites }

def observeAll (source : ConstantPool) (code : ByteArray) (unit : EnumUnit)
    (instructions : List Instruction) : Except Failure Progress :=
  instructions.foldlM (observe source code)
    { machine := Construction.start unit, pool := source, sites := [] }

end Progress

namespace Site

/-- The operand of a load is overwritten where it stands. -/
def patch (code : ByteArray) (site : Site) : Except Failure ByteArray :=
  match site.index with
  | none => .ok code
  | some index =>
    let start := site.instruction.offset + 1
    if site.instruction.opcode = Opcode.loadConstant then
      Access.overwrite code start ⟨#[index.toUInt8]⟩
    else
      Access.overwrite code start (BigEndian.encode16 index)

def patchAll (sites : List Site) (code : ByteArray) : Except Failure ByteArray :=
  sites.foldlM patch code

end Site

namespace CodeAttribute

/-- Without a relocation an attribute is copied together with its header. -/
def encodeAttribute (data : ByteArray) (pool : ConstantPool) (relocation : Option Relocation)
    (item : Attribute) : Except Failure ByteArray := do
  match relocation with
  | none => Access.slice data item.range
  | some relocation =>
    let name ← pool.utf8 item.name
    let body ← relocation.attributeBody name (← Access.slice data item.body)
    return BigEndian.encode16 item.name ++ BigEndian.encodeSize body.size ++ body

def encodeException (relocation : Option Relocation) (row : ExceptionRow) :
    Except Failure ByteArray := do
  match relocation with
  | none => return row.encode
  | some relocation => return (← relocation.exceptionRow row).encode

/-- The attribute is written around new code; a relocation moves all the offsets it names. -/
def encode (data : ByteArray) (name : UInt16) (source : CodeAttribute) (pool : ConstantPool)
    (code : ByteArray) (relocation : Option Relocation) : Except Failure ByteArray := do
  let exceptions ← source.exceptions.mapM (encodeException relocation)
  let attributes ← source.attributes.mapM (encodeAttribute data pool relocation)
  let body :=
    BigEndian.encode16 source.maxStack ++ BigEndian.encode16 source.maxLocals ++
      BigEndian.encodeSize code.size ++ code ++
      BigEndian.encodeCount source.exceptions.length ++ Relocation.concat exceptions ++
      BigEndian.encodeCount source.attributes.length ++ Relocation.concat attributes
  return BigEndian.encode16 name ++ BigEndian.encodeSize body.size ++ body

end CodeAttribute

namespace ClassLayout

/-- The class is put together around an extended pool and a replaced attribute. -/
def splice (layout : ClassLayout) (data : ByteArray) (pool : ConstantPool) (replaced : Span)
    (replacement : ByteArray) : Except Failure ByteArray := do
  if 65535 < pool.count then
    throw (.malformedClass 8 .poolOverflow)
  let header ← Access.slice data ⟨0, 8⟩
  let entries ← Access.slice data ⟨10, layout.poolEnd⟩
  let before ← Access.slice data ⟨layout.poolEnd, replaced.start⟩
  let behind ← Access.slice data ⟨replaced.stop, data.size⟩
  return header ++ BigEndian.encodeCount pool.count ++ entries ++ pool.appended ++ before ++
    replacement ++ behind

end ClassLayout

namespace EnumUnit

/-- Code moves only when a load grows. -/
def repairCode (unit : EnumUnit) (code : ByteArray) (sites : List Site) :
    Except Failure (ByteArray × Option Relocation) := do
  if sites.any Site.isWidened then
    let (code, relocation) ← Relocation.relocate unit.name code sites
    return (code, some relocation)
  else
    return (← Site.patchAll sites code, none)

/-- The static initializer runs once when the class is loaded. -/
def initializerName : String := "<clinit>"

def initializerDescriptor : String := "()V"

/-- A class without a static initializer constructs nothing. -/
def repairBare (unit : EnumUnit) (data : ByteArray) : Except Failure Repaired := do
  let substitutions ← (Construction.start unit).finish
  return { bytes := data, substitutions, changed := 0 }

/-- Every literal matching already, the class stays as it is. -/
def repairInitializer (unit : EnumUnit) (data : ByteArray) (layout : ClassLayout)
    (location : Attribute) : Except Failure Repaired := do
  let source ← CodeAttribute.parse data location.body
  let code ← Access.slice data source.code
  let instructions ← Instruction.decodeAll code
  let progress ← Progress.observeAll layout.pool code unit instructions
  let substitutions ← progress.machine.finish
  let sites := progress.sites.reverse
  let changed := sites.countP (·.index.isSome)
  if changed = 0 then
    return { bytes := data, substitutions, changed }
  let (code, relocation) ← unit.repairCode code sites
  let replacement ← source.encode data location.name layout.pool code relocation
  let bytes ← layout.splice data progress.pool location.range replacement
  return { bytes, substitutions, changed }

def repair (unit : EnumUnit) (data : ByteArray) : Except Failure Repaired := do
  let layout ← ClassLayout.parse data .full
  match ← layout.findMethod initializerName initializerDescriptor with
  | none => unit.repairBare data
  | some (initializer, _) =>
    match ← layout.findAttribute initializer "Code" with
    | none => throw (.malformedClass 0 (.missingCode unit.name))
    | some location => unit.repairInitializer data layout location

end EnumUnit

end EnumNames
