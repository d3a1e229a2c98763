import EnumNames.Bytecode.Instruction

/-!
A new layout for code in which a load grows. Every jump follows its target, and every switch gets
the padding that its new offset requires.
-/

namespace EnumNames

/-- A site is an instruction, with the new constant index for a load that changes. -/
structure Site where
  instruction : Instruction
  index : Option UInt16
  deriving DecidableEq, Repr

/-- A placed site knows the offset at which it starts in the new code. -/
structure PlacedSite where
  site : Site
  start : Nat
  deriving DecidableEq, Repr

/-- The table has one place for every old offset and one for the end of the code. It is filled
where an instruction starts and at the end. -/
structure Relocation where
  unit : String
  table : Array (Option Nat)
  newLength : Nat

namespace Site

/-- A narrow load grows when its new index needs two bytes. -/
def isWidened (site : Site) : Bool :=
  site.instruction.opcode == Opcode.loadConstant && site.index.any fun index => 0xFF < index

/-- Only a widened load and the padding of a switch change a length. -/
def lengthAt (site : Site) (start : Nat) : Nat :=
  let instruction := site.instruction
  if site.isWidened then 3
  else if instruction.jump? = some .switch then
    instruction.length - switchPadding instruction.offset + switchPadding start
  else instruction.length

/-- The sites placed so far are held in reverse. -/
def placeOnto (done : List PlacedSite) (start : Nat) : List Site → List PlacedSite × Nat
  | [] => (done.reverse, start)
  | site :: rest => placeOnto (⟨site, start⟩ :: done) (start + site.lengthAt start) rest

/-- The sites follow one another without a gap; the second result is the length of them all. -/
def place (sites : List Site) : List PlacedSite × Nat := placeOnto [] 0 sites

end Site

namespace Relocation

def refuse {α : Type} (unit : String) (fault : RelocationFault) : Except Failure α :=
  .error (.relocation unit fault)

/-- Only the first byte of an instruction has a new offset. -/
def row (placed : PlacedSite) : List (Option Nat) :=
  some placed.start :: List.replicate (placed.site.instruction.length - 1) none

def ofPlaced (unit : String) (placed : List PlacedSite) (newLength : Nat) : Relocation where
  unit
  table := (placed.flatMap row ++ [some newLength]).toArray
  newLength

/-- This is the new offset of the instruction at an old offset, or of the end of the code. -/
def map (relocation : Relocation) (old : Nat) : Except Failure Nat :=
  match relocation.table[old]? with
  | some (some new) => .ok new
  | _ => refuse relocation.unit (.notBoundary old)

def map16 (relocation : Relocation) (old : UInt16) : Except Failure UInt16 := do
  let new ← relocation.map old.toNat
  if new < 65536 then
    return UInt16.ofNat new
  else
    refuse relocation.unit (.offsetTooLarge new)

/-- A target before the start of the code is reported modulo two to the power of 64. -/
def target (offset : Nat) (relative : Int) : Nat :=
  ((offset + relative) % 0x10000000000000000).toNat

/-- This is the distance from a new offset to the new place of an old jump target. -/
def distance (relocation : Relocation) (placed : PlacedSite) (relative : Int) :
    Except Failure Int := do
  let new ← relocation.map (target placed.site.instruction.offset relative)
  return (new : Int) - placed.start

/-- A patched load is wide unless it was narrow and still has room for its index. -/
def emitLoad (instruction : Instruction) (index : UInt16) : ByteArray :=
  if instruction.opcode = Opcode.loadConstant ∧ index ≤ 0xFF then
    ⟨#[Opcode.loadConstant, index.toUInt8]⟩
  else
    ⟨#[Opcode.loadConstantWide]⟩ ++ BigEndian.encode16 index

def emitShort (relocation : Relocation) (code : ByteArray) (placed : PlacedSite) :
    Except Failure ByteArray := do
  let instruction := placed.site.instruction
  let relative ← instruction.index code
  let distance ← relocation.distance placed relative.toInt16.toInt
  if -32768 ≤ distance ∧ distance ≤ 32767 then
    return ⟨#[instruction.opcode]⟩ ++ BigEndian.encodeSigned16 distance
  else
    refuse relocation.unit (.jumpTooFar instruction.offset)

def emitLong (relocation : Relocation) (code : ByteArray) (placed : PlacedSite) :
    Except Failure ByteArray := do
  let instruction := placed.site.instruction
  let relative ← Instruction.switchWord code (instruction.offset + 1) instruction.offset
  let distance ← relocation.distance placed relative
  return ⟨#[instruction.opcode]⟩ ++ BigEndian.encodeSigned32 distance

/-- One 32-bit jump of a switch is written anew. -/
def emitCase (relocation : Relocation) (code : ByteArray) (placed : PlacedSite) (index : Nat) :
    Except Failure ByteArray := do
  let relative ← Instruction.switchWord code index placed.site.instruction.offset
  return BigEndian.encodeSigned32 (← relocation.distance placed relative)

def concat (pieces : List ByteArray) : ByteArray := pieces.foldl (· ++ ·) .empty

/-- The bounds of the table are kept. -/
def emitTable (relocation : Relocation) (code : ByteArray) (placed : PlacedSite) (index : Nat) :
    Except Failure ByteArray := do
  let offset := placed.site.instruction.offset
  let low ← Instruction.switchWord code index offset
  let high ← Instruction.switchWord code (index + 4) offset
  let bounds ← Access.slice code ⟨index, index + 8⟩
  let cases ← (List.range (high - low + 1).toNat).mapM fun number =>
    relocation.emitCase code placed (index + 8 + 4 * number)
  return bounds ++ concat cases

/-- A pair is a key, which is kept, and a jump. -/
def emitPair (relocation : Relocation) (code : ByteArray) (placed : PlacedSite) (index : Nat) :
    Except Failure ByteArray := do
  let key ← Access.slice code ⟨index, index + 4⟩
  return key ++ (← relocation.emitCase code placed (index + 4))

def emitPairs (relocation : Relocation) (code : ByteArray) (placed : PlacedSite) (index : Nat) :
    Except Failure ByteArray := do
  let pairs ← Instruction.switchWord code index placed.site.instruction.offset
  let count ← Access.slice code ⟨index, index + 4⟩
  let cases ← (List.range pairs.toNat).mapM fun number =>
    relocation.emitPair code placed (index + 4 + 8 * number)
  return count ++ concat cases

/-- The padding bytes of a moved switch are zero. -/
def emitSwitch (relocation : Relocation) (code : ByteArray) (placed : PlacedSite) :
    Except Failure ByteArray := do
  let instruction := placed.site.instruction
  let head := instruction.opcode :: List.replicate (switchPadding placed.start) 0
  let index := instruction.offset + 1 + switchPadding instruction.offset
  let default ← relocation.emitCase code placed index
  let table ←
    if instruction.opcode = Opcode.tableSwitch then
      relocation.emitTable code placed (index + 4)
    else
      relocation.emitPairs code placed (index + 4)
  return head.toByteArray ++ default ++ table

def emit (relocation : Relocation) (code : ByteArray) (placed : PlacedSite) :
    Except Failure ByteArray :=
  let instruction := placed.site.instruction
  match placed.site.index with
  | some index => .ok (emitLoad instruction index)
  | none =>
    match instruction.jump? with
    | none => Access.slice code ⟨instruction.offset, instruction.stop⟩
    | some .short => relocation.emitShort code placed
    | some .long => relocation.emitLong code placed
    | some .switch => relocation.emitSwitch code placed

/-- The sites must tile the code. -/
def relocate (unit : String) (code : ByteArray) (sites : List Site) :
    Except Failure (ByteArray × Relocation) := do
  let (placed, newLength) := Site.place sites
  if 65535 < newLength then
    refuse unit (.codeTooLong newLength)
  let relocation := ofPlaced unit placed newLength
  let pieces ← placed.mapM fun site => relocation.emit code site
  return (concat pieces, relocation)

end Relocation

end EnumNames
