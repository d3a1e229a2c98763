/-!
Reading deflated data: blocks of literal bytes and of copies of earlier bytes, written with
Huffman codes. Data that ends too early is told apart from data that makes no sense.
-/

namespace EnumNames.Inflate

/-- Reading stops early at the end of the input or at data that makes no sense. -/
inductive Stop where
  | inputEnded
  | corrupt
  deriving DecidableEq, Repr, Inhabited

/-- The position counts bits; the first bit of a byte is its lowest one. -/
structure Progress where
  input : ByteArray
  position : Nat
  output : ByteArray

def Progress.remaining (progress : Progress) : Nat := 8 * progress.input.size - progress.position

abbrev Step (α : Type) := EStateM Stop Progress α

def bit : Step Nat := fun progress =>
  if inside : progress.position / 8 < progress.input.size then
    .ok (progress.input[progress.position / 8].toNat >>> (progress.position % 8) % 2)
      { progress with position := progress.position + 1 }
  else
    .error .inputEnded progress

/-- The first bit of a number is its lowest one. -/
def bits : Nat → Step Nat
  | 0 => pure 0
  | count + 1 => do
    let low ← bit
    let high ← bits count
    return low + 2 * high

/-- A canonical code is known by the number of codes of each length, up to the longest one, and by
its symbols, the shorter codes first. Even a code without symbols has a first bit. -/
structure Huffman where
  counts : List Nat
  symbols : Array Nat

def Huffman.ofLengths (lengths : List Nat) : Huffman :=
  let used := List.range (lengths.foldl max 1)
  { counts := used.map fun index => lengths.count (index + 1)
    symbols := (used.flatMap fun index =>
      (lengths.zipIdx.filter fun pair => pair.1 = index + 1).map Prod.snd).toArray }

/-- A complete code leaves no sequence of bits without a meaning, and gives none two meanings. -/
def Huffman.isComplete (huffman : Huffman) : Bool :=
  huffman.counts.foldl (fun total count => 2 * total + count) 0 ==
    Nat.pow 2 huffman.counts.length

/-- Where no more than one symbol is in use, its code is a single bit. -/
def Huffman.isUsable (huffman : Huffman) : Bool :=
  huffman.isComplete || huffman.counts == [0] || huffman.counts == [1]

/-- The code grows by one bit until it lies among the codes of its length. -/
def Huffman.symbolFrom (huffman : Huffman) (code first index : Nat) : List Nat → Step Nat
  | [] => throw .corrupt
  | count :: longer => do
    let code := code + (← bit)
    if code < first + count then
      match huffman.symbols[index + (code - first)]? with
      | some symbol => return symbol
      | none => throw .corrupt
    else
      huffman.symbolFrom (2 * code) (2 * (first + count)) (index + count) longer

def Huffman.symbol (huffman : Huffman) : Step Nat :=
  huffman.symbolFrom 0 0 0 huffman.counts

/-- The base and the number of extra bits for each symbol of a copy's length. -/
def lengthCodes : Array (Nat × Nat) :=
  #[(3, 0), (4, 0), (5, 0), (6, 0), (7, 0), (8, 0), (9, 0), (10, 0), (11, 1), (13, 1), (15, 1),
    (17, 1), (19, 2), (23, 2), (27, 2), (31, 2), (35, 3), (43, 3), (51, 3), (59, 3), (67, 4),
    (83, 4), (99, 4), (115, 4), (131, 5), (163, 5), (195, 5), (227, 5), (258, 0)]

/-- The base and the number of extra bits for each symbol of a copy's distance. -/
def distanceCodes : Array (Nat × Nat) :=
  #[(1, 0), (2, 0), (3, 0), (4, 0), (5, 1), (7, 1), (9, 2), (13, 2), (17, 3), (25, 3), (33, 4),
    (49, 4), (65, 5), (97, 5), (129, 6), (193, 6), (257, 7), (385, 7), (513, 8), (769, 8),
    (1025, 9), (1537, 9), (2049, 10), (3073, 10), (4097, 11), (6145, 11), (8193, 12), (12289, 12),
    (16385, 13), (24577, 13)]

def extended (codes : Array (Nat × Nat)) (symbol : Nat) : Step Nat :=
  match codes[symbol]? with
  | some (base, extra) => return base + (← bits extra)
  | none => throw .corrupt

/-- A copy may overlap the bytes it writes; what lies before the first byte counts as zero. -/
def copyBack (distance : Nat) : Nat → ByteArray → ByteArray
  | 0, output => output
  | length + 1, output =>
    let byte :=
      if distance ≤ output.size then output[output.size - distance]?.getD 0 else 0
    copyBack distance length (output.push byte)

def write (change : ByteArray → ByteArray) : Step Unit :=
  modify fun progress => { progress with output := change progress.output }

/-- The result tells whether the block has ended. -/
def symbolStep (literals distances : Huffman) : Step Bool := do
  let symbol ← literals.symbol
  if symbol < 256 then
    write (·.push (UInt8.ofNat symbol))
    return false
  else if symbol = 256 then
    return true
  else
    let length ← extended lengthCodes (symbol - 257)
    let distance ← extended distanceCodes (← distances.symbol)
    write (copyBack distance length)
    return false

/-- A step is repeated until it ends, as long as it consumes input. -/
def untilDone (step : Step Bool) (progress : Progress) : EStateM.Result Stop Progress Unit :=
  match step progress with
  | .error stop next => .error stop next
  | .ok true next => .ok () next
  | .ok false next =>
    if next.remaining < progress.remaining then untilDone step next else .error .corrupt next
termination_by progress.remaining

def fixedLiterals : Huffman :=
  .ofLengths (List.replicate 144 8 ++ List.replicate 112 9 ++ List.replicate 24 7 ++
    List.replicate 8 8)

def fixedDistances : Huffman := .ofLengths (List.replicate 30 5)

/-- The lengths of the code for code lengths are stored in this order. -/
def lengthOrder : List Nat := [16, 17, 18, 0, 8, 7, 9, 6, 10, 5, 11, 4, 12, 3, 13, 2, 14, 1, 15]

/-- The lengths are held in reverse. Every round adds at least one, so there are never more rounds
than lengths wanted. -/
def codeLengths (huffman : Huffman) (wanted : Nat) : Nat → List Nat → Step (List Nat)
  | 0, done => return done.reverse
  | rounds + 1, done => do
    if wanted ≤ done.length then
      return done.reverse
    let symbol ← huffman.symbol
    if symbol < 16 then
      codeLengths huffman wanted rounds (symbol :: done)
    else if symbol = 16 then
      match done with
      | [] => throw .corrupt
      | last :: _ =>
        codeLengths huffman wanted rounds (List.replicate (3 + (← bits 2)) last ++ done)
    else if symbol = 17 then
      codeLengths huffman wanted rounds (List.replicate (3 + (← bits 3)) 0 ++ done)
    else
      codeLengths huffman wanted rounds (List.replicate (11 + (← bits 7)) 0 ++ done)

def orderedLengths (stored : List Nat) : List Nat :=
  (List.range 19).map fun symbol => ((lengthOrder.zip stored).lookup symbol).getD 0

def storedLengths : Nat → List Nat → Step (List Nat)
  | 0, done => return done.reverse
  | count + 1, done => do storedLengths count ((← bits 3) :: done)

/-- The codes of a dynamic block stand in front of it, themselves written with a code. A block
without a code for its end lasts until the input ends. -/
def dynamicCodes : Step (Huffman × Huffman) := do
  let literalCount := 257 + (← bits 5)
  let distanceCount := 1 + (← bits 5)
  let storedCount := 4 + (← bits 4)
  if 286 < literalCount ∨ 30 < distanceCount then
    throw .corrupt
  let lengthCode := Huffman.ofLengths (orderedLengths (← storedLengths storedCount []))
  unless lengthCode.isComplete do
    throw .corrupt
  let wanted := literalCount + distanceCount
  let lengths ← codeLengths lengthCode wanted wanted []
  if lengths.length ≠ wanted then
    throw .corrupt
  let literals := Huffman.ofLengths (lengths.take literalCount)
  let distances := Huffman.ofLengths (lengths.drop literalCount)
  unless literals.isUsable ∧ distances.isUsable do
    throw .corrupt
  return (literals, distances)

/-- The bytes of a stored block start at a byte boundary. -/
def align : Step Unit :=
  modify fun progress => { progress with position := (progress.position + 7) / 8 * 8 }

def storedBytes (length : Nat) : Step Unit := fun progress =>
  let start := progress.position / 8
  let piece := progress.input.extract start (start + length)
  let next : Progress :=
    { progress with
      position := progress.position + 8 * piece.size
      output := progress.output ++ piece }
  if piece.size = length then .ok () next else .error .inputEnded next

/-- The length of a stored block is written twice, the second time with all bits inverted. -/
def storedBlock : Step Unit := do
  align
  let length ← bits 16
  let inverted ← bits 16
  if length + inverted ≠ 0xFFFF then
    throw .corrupt
  storedBytes length

/-- The result tells whether the last block has been read. -/
def block : Step Bool := do
  let last ← bit
  let kind ← bits 2
  if kind = 0 then
    storedBlock
  else if kind = 1 then
    untilDone (symbolStep fixedLiterals fixedDistances)
  else if kind = 2 then
    let (literals, distances) ← dynamicCodes
    untilDone (symbolStep literals distances)
  else
    throw .corrupt
  return last = 1

/-- What follows the last block is ignored. -/
def inflate (input : ByteArray) : Except Stop ByteArray :=
  match untilDone block { input, position := 0, output := .empty } with
  | .ok _ progress => .ok progress.output
  | .error stop _ => .error stop

end EnumNames.Inflate
