/-!
What can go wrong while an archive is processed, and the words that report it.
-/

namespace EnumNames

/-- This is the hexadecimal text of a number, padded with zeros to a width. -/
def hexadecimal (width number : Nat) : String :=
  let digits := Nat.toDigits 16 number
  String.ofList (List.replicate (width - digits.length) '0' ++ digits)

/-- The operating system gives a refusal a number; other layers give only words. -/
inductive OsError where
  | numbered (number : Nat) (words : String)
  | described (words : String)
  deriving DecidableEq, Repr, Inhabited

namespace OsError

def noEntry : OsError := .numbered 2 "No such file or directory"

def alreadyExists : OsError := .numbered 17 "File exists"

def notDirectory : OsError := .numbered 20 "Not a directory"

def isDirectory : OsError := .numbered 21 "Is a directory"

def invalidArgument : OsError := .numbered 22 "Invalid argument"

def nameTooLong : OsError := .numbered 36 "File name too long"

def linkLoop : OsError := .numbered 40 "Too many levels of symbolic links"

/-- A path with a zero character cannot be handed to the operating system. -/
def zeroInPath : OsError := .described "file name contained an unexpected NUL byte"

/-- Only a regular file can be copied. -/
def notRegular : OsError :=
  .described "the source path is neither a regular file nor a symlink to a regular file"

/-- The input ended inside a field of fixed size. -/
def endOfInput : OsError := .described "failed to fill whole buffer"

def message : OsError → String
  | .numbered number words => s!"{words} (os error {number})"
  | .described words => words

end OsError

/-- An archive is unreadable, breaks its format, or uses a feature nobody supports here. -/
inductive ArchiveFault where
  | access (cause : OsError)
  | invalid (words : String)
  | unsupported (words : String)
  | entryMissing
  deriving DecidableEq, Repr, Inhabited

namespace ArchiveFault

def message : ArchiveFault → String
  | .access cause => cause.message
  | .invalid words => s!"invalid Zip archive: {words}"
  | .unsupported words => s!"unsupported Zip archive: {words}"
  | .entryMissing => "specified file not found in archive"

/-- Only an access fault has a cause below it. -/
def causes : ArchiveFault → List String
  | .access cause => [cause.message]
  | _ => []

end ArchiveFault

/-- The bytes of a class file break the format in one of these ways. -/
inductive ClassFault where
  | needBytes (wanted available : Nat)
  | outOfRange (index size : Nat)
  | invalidLeadByte (byte : UInt8)
  | truncatedCharacter
  | emptyPool
  | unknownTag (tag : UInt8)
  | poolOverrun
  | invalidIndex (index : UInt16)
  | wrongKind (index : UInt16) (found wanted : String)
  | textTooLong (size : Nat)
  | poolFull
  | poolOverflow
  | badMagic (magic : UInt32)
  | trailingBytes (count : Nat)
  | codeLength (length : Nat)
  | codeMismatch
  | emptyTable (high low : Int)
  | negativePairs (pairs : Int)
  | truncatedSwitch
  | truncatedWide
  | invalidOpcode (opcode : UInt8)
  | pastEnd (opcode : UInt8)
  | missingCode (unit : String)
  | unknownVerification (tag : UInt8)
  | reservedFrame (tag : UInt8)
  | described (words : String)
  deriving DecidableEq, Repr, Inhabited

def ClassFault.message : ClassFault → String
  | .needBytes wanted available => s!"need {wanted} bytes, have {available}"
  | .outOfRange index size => s!"offset {index} lies outside {size} bytes"
  | .invalidLeadByte byte => "invalid modified UTF-8 lead byte 0x" ++ hexadecimal 2 byte.toNat
  | .truncatedCharacter => "truncated modified UTF-8 sequence"
  | .emptyPool => "constant_pool_count is zero"
  | .unknownTag tag => s!"unknown constant pool tag {tag}"
  | .poolOverrun => "long or double constant overruns constant_pool_count"
  | .invalidIndex index => s!"invalid constant pool index {index}"
  | .wrongKind index found wanted => s!"constant {index} is a {found}, expected {wanted}"
  | .textTooLong size => s!"string constant of {size} bytes is too long"
  | .poolFull => "constant pool is full"
  | .poolOverflow => "constant pool overflows 65535 entries"
  | .badMagic magic => "bad magic 0x" ++ hexadecimal 8 magic.toNat
  | .trailingBytes count => s!"{count} trailing bytes after class attributes"
  | .codeLength length => s!"invalid code_length {length}"
  | .codeMismatch => "Code attribute length does not match its contents"
  | .emptyTable high low => s!"tableswitch with high {high} below low {low}"
  | .negativePairs pairs => s!"lookupswitch with {pairs} pairs"
  | .truncatedSwitch => "truncated switch operands"
  | .truncatedWide => "truncated wide instruction"
  | .invalidOpcode opcode => "invalid opcode 0x" ++ hexadecimal 2 opcode.toNat
  | .pastEnd opcode =>
      "instruction 0x" ++ hexadecimal 2 opcode.toNat ++ " runs past the end of the code array"
  | .missingCode unit => s!"{unit} has a static initializer without code"
  | .unknownVerification tag => s!"unknown verification type tag {tag}"
  | .reservedFrame tag => s!"reserved stack map frame type {tag}"
  | .described words => words

/-- Code cannot be laid out again for one of these reasons. -/
inductive RelocationFault where
  | codeTooLong (length : Nat)
  | jumpTooFar (offset : Nat)
  | notBoundary (offset : Nat)
  | offsetTooLarge (offset : Nat)
  | unknownAttribute (name : String)
  | frameDelta
  | described (words : String)
  deriving DecidableEq, Repr, Inhabited

def RelocationFault.message : RelocationFault → String
  | .codeTooLong length => s!"code grows to {length} bytes"
  | .jumpTooFar offset => s!"jump at {offset} no longer fits a 16-bit offset"
  | .notBoundary offset => s!"offset {offset} is not an instruction boundary"
  | .offsetTooLarge offset => s!"offset {offset} does not fit in u2"
  | .unknownAttribute name => s!"don't know how to relocate the {name} attribute"
  | .frameDelta => "stack map frame delta overflows"
  | .described words => words

/-- Every operation of the library fails with one of these. -/
inductive Failure where
  | invalidConcurrency (value : Int)
  | inputMissing (path : String)
  | outputIsDirectory (path : String)
  | directoryCreate (path : String) (cause : OsError)
  | fileRead (path : String) (cause : OsError)
  | fileWrite (path : String) (cause : OsError)
  | backup (path : String) (cause : OsError)
  | archive (fault : ArchiveFault)
  | malformedClass (offset : Nat) (fault : ClassFault)
  | nonStringLiteral (unit found : String)
  | incompleteConstruction (unit state : String)
  | constructionCountMismatch (unit : String) (declared constructed : Nat)
  | relocation (unit : String) (fault : RelocationFault)
  | entry (name : String) (cause : Failure)
  | workerSpawn (cause : OsError)
  | workerPanic (words : String)
  | taskLost (origin : String)
  | uncaught (origin : String) (cause : Failure)
  deriving DecidableEq, Repr, Inhabited

namespace Failure

def message : Failure → String
  | .invalidConcurrency value =>
      s!"cannot process with a concurrency of {value}: must be at least 1"
  | .inputMissing path => s!"cannot process non-existent input file '{path}'"
  | .outputIsDirectory path => s!"cannot write to directory '{path}'"
  | .directoryCreate path cause =>
      s!"failed to create directory '{path}': " ++ cause.message
  | .fileRead path cause => s!"failed to read file '{path}': " ++ cause.message
  | .fileWrite path cause => s!"failed to write file '{path}': " ++ cause.message
  | .backup path cause =>
      s!"failed to back up original archive to '{path}': " ++ cause.message
  | .archive fault => "archive error: " ++ fault.message
  | .malformedClass offset fault =>
      s!"malformed class file at offset {offset}: " ++ fault.message
  | .nonStringLiteral unit found => s!"unprepared for non-string literal {found} in {unit}"
  | .incompleteConstruction unit state =>
      s!"static initializer of {unit} ended while {state}"
  | .constructionCountMismatch unit declared constructed =>
      s!"{unit} declares {declared} enum constants" ++
        s!" but its static initializer constructs {constructed}"
  | .relocation unit fault =>
      s!"cannot relocate static initializer of {unit}: " ++ fault.message
  | .entry name cause => s!"{name}: " ++ cause.message
  | .workerSpawn cause => "failed to spawn worker thread: " ++ cause.message
  | .workerPanic words => s!"worker panicked: {words}"
  | .taskLost origin => s!"task '{origin}' was lost before delivering a result"
  | .uncaught origin cause => s!"uncaught failure in {origin}: " ++ cause.message

/-- The texts of the causes below a failure, outermost first. -/
def causes : Failure → List String
  | .directoryCreate _ cause | .fileRead _ cause | .fileWrite _ cause
  | .backup _ cause | .workerSpawn cause => [cause.message]
  | .archive fault => fault.message :: fault.causes
  | .entry _ cause | .uncaught _ cause => cause.message :: cause.causes
  | _ => []

/-- A configuration failure is found before any work is scheduled. -/
def isConfiguration : Failure → Bool
  | .invalidConcurrency _ | .inputMissing _ | .outputIsDirectory _ | .directoryCreate .. => true
  | _ => false

/-- A shape violation means that a static initializer does not have the expected shape. -/
def isShapeViolation : Failure → Bool
  | .nonStringLiteral .. | .incompleteConstruction .. | .constructionCountMismatch ..
  | .relocation .. => true
  | .entry _ cause | .uncaught _ cause => cause.isShapeViolation
  | _ => false

end Failure

end EnumNames
