import EnumNames.CommandLine.Reply

/-!
The program on a real disk. It only connects the library to the operating system.
-/

namespace EnumNames

/-- The numbers and words of the operating system are kept. -/
def OsError.ofSystem : IO.Error → OsError
  | .alreadyExists _ number words | .interrupted _ number words
  | .noFileOrDirectory _ number words | .invalidArgument _ number words
  | .permissionDenied _ number words | .resourceExhausted _ number words
  | .inappropriateType _ number words | .noSuchThing _ number words
  | .otherError number words | .resourceBusy number words | .resourceVanished number words
  | .unsupportedOperation number words | .hardwareFault number words
  | .unsatisfiedConstraints number words | .illegalOperation number words
  | .protocolError number words | .timeExpired number words => .numbered number.toNat words
  | .unexpectedEof => .endOfInput
  | .userError words => .described words

/-- Every failure of the operating system becomes a value. -/
def caught {α : Type} (action : IO α) : IO (Except OsError α) := do
  try
    return .ok (← action)
  catch cause =>
    return .error (.ofSystem cause)

instance : Disk IO where
  kind path := caught do
    let place ← IO.FS.realPath path
    return if ← place.isDir then .directory else .file
  canonical path := caught do
    return (← IO.FS.realPath path).toString
  read path := caught (IO.FS.readBinFile path)
  write path bytes := caught (IO.FS.writeBinFile path bytes)
  makeDirectory path := caught (IO.FS.createDir path)
  remove path := caught (IO.FS.removeFile path)

namespace Arguments

def readVariables : IO (Slot → Option String) := do
  let input ← IO.getEnv (variableName .input)
  let output ← IO.getEnv (variableName .output)
  let backup ← IO.getEnv (variableName .backup)
  let workers ← IO.getEnv (variableName .workers)
  return fun
    | .input => input
    | .output => output
    | .backup => backup
    | .workers => workers

end Arguments

def Reply.say (reply : Reply) : IO UInt32 := do
  match reply with
  | .said text => IO.println text
  | .failed text => IO.eprint text
  | .refused => IO.eprintln Arguments.usage
  return UInt32.ofNat reply.exitCode

end EnumNames

def main (texts : List String) : IO UInt32 := do
  let environment ← EnumNames.Arguments.readVariables
  let reply : EnumNames.Reply ← EnumNames.Arguments.reply texts environment
  reply.say
