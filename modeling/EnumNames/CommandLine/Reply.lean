import EnumNames.CommandLine.Arguments
import EnumNames.Run.Execution

/-!
What the program says in the end, and the number it exits with.
-/

namespace EnumNames

/-- A refused command line is answered by the usage of the program. -/
inductive Reply where
  | said (text : String)
  | failed (text : String)
  | refused
  deriving DecidableEq, Repr, Inhabited

namespace Reply

def exitCode : Reply → Nat
  | .said _ => 0
  | .failed _ => 1
  | .refused => 2

/-- Further lines of a cause are indented as far as its first one. -/
def indent (start margin text : String) : String :=
  start ++ ("\n" ++ margin).intercalate (text.splitOn "\n")

/-- The numbers of several causes stand in a column. -/
def numbered (cause : String × Nat) : String :=
  let number := toString cause.2
  indent ("".pushn ' ' (5 - number.length) ++ number ++ ": ") ("".pushn ' ' 7) cause.1

/-- A single cause needs no number. -/
def causeLines : List String → List String
  | [cause] => [indent "    " "    " cause]
  | causes => causes.zipIdx.map numbered

def explain (context : String) (failure : Failure) : String :=
  s!"Error: {context}\n\nCaused by:\n" ++
    "\n".intercalate (causeLines (failure.message :: failure.causes)) ++ "\n"

/-- A failure of the configuration is told apart from one of the run. -/
def ofRun (input : String) : Except Failure Report → Reply
  | .ok report => .said report.summary
  | .error failure => .failed (explain s!"Failed to process {input}" failure)

def ofStop : Arguments.Stop → Reply
  | .refused => .refused
  | .version => .said "renum 0.1.0"
  | .help => .said Arguments.usage

end Reply

namespace Configuration

variable {m : Type → Type} [Monad m] [Disk m]

def reply (configuration : Configuration) : m Reply := do
  match ← configuration.validate.run with
  | .error failure => return .failed (Reply.explain "Invalid configuration" failure)
  | .ok settings => return .ofRun configuration.input (← settings.run.run)

end Configuration

namespace Arguments

/-- Nothing is read or written before the whole command line is understood. -/
def reply {m : Type → Type} [Monad m] [Disk m] (texts : List String)
    (environment : Slot → Option String) : m Reply :=
  match read texts environment with
  | .error stop => return .ofStop stop
  | .ok configuration => configuration.reply

end Arguments

end EnumNames
