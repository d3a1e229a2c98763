import EnumNames.Decimal.Integer
import EnumNames.Run.Configuration

/-!
The words of a command line. A value is only checked when the next option appears or when the words
are over, so that of two faults the first one decides.
-/

namespace EnumNames.Arguments

/-- A value belongs to the input, which has no name, or to a named option. -/
inductive Slot where
  | input
  | output
  | backup
  | workers
  deriving DecidableEq, Repr, Inhabited

/-- Reading the words ends early when they are refused or when they only ask for information. -/
inductive Stop where
  | refused
  | version
  | help
  deriving DecidableEq, Repr, Inhabited

structure Values where
  input : Option String
  output : Option String
  backup : Option String
  workers : Option Int
  deriving DecidableEq, Repr, Inhabited

namespace Values

def empty : Values := ⟨none, none, none, none⟩

def has (values : Values) : Slot → Bool
  | .input => values.input.isSome
  | .output => values.output.isSome
  | .backup => values.backup.isSome
  | .workers => values.workers.isSome

/-- No path is empty, and no value is given twice. -/
def give (values : Values) (slot : Slot) (text : String) : Except Stop Values :=
  if values.has slot then .error .refused
  else
    match slot with
    | .workers =>
      match Integer.read64? text with
      | some number => .ok { values with workers := some number }
      | none => .error .refused
    | .input => if text = "" then .error .refused else .ok { values with input := some text }
    | .output => if text = "" then .error .refused else .ok { values with output := some text }
    | .backup => if text = "" then .error .refused else .ok { values with backup := some text }

/-- A variable counts only when the command line says nothing. -/
def giveMissing (values : Values) (slot : Slot) : Option String → Except Stop Values
  | none => .ok values
  | some text => if values.has slot then .ok values else values.give slot text

end Values

/-- An option waits for its value, or a value waits to be checked. -/
structure Pending where
  slot : Slot
  value : Option String
  deriving DecidableEq, Repr, Inhabited

/-- After two dashes every word is a value. -/
structure State where
  values : Values
  pending : Option Pending
  hasInput : Bool
  onlyValues : Bool
  deriving DecidableEq, Repr, Inhabited

/-- An option takes a value, or it acts at once. Louder messages change nothing else. -/
inductive Meaning where
  | value (slot : Slot)
  | louder
  | stop (stop : Stop)
  deriving DecidableEq, Repr, Inhabited

def longMeaning? : String → Option Meaning
  | "output" => some (.value .output)
  | "original" => some (.value .backup)
  | "concurrency" => some (.value .workers)
  | "verbose" => some .louder
  | "version" => some (.stop .version)
  | "help" => some (.stop .help)
  | _ => none

def shortMeaning? : Char → Option Meaning
  | 'o' => some (.value .output)
  | 'j' => some (.value .workers)
  | 'v' => some .louder
  | 'V' => some (.stop .version)
  | 'h' => some (.stop .help)
  | _ => none

namespace State

def start : State := ⟨.empty, none, false, false⟩

/-- An option that still waits for its value never gets one. -/
def settle (state : State) : Except Stop State :=
  match state.pending with
  | none => .ok state
  | some ⟨_, none⟩ => .error .refused
  | some ⟨slot, some text⟩ => do
    return { state with values := ← state.values.give slot text, pending := none }

def attach (state : State) (slot : Slot) (text : String) : Except Stop State := do
  let state ← state.settle
  return { state with values := ← state.values.give slot text }

def await (state : State) (slot : Slot) : Except Stop State := do
  return { ← state.settle with pending := some ⟨slot, none⟩ }

/-- An option that takes no value must not have one attached. -/
def long (state : State) (name : String) (value : Option String) : Except Stop State :=
  match longMeaning? name, value with
  | some (.value slot), some text => state.attach slot text
  | some (.value slot), none => state.await slot
  | some .louder, none => state.settle
  | some (.stop stop), none => do
    let _ ← state.settle
    throw stop
  | _, _ => .error .refused

/-- An equals sign in front of an attached value does not belong to it. -/
def attachRest (state : State) (slot : Slot) : List Char → Except Stop State
  | [] => state.await slot
  | '=' :: rest => state.attach slot (String.ofList rest)
  | rest => state.attach slot (String.ofList rest)

/-- Letters may share one dash. The first that takes a value takes all that follows. -/
def short (state : State) : List Char → Except Stop State
  | [] => .ok state
  | letter :: rest =>
    match shortMeaning? letter with
    | some (.value slot) => state.attachRest slot rest
    | some .louder => do short (← state.settle) rest
    | some (.stop stop) => do
      let _ ← state.settle
      throw stop
    | none => .error .refused

/-- There is room for one input only. -/
def input (state : State) (text : String) : Except Stop State :=
  if state.hasInput then .error .refused
  else do
    return { ← state.settle with pending := some ⟨.input, some text⟩, hasInput := true }

def waiting? (state : State) : Option Slot :=
  match state.pending with
  | some ⟨slot, none⟩ => some slot
  | _ => none

/-- A word without a dash is the value of the option before it, or else the input. -/
def plain (state : State) (text : String) : Except Stop State :=
  match state.waiting? with
  | some slot => .ok { state with pending := some ⟨slot, some text⟩ }
  | none => state.input text

/-- The name of a long option reaches up to the first equals sign. -/
def longWord (state : State) (body : List Char) : Except Stop State :=
  let name := String.ofList (body.takeWhile (· ≠ '='))
  match body.dropWhile (· ≠ '=') with
  | [] => state.long name none
  | _ :: value => state.long name (some (String.ofList value))

/-- A negative number may follow an option that takes a number. A dash alone is a value. -/
def word (state : State) (text : String) : Except Stop State :=
  if state.onlyValues then state.input text
  else
    match text.toList with
    | ['-', '-'] => .ok { state with onlyValues := true }
    | '-' :: '-' :: body => state.longWord body
    | '-' :: letter :: rest =>
      if state.waiting? = some .workers ∧ Integer.isNumber (letter :: rest) then state.plain text
      else state.short (letter :: rest)
    | _ => state.plain text

def words (state : State) (texts : List String) : Except Stop Values := do
  return (← (← texts.foldlM word state).settle).values

end State

def usage : String :=
  "Re-synchronize enum constant name literals inside jar archives\n\n" ++
  "Usage: renum [OPTIONS] <INPUT>\n\n" ++
  "Arguments:\n" ++
  "  <INPUT>  Archive to process\n\n" ++
  "Options:\n" ++
  "  -o, --output <OUTPUT>            Where to write the processed archive\n" ++
  "      --original <ORIGINAL>        Keep an untouched copy of the input at this path\n" ++
  "  -j, --concurrency <CONCURRENCY>  Number of worker threads\n" ++
  "  -v, --verbose...                 Verbosity level\n" ++
  "  -h, --help                       Print help\n" ++
  "  -V, --version                    Print version"

/-- Each value can also be given by a variable of this name. -/
def variableName : Slot → String
  | .input => "RENUM_INPUT"
  | .output => "RENUM_OUTPUT"
  | .backup => "RENUM_ORIGINAL"
  | .workers => "RENUM_CONCURRENCY"

def Values.fill (values : Values) (environment : Slot → Option String) : Except Stop Values :=
  [Slot.input, .output, .backup, .workers].foldlM
    (fun values slot => values.giveMissing slot (environment slot)) values

/-- There is no run without an input. -/
def Values.configuration (values : Values) : Except Stop Configuration :=
  match values.input with
  | none => .error .refused
  | some input =>
    .ok { input, output := values.output, backup := values.backup
          workers := values.workers.getD Configuration.defaultWorkers }

def read (texts : List String) (environment : Slot → Option String) :
    Except Stop Configuration := do
  (← (← State.start.words texts).fill environment).configuration

end EnumNames.Arguments
