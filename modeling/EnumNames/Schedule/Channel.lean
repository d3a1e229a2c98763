import EnumNames.Failure

/-!
The channel from a worker to the owner of its task. It takes one message, and each end may disappear
before the other.
-/

namespace EnumNames

structure Channel (α : Type) where
  message : Option (Except Failure α)
  hasSender : Bool
  hasReceiver : Bool

namespace Channel

variable {α : Type}

def opened : Channel α := ⟨none, true, true⟩

/-- A message comes back when its receiver is gone. -/
def send (channel : Channel α) (message : Except Failure α) :
    Option (Except Failure α) × Channel α :=
  if channel.hasReceiver then (none, { channel with message := some message })
  else (some message, channel)

/-- This looks for a message without waiting for one. -/
def take (channel : Channel α) : Option (Except Failure α) × Channel α :=
  (channel.message, { channel with message := none })

def closeSender (channel : Channel α) : Channel α := { channel with hasSender := false }

/-- A message that was not taken is lost together with its receiver. -/
def closeReceiver (channel : Channel α) : Channel α :=
  { channel with message := none, hasReceiver := false }

/-- A receiver waits as long as there is no message but one may still come. The task is lost when
none can come. -/
def receive (channel : Channel α) (origin : String) : Option (Except Failure α) :=
  match channel.message with
  | some message => some message
  | none => if channel.hasSender then none else some (.error (.taskLost origin))

end Channel

end EnumNames
