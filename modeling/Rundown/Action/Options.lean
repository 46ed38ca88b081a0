import Rundown.Action.Basic
import Rundown.Duration.Notation

/-!
# Actions built from options

Each built-in action reads its options from a JSON value.  Options that cannot be read are refused
with the reason.
-/

namespace Rundown

/-- How long to wait: milliseconds, or a duration written out. -/
inductive Timeout where
  | millis (ms : Nat)
  | text (s : String)
deriving DecidableEq, Repr

namespace Timeout

/-- The duration, if the text is one. -/
def toDuration : Timeout → Option Duration
  | millis ms => some (Duration.ofMillis ms)
  | text s => Duration.read s

def inspect : Timeout → String
  | millis ms => "Millis(" ++ toString ms ++ ")"
  | text s => "Text(" ++ Text.inspect s ++ ")"

def ofJson : Json → Except DecodeError Timeout
  | .int n => if 0 ≤ n then .ok (millis n.toNat) else .error (.noForm "Timeout")
  | .string s => .ok (text s)
  | _ => .error (.noForm "Timeout")

end Timeout

/-- Options of a wait. -/
structure WaitOptions where
  timeout : Timeout
  result : Option Json

def WaitOptions.recordType : RecordType WaitOptions where
  name := "WaitOptions"
  fields := [
    ⟨"timeout", fun value o => do .ok { o with timeout := ← Timeout.ofJson value }, false⟩,
    ⟨"result", fun value o => .ok { o with result := value.asOptional }, true⟩]
  blank := ⟨.millis 0, none⟩

def stopOptions : RecordType String where
  name := "StopOptions"
  fields := [⟨"reason", fun value _ => value.asString, false⟩]
  blank := ""

/-- Options of an action that awaits a signal, as records. -/
def awaitSignalOptions : RecordType String where
  name := "AwaitSignalOptions"
  fields := [⟨"signal", fun value _ => value.asString, false⟩]
  blank := ""

/-- Options of an action that sends a signal. -/
structure EmitSignalOptions where
  signal : String
  payload : Json
  fail : Option String

namespace EmitSignalOptions

def recordType : RecordType EmitSignalOptions where
  name := "EmitSignalOptions"
  fields := [
    ⟨"signal", fun value o => do .ok { o with signal := ← value.asString }, false⟩,
    ⟨"payload", fun value o => .ok { o with payload := value }, true⟩,
    ⟨"fail", fun value o => do .ok { o with fail := ← value.asOptionalString }, true⟩]
  blank := ⟨"", .null, none⟩

/-- The signal to send: one that fails its listeners if a reason is given. -/
def toSignal (o : EmitSignalOptions) : Signal :=
  match o.fail with
  | some reason => ⟨o.signal, .fail reason⟩
  | none => ⟨o.signal, .complete o.payload⟩

end EmitSignalOptions

def readOptions {α : Type} (type : RecordType α) (options : Json) : Except ActionError α :=
  match type.decode options with
  | .ok o => .ok o
  | .error e => .error (.invalidOptions e.message)

/-- The delay and the result of a wait. -/
def readWait (options : Json) : Except ActionError (Duration × Option Json) := do
  let o ← readOptions WaitOptions.recordType options
  match o.timeout.toDuration with
  | some delay => .ok (delay, o.result)
  | none => .error (.invalidOptions ("invalid timeout: " ++ o.timeout.inspect))

namespace Action

def waitOf (options : Json) : Except ActionError Action := do
  let (delay, result) ← readWait options
  .ok (wait delay result)

def stopOf (options : Json) : Except ActionError Action :=
  stop <$> readOptions stopOptions options

/-- An action that awaits a signal, with these options. -/
def awaitSignalOf (options : Json) : Except ActionError Action :=
  awaitSignal <$> readOptions awaitSignalOptions options

/-- An action that sends a signal, with these options. -/
def emitSignalOf (options : Json) : Except ActionError Action := do
  .ok (emitSignal (← readOptions EmitSignalOptions.recordType options).toSignal)

end Action

end Rundown
