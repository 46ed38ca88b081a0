import Rundown.Duration.Basic
import Rundown.Signal.Basic

/-!
# Actions

An action is a leaf of a playlist.  It owns a completion, which settles once, and says what
beginning it does: a list of effects that depends on the input.  Work that takes time is an effect
that settles the completion later.
-/

namespace Rundown

/-- How an action can fail, or be driven wrongly. -/
inductive ActionError where
  | failed (message : String)
  | invalidOptions (reason : String)
  | alreadyStarted
  | abandoned
deriving DecidableEq, Repr

def ActionError.message : ActionError → String
  | failed message => "action failed: " ++ message
  | invalidOptions reason => "invalid action options: " ++ reason
  | alreadyStarted => "action already started"
  | abandoned => "action dropped its completion without settling"

/-- What a completion settles with. -/
abbrev Settlement := Except ActionError Json

/-- One thing that beginning an action does. -/
inductive Effect where
  /-- Settles the action's own completion. -/
  | settle (settlement : Settlement)
  /-- Completes it after a delay. -/
  | completeAfter (delay : Duration) (value : Json)
  /-- Settles it as the next signal of this name says. -/
  | listen (name : String)
  /-- Sends a signal. -/
  | emit (signal : Signal)
  /-- Leaves the completion under a name, for somebody outside to settle. -/
  | park (name : String)

/-- An action.  The labels are what reports call it, when it is built and when it begins; an action
without a label is not reported. -/
structure Action where
  onBegin : Json → List Effect
  /-- Whether the action keeps the signal bus alive. -/
  holdsBus : Bool
  builtLabel : Option String
  begunLabel : Option String

namespace Action

/-- An action with these effects and no labels. -/
def ofEffects (onBegin : Json → List Effect) : Action := ⟨onBegin, false, none, none⟩

/-- Completes with its input, or with `result`, after a delay. -/
def wait (delay : Duration) (result : Option Json) : Action :=
  ofEffects fun input => [.completeAfter delay (result.getD input)]

/-- Fails with a reason. -/
def stop (reason : String) : Action := ofEffects fun _ => [.settle (.error (.failed reason))]

/-- Settles as the next signal of a name says. -/
def awaitSignal (name : String) : Action :=
  { ofEffects (fun _ => [.listen name]) with holdsBus := true }

/-- Sends a signal and completes with its input. -/
def emitSignal (signal : Signal) : Action :=
  { ofEffects (fun input => [.emit signal, .settle (.ok input)]) with holdsBus := true }

/-- Does nothing when it begins; only its completion can settle it. -/
def inert : Action := ofEffects fun _ => []

end Action

end Rundown
